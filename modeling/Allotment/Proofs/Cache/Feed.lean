import Allotment.Proofs.Cache.Tracks
import Allotment.Proofs.Run.Basic
import Mathlib.Data.List.Induction

/-!
# Feeds

A feed is a store with a cache of one of its scopes.  The store is written by anyone, compacted, made
unavailable and watched by others; the cache is loaded, opens a stream, is handed one response of the stream
after another and publishes at any moment what they have led to (`Feed.play`).  Whatever happens, the cache
tracks the store (`Sound.play`): everything that it publishes is what the store held at that revision, it
never goes back, and once it has applied all that its stream has given it, it shows what the store holds
(`Feed.published_of_run`).
-/

namespace Allotment

/-- In a system with a store of which no step alters what its chronicle says of the revisions so far, the
contents right after a revision are those that the store held at some moment of the run. -/
theorem Chronicle.exists_moment {σ α : Type} {play : σ → α → Option σ} (store : σ → Store)
    (log : σ → Chronicle) {s t : σ} {moves : List α} (hs : (store s).revision = 0)
    (hnow : ∀ {moves : List α} {t}, moves.foldlM play s = some t →
      (log t).contentsAt (store t).revision = (store t).live)
    (hplay : ∀ {t t' move}, play t move = some t' →
      ((store t').revision = (store t).revision ∨ (store t').revision = (store t).revision + 1) ∧
        ∀ revision ≤ (store t).revision, (log t').contentsAt revision = (log t).contentsAt revision)
    (h : moves.foldlM play s = some t) {revision : Int} (hlow : 0 ≤ revision)
    (hhigh : revision ≤ (store t).revision) :
    ∃ before later m, moves = before ++ later ∧ before.foldlM play s = some m ∧
      (store m).revision = revision ∧ (log t).contentsAt revision = (store m).live := by
  induction moves using List.reverseRecOn generalizing t with
  | nil =>
    have hlive := hnow h
    obtain rfl := Option.some.inj h
    obtain rfl : revision = 0 := Int.le_antisymm (hs ▸ hhigh) hlow
    exact ⟨[], [], s, rfl, rfl, hs, hs ▸ hlive⟩
  | append_singleton moves move ih =>
    have hlive := hnow h
    have hall := h
    rw [List.foldlM_append] at h
    obtain ⟨m, hm, hp⟩ := Option.bind_eq_some_iff.1 h
    have hp : play m move = some t := (bind_pure (play m move)).symm.trans hp
    obtain ⟨hrev, hcontents⟩ := hplay hp
    by_cases hle : revision ≤ (store m).revision
    · obtain ⟨before, later, m', rfl, hm', hmrev, hmlive⟩ := ih hm hle
      exact ⟨before, later ++ [move], m', by simp, hm', hmrev, (hcontents revision hle).trans hmlive⟩
    · obtain rfl : revision = (store t).revision := by omega
      exact ⟨moves ++ [move], [], t, by simp, hall, rfl, hlive⟩

/-- A store with all that it has committed, a cache of it, and what the cache has published since it was
loaded, oldest first. -/
structure Feed where
  hub : Hub
  log : Chronicle
  cache : Cache
  /-- The watch that the cache follows. -/
  stream : Option WatchId
  published : List Snapshot

namespace Feed

/-- What may happen to a feed. -/
inductive Move where
  | commit (t : Transaction)
  | compact (revision : Int)
  | setAvailable (available : Bool)
  | closeWatches
  /-- Somebody else opens a watch. -/
  | attach (scope : String) (revision : Int)
  /-- Somebody else takes the responses in a watch down to `rest`. -/
  | take (id : WatchId) (rest : List Response)
  /-- Somebody else gives up a watch. -/
  | detach (id : WatchId)
  | load (revision : Int)
  | follow
  /-- The cache is handed the next response, or the end of its stream. -/
  | deliver
  | flush
  | cancel

/-- The feed of a cache that is not loaded and the empty store. -/
def start (l : Layout) : Feed :=
  ⟨Hub.empty, [], Cache.empty l, none, []⟩

/-- The feed after its stream has ended, perhaps by an error. -/
def stop (f : Feed) (fault : Option CacheError) : Feed :=
  { f with
    hub := (f.stream.map f.hub.drop).getD f.hub
    cache := f.cache.stop fault
    stream := none }

/-- The feed after the cache has been handed the next response of its stream. -/
def deliver (f : Feed) (id : WatchId) : Option Feed :=
  match f.hub.watch? id with
  | none => none
  | some w =>
    match w.pending with
    | r :: rest =>
      match f.cache.deliver (.response r) with
      | .ok c => some { f with hub := f.hub.leave id rest, cache := c }
      | .error e => some (f.stop (some e))
    | [] => if w.closed then some (f.stop (some (.store .closed))) else none

/-- The feed after a move, if it can be made.  The cache is not loaded while it follows a stream, and
follows one stream at a time. -/
def play (f : Feed) : Move → Option Feed
  | .commit t =>
    match f.hub.commit t with
    | .ok (hub, _) => some { f with hub, log := f.log ++ (f.hub.store.response? t).toList }
    | .error _ => none
  | .compact revision => some { f with hub := f.hub.compact revision }
  | .setAvailable available => some { f with hub := f.hub.setAvailable available }
  | .closeWatches => some { f with hub := f.hub.closeWatches }
  | .attach scope revision =>
    match f.hub.watch scope revision with
    | .ok (hub, _) => some { f with hub }
    | .error _ => none
  | .take id rest => if f.stream = some id then none else some { f with hub := f.hub.leave id rest }
  | .detach id => if f.stream = some id then none else some { f with hub := f.hub.drop id }
  | .load revision =>
    match f.stream, f.cache.load (f.hub.store.read f.cache.layout.scope revision) with
    | none, .ok c => some { f with cache := c, published := [c.snapshot] }
    | _, _ => none
  | .follow =>
    match f.stream, f.cache.from? with
    | none, .ok revision =>
      match f.hub.watch f.cache.layout.scope revision with
      | .ok (hub, id) => some { f with hub, stream := some id }
      | .error e => some (f.stop (some (.store e)))
    | _, _ => none
  | .deliver => f.stream.bind f.deliver
  | .flush => f.cache.draft.map fun s =>
      { f with cache := f.cache.flush, published := f.published ++ [s] }
  | .cancel => if f.cache.draft.isSome then none else some (f.stop none)

/-- The feed after some moves, if all of them can be made. -/
def playAll (f : Feed) (moves : List Move) : Option Feed :=
  moves.foldlM play f

/-- What a move leads to. -/
inductive Leads (f : Feed) : Move → Feed → Prop
  | commit {t : Transaction} {hub : Hub} {reply : Reply} (hc : f.hub.commit t = .ok (hub, reply)) :
      Leads f (.commit t) { f with hub, log := f.log ++ (f.hub.store.response? t).toList }
  | compact (revision : Int) : Leads f (.compact revision) { f with hub := f.hub.compact revision }
  | setAvailable (available : Bool) :
      Leads f (.setAvailable available) { f with hub := f.hub.setAvailable available }
  | closeWatches : Leads f .closeWatches { f with hub := f.hub.closeWatches }
  | attach {scope : String} {revision : Int} {hub : Hub} {id : WatchId}
      (hw : f.hub.watch scope revision = .ok (hub, id)) : Leads f (.attach scope revision) { f with hub }
  | take {id : WatchId} (rest : List Response) (hne : f.stream ≠ some id) :
      Leads f (.take id rest) { f with hub := f.hub.leave id rest }
  | detach {id : WatchId} (hne : f.stream ≠ some id) :
      Leads f (.detach id) { f with hub := f.hub.drop id }
  | load {revision : Int} {c : Cache} (hs : f.stream = none)
      (hc : f.cache.load (f.hub.store.read f.cache.layout.scope revision) = .ok c) :
      Leads f (.load revision) { f with cache := c, published := [c.snapshot] }
  | follow {revision : Int} {hub : Hub} {id : WatchId} (hs : f.stream = none)
      (hf : f.cache.from? = .ok revision)
      (hw : f.hub.watch f.cache.layout.scope revision = .ok (hub, id)) :
      Leads f .follow { f with hub, stream := some id }
  | refused (e : StoreError) : Leads f .follow (f.stop (some (.store e)))
  | deliver {id : WatchId} {f' : Feed} (hs : f.stream = some id) (hd : f.deliver id = some f') :
      Leads f .deliver f'
  | flush {s : Snapshot} (hs : f.cache.draft = some s) :
      Leads f .flush { f with cache := f.cache.flush, published := f.published ++ [s] }
  | cancel : Leads f .cancel (f.stop none)

theorem leads_of_play {f f' : Feed} {move : Move} (hp : f.play move = some f') : f.Leads move f' := by
  cases move with
  | commit t =>
    simp only [play] at hp
    split at hp
    next hub reply hc =>
      obtain rfl := Option.some.inj hp
      exact .commit hc
    next => exact nomatch hp
  | compact revision =>
    obtain rfl := Option.some.inj hp
    exact .compact revision
  | setAvailable available =>
    obtain rfl := Option.some.inj hp
    exact .setAvailable available
  | closeWatches =>
    obtain rfl := Option.some.inj hp
    exact .closeWatches
  | attach scope revision =>
    simp only [play] at hp
    split at hp
    next hub id hw =>
      obtain rfl := Option.some.inj hp
      exact .attach hw
    next => exact nomatch hp
  | take id rest =>
    simp only [play] at hp
    split at hp
    next => exact nomatch hp
    next hne =>
      obtain rfl := Option.some.inj hp
      exact .take rest hne
  | detach id =>
    simp only [play] at hp
    split at hp
    next => exact nomatch hp
    next hne =>
      obtain rfl := Option.some.inj hp
      exact .detach hne
  | load revision =>
    simp only [play] at hp
    split at hp
    next c hs hc =>
      obtain rfl := Option.some.inj hp
      exact .load hs hc
    next => exact nomatch hp
  | follow =>
    simp only [play] at hp
    split at hp
    next revision hs hf =>
      split at hp
      next hub id hw =>
        obtain rfl := Option.some.inj hp
        exact .follow hs hf hw
      next e _ =>
        obtain rfl := Option.some.inj hp
        exact .refused e
    next => exact nomatch hp
  | deliver =>
    obtain ⟨id, hs, hd⟩ := Option.bind_eq_some_iff.1 hp
    exact .deliver hs hd
  | flush =>
    obtain ⟨s, hs, rfl⟩ := Option.map_eq_some_iff.1 hp
    exact .flush hs
  | cancel =>
    simp only [play] at hp
    split at hp
    next => exact nomatch hp
    next =>
      obtain rfl := Option.some.inj hp
      exact .cancel

/-- What becomes of a feed whose cache is handed what waits in its stream. -/
inductive Hands (f : Feed) (id : WatchId) (w : Watch) : Feed → Prop
  | applied {r : Response} {rest : List Response} {c : Cache} (hp : w.pending = r :: rest)
      (hc : f.cache.deliver (.response r) = .ok c) :
      Hands f id w { f with hub := f.hub.leave id rest, cache := c }
  | refused {r : Response} {rest : List Response} (hp : w.pending = r :: rest) (e : CacheError) :
      Hands f id w (f.stop (some e))
  | closed (hp : w.pending = []) : Hands f id w (f.stop (some (.store .closed)))

theorem hands_of_deliver {f f' : Feed} {id : WatchId} (hd : f.deliver id = some f') :
    ∃ w, f.hub.watch? id = some w ∧ f.Hands id w f' := by
  unfold deliver at hd
  split at hd
  next => exact nomatch hd
  next w hw =>
    refine ⟨w, hw, ?_⟩
    split at hd
    next r rest hp =>
      split at hd
      next c hc =>
        obtain rfl := Option.some.inj hd
        exact .applied hp hc
      next e _ =>
        obtain rfl := Option.some.inj hd
        exact .refused hp e
    next hp =>
      split at hd
      next =>
        obtain rfl := Option.some.inj hd
        exact .closed hp
      next => exact nomatch hd

/-! ### What every move preserves -/

/-- The cache tracks the store, and so does all that it has published. -/
structure Sound (l : Layout) (f : Feed) : Prop where
  reached : f.log.Reached f.hub.store
  numbered : f.hub.IsNumbered
  tracks : f.cache.Tracks f.log f.hub f.stream
  layout : f.cache.layout = l
  shown : ∀ s ∈ f.published, f.log.Attests s ∧ s.layout = l ∧ 0 ≤ s.revision ∧
    s.revision ≤ f.cache.revision
  ascending : f.published.Pairwise fun s s' => s.revision < s'.revision
  latest : ∀ s ∈ f.published.getLast?, s = f.cache.snapshot

namespace Sound

variable {l : Layout} {f f' : Feed}

theorem start (l : Layout) : Sound l (start l) where
  reached := .empty
  numbered := Hub.IsNumbered.empty
  tracks := Cache.Tracks.empty Chronicle.Remembers.empty l
  layout := rfl
  shown := fun _ hs => nomatch hs
  ascending := List.Pairwise.nil
  latest := fun _ hs => nomatch hs

/-- What is done to the hub alone. -/
theorem withHub (h : f.Sound l) {hub : Hub} (hreached : f.log.Reached hub.store)
    (hnumbered : hub.IsNumbered) (htracks : f.cache.Tracks f.log hub f.stream) :
    Sound l { f with hub } :=
  ⟨hreached, hnumbered, htracks, h.layout, h.shown, h.ascending, h.latest⟩

theorem commit (h : f.Sound l) {t : Transaction} {hub : Hub} {reply : Reply}
    (hc : f.hub.commit t = .ok (hub, reply)) :
    Sound l { f with hub, log := f.log ++ (f.hub.store.response? t).toList } where
  reached := h.reached.commit (Hub.of_commit hc).1
  numbered := h.numbered.commit hc
  tracks := h.tracks.commit hc
  layout := h.layout
  shown := fun s hs => by
    obtain ⟨hattests, hl, hlow, hhigh⟩ := h.shown s hs
    refine ⟨?_, hl, hlow, hhigh⟩
    cases hr : f.hub.store.response? t with
    | none => simpa using hattests
    | some r =>
      have hwithin := h.tracks.within
      exact hattests.append hr (by omega)
  ascending := h.ascending
  latest := h.latest

theorem stop (h : f.Sound l) (fault : Option CacheError) : Sound l (f.stop fault) := by
  have hstop := h.tracks.stop fault
  unfold Feed.stop
  cases f.stream with
  | none => exact ⟨h.reached, h.numbered, hstop, h.layout, h.shown, h.ascending, h.latest⟩
  | some id =>
    exact ⟨h.reached, h.numbered.drop id, hstop.frame rfl fun _ hid => (nomatch hid), h.layout,
      h.shown, h.ascending, h.latest⟩

theorem load (h : f.Sound l) (hs : f.stream = none) {revision : Int} {c : Cache}
    (hl : f.cache.load (f.hub.store.read f.cache.layout.scope revision) = .ok c) :
    Sound l { f with cache := c, published := [c.snapshot] } := by
  have htracks := h.tracks
  rw [hs] at htracks
  obtain ⟨htracks, hlayout⟩ := htracks.load h.reached.remembers hl
  refine ⟨h.reached, h.numbered, by rw [hs]; exact htracks, hlayout.trans h.layout, fun s hs' => ?_,
    List.pairwise_singleton _ _, fun s hs' => (Option.some.inj hs').symm⟩
  obtain rfl := List.mem_singleton.1 hs'
  exact ⟨htracks.published, hlayout.trans h.layout, htracks.within.1, Int.le_refl _⟩

theorem follow (h : f.Sound l) (hs : f.stream = none) {revision : Int} {hub : Hub} {id : WatchId}
    (hf : f.cache.from? = .ok revision)
    (hw : f.hub.watch f.cache.layout.scope revision = .ok (hub, id)) :
    Sound l { f with hub, stream := some id } := by
  obtain ⟨-, rfl⟩ := Cache.from?_eq_ok_iff.1 hf
  have htracks := h.tracks
  rw [hs] at htracks
  have hstore := Hub.store_of_watch hw
  exact ⟨hstore ▸ h.reached, h.numbered.watch hw,
    htracks.watch h.reached.remembers h.numbered hw, h.layout, h.shown, h.ascending, h.latest⟩

theorem deliver (h : f.Sound l) {id : WatchId} (hs : f.stream = some id)
    (hd : f.deliver id = some f') : f'.Sound l := by
  have htracks := h.tracks
  rw [hs] at htracks
  obtain ⟨w, hw, hhands⟩ := hands_of_deliver hd
  cases hhands with
  | @applied r rest c hp hc =>
    have hle : r.revision ≤ f.hub.store.revision := htracks.serves.le_revision_of_pending
      h.reached.remembers hw (by rw [hp]; exact List.mem_cons_self)
    obtain ⟨hnew, -, hsnapshot⟩ := htracks.deliver h.reached.remembers.toIsOrdered hw hp hle hc
    have hlayout : c.layout = f.cache.layout := congrArg Snapshot.layout hsnapshot
    have hrevision : c.revision = f.cache.revision := congrArg Snapshot.revision hsnapshot
    refine ⟨h.reached, h.numbered.leave id rest, by rw [hs]; exact hnew, hlayout.trans h.layout,
      fun s hs' => ?_, h.ascending, fun s hs' => (h.latest s hs').trans hsnapshot.symm⟩
    rw [hrevision]
    exact h.shown s hs'
  | refused _ e => exact h.stop (some e)
  | closed => exact h.stop _

theorem flush (h : f.Sound l) {s : Snapshot} (hs : f.cache.draft = some s) :
    Sound l { f with cache := f.cache.flush, published := f.published ++ [s] } := by
  have htracks := h.tracks.flush
  have htip : f.cache.tip = s := Cache.tip_of_draft hs
  have hflush : f.cache.flush.snapshot = s := f.cache.snapshot_flush.trans htip
  have hlt : f.cache.revision < s.revision := by
    rw [← htip]
    exact h.tracks.ahead (by rw [hs]; rfl)
  have hlayout : s.layout = l := by
    rw [← htip, h.tracks.layout]
    exact h.layout
  have hrevision : f.cache.flush.revision = s.revision := congrArg Snapshot.revision hflush
  refine ⟨h.reached, h.numbered, htracks, (congrArg Snapshot.layout hflush).trans hlayout,
    fun s' hs' => ?_, ?_, fun s' hs' => ?_⟩
  · rw [hrevision]
    rcases List.mem_append.1 hs' with hs' | hs'
    · obtain ⟨hattests, hl, hlow, hhigh⟩ := h.shown s' hs'
      exact ⟨hattests, hl, hlow, Int.le_trans hhigh (Int.le_of_lt hlt)⟩
    · obtain rfl := List.mem_singleton.1 hs'
      exact ⟨htip ▸ h.tracks.drafted, hlayout, Int.le_trans h.tracks.within.1 (Int.le_of_lt hlt),
        Int.le_refl _⟩
  · rw [List.pairwise_append]
    refine ⟨h.ascending, List.pairwise_singleton _ _, fun a ha b hb => ?_⟩
    rw [List.mem_singleton.1 hb]
    exact Int.lt_of_le_of_lt (h.shown a ha).2.2.2 hlt
  · rw [List.getLast?_append] at hs'
    exact (Option.some.inj hs').symm.trans hflush.symm

/-- Every move keeps a feed sound. -/
theorem play (h : f.Sound l) {move : Move} (hp : f.play move = some f') : f'.Sound l := by
  cases leads_of_play hp with
  | commit hc => exact h.commit hc
  | compact revision =>
    exact h.withHub (h.reached.compact revision) h.numbered
      (h.tracks.frame (Store.revision_compact _ _) fun _ _ => rfl)
  | setAvailable available =>
    exact h.withHub (h.reached.setAvailable available) h.numbered
      (h.tracks.frame rfl fun _ _ => rfl)
  | closeWatches => exact h.withHub h.reached (h.numbered.mapWatches _) h.tracks.closeWatches
  | attach hw =>
    have hstore := Hub.store_of_watch hw
    refine h.withHub (hstore ▸ h.reached) (h.numbered.watch hw)
      (h.tracks.frame (congrArg Store.revision hstore) fun id hid => ?_)
    exact h.tracks.serves.watch?_of_watch h.numbered hw hid
  | take rest hne =>
    exact h.withHub h.reached (h.numbered.leave _ rest) (h.tracks.frame rfl fun _ hid =>
      Hub.watch?_leave_of_ne fun he => hne (he ▸ hid))
  | detach hne =>
    exact h.withHub h.reached (h.numbered.drop _) (h.tracks.frame rfl fun _ hid =>
      Hub.watch?_drop_of_ne fun he => hne (he ▸ hid))
  | load hs hc => exact h.load hs hc
  | follow hs hf hw => exact h.follow hs hf hw
  | refused e => exact h.stop _
  | deliver hs hd => exact h.deliver hs hd
  | flush hs => exact h.flush hs
  | cancel => exact h.stop none

theorem playAll (h : f.Sound l) {moves : List Move} (hp : f.playAll moves = some f') :
    f'.Sound l := by
  induction moves generalizing f with
  | nil =>
    obtain rfl := Option.some.inj hp
    exact h
  | cons move moves ih =>
    obtain ⟨g, hg, hp⟩ := Option.bind_eq_some_iff.1 hp
    exact ih (h.play hg) hp

end Sound

/-! ### The past of a feed -/

variable {l : Layout} {f f' : Feed} {moves : List Move}

theorem store_stop (f : Feed) (fault : Option CacheError) :
    (f.stop fault).hub.store = f.hub.store := by
  unfold stop
  cases f.stream <;> rfl

theorem store_of_deliver {id : WatchId} (hd : f.deliver id = some f') :
    f'.log = f.log ∧ f'.hub.store = f.hub.store := by
  obtain ⟨w, -, hhands⟩ := hands_of_deliver hd
  cases hhands with
  | applied => exact ⟨rfl, rfl⟩
  | refused | closed => exact ⟨rfl, store_stop f _⟩

/-- Only a commit leads to another revision. -/
theorem store_of_play {move : Move} (hp : f.play move = some f') :
    (f'.log = f.log ∧ f'.hub.store.revision = f.hub.store.revision) ∨
      ∃ t reply, f.hub.store.commit t = .ok (f'.hub.store, reply) ∧
        f'.log = f.log ++ (f.hub.store.response? t).toList := by
  cases leads_of_play hp with
  | commit hc => exact .inr ⟨_, _, (Hub.of_commit hc).1, rfl⟩
  | compact revision => exact .inl ⟨rfl, Store.revision_compact _ _⟩
  | attach hw => exact .inl ⟨rfl, congrArg Store.revision (Hub.store_of_watch hw)⟩
  | follow _ _ hw => exact .inl ⟨rfl, congrArg Store.revision (Hub.store_of_watch hw)⟩
  | refused e => exact .inl ⟨rfl, congrArg Store.revision (store_stop f _)⟩
  | deliver _ hd =>
    obtain ⟨hlog, hstore⟩ := store_of_deliver hd
    exact .inl ⟨hlog, congrArg Store.revision hstore⟩
  | cancel => exact .inl ⟨rfl, congrArg Store.revision (store_stop f _)⟩
  | setAvailable | closeWatches | take | detach | load | flush => exact .inl ⟨rfl, rfl⟩

theorem contentsAt_of_play {move : Move} (hp : f.play move = some f') :
    (f'.hub.store.revision = f.hub.store.revision ∨
        f'.hub.store.revision = f.hub.store.revision + 1) ∧
      ∀ revision ≤ f.hub.store.revision, f'.log.contentsAt revision = f.log.contentsAt revision := by
  rcases store_of_play hp with ⟨hlog, hrev⟩ | ⟨t, reply, hc, hlog⟩
  · exact ⟨.inl hrev, fun revision _ => by rw [hlog]⟩
  · refine ⟨Store.revision_of_commit hc, fun revision hle => ?_⟩
    rw [hlog]
    exact f.log.contentsAt_append_response? t hle

/-- The contents right after a revision are those that the store held at some moment of the run. -/
theorem exists_moment (h : (start l).playAll moves = some f) {revision : Int} (hlow : 0 ≤ revision)
    (hhigh : revision ≤ f.hub.store.revision) :
    ∃ before later g, moves = before ++ later ∧ (start l).playAll before = some g ∧
      g.hub.store.revision = revision ∧ f.log.contentsAt revision = g.hub.store.live :=
  Chronicle.exists_moment (fun f : Feed => f.hub.store) (fun f : Feed => f.log) rfl
    (fun hf => ((Sound.start l).playAll hf).reached.explains.contentsAt_revision) contentsAt_of_play h
    hlow hhigh

/-! ### What a cache publishes -/

/-- Whatever has happened to the store and to its cache: each snapshot that the cache has published since it
was loaded shows what the store held at some moment when it stood at the revision of the snapshot, their
revisions increase, and when everything that an open stream has given the cache is applied and published, the
cache shows what the store holds. -/
theorem published_of_run (h : (start l).playAll moves = some f) :
    (∀ s ∈ f.published, ∃ before later g, moves = before ++ later ∧
        (start l).playAll before = some g ∧ g.hub.store.revision = s.revision ∧
          Snapshot.ofEntries l s.revision (g.hub.store.live.entriesUnder l.scope) = .ok s) ∧
      f.published.Pairwise (fun s s' => s.revision < s'.revision) ∧
      (∀ s ∈ f.published.getLast?, s = f.cache.snapshot) ∧
      ∀ id w, f.stream = some id → f.hub.watch? id = some w → w.closed = false → w.pending = [] →
        f.cache.draft = none →
          Snapshot.ofEntries l f.cache.revision (f.hub.store.live.entriesUnder l.scope) =
            .ok f.cache.snapshot := by
  have hsound := (Sound.start l).playAll h
  refine ⟨fun s hs => ?_, hsound.ascending, hsound.latest, fun id w hid hw hopen hp hd => ?_⟩
  · obtain ⟨hattests, rfl, hlow, hhigh⟩ := hsound.shown s hs
    have hwithin := hsound.tracks.within
    obtain ⟨before, later, g, hmoves, hg, hrev, hlive⟩ := exists_moment h hlow (by omega)
    refine ⟨before, later, g, hmoves, hg, hrev, ?_⟩
    rw [← hlive]
    exact hattests
  · have htracks := hsound.tracks
    rw [hid] at htracks
    have hlive := htracks.live hsound.reached.remembers hw hopen hp hd
    rwa [hsound.layout] at hlive

/-- A cache is loaded and follows, while a key outside its scope is put and then an item is deleted and put
again at once. -/
def revival : List Move :=
  [.commit ⟨[], [.put "/r/items/job" (Item.encode 1)]⟩, .load 0, .follow,
    .commit ⟨[], [.put "/x" []]⟩,
    .commit ⟨[], [.delete "/r/items/job", .put "/r/items/job" (Item.encode 2)]⟩, .deliver, .flush]

theorem published_of_revival :
    ∃ f, (start ⟨"/r"⟩).playAll revival = some f ∧ f.published.map (·.revision) = [1, 3] ∧
      (∀ s ∈ f.published, ∃ before later g, revival = before ++ later ∧
        (start ⟨"/r"⟩).playAll before = some g ∧ g.hub.store.revision = s.revision ∧
          Snapshot.ofEntries ⟨"/r"⟩ s.revision
            (g.hub.store.live.entriesUnder (Layout.mk "/r").scope) = .ok s) ∧
      Snapshot.ofEntries ⟨"/r"⟩ f.cache.revision
        (f.hub.store.live.entriesUnder (Layout.mk "/r").scope) = .ok f.cache.snapshot := by
  have hrun : (((start ⟨"/r"⟩).playAll revival).any fun f =>
      decide (f.published.map (·.revision) = [1, 3]) && decide (f.stream = some 0) &&
        (f.hub.watch? 0).any (fun w => !w.closed && w.pending.isEmpty) && f.cache.draft.isNone) =
      true := by
    decide +kernel
  obtain ⟨f, hf, hfacts⟩ := (Option.any_eq_true _ _).1 hrun
  simp only [Bool.and_eq_true, decide_eq_true_eq, Option.isNone_iff_eq_none] at hfacts
  obtain ⟨⟨⟨hrevisions, hstream⟩, hwatch⟩, hdraft⟩ := hfacts
  obtain ⟨w, hw, hwaits⟩ := (Option.any_eq_true _ _).1 hwatch
  simp only [Bool.and_eq_true, Bool.not_eq_true', List.isEmpty_iff] at hwaits
  obtain ⟨hshown, -, -, hlive⟩ := published_of_run hf
  exact ⟨f, hf, hrevisions, hshown, hlive 0 w hstream hw hwaits.1 hwaits.2 hdraft⟩

end Feed

end Allotment
