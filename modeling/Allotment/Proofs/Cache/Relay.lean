import Allotment.Proofs.Cache.Feed

/-!
# Loading a cache again

A relay is a feed whose cache may also be loaded while it follows a stream (`Relay.play`).  The stream does not
know of this: it goes on from its own position, and the cache only checks that revisions increase.  So if a load
goes back behind what the stream has handed over, the changes in between are handed over to nobody, and what is
published after the next response lacks them (`Relay.exists_astray`).  As long as no load does that, everything
that is published is what the store held at that revision, and a response that is not beyond what the cache shows
ends the stream with a gap (`Relay.shown_of_run`).
-/

namespace Allotment

namespace Chronicle

/-- No key under a scope changes after revision `a` and up to revision `b`. -/
def Rests (log : Chronicle) (scope : String) (a b : Int) : Prop :=
  ∀ e ∈ log.changes, e.key.startsWith scope = true → a < e.revision → b < e.revision

instance (log : Chronicle) (scope : String) (a b : Int) : Decidable (log.Rests scope a b) :=
  inferInstanceAs (Decidable (∀ e ∈ log.changes, e.key.startsWith scope = true → a < e.revision → b < e.revision))

variable {log : Chronicle} {scope : String} {a b : Int} {store : Store}

theorem Rests.of_le (log : Chronicle) (scope : String) (h : b ≤ a) : log.Rests scope a b :=
  fun _ _ _ hlt => Int.lt_of_le_of_lt h hlt

theorem Rests.append (h : log.Rests scope a b) (t : Transaction) (hb : b ≤ store.revision) :
    Rests (log ++ (store.response? t).toList) scope a b := fun e he hscope hlt => by
  rw [changes_append] at he
  rcases List.mem_append.1 he with he | he
  · exact h e he hscope hlt
  · obtain ⟨r, hr, he⟩ := List.mem_flatMap.1 he
    obtain ⟨-, -, rfl⟩ := Store.response?_eq_some_iff.1 (Option.mem_toList.1 hr)
    have hrev : e.revision = store.revision + 1 := (Write.mem_changes he).1
    omega

theorem lt_of_mem_since {r : Response} (h : r ∈ log.since scope a) : a < r.revision := by
  obtain ⟨r', hr', hrestrict⟩ := List.mem_filterMap.1 h
  rw [Response.eq_of_restrict? hrestrict]
  exact of_decide_eq_true (List.mem_filter.1 hr').2

/-- Where a scope has rested, what has happened since the one revision is what has happened since the other,
unless it lies before the former. -/
theorem IsOrdered.since_eq_of_rests (h : log.IsOrdered) (hrests : log.Rests scope a b) {r : Response}
    {rest : List Response} (hs : log.since scope b = r :: rest) (hlt : a < r.revision) :
    log.since scope a = r :: rest := by
  have hlater : ∀ r' ∈ log.since scope b, a < r'.revision := fun r' hr' => by
    rw [hs] at hr'
    rcases List.mem_cons.1 hr' with rfl | hr'
    · exact hlt
    · rw [← (h.next_of_since_eq_cons hs).2.1] at hr'
      exact Int.lt_trans hlt (lt_of_mem_since hr')
  rw [← hs]
  unfold since after
  rw [List.filterMap_filter, List.filterMap_filter]
  refine List.filterMap_congr fun x hx => ?_
  cases hx' : x.restrict? scope with
  | none => simp
  | some x' =>
    have hiff : a < x.revision ↔ b < x.revision := by
      constructor
      · intro hax
        have hsome : ¬ ∀ e ∈ x.changes, ¬ e.key.startsWith scope = true := fun hnone => by
          rw [Response.restrict?_eq_none_iff.2 hnone] at hx'
          exact nomatch hx'
        simp only [not_forall, not_not] at hsome
        obtain ⟨e, he, hscope⟩ := hsome
        have hlogged : e ∈ log.changes := List.mem_flatMap.2 ⟨x, hx, he⟩
        have hstamp := h.stamped x hx e he
        rw [← hstamp] at hax ⊢
        exact hrests e hlogged hscope hax
      · intro hbx
        have hmem : x' ∈ log.since scope b :=
          List.mem_filterMap.2 ⟨x, List.mem_filter.2 ⟨hx, decide_eq_true hbx⟩, hx'⟩
        have hlt' := hlater x' hmem
        rwa [Response.eq_of_restrict? hx'] at hlt'
    simp only [hiff]

end Chronicle

/-- The next response that waits in the stream of a feed. -/
def Feed.next? (f : Feed) : Option Response := do
  let w ← f.hub.watch? (← f.stream)
  w.pending.head?

/-- A feed with the position of its stream. -/
structure Relay where
  feed : Feed
  /-- The revision up to which the stream has handed over what has happened. -/
  position : Int
  /-- The last load has gone back behind something that the stream has handed over, so that what the cache makes
  of the next response lacks it. -/
  astray : Bool

namespace Relay

/-- The relay of a cache that is not loaded and the empty store. -/
def start (l : Layout) : Relay :=
  ⟨Feed.start l, 0, false⟩

/-- The position of the stream after a move. -/
def positionAfter (g : Relay) : Feed.Move → Int
  | .follow => g.feed.cache.revision
  | .deliver => (g.feed.next?.map (·.revision)).getD g.position
  | _ => g.position

/-- The relay after its cache has been loaded.  While the cache works on a draft, this leaves the draft alone. -/
def reload (g : Relay) (c : Cache) : Relay :=
  { g with
    feed := { g.feed with cache := c, published := [c.snapshot] }
    astray := if c.draft.isSome then g.astray else
      g.feed.stream.isSome && !decide (g.feed.log.Rests c.layout.scope c.revision g.position) }

/-- The relay after a move of its feed, if it can be made. -/
def advance (g : Relay) (move : Feed.Move) : Option Relay :=
  (g.feed.play move).map fun f => { g with feed := f, position := g.positionAfter move }

/-- The relay after a move, if it can be made.  The cache may be loaded at any time. -/
def play (g : Relay) : Feed.Move → Option Relay
  | .load revision =>
    match g.feed.cache.load (g.feed.hub.store.read g.feed.cache.layout.scope revision) with
    | .ok c => some (g.reload c)
    | .error _ => none
  | move => g.advance move

/-- The relay after some moves, if all of them can be made. -/
def playAll (g : Relay) (moves : List Feed.Move) : Option Relay :=
  moves.foldlM play g

variable {l : Layout} {g g' : Relay} {f : Feed} {c : Cache} {move : Feed.Move} {moves : List Feed.Move}
  {revision : Int}

theorem play_load_eq_some_iff : g.play (.load revision) = some g' ↔
    ∃ c, g.feed.cache.load (g.feed.hub.store.read g.feed.cache.layout.scope revision) = .ok c ∧
      g' = g.reload c := by
  cases hc : g.feed.cache.load (g.feed.hub.store.read g.feed.cache.layout.scope revision) with
  | error e => simp [play, hc]
  | ok c => simp [play, hc, eq_comm]

/-- All that is not a load is a move of the feed. -/
theorem play_cases (hp : g.play move = some g') :
    (∃ revision c, g.feed.cache.load (g.feed.hub.store.read g.feed.cache.layout.scope revision) = .ok c ∧
      g' = g.reload c) ∨
      ∃ f, g.feed.play move = some f ∧ (∀ revision, move ≠ .load revision) ∧
        g' = { g with feed := f, position := g.positionAfter move } := by
  cases move with
  | load revision => exact .inl ⟨revision, play_load_eq_some_iff.1 hp⟩
  | _ =>
    have hp : g.advance _ = some g' := hp
    obtain ⟨f, hf, rfl⟩ := Option.map_eq_some_iff.1 hp
    exact .inr ⟨f, hf, fun _ he => (nomatch he), rfl⟩

/-! ### What every move preserves -/

/-- What holds of a relay, whenever its cache is loaded. -/
structure Sound (l : Layout) (g : Relay) : Prop where
  reached : g.feed.log.Reached g.feed.hub.store
  numbered : g.feed.hub.IsNumbered
  serves : g.feed.hub.Serves g.feed.log g.feed.stream l.scope g.position
  place : g.position ≤ g.feed.hub.store.revision
  layout : g.feed.cache.layout = l ∧ g.feed.cache.tip.layout = l
  within : 0 ≤ g.feed.cache.revision ∧ g.feed.cache.revision ≤ g.feed.hub.store.revision ∧
    0 ≤ g.feed.cache.tip.revision ∧ g.feed.cache.tip.revision ≤ g.feed.hub.store.revision
  idle : g.feed.stream = none → g.feed.cache.draft = none
  snapshot : g.astray = false → g.feed.log.Attests g.feed.cache.snapshot
  tip : g.astray = false → g.feed.log.Attests g.feed.cache.tip
  /-- The next response is the next that has happened since what the cache shows, unless it lies before. -/
  abreast : g.astray = false → g.feed.stream ≠ none →
    g.feed.log.Rests l.scope g.feed.cache.tip.revision g.position
  shown : g.astray = false → ∀ s ∈ g.feed.published, g.feed.log.Attests s ∧ s.layout = l ∧
    0 ≤ s.revision ∧ s.revision ≤ g.feed.hub.store.revision

namespace Sound

theorem start (l : Layout) : Sound l (start l) where
  reached := .empty
  numbered := Hub.IsNumbered.empty
  serves := .of_none _ _ _ _
  place := Int.le_refl 0
  layout := ⟨rfl, rfl⟩
  within := ⟨Int.le_refl 0, Int.le_refl 0, Int.le_refl 0, Int.le_refl 0⟩
  idle := fun _ => rfl
  snapshot := fun _ => Chronicle.attests_empty Chronicle.Remembers.empty l
  tip := fun _ => Chronicle.attests_empty Chronicle.Remembers.empty l
  abreast := fun _ hs => absurd rfl hs
  shown := fun _ _ hs => nomatch hs

/-- What is done to the store and to other watches. -/
theorem withHub (h : g.Sound l) {hub : Hub} (hreached : g.feed.log.Reached hub.store)
    (hnumbered : hub.IsNumbered) (hrev : hub.store.revision = g.feed.hub.store.revision)
    (hserves : hub.Serves g.feed.log g.feed.stream l.scope g.position) :
    Sound l { g with feed := { g.feed with hub } } where
  reached := hreached
  numbered := hnumbered
  serves := hserves
  place := hrev ▸ h.place
  layout := h.layout
  within := hrev ▸ h.within
  idle := h.idle
  snapshot := h.snapshot
  tip := h.tip
  abreast := h.abreast
  shown := hrev ▸ h.shown

theorem commit (h : g.Sound l) {t : Transaction} {hub : Hub} {reply : Reply}
    (hc : g.feed.hub.commit t = .ok (hub, reply)) :
    Sound l { g with feed := { g.feed with hub, log := g.feed.log ++ (g.feed.hub.store.response? t).toList } } := by
  have hcommit := (Hub.of_commit hc).1
  have hle : g.feed.hub.store.revision ≤ hub.store.revision := by
    rcases Store.revision_of_commit hcommit with hrev | hrev <;> omega
  have hattests : ∀ s, g.feed.log.Attests s → s.revision ≤ g.feed.hub.store.revision →
      Chronicle.Attests (g.feed.log ++ (g.feed.hub.store.response? t).toList) s := fun s hs hlow => by
    cases hr : g.feed.hub.store.response? t with
    | none => simpa using hs
    | some r => exact hs.append hr hlow
  obtain ⟨hlow, hhigh, htlow, hthigh⟩ := h.within
  exact {
    reached := h.reached.commit hcommit
    numbered := h.numbered.commit hc
    serves := h.serves.commit hc h.place
    place := Int.le_trans h.place hle
    layout := h.layout
    within := ⟨hlow, Int.le_trans hhigh hle, htlow, Int.le_trans hthigh hle⟩
    idle := h.idle
    snapshot := fun ha => hattests _ (h.snapshot ha) hhigh
    tip := fun ha => hattests _ (h.tip ha) hthigh
    abreast := fun ha hs => (h.abreast ha hs).append t h.place
    shown := fun ha s hs => by
      obtain ⟨hs, hl, hlow, hhigh⟩ := h.shown ha s hs
      exact ⟨hattests s hs hhigh, hl, hlow, Int.le_trans hhigh hle⟩ }

theorem stop (h : g.Sound l) (fault : Option CacheError) {position : Int}
    (hplace : position ≤ g.feed.hub.store.revision) :
    Sound l { g with feed := g.feed.stop fault, position } := by
  have hhub : (g.feed.stop fault).hub.IsNumbered := by
    unfold Feed.stop
    cases g.feed.stream with
    | none => exact h.numbered
    | some id => exact h.numbered.drop id
  obtain ⟨hlow, hhigh, -, -⟩ := h.within
  exact {
    reached := Feed.store_stop g.feed fault ▸ h.reached
    numbered := hhub
    serves := .of_none _ _ _ _
    place := Feed.store_stop g.feed fault ▸ hplace
    layout := ⟨h.layout.1, h.layout.1⟩
    within := Feed.store_stop g.feed fault ▸ ⟨hlow, hhigh, hlow, hhigh⟩
    idle := fun _ => rfl
    snapshot := h.snapshot
    tip := h.snapshot
    abreast := fun _ hs => absurd rfl hs
    shown := Feed.store_stop g.feed fault ▸ h.shown }

theorem follow (h : g.Sound l) (hs : g.feed.stream = none) {hub : Hub} {id : WatchId}
    (hf : g.feed.cache.from? = .ok revision)
    (hw : g.feed.hub.watch g.feed.cache.layout.scope revision = .ok (hub, id)) :
    Sound l { g with
      feed := { g.feed with hub, stream := some id }, position := g.feed.cache.revision } := by
  obtain ⟨-, rfl⟩ := Cache.from?_eq_ok_iff.1 hf
  have hserves := Hub.Serves.of_watch h.reached.remembers h.numbered hw
  rw [Int.add_sub_cancel, h.layout.1] at hserves
  have hstore := Hub.store_of_watch hw
  have htip : g.feed.cache.tip = g.feed.cache.snapshot := by
    unfold Cache.tip
    rw [h.idle hs]
    rfl
  exact {
    reached := hstore ▸ h.reached
    numbered := h.numbered.watch hw
    serves := hserves
    place := hstore ▸ h.within.2.1
    layout := h.layout
    within := hstore ▸ h.within
    idle := fun hn => nomatch hn
    snapshot := h.snapshot
    tip := h.tip
    abreast := fun _ _ => htip ▸ .of_le _ _ (Int.le_refl _)
    shown := hstore ▸ h.shown }

/-- A response that is applied leads to what the store held at its revision. -/
theorem applied (h : g.Sound l) {id : WatchId} (hs : g.feed.stream = some id) {w : Watch}
    (hw : g.feed.hub.watch? id = some w) {r : Response} {rest : List Response} (hp : w.pending = r :: rest)
    (hplace : r.revision ≤ g.feed.hub.store.revision)
    (hc : g.feed.cache.deliver (.response r) = .ok c) :
    Sound l { g with
      feed := { g.feed with hub := g.feed.hub.leave id rest, cache := c }, position := r.revision } := by
  have hserves := h.serves
  rw [hs] at hserves
  obtain ⟨s, happly, rfl⟩ := Cache.deliver_response_eq_ok_iff.1 hc
  obtain ⟨hlt, entries, -, rfl⟩ := Snapshot.apply_eq_ok_iff.1 happly
  obtain ⟨hlow, hhigh, htlow, -⟩ := h.within
  exact {
    reached := h.reached
    numbered := h.numbered.leave id rest
    serves := hs ▸ hserves.next h.reached.remembers.toIsOrdered hw hp
    place := hplace
    layout := ⟨h.layout.1, h.layout.2⟩
    within := ⟨hlow, hhigh, Int.le_trans htlow (Int.le_of_lt hlt), hplace⟩
    idle := fun hn => nomatch hs.symm.trans hn
    snapshot := h.snapshot
    tip := fun ha => by
      obtain ⟨late, hsince⟩ := hserves.exists_since_eq hw hp
      have hrests := h.abreast ha (by rw [hs]; exact Option.some_ne_none id)
      have hnext := h.reached.remembers.since_eq_of_rests hrests hsince hlt
      rw [← h.layout.2] at hnext
      exact ((h.tip ha).next h.reached.remembers.toIsOrdered hnext happly).1
    abreast := fun _ _ => .of_le _ _ (Int.le_refl _)
    shown := h.shown }

/-- The next response is applied, or ends the stream. -/
theorem deliver (h : g.Sound l) {id : WatchId} (hs : g.feed.stream = some id)
    (hd : g.feed.deliver id = some f) :
    Sound l { g with feed := f, position := g.positionAfter .deliver } := by
  have hserves := h.serves
  rw [hs] at hserves
  obtain ⟨w, hw, hhands⟩ := Feed.hands_of_deliver hd
  have hnext : ∀ {r : Response} {rest : List Response}, w.pending = r :: rest →
      g.positionAfter .deliver = r.revision ∧ r.revision ≤ g.feed.hub.store.revision := fun hp =>
    ⟨by simp [positionAfter, Feed.next?, hs, hw, hp],
      hserves.le_revision_of_pending h.reached.remembers hw (by rw [hp]; exact List.mem_cons_self)⟩
  cases hhands with
  | applied hp hc =>
    obtain ⟨hposition, hplace⟩ := hnext hp
    rw [hposition]
    exact h.applied hs hw hp hplace hc
  | refused hp e =>
    obtain ⟨hposition, hplace⟩ := hnext hp
    exact h.stop _ (hposition ▸ hplace)
  | closed hp =>
    have hposition : g.positionAfter .deliver = g.position := by
      simp [positionAfter, Feed.next?, hs, hw, hp]
    exact h.stop _ (hposition ▸ h.place)

theorem flush (h : g.Sound l) {s : Snapshot} (hd : g.feed.cache.draft = some s) :
    Sound l { g with
      feed := { g.feed with cache := g.feed.cache.flush, published := g.feed.published ++ [s] } } := by
  have htip : g.feed.cache.tip = s := Cache.tip_of_draft hd
  have hsnapshot : g.feed.cache.flush.snapshot = g.feed.cache.tip := g.feed.cache.snapshot_flush
  have hsame : g.feed.cache.flush.tip = g.feed.cache.tip := g.feed.cache.tip_flush
  have hrevision : g.feed.cache.flush.revision = g.feed.cache.tip.revision :=
    congrArg Snapshot.revision hsnapshot
  obtain ⟨-, -, htlow, hthigh⟩ := h.within
  exact {
    reached := h.reached
    numbered := h.numbered
    serves := h.serves
    place := h.place
    layout := ⟨(congrArg Snapshot.layout hsnapshot).trans h.layout.2, hsame ▸ h.layout.2⟩
    within := ⟨hrevision ▸ htlow, hrevision ▸ hthigh, hsame ▸ htlow, hsame ▸ hthigh⟩
    idle := fun _ => g.feed.cache.draft_flush
    snapshot := fun ha => hsnapshot ▸ h.tip ha
    tip := fun ha => hsame ▸ h.tip ha
    abreast := fun ha hs => hsame ▸ h.abreast ha hs
    shown := fun ha s' hs' => by
      rcases List.mem_append.1 hs' with hs' | hs'
      · exact h.shown ha s' hs'
      · obtain rfl := List.mem_singleton.1 hs'
        exact htip ▸ ⟨h.tip ha, h.layout.2, htlow, hthigh⟩ }

/-- What is loaded is what the store held at its revision. -/
theorem of_load (h : g.Sound l)
    (hc : g.feed.cache.load (g.feed.hub.store.read g.feed.cache.layout.scope revision) = .ok c) :
    (g.feed.log.Attests c.snapshot ∧ c.snapshot.layout = l ∧ 0 ≤ c.snapshot.revision ∧
      c.snapshot.revision ≤ g.feed.hub.store.revision) ∧ c.draft = g.feed.cache.draft := by
  obtain ⟨r, s, hr, hs, rfl⟩ := Cache.load_eq_ok_iff.1 hc
  obtain ⟨hattests, hlayout, hwithin⟩ := Chronicle.attests_of_read h.reached.remembers hr hs
  exact ⟨⟨hattests, hlayout.trans h.layout.1, hwithin⟩, rfl⟩

theorem reload (h : g.Sound l)
    (hc : g.feed.cache.load (g.feed.hub.store.read g.feed.cache.layout.scope revision) = .ok c) :
    (g.reload c).Sound l := by
  obtain ⟨⟨hattests, hlayout, hlow, hhigh⟩, hdraft⟩ := h.of_load hc
  obtain ⟨-, -, htlow, hthigh⟩ := h.within
  have hshown : ∀ s ∈ [c.snapshot], g.feed.log.Attests s ∧ s.layout = l ∧ 0 ≤ s.revision ∧
      s.revision ≤ g.feed.hub.store.revision := fun s hs => by
    obtain rfl := List.mem_singleton.1 hs
    exact ⟨hattests, hlayout, hlow, hhigh⟩
  -- the load replaces the tip only if there is no draft, and only then can it lead the relay astray
  cases hd : c.draft with
  | none =>
    have htip : c.tip = c.snapshot := Cache.tip_eq_snapshot hd
    exact {
      reached := h.reached
      numbered := h.numbered
      serves := h.serves
      place := h.place
      layout := ⟨hlayout, htip ▸ hlayout⟩
      within := ⟨hlow, hhigh, htip ▸ hlow, htip ▸ hhigh⟩
      idle := fun _ => hd
      snapshot := fun _ => hattests
      tip := fun _ => htip ▸ hattests
      abreast := fun ha hs => by
        have hstream : g.feed.stream.isSome = true := Option.isSome_iff_ne_none.2 hs
        have ha : (g.reload c).astray = false := ha
        simp only [Relay.reload, hd, Option.isSome_none, Bool.false_eq_true, if_false, hstream,
          Bool.true_and, Bool.not_eq_false', decide_eq_true_eq] at ha
        exact htip ▸ hlayout ▸ ha
      shown := fun _ => hshown }
  | some s =>
    have htip : c.tip = g.feed.cache.tip :=
      (Cache.tip_of_draft hd).trans (Cache.tip_of_draft (hdraft ▸ hd)).symm
    have hastray : (g.reload c).astray = g.astray := by
      simp [Relay.reload, hd]
    exact {
      reached := h.reached
      numbered := h.numbered
      serves := h.serves
      place := h.place
      layout := ⟨hlayout, htip ▸ h.layout.2⟩
      within := ⟨hlow, hhigh, htip ▸ htlow, htip ▸ hthigh⟩
      idle := fun hs => hdraft.trans (h.idle hs)
      snapshot := fun _ => hattests
      tip := fun ha => htip ▸ h.tip (hastray ▸ ha)
      abreast := fun ha hs => htip ▸ h.abreast (hastray ▸ ha) hs
      shown := fun _ => hshown }

/-- Every move keeps a relay sound. -/
theorem play (h : g.Sound l) (hp : g.play move = some g') : g'.Sound l := by
  rcases play_cases hp with ⟨revision, c, hc, rfl⟩ | ⟨f, hf, hmove, rfl⟩
  · exact h.reload hc
  · cases Feed.leads_of_play hf with
    | commit hc => exact h.commit hc
    | compact revision =>
      exact h.withHub (h.reached.compact revision) h.numbered (Store.revision_compact _ _) h.serves
    | setAvailable available => exact h.withHub (h.reached.setAvailable available) h.numbered rfl h.serves
    | closeWatches =>
      exact h.withHub h.reached (h.numbered.mapWatches _) rfl h.serves.closeWatches
    | attach hw =>
      have hstore := Hub.store_of_watch hw
      exact h.withHub (hstore ▸ h.reached) (h.numbered.watch hw) (congrArg Store.revision hstore)
        (h.serves.frame fun _ hid => h.serves.watch?_of_watch h.numbered hw hid)
    | take rest hne =>
      exact h.withHub h.reached (h.numbered.leave _ rest) rfl
        (h.serves.frame fun _ hid => Hub.watch?_leave_of_ne (by rintro rfl; exact hne hid))
    | detach hne =>
      exact h.withHub h.reached (h.numbered.drop _) rfl
        (h.serves.frame fun _ hid => Hub.watch?_drop_of_ne (by rintro rfl; exact hne hid))
    | load => exact absurd rfl (hmove _)
    | follow hs hfrom hw => exact h.follow hs hfrom hw
    | refused e => exact h.stop _ h.within.2.1
    | deliver hs hd => exact h.deliver hs hd
    | flush hd => exact h.flush hd
    | cancel => exact h.stop none h.place

theorem playAll (h : g.Sound l) (hp : g.playAll moves = some g') : g'.Sound l := by
  induction moves generalizing g with
  | nil =>
    obtain rfl := Option.some.inj hp
    exact h
  | cons move moves ih =>
    obtain ⟨m, hm, hp⟩ := Option.bind_eq_some_iff.1 hp
    exact ih (h.play hm) hp

end Sound

/-! ### What a cache publishes -/

theorem contentsAt_of_play (hp : g.play move = some g') :
    (g'.feed.hub.store.revision = g.feed.hub.store.revision ∨
        g'.feed.hub.store.revision = g.feed.hub.store.revision + 1) ∧
      ∀ revision ≤ g.feed.hub.store.revision,
        g'.feed.log.contentsAt revision = g.feed.log.contentsAt revision := by
  rcases play_cases hp with ⟨-, c, -, rfl⟩ | ⟨f, hf, -, rfl⟩
  · exact ⟨.inl rfl, fun _ _ => rfl⟩
  · exact Feed.contentsAt_of_play hf

/-- The snapshot shows what the store held at some moment of the run when it stood at the revision of the
snapshot. -/
def Shows (l : Layout) (moves : List Feed.Move) (s : Snapshot) : Prop :=
  ∃ before later m, moves = before ++ later ∧ (start l).playAll before = some m ∧
    m.feed.hub.store.revision = s.revision ∧
      Snapshot.ofEntries l s.revision (m.feed.hub.store.live.entriesUnder l.scope) = .ok s

theorem shows_of_attests (h : (start l).playAll moves = some g) {s : Snapshot}
    (hs : g.feed.log.Attests s ∧ s.layout = l ∧ 0 ≤ s.revision ∧
      s.revision ≤ g.feed.hub.store.revision) : Shows l moves s := by
  obtain ⟨hattests, rfl, hlow, hhigh⟩ := hs
  have hnow : ∀ {moves m}, (start s.layout).playAll moves = some m →
      m.feed.log.contentsAt m.feed.hub.store.revision = m.feed.hub.store.live := fun hm =>
    ((Sound.start s.layout).playAll hm).reached.explains.contentsAt_revision
  obtain ⟨before, later, m, hmoves, hm, hrev, hlive⟩ :=
    Chronicle.exists_moment (fun g : Relay => g.feed.hub.store) (fun g : Relay => g.feed.log) rfl hnow
      contentsAt_of_play h hlow hhigh
  refine ⟨before, later, m, hmoves, hm, hrev, ?_⟩
  rw [← hlive]
  exact hattests

/-- A response that is not beyond what the cache shows ends the stream, and nothing is published. -/
theorem play_deliver_of_le {r : Response} (hr : g.feed.next? = some r)
    (hle : r.revision ≤ g.feed.cache.tip.revision) :
    ∃ g', g.play .deliver = some g' ∧ g'.feed.stream = none ∧
      g'.feed.cache.failure = some (.gap g.feed.cache.tip.revision r.revision) ∧
      g'.feed.cache.snapshot = g.feed.cache.snapshot ∧ g'.feed.published = g.feed.published := by
  obtain ⟨id, hs, hr⟩ := Option.bind_eq_some_iff.1 hr
  obtain ⟨w, hw, hr⟩ := Option.bind_eq_some_iff.1 hr
  obtain ⟨rest, hp⟩ := List.head?_eq_some_iff.1 hr
  have hrefused : g.feed.cache.deliver (.response r) =
      .error (.gap g.feed.cache.tip.revision r.revision) := by
    have happly : g.feed.cache.tip.apply r = .error (.gap g.feed.cache.tip.revision r.revision) := by
      unfold Snapshot.apply
      rw [if_pos hle]
    unfold Cache.deliver
    exact congrArg (Except.map _) happly
  have hdeliver : g.feed.play .deliver =
      some (g.feed.stop (some (.gap g.feed.cache.tip.revision r.revision))) := by
    simp only [Feed.play, hs, Option.bind_some, Feed.deliver, hw, hp, hrefused]
  refine ⟨{ g with
    feed := g.feed.stop (some (.gap g.feed.cache.tip.revision r.revision))
    position := g.positionAfter .deliver }, ?_, rfl, rfl, rfl, rfl⟩
  show g.advance .deliver = _
  unfold advance
  rw [hdeliver]
  rfl

/-- However commits, loads and the steps of a stream follow one another: each load publishes what the store held
at its revision.  Unless the last load has gone back behind what the stream has handed over, everything that the
cache has published since shows what the store held at some moment when it stood at the revision of the snapshot.
And if the next response is not beyond what the cache shows, the stream ends with a gap and nothing is
published. -/
theorem shown_of_run (h : (start l).playAll moves = some g) :
    (∀ revision g', g.play (.load revision) = some g' →
        g'.feed.published = [g'.feed.cache.snapshot] ∧ Shows l moves g'.feed.cache.snapshot) ∧
      (g.astray = false → ∀ s ∈ g.feed.published, Shows l moves s) ∧
      ∀ r, g.feed.next? = some r → r.revision ≤ g.feed.cache.tip.revision →
        ∃ g', g.play .deliver = some g' ∧ g'.feed.stream = none ∧
          g'.feed.cache.failure = some (.gap g.feed.cache.tip.revision r.revision) ∧
          g'.feed.cache.snapshot = g.feed.cache.snapshot ∧ g'.feed.published = g.feed.published := by
  have hsound := (Sound.start l).playAll h
  refine ⟨fun revision g' hp => ?_, fun ha s hs => ?_, fun r hr hle => ?_⟩
  · obtain ⟨c, hc, rfl⟩ := play_load_eq_some_iff.1 hp
    exact ⟨rfl, shows_of_attests h (hsound.of_load hc).1⟩
  · exact shows_of_attests h (hsound.shown ha s hs)
  · exact play_deliver_of_le hr hle

/-- A cache follows a stream, is loaded at a later revision than the stream has handed over, and once more. -/
def refreshed : List Feed.Move :=
  [.commit ⟨[], [.put "/r/items/job" (Item.encode 1)]⟩, .load 0, .follow,
    .commit ⟨[], [.put "/x" []]⟩, .load 0,
    .commit ⟨[], [.put "/r/items/more" (Item.encode 1)]⟩, .deliver, .flush,
    .commit ⟨[], [.delete "/r/items/job"]⟩, .load 0]

/-- The stream goes on after the first load and stops after the second. -/
theorem shown_of_refreshed :
    ∃ g, (start ⟨"/r"⟩).playAll (refreshed.take 8) = some g ∧ g.astray = false ∧
      g.feed.published.map (·.revision) = [2, 3] ∧
      (∀ s ∈ g.feed.published, Shows ⟨"/r"⟩ (refreshed.take 8) s) ∧
      ∃ g' g'', (start ⟨"/r"⟩).playAll refreshed = some g' ∧ g'.play .deliver = some g'' ∧
        g''.feed.cache.failure = some (.gap 4 4) ∧ g''.feed.published = g'.feed.published := by
  have hrun : (((start ⟨"/r"⟩).playAll (refreshed.take 8)).any fun g =>
      decide (g.feed.published.map (·.revision) = [2, 3]) && decide (g.astray = false)) = true := by
    decide +kernel
  obtain ⟨g, hg, hfacts⟩ := (Option.any_eq_true _ _).1 hrun
  simp only [Bool.and_eq_true, decide_eq_true_eq] at hfacts
  have hlast : (((start ⟨"/r"⟩).playAll refreshed).any fun g =>
      (g.feed.next?.map (·.revision)) == some 4 && g.feed.cache.tip.revision == 4) = true := by
    decide +kernel
  obtain ⟨g', hg', hgap⟩ := (Option.any_eq_true _ _).1 hlast
  simp only [Bool.and_eq_true, beq_iff_eq] at hgap
  obtain ⟨r, hr, hrev⟩ := Option.map_eq_some_iff.1 hgap.1
  obtain ⟨g'', hp, -, hfailure, -, hpublished⟩ :=
    (shown_of_run hg').2.2 r hr (Int.le_of_eq (hrev.trans hgap.2.symm))
  rw [hrev, hgap.2] at hfailure
  exact ⟨g, hg, hfacts.2, hfacts.1, (shown_of_run hg).2.1 hfacts.2, g', g'', hg', hp, hfailure, hpublished⟩

/-- A cache follows a stream and is loaded at a revision that the stream has passed. -/
def setBack : List Feed.Move :=
  [.commit ⟨[], [.put "/r/items/job" (Item.encode 1)]⟩,
    .commit ⟨[], [.put "/r/items/lost" (Item.encode 1)]⟩, .load 0, .follow, .load 1,
    .commit ⟨[], [.put "/r/items/more" (Item.encode 1)]⟩, .deliver, .flush]

/-- The store holds three items.  The cache has not failed, and it has published a snapshot of two of them for the
same revision. -/
theorem exists_astray :
    ∃ g s, (start ⟨"/r"⟩).playAll setBack = some g ∧ s ∈ g.feed.published ∧
      s.revision = g.feed.hub.store.revision ∧ g.feed.cache.failure = none ∧
      (g.feed.hub.store.live.entriesUnder (Layout.mk "/r").scope).length = 3 ∧ s.size = 2 ∧
      Snapshot.ofEntries ⟨"/r"⟩ s.revision (g.feed.hub.store.live.entriesUnder (Layout.mk "/r").scope) ≠
        .ok s := by
  have hrun : (((start ⟨"/r"⟩).playAll setBack).any fun g =>
      let es := g.feed.hub.store.live.entriesUnder (Layout.mk "/r").scope
      g.feed.cache.failure.isNone && decide (es.length = 3) && g.feed.published.any fun s =>
        decide (s.revision = g.feed.hub.store.revision) && decide (s.size = 2) &&
          ((Snapshot.ofEntries ⟨"/r"⟩ s.revision es).toOption.all fun t => decide (t.size = 3))) = true := by
    decide +kernel
  obtain ⟨g, hg, hfacts⟩ := (Option.any_eq_true _ _).1 hrun
  simp only [Bool.and_eq_true, decide_eq_true_eq, Option.isNone_iff_eq_none, List.any_eq_true] at hfacts
  obtain ⟨⟨hfailure, hlength⟩, s, hs, ⟨hrevision, hsize⟩, hshould⟩ := hfacts
  refine ⟨g, s, hg, hs, hrevision, hfailure, hlength, hsize, fun hshows => ?_⟩
  rw [hshows] at hshould
  have hthree : s.size = 3 := of_decide_eq_true hshould
  omega

end Relay

end Allotment
