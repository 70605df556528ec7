import Allotment.Cache.Observer
import Allotment.Proofs.Cache.Tracks

/-!
# Observers

What an observer does when its task runs.  The task takes everything that waits in its watch and publishes
once (`Cache.Tracks.follow`), unless the watch has been closed or something in it cannot be read
(`Cache.Tracks.fault_eq_none`).  So the cache tracks its store whatever happens (`Observer.Sound.run`).  An
observer that is ready runs without fault as long as all that happens can be read
(`Observer.Sound.isRunning`), and has then caught up with a store that only changes in its scope
(`Observer.Sound.revision_run`).
-/

namespace Allotment

/-- Every change of a chronicle concerns the scope. -/
def Chronicle.Inside (log : Chronicle) (scope : String) : Prop :=
  ∀ e ∈ log.changes, e.key.startsWith scope = true

/-- A store that only changes in a scope makes every revision there. -/
theorem Chronicle.Remembers.touched_of_lt {log : Chronicle} {store : Store} {scope : String}
    {revision : Int} (h : log.Remembers store) (hinside : log.Inside scope) (hlow : 0 ≤ revision)
    (hlt : revision < store.revision) : log.Touched scope revision := by
  obtain ⟨r, hr, hrevision⟩ := h.complete store.revision (by omega) (Int.le_refl _)
  obtain ⟨e, he⟩ := List.exists_mem_of_ne_nil _ (h.nonempty r hr)
  have hmem : e ∈ log.changes := List.mem_flatMap.2 ⟨r, hr, he⟩
  refine ⟨e, hmem, hinside e hmem, ?_⟩
  rwa [h.stamped r hr e he, hrevision]

namespace Cache

theorem follow_of_deliver_eq_error {c : Cache} {d : Delivery} {rest : List Signal} {e : CacheError}
    (hd : c.deliver d = .error e) :
    c.follow (.handed d :: rest) = ⟨c.stop (some e), some e, [c.revision]⟩ := by
  simp only [follow, hd]

theorem follow_of_deliver_eq_ok {c next : Cache} {d : Delivery} {rest : List Signal}
    (hd : c.deliver d = .ok next) :
    c.follow (.handed d :: rest) =
      { next.follow rest with handedAt := c.revision :: (next.follow rest).handedAt } := by
  simp only [follow, hd]

theorem failure_flush (c : Cache) : c.flush.failure = c.failure := by
  unfold flush
  cases c.draft with
  | none => rfl
  | some s => rfl

/-- A stream that is followed without fault leaves an earlier failure as it is. -/
theorem failure_follow {c : Cache} {signals : List Signal} (hf : (c.follow signals).fault = none) :
    (c.follow signals).cache.failure = c.failure := by
  induction signals generalizing c with
  | nil => rfl
  | cons signal rest ih =>
    cases signal with
    | pause => exact (ih hf).trans c.failure_flush
    | handed d =>
      cases hd : c.deliver d with
      | error e =>
        rw [follow_of_deliver_eq_error hd] at hf
        exact nomatch hf
      | ok next =>
        rw [follow_of_deliver_eq_ok hd] at hf ⊢
        refine (ih hf).trans ?_
        cases d with
        | response r =>
          obtain ⟨s, -, rfl⟩ := deliver_response_eq_ok_iff.1 hd
          rfl
        | failure e => exact nomatch hd

/-- What following the stream `w` to its end leads to. -/
structure Followed.Leads (log : Chronicle) (h : Hub) (c : Cache) (id : WatchId) (w : Watch)
    (f : Followed) : Prop where
  layout : f.cache.layout = c.layout
  draft : f.cache.draft = none
  ok : f.fault = none → w.closed = false ∧ f.cache.Tracks log (h.take id) (some id)
  failed : f.fault ≠ none → f.cache.Tracks log h none ∧ (w.closed = true ∨
    ∃ e ∈ log.changes, c.tip.revision < e.revision ∧ ¬ e.IsReadable c.layout)

namespace Tracks

variable {log : Chronicle} {h : Hub} {c c' : Cache} {id : WatchId} {w : Watch}

theorem layout_flush {stream : Option WatchId} (hc : c.Tracks log h stream) :
    c.flush.layout = c.layout :=
  (congrArg Snapshot.layout c.snapshot_flush).trans hc.layout

/-- What waits in the stream comes next after what the cache has applied. -/
theorem next_of_pending (hc : c.Tracks log h (some id)) (hlog : log.Remembers h.store)
    (hw : h.watch? id = some w) {r : Response} {rest : List Response} (hp : w.pending = r :: rest) :
    c.tip.revision < r.revision ∧ ∀ e ∈ r.changes, e.revision = r.revision ∧ e ∈ log.changes := by
  obtain ⟨late, hsince⟩ := hc.serves.exists_since_eq hw hp
  obtain ⟨hlt, -, ⟨r', hr', -, hsub⟩, hstamped, -⟩ := hlog.toIsOrdered.next_of_since_eq_cons hsince
  exact ⟨hlt, fun e he => ⟨(hstamped e he).1, List.mem_flatMap.2 ⟨r', hr', hsub e he⟩⟩⟩

/-- The next response is refused only if it cannot be read. -/
theorem exists_unreadable_of_deliver (hc : c.Tracks log h (some id)) (hlog : log.Remembers h.store)
    (hw : h.watch? id = some w) {r : Response} {rest : List Response} (hp : w.pending = r :: rest)
    {e : CacheError} (hd : c.deliver (.response r) = .error e) :
    ∃ change ∈ log.changes, c.tip.revision < change.revision ∧ ¬ change.IsReadable c.layout := by
  obtain ⟨hlt, hchanges⟩ := hc.next_of_pending hlog hw hp
  cases hs : c.tip.apply r with
  | ok s =>
    rw [deliver_response_eq_ok_iff.2 ⟨s, hs, rfl⟩] at hd
    exact nomatch hd
  | error fault =>
    obtain ⟨-, change, hmem, hread⟩ :=
      Snapshot.eq_decode_of_apply hlt (fun e he => (hchanges e he).1) hs
    obtain ⟨hrevision, hlogged⟩ := hchanges change hmem
    exact ⟨change, hlogged, hrevision ▸ hlt, hc.layout ▸ hread⟩

/-- A stream is followed to its end unless it is closed or something in it cannot be read. -/
theorem follow (hc : c.Tracks log h (some id)) (hlog : log.Remembers h.store)
    (hw : h.watch? id = some w) : (c.follow (Observer.signals w)).Leads log h c id w := by
  obtain ⟨scope, pending, closed⟩ := w
  induction pending generalizing c h with
  | nil =>
    cases closed with
    | true => exact ⟨rfl, rfl, fun hf => (nomatch hf), fun _ => ⟨hc.stop _, .inl rfl⟩⟩
    | false =>
      refine ⟨hc.layout_flush, c.draft_flush, fun _ => ⟨rfl, hc.flush.frame rfl fun id' hid => ?_⟩,
        fun hf => absurd rfl hf⟩
      obtain rfl := Option.some.inj hid
      rw [Hub.take_eq_leave, Hub.watch?_leave_self hw, hw]
  | cons r rest ih =>
    have hle := hc.serves.le_revision_of_pending hlog hw (r := r) (by simp)
    have hsignals : Observer.signals ⟨scope, r :: rest, closed⟩ =
        .handed (.response r) :: Observer.signals ⟨scope, rest, closed⟩ := rfl
    rw [hsignals]
    cases hd : c.deliver (.response r) with
    | error e =>
      rw [follow_of_deliver_eq_error hd]
      refine ⟨rfl, rfl, fun hf => (nomatch hf), fun _ => ⟨hc.stop _, .inr ?_⟩⟩
      exact hc.exists_unreadable_of_deliver hlog hw rfl hd
    | ok next =>
      obtain ⟨hnext, -, hsnapshot⟩ := hc.deliver hlog.toIsOrdered hw rfl hle hd
      obtain ⟨hlt, -⟩ := hc.next_of_pending hlog hw rfl
      have hlayout : next.layout = c.layout := congrArg Snapshot.layout hsnapshot
      have htip : next.tip.revision = r.revision := by
        obtain ⟨s, hs, rfl⟩ := deliver_response_eq_ok_iff.1 hd
        obtain ⟨-, entries, -, rfl⟩ := Snapshot.apply_eq_ok_iff.1 hs
        rfl
      have hrest := ih hnext hlog (Hub.watch?_leave_self hw rest)
      rw [follow_of_deliver_eq_ok hd]
      refine ⟨hrest.layout.trans hlayout, hrest.draft, fun hf => ?_, fun hf => ?_⟩
      · obtain ⟨hopen, htracks⟩ := hrest.ok hf
        rw [Hub.take_eq_leave, Hub.leave_leave] at htracks
        exact ⟨hopen, htracks⟩
      · obtain ⟨htracks, hwhy⟩ := hrest.failed hf
        refine ⟨htracks.frame rfl fun _ hid => (nomatch hid), hwhy.imp_right ?_⟩
        rintro ⟨e, he, hrevision, hread⟩
        rw [htip] at hrevision
        exact ⟨e, he, Int.lt_trans hlt hrevision, hlayout ▸ hread⟩

/-- An open stream in which everything can be read is followed without fault. -/
theorem fault_eq_none (hc : c.Tracks log h (some id)) (hlog : log.Remembers h.store)
    (hw : h.watch? id = some w) (hopen : w.closed = false)
    (hread : ∀ e ∈ log.changes, c.tip.revision < e.revision → e.IsReadable c.layout) :
    (c.follow (Observer.signals w)).fault = none := by
  refine Decidable.byContradiction fun hf => ?_
  obtain ⟨-, hclosed | ⟨e, he, hlt, hno⟩⟩ := (hc.follow hlog hw).failed hf
  · rw [hopen] at hclosed
    exact nomatch hclosed
  · exact hno (hread e he hlt)

/-- Once everything has been taken from an open stream, nothing in its scope is ahead of the cache. -/
theorem not_touched (hc : c.Tracks log h (some id)) (hlog : log.IsOrdered) (hw : h.watch? id = some w)
    (hopen : w.closed = false) (hp : w.pending = []) (hd : c.draft = none) :
    ¬ log.Touched c.layout.scope c.revision :=
  hlog.since_eq_nil_iff.1 (hc.since_eq_nil hw hopen hp hd)

end Tracks

end Cache

/-! ### The task -/

namespace Observer

/-- The watch that the task follows. -/
def stream (o : Observer) : Option WatchId :=
  match o.follower with
  | .following id _ => some id
  | _ => none

/-- The cache tracks the store, and has published all that it has been handed. -/
structure Sound (l : Layout) (log : Chronicle) (o : Observer) (h : Hub) : Prop where
  tracks : o.cache.Tracks log h o.stream
  layout : o.cache.layout = l
  draft : o.cache.draft = none

/-- The task follows an open watch and has not been told to end. -/
def IsFollowing (o : Observer) (h : Hub) : Prop :=
  ∃ id w, o.follower = .following id false ∧ h.watch? id = some w ∧ w.closed = false

/-- The task can follow the store when it runs. -/
def IsReady (o : Observer) (h : Hub) : Prop :=
  (o.follower = .starting false ∧ o.cache.loaded = true) ∨ o.IsFollowing h

/-- The task follows the store when it is let run. -/
def IsRunning (o : Observer) (h : Hub) : Prop :=
  (o.run h).1.IsFollowing (o.run h).2

theorem isFollowing_iff {o : Observer} {h : Hub} : o.IsFollowing h ↔
    (match o.follower with
      | .following id false => (h.watch? id).any fun w => !w.closed
      | _ => false) = true := by
  unfold IsFollowing
  split
  next id hf =>
    rw [hf, Option.any_eq_true]
    simp
  next hne =>
    simp only [Bool.false_eq_true, iff_false]
    rintro ⟨id, w, hf, -⟩
    exact hne id hf

theorem not_isFollowing_ended {c : Cache} {fault : Option CacheError} {h : Hub} :
    ¬ IsFollowing ⟨c, .ended fault⟩ h := by
  rintro ⟨id, w, hf, -⟩
  exact nomatch hf

instance (o : Observer) (h : Hub) : Decidable (o.IsFollowing h) :=
  decidable_of_iff' _ isFollowing_iff

instance (o : Observer) (h : Hub) : Decidable (o.IsRunning h) :=
  inferInstanceAs (Decidable ((o.run h).1.IsFollowing (o.run h).2))

namespace Sound

variable {l : Layout} {log : Chronicle} {o : Observer} {h : Hub} {id : WatchId} {cancelled : Bool}

theorem tip_eq (hs : o.Sound l log h) : o.cache.tip = o.cache.snapshot :=
  Cache.tip_eq_snapshot hs.draft

theorem advance (hc : o.cache.Tracks log h (some id)) (hl : o.cache.layout = l)
    (hlog : log.Remembers h.store) (hn : h.IsNumbered) :
    (o.advance h id cancelled).1.Sound l log (o.advance h id cancelled).2 ∧
      (o.advance h id cancelled).2.store = h.store ∧ (o.advance h id cancelled).2.IsNumbered := by
  obtain ⟨w, hw, -⟩ := hc.follows id rfl
  unfold Observer.advance
  split
  next =>
    exact ⟨⟨(hc.stop none).frame rfl fun _ hid => (nomatch hid), hl, rfl⟩, rfl, hn.drop id⟩
  next =>
    have hleads := hc.follow hlog hw
    rw [hw]
    dsimp only
    split
    next e hf =>
      have hne : (o.cache.follow (signals w)).fault ≠ none := by
        rw [hf]
        exact Option.some_ne_none e
      exact ⟨⟨(hleads.failed hne).1.frame rfl fun _ hid => (nomatch hid), hleads.layout.trans hl,
        hleads.draft⟩, rfl, hn.drop id⟩
    next hf =>
      exact ⟨⟨(hleads.ok hf).2, hleads.layout.trans hl, hleads.draft⟩, rfl, hn.leave id []⟩

/-- Whatever the task does, the cache tracks the store. -/
theorem run (hs : o.Sound l log h) (hlog : log.Remembers h.store) (hn : h.IsNumbered) :
    (o.run h).1.Sound l log (o.run h).2 ∧ (o.run h).2.store = h.store ∧ (o.run h).2.IsNumbered := by
  have htracks := hs.tracks
  unfold Observer.run
  unfold stream at htracks
  split
  next cancelled hf =>
    rw [hf] at htracks
    split
    next => exact ⟨⟨htracks, hs.layout, hs.draft⟩, rfl, hn⟩
    next revision hfrom =>
      obtain ⟨-, rfl⟩ := Cache.from?_eq_ok_iff.1 hfrom
      split
      next => exact ⟨⟨htracks.stop _, hs.layout, rfl⟩, rfl, hn⟩
      next h' id hw =>
        have hstore := Hub.store_of_watch hw
        rw [← hstore] at hlog ⊢
        exact advance (htracks.watch (hstore ▸ hlog) hn hw) hs.layout hlog (hn.watch hw)
  next id cancelled hf =>
    rw [hf] at htracks
    exact advance htracks hs.layout hlog hn
  next => exact ⟨hs, rfl, hn⟩

/-! ### Running without fault -/

theorem isFollowing_advance (hc : o.cache.Tracks log h (some id)) (hlog : log.Remembers h.store)
    {w : Watch} (hw : h.watch? id = some w) (hopen : w.closed = false)
    (hread : ∀ e ∈ log.changes, o.cache.tip.revision < e.revision → e.IsReadable o.cache.layout) :
    (o.advance h id false).1.IsFollowing (o.advance h id false).2 := by
  have hf := hc.fault_eq_none hlog hw hopen hread
  unfold Observer.advance
  rw [if_neg Bool.false_ne_true, hw]
  dsimp only
  rw [hf]
  exact ⟨id, _, rfl, Hub.watch?_leave_self hw [], hopen⟩

/-- A task that is ready follows the store if all that has happened can be read. -/
theorem isRunning (hs : o.Sound l log h) (hready : o.IsReady h) (hlog : log.Remembers h.store)
    (hn : h.IsNumbered) (havailable : h.store.available = true)
    (hcompacted : h.store.compacted ≤ o.cache.revision)
    (hread : ∀ e ∈ log.changes, o.cache.revision < e.revision → e.IsReadable l) : o.IsRunning h := by
  have htracks := hs.tracks
  have htip : ∀ e ∈ log.changes, o.cache.tip.revision < e.revision → e.IsReadable o.cache.layout := by
    rw [hs.tip_eq, hs.layout]
    exact hread
  unfold stream at htracks
  unfold IsRunning Observer.run
  rcases hready with ⟨hf, hloaded⟩ | ⟨id, w, hf, hw, hopen⟩
  · rw [hf] at htracks ⊢
    have hfrom : o.cache.from? = .ok (o.cache.revision + 1) := by
      unfold Cache.from?
      rw [if_pos hloaded]
    obtain ⟨⟨h', id⟩, hwatch⟩ : ∃ answer, h.watch o.cache.layout.scope (o.cache.revision + 1) =
        .ok answer := ⟨_, Hub.watch_eq_ok_iff.2 ⟨havailable, by omega, rfl, rfl⟩⟩
    simp only [hfrom, hwatch]
    obtain ⟨w, hw, -, hopen, -⟩ := Hub.follows_of_watch hlog hn hwatch
    have hstore := Hub.store_of_watch hwatch
    exact isFollowing_advance (htracks.watch hlog hn hwatch) (hstore ▸ hlog) hw hopen htip
  · rw [hf] at htracks ⊢
    exact isFollowing_advance htracks hlog hw hopen htip

theorem failure_advance (hf : (o.advance h id cancelled).1.IsFollowing (o.advance h id cancelled).2) :
    (o.advance h id cancelled).1.cache.failure = o.cache.failure := by
  unfold Observer.advance at hf ⊢
  split at hf
  next => exact absurd hf not_isFollowing_ended
  next hcancelled =>
    rw [if_neg hcancelled]
    cases hw : h.watch? id with
    | none => rfl
    | some w =>
      rw [hw] at hf
      dsimp only at hf ⊢
      cases hfault : (o.cache.follow (signals w)).fault with
      | none => exact Cache.failure_follow hfault
      | some e =>
        rw [hfault] at hf
        exact absurd hf not_isFollowing_ended

/-- A task that follows the store when it is let run follows a watch that it has just opened, or the one
that it has. -/
theorem exists_run_eq_advance (hrun : o.IsRunning h) : ∃ h' id cancelled,
    o.run h = o.advance h' id cancelled ∧
      (o.follower = .starting cancelled ∧ o.cache.loaded = true ∧
          h.watch o.cache.layout.scope (o.cache.revision + 1) = .ok (h', id) ∨
        o.follower = .following id cancelled ∧ h' = h) := by
  unfold IsRunning Observer.run at hrun
  unfold Observer.run
  split at hrun
  next cancelled hf =>
    split at hrun
    next => exact absurd hrun not_isFollowing_ended
    next revision hfrom =>
      obtain ⟨hloaded, rfl⟩ := Cache.from?_eq_ok_iff.1 hfrom
      split at hrun
      next => exact absurd hrun not_isFollowing_ended
      next h' id hwatch => exact ⟨h', id, cancelled, rfl, .inl ⟨hf, hloaded, hwatch⟩⟩
  next id cancelled hf => exact ⟨h, id, cancelled, rfl, .inr ⟨hf, rfl⟩⟩
  next hstarting hfollowing =>
    obtain ⟨id, w, hfollower, -⟩ := hrun
    exact absurd hfollower (hfollowing id false)

/-- A task that follows the store when it is let run does not fail. -/
theorem failure_run (hrun : o.IsRunning h) : (o.run h).1.cache.failure = o.cache.failure := by
  obtain ⟨h', id, cancelled, heq, -⟩ := exists_run_eq_advance hrun
  unfold IsRunning at hrun
  rw [heq] at hrun ⊢
  exact failure_advance hrun

theorem of_isFollowing_advance (hw : h.watch? id ≠ none)
    (hf : (o.advance h id cancelled).1.IsFollowing (o.advance h id cancelled).2) :
    cancelled = false ∧ ∃ w, h.watch? id = some w ∧ (o.cache.follow (signals w)).fault = none ∧
      (o.advance h id cancelled).1.follower = .following id false ∧
        (o.advance h id cancelled).2 = h.take id := by
  unfold Observer.advance at hf ⊢
  cases cancelled with
  | true => exact absurd hf not_isFollowing_ended
  | false =>
    obtain ⟨w, hw⟩ := Option.ne_none_iff_exists'.1 hw
    rw [if_neg Bool.false_ne_true, hw] at hf ⊢
    dsimp only at hf ⊢
    cases hfault : (o.cache.follow (signals w)).fault with
    | none => exact ⟨rfl, w, rfl, hfault, rfl, rfl⟩
    | some e =>
      rw [hfault] at hf
      exact absurd hf not_isFollowing_ended

/-- A task that follows the store when it is let run was ready to, and has taken everything. -/
theorem of_isRunning (hs : o.Sound l log h) (hlog : log.Remembers h.store) (hn : h.IsNumbered)
    (hrun : o.IsRunning h) : o.IsReady h ∧ ∃ (h' : Hub) (id : WatchId) (w : Watch),
      h'.watch? id = some w ∧ w.closed = false ∧ (o.run h).1.follower = .following id false ∧
        (o.run h).2 = h'.take id := by
  have htracks := hs.tracks
  unfold stream at htracks
  obtain ⟨h', id, cancelled, heq, hfrom⟩ := exists_run_eq_advance hrun
  unfold IsRunning at hrun
  rw [heq] at hrun ⊢
  rcases hfrom with ⟨hf, hloaded, hwatch⟩ | ⟨hf, rfl⟩
  · obtain ⟨w, hw, -, hopen, -⟩ := Hub.follows_of_watch hlog hn hwatch
    obtain ⟨rfl, -, -, -, hfollower, htake⟩ :=
      of_isFollowing_advance (by rw [hw]; exact Option.some_ne_none _) hrun
    exact ⟨.inl ⟨hf, hloaded⟩, h', id, w, hw, hopen, hfollower, htake⟩
  · rw [hf] at htracks
    obtain ⟨w, hw, -⟩ := htracks.follows id rfl
    obtain ⟨rfl, w', hw', hfault, hfollower, htake⟩ :=
      of_isFollowing_advance (by rw [hw]; exact Option.some_ne_none _) hrun
    have hopen := ((htracks.follow hlog hw').ok hfault).1
    exact ⟨.inr ⟨id, w', hf, hw', hopen⟩, h', id, w', hw', hopen, hfollower, htake⟩

/-- A task that has run without fault has seen all that has happened in its scope. -/
theorem not_touched_run (hs : o.Sound l log h) (hlog : log.Remembers h.store) (hn : h.IsNumbered)
    (hrun : o.IsRunning h) : ¬ log.Touched l.scope (o.run h).1.cache.revision := by
  obtain ⟨hsound, -, -⟩ := hs.run hlog hn
  obtain ⟨-, h', id, w, hw, hopen, hf, htake⟩ := hs.of_isRunning hlog hn hrun
  have htracks := hsound.tracks
  have hstream : (o.run h).1.stream = some id := by
    unfold stream
    rw [hf]
  rw [hstream] at htracks
  have hw' : (o.run h).2.watch? id = some { w with pending := [] } := by
    rw [htake]
    exact Hub.watch?_leave_self hw []
  have hquiet := htracks.not_touched hlog.toIsOrdered hw' hopen rfl hsound.draft
  rwa [hsound.layout] at hquiet

/-- A task that has run without fault has caught up with a store that only changes in its scope. -/
theorem revision_run (hs : o.Sound l log h) (hlog : log.Remembers h.store) (hn : h.IsNumbered)
    (hinside : log.Inside l.scope) (hrun : o.IsRunning h) :
    (o.run h).1.cache.revision = h.store.revision := by
  obtain ⟨hsound, hstore, -⟩ := hs.run hlog hn
  have hwithin := hsound.tracks.within
  rw [hstore] at hwithin
  refine Int.le_antisymm (by omega) (Int.not_lt.1 fun hlt => hs.not_touched_run hlog hn hrun ?_)
  exact hlog.touched_of_lt hinside hwithin.1 hlt

end Sound

end Observer

end Allotment
