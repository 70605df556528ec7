import Allotment.Proofs.Cache.Observer
import Allotment.Proofs.Store.Requests

/-!
# Watched stores

A store that anybody may write to, wherever they like, and an observer whose cache tracks it (`Watched`).
Every request keeps it so (`Watched.steps`).  A wait that the observer makes ends with the snapshot that the
cache has published (`Watched.attempt`).  While its task is alive, the wait for a revision ends as soon as
something has changed in the keyspace at that revision or later: with a snapshot, or because the task has
failed (`Watched.exists_outcome`).  A task that follows the store does not move as long as nothing changes in
the keyspace, whatever happens elsewhere (`Watched.attempt_eq_none`).
-/

namespace Allotment

theorem Chronicle.Inside.append {log later : Chronicle} {scope : String} (h : log.Inside scope)
    (hlater : later.Inside scope) : Inside (log ++ later) scope := by
  intro e he
  rw [changes_append] at he
  exact (List.mem_append.1 he).elim (h e) (hlater e)

/-- What a transaction commits lies where it writes. -/
theorem Chronicle.inside_response? {store : Store} {t : Transaction} {scope : String}
    (ht : ∀ w ∈ t.writes, w.key.startsWith scope = true) :
    Inside (store.response? t).toList scope := by
  intro e he
  obtain ⟨r, hr, he⟩ := List.mem_flatMap.1 he
  obtain ⟨-, -, rfl⟩ := Store.response?_eq_some_iff.1 (Option.mem_toList.1 hr)
  obtain ⟨-, w, hw, hk⟩ := Write.mem_changes he
  exact hk ▸ ht w hw

/-! ### Waiting -/

theorem Wait.eq_snapshot_of_ready? {w : Wait} {c : Cache} {s : Snapshot}
    (h : w.ready? c = some (.reached s)) : s = c.snapshot ∧ w.revision ≤ s.revision := by
  unfold ready? at h
  split at h
  next hle =>
    obtain rfl := Outcome.reached.inj (Option.some.inj h)
    exact ⟨rfl, hle⟩
  next =>
    split at h
    next => exact nomatch h
    next =>
      split at h
      · exact nomatch h
      · exact nomatch h

theorem Wait.ready?_eq_none_iff {revision : Int} {c : Cache} :
    (Wait.mk revision false).ready? c = none ↔ c.revision < revision ∧ c.failure = none := by
  unfold ready?
  rw [← Int.not_le]
  by_cases hle : revision ≤ c.revision
  · simp [hle]
  · cases c.failure <;> simp [hle]

namespace Cache

/-- A stream that ends by an error leaves the cache failed. -/
theorem failure_of_follow {c : Cache} {signals : List Signal} {e : CacheError}
    (h : (c.follow signals).fault = some e) : (c.follow signals).cache.failure = some e := by
  induction signals generalizing c with
  | nil => exact nomatch h
  | cons signal rest ih =>
    cases signal with
    | pause => exact ih h
    | handed d =>
      cases hd : c.deliver d with
      | error fault =>
        rw [follow_of_deliver_eq_error hd] at h ⊢
        obtain rfl := Option.some.inj h
        rfl
      | ok next =>
        rw [follow_of_deliver_eq_ok hd] at h ⊢
        exact ih h

end Cache

namespace Observer

/-- The task follows a watch or is about to open one, and nobody has told it to end. -/
def IsAlive (o : Observer) : Prop :=
  (o.follower = .starting false ∧ o.cache.loaded = true) ∨ ∃ id, o.follower = .following id false

namespace Sound

variable {l : Layout} {log : Chronicle} {o : Observer} {h : Hub} {id : WatchId} {cancelled : Bool}

theorem isFollowing_or_failed_advance (hc : o.cache.Tracks log h (some id))
    (hlog : log.Remembers h.store) :
    (o.advance h id false).1.IsFollowing (o.advance h id false).2 ∨
      (o.advance h id false).1.cache.failure ≠ none := by
  obtain ⟨w, hw, -⟩ := hc.follows id rfl
  have hleads := hc.follow hlog hw
  unfold Observer.advance
  rw [if_neg Bool.false_ne_true, hw]
  dsimp only
  cases hf : (o.cache.follow (signals w)).fault with
  | none => exact .inl ⟨id, _, rfl, Hub.watch?_leave_self hw [], (hleads.ok hf).1⟩
  | some e =>
    have hfailure := Cache.failure_of_follow hf
    exact .inr fun hnone => nomatch hnone.symm.trans hfailure

/-- A task that is alive follows the store when it is let run, or fails. -/
theorem isRunning_or_failed (hs : o.Sound l log h) (hlog : log.Remembers h.store) (hn : h.IsNumbered)
    (halive : o.IsAlive) : o.IsRunning h ∨ (o.run h).1.cache.failure ≠ none := by
  have htracks := hs.tracks
  unfold stream at htracks
  unfold IsRunning Observer.run
  rcases halive with ⟨hf, hloaded⟩ | ⟨id, hf⟩
  · rw [hf] at htracks ⊢
    have hfrom : o.cache.from? = .ok (o.cache.revision + 1) := Cache.from?_eq_ok_iff.2 ⟨hloaded, rfl⟩
    cases hwatch : h.watch o.cache.layout.scope (o.cache.revision + 1) with
    | error e =>
      simp only [hfrom, hwatch]
      exact .inr (Option.some_ne_none _)
    | ok opened =>
      simp only [hfrom, hwatch]
      have hstore := Hub.store_of_watch hwatch
      exact isFollowing_or_failed_advance (htracks.watch hlog hn hwatch) (hstore ▸ hlog)
  · rw [hf] at htracks ⊢
    exact isFollowing_or_failed_advance htracks hlog

/-- A task that follows the store stays where it is while nothing changes in its scope. -/
theorem revision_run_of_not_touched (hs : o.Sound l log h) (hlog : log.Remembers h.store)
    (hn : h.IsNumbered) (hrun : o.IsRunning h) (hquiet : ¬ log.Touched l.scope o.cache.revision) :
    (o.run h).1.cache.revision = o.cache.revision := by
  obtain ⟨h', id, cancelled, heq, hfrom⟩ := exists_run_eq_advance hrun
  unfold IsRunning at hrun
  rw [heq] at hrun ⊢
  have hc : o.cache.Tracks log h' (some id) := by
    have htracks := hs.tracks
    unfold stream at htracks
    rcases hfrom with ⟨hf, -, hwatch⟩ | ⟨hf, rfl⟩
    · rw [hf] at htracks
      exact htracks.watch hlog hn hwatch
    · rw [hf] at htracks
      exact htracks
  obtain ⟨w, hw, hscope, late, hlate, -⟩ := hc.follows id rfl
  have hsince : log.since w.scope o.cache.tip.revision = [] := by
    rw [hscope, hs.tip_eq, hs.layout]
    exact hlog.toIsOrdered.since_eq_nil_iff.2 hquiet
  have hpending : w.pending = [] := (List.append_eq_nil_iff.1 (hlate.symm.trans hsince)).1
  obtain ⟨rfl, w', hw', hfault, -⟩ :=
    of_isFollowing_advance (by rw [hw]; exact Option.some_ne_none _) hrun
  obtain rfl : w = w' := Option.some.inj (hw.symm.trans hw')
  -- nothing waits in the stream and it is open, so that the task only pauses
  have hopen := ((hc.follow (h := h') ?_ hw).ok hfault).1
  · have hsignals : signals w = [.pause] := by
      unfold signals
      rw [hpending, hopen]
      rfl
    unfold Observer.advance
    rw [if_neg Bool.false_ne_true, hw]
    dsimp only
    rw [hfault]
    show (o.cache.follow (signals w)).cache.revision = _
    rw [hsignals]
    show o.cache.flush.revision = _
    unfold Cache.flush
    rw [hs.draft]
  · rcases hfrom with ⟨-, -, hwatch⟩ | ⟨-, rfl⟩
    · exact Hub.store_of_watch hwatch ▸ hlog
    · exact hlog

end Sound

end Observer

/-! ### Watched stores -/

/-- The store has a chronicle, and the cache of the observer tracks it. -/
structure Watched (l : Layout) (log : Chronicle) (o : Observer) (h : Hub) : Prop where
  reached : log.Reached h.store
  numbered : h.IsNumbered
  sound : o.Sound l log h

namespace Watched

variable {l : Layout} {log : Chronicle} {o : Observer} {h h' : Hub}

theorem remembers (hw : Watched l log o h) : log.Remembers h.store :=
  hw.reached.remembers

theorem empty (l : Layout) : Watched l [] (Observer.empty l) Hub.empty where
  reached := .empty
  numbered := Hub.IsNumbered.empty
  sound := ⟨Cache.Tracks.empty Chronicle.Remembers.empty l, rfl, rfl⟩

/-! ### What happens to the store -/

theorem commit (hw : Watched l log o h) {t : Transaction} {reply : Reply}
    (hc : h.commit t = .ok (h', reply)) : Watched l (log ++ (h.store.response? t).toList) o h' where
  reached := hw.reached.commit (Hub.of_commit hc).1
  numbered := hw.numbered.commit hc
  sound := ⟨hw.sound.tracks.commit hc, hw.sound.layout, hw.sound.draft⟩

/-- What is done to the hub alone, without a commit. -/
theorem frame (hw : Watched l log o h) (hreached : log.Reached h'.store) (hnumbered : h'.IsNumbered)
    (htracks : o.cache.Tracks log h' o.stream) : Watched l log o h' :=
  ⟨hreached, hnumbered, htracks, hw.sound.layout, hw.sound.draft⟩

/-- Others do what they like with watches of their own. -/
theorem others (hw : Watched l log o h) (hstore : h'.store = h.store) (hnumbered : h'.IsNumbered)
    (hown : ∀ id, o.stream = some id → h'.watch? id = h.watch? id) : Watched l log o h' :=
  hw.frame (hstore ▸ hw.reached) hnumbered
    (hw.sound.tracks.frame (congrArg Store.revision hstore) hown)

theorem closeWatches (hw : Watched l log o h) : Watched l log o h.closeWatches :=
  hw.frame hw.reached (hw.numbered.mapWatches _) hw.sound.tracks.closeWatches

theorem compact (hw : Watched l log o h) (revision : Int) : Watched l log o (h.compact revision) :=
  hw.frame (hw.reached.compact revision) hw.numbered
    (hw.sound.tracks.frame (Store.revision_compact _ _) fun _ _ => rfl)

theorem setAvailable (hw : Watched l log o h) (available : Bool) :
    Watched l log o (h.setAvailable available) :=
  hw.frame (hw.reached.setAvailable available) hw.numbered
    (hw.sound.tracks.frame rfl fun _ _ => rfl)

/-- Whatever is asked of the store, its chronicle grows by what is written. -/
theorem steps {scope : String} (hw : Watched l log o h) (hs : Hub.Steps scope h h') :
    ∃ later : Chronicle, Watched l (log ++ later) o h' ∧ later.Inside scope := by
  induction hs with
  | refl => exact ⟨[], (List.append_nil log).symm ▸ hw, fun e he => nomatch he⟩
  | tail _ hstep ih =>
    obtain ⟨later, hw, hlater⟩ := ih
    cases hstep with
    | commit hc ht =>
      exact ⟨_, List.append_assoc log later _ ▸ hw.commit hc,
        hlater.append (Chronicle.inside_response? ht)⟩
    | closeWatches => exact ⟨later, hw.closeWatches, hlater⟩
    | compact revision => exact ⟨later, hw.compact revision, hlater⟩
    | setAvailable available => exact ⟨later, hw.setAvailable available, hlater⟩

/-! ### What the observer does -/

theorem run (hw : Watched l log o h) : Watched l log (o.run h).1 (o.run h).2 := by
  obtain ⟨hsound, hstore, hnumbered⟩ := hw.sound.run hw.remembers hw.numbered
  exact ⟨hstore ▸ hw.reached, hnumbered, hsound⟩

theorem load (hw : Watched l log o h) {o' : Observer} (hidle : o.stream = none) {revision : Int}
    (ho : o.load h revision = .ok o') : Watched l log o' h := by
  unfold Observer.load at ho
  cases hl : o.cache.load (h.store.read o.cache.layout.scope revision) with
  | error e =>
    rw [hl] at ho
    exact nomatch ho
  | ok c =>
    rw [hl] at ho
    obtain rfl := Except.ok.inj ho
    have htracks := hw.sound.tracks
    rw [hidle] at htracks
    obtain ⟨hc, hlayout⟩ := htracks.load hw.remembers hl
    exact ⟨hw.reached, hw.numbered, hidle.symm ▸ hc, hlayout.trans hw.sound.layout, hc.idle rfl⟩

theorem spawn (hw : Watched l log o h) (cancelled : Bool) :
    Watched l log (o.spawn h cancelled).1 (o.spawn h cancelled).2 := by
  have htracks := hw.sound.tracks
  have hidle : o.cache.Tracks log h none :=
    ⟨htracks.published, htracks.drafted, htracks.layout, htracks.within, htracks.ahead,
      fun _ hid => (nomatch hid), fun _ => hw.sound.draft⟩
  unfold Observer.spawn Observer.abandon
  split
  next id _ _ =>
    exact ⟨hw.reached, hw.numbered.drop id, hidle.frame rfl fun _ hid => (nomatch hid),
      hw.sound.layout, hw.sound.draft⟩
  next => exact ⟨hw.reached, hw.numbered, hidle, hw.sound.layout, hw.sound.draft⟩

/-- What a wait reaches is the snapshot that the cache has published. -/
theorem attempt (hw : Watched l log o h) (w : Wait) :
    Watched l log (o.attempt h w).2.1 (o.attempt h w).2.2 ∧
      ∀ s, (o.attempt h w).1 = some (.reached s) →
        s = (o.attempt h w).2.1.cache.snapshot ∧ w.revision ≤ s.revision := by
  unfold Observer.attempt
  cases hready : w.ready? o.cache with
  | some outcome => exact ⟨hw, fun s he => Wait.eq_snapshot_of_ready? (hready.trans he)⟩
  | none => exact ⟨hw.run, fun s he => Wait.eq_snapshot_of_ready? he⟩

/-- While the task is alive, the wait for a revision at which something has changed in the keyspace
ends. -/
theorem exists_outcome (hw : Watched l log o h) (halive : o.IsAlive) {revision : Int}
    (htouched : log.Touched l.scope revision) :
    ∃ outcome, (o.attempt h ⟨revision + 1, false⟩).1 = some outcome := by
  unfold Observer.attempt
  cases hready : (Wait.mk (revision + 1) false).ready? o.cache with
  | some outcome => exact ⟨outcome, rfl⟩
  | none =>
    refine Option.ne_none_iff_exists'.1 fun hnone => ?_
    obtain ⟨hlt, hfailure⟩ := Wait.ready?_eq_none_iff.1 hnone
    rcases hw.sound.isRunning_or_failed hw.remembers hw.numbered halive with hrun | hfailed
    · obtain ⟨e, he, hscope, hlater⟩ := htouched
      exact hw.sound.not_touched_run hw.remembers hw.numbered hrun ⟨e, he, hscope, by omega⟩
    · exact hfailed hfailure

/-- A task that follows the store does not fail to reach it. -/
theorem exists_reached (hw : Watched l log o h) (hrun : o.IsRunning h) (hfailure : o.cache.failure = none)
    {revision : Int} (htouched : log.Touched l.scope revision) :
    ∃ s, (o.attempt h ⟨revision + 1, false⟩).1 = some (.reached s) ∧ revision < s.revision := by
  have hreached : ∀ c : Cache, revision + 1 ≤ c.revision →
      (Wait.mk (revision + 1) false).ready? c = some (.reached c.snapshot) := fun c hle => if_pos hle
  unfold Observer.attempt
  by_cases hle : revision + 1 ≤ o.cache.revision
  · simp only [hreached _ hle]
    exact ⟨_, rfl, hle⟩
  · have hwaits := Wait.ready?_eq_none_iff.2 ⟨Int.not_le.1 hle, hfailure⟩
    have hran : revision + 1 ≤ (o.run h).1.cache.revision := by
      obtain ⟨e, he, hscope, hlater⟩ := htouched
      refine Int.not_lt.1 fun hlt => ?_
      exact hw.sound.not_touched_run hw.remembers hw.numbered hrun ⟨e, he, hscope, by omega⟩
    simp only [hwaits]
    exact ⟨_, hreached _ hran, hran⟩

/-- A task that follows the store waits as long as nothing changes in the keyspace. -/
theorem attempt_eq_none (hw : Watched l log o h) (hrun : o.IsRunning h)
    (hfailure : o.cache.failure = none) (hquiet : ¬ log.Touched l.scope o.cache.revision) :
    (o.attempt h ⟨o.cache.revision + 1, false⟩).1 = none := by
  have hwaits : (Wait.mk (o.cache.revision + 1) false).ready? o.cache = none :=
    Wait.ready?_eq_none_iff.2 ⟨by omega, hfailure⟩
  have hrevision := hw.sound.revision_run_of_not_touched hw.remembers hw.numbered hrun hquiet
  unfold Observer.attempt
  simp only [hwaits]
  exact Wait.ready?_eq_none_iff.2 ⟨by omega, (Observer.Sound.failure_run hrun).trans hfailure⟩

end Watched

end Allotment
