import Allotment.Proofs.Store.Streams

/-!
# How early a stream begins

A watch asks for the responses from a revision on.  What the store still remembers is held against that
revision when the watch is opened; what is committed afterwards is not.  Whatever a watch hands over has
waited in it before or has been committed since (`Hub.mem_given`).  So a stream keeps to the revision that it
has asked for exactly if that is at most the next one of the store (`Hub.onset_of_run`).  A watch that asks for
a revision further ahead begins with the very next change in its scope (`Hub.exists_early`).
-/

namespace Allotment

/-- Putting the scope itself is a change in the scope, whatever the store holds. -/
theorem Store.exists_response? (s : Store) (scope : String) :
    ∃ r x, s.response? ⟨[], [.put scope []]⟩ = some r ∧ r.restrict? scope = some x ∧
      x.revision = s.revision + 1 := by
  have hself : scope.startsWith scope = true := String.startsWith_string_iff.2 (List.prefix_refl _)
  have hr : s.response? ⟨[], [.put scope []]⟩ =
      some ⟨s.revision + 1, Write.changes (s.revision + 1) [.put scope []] s.live⟩ := rfl
  cases hx : Response.restrict? scope ⟨_, Write.changes (s.revision + 1) [.put scope []] s.live⟩ with
  | none => exact absurd hself (Response.restrict?_eq_none_iff.1 hx _ List.mem_cons_self)
  | some x => exact ⟨_, x, hr, hx, (Response.restrict?_eq_some_iff.1 hx).1⟩

namespace Hub

variable {h h' : Hub} {id : WatchId} {move : Move} {x : Response}

theorem mem_pending_iff : x ∈ h.pending id ↔ ∃ w, h.watch? id = some w ∧ x ∈ w.pending := by
  unfold pending
  cases h.watch? id <;> simp

/-! ### One move -/

theorem revision_le_play (h : Hub) (move : Move) : h.store.revision ≤ (h.play move).store.revision := by
  rcases revision_play h move with hrev | ⟨-, hrev⟩ <;> omega

/-- Numbers of watches are not given again. -/
theorem next_le_play (h : Hub) (move : Move) : h.next ≤ (h.play move).next := by
  cases move with
  | commit t =>
    rcases play_commit h t with ⟨reply, hc, -⟩ | ⟨hplay, -⟩
    · exact Nat.le_of_eq (of_commit hc).2.1.symm
    · exact Nat.le_of_eq (congrArg Hub.next hplay.symm)
  | watch scope revision =>
    rcases play_watch h scope revision with ⟨id, hw⟩ | hplay
    · obtain ⟨-, -, -, hplay⟩ := watch_eq_ok_iff.1 hw
      rw [hplay]
      exact Nat.le_succ _
    · exact Nat.le_of_eq (congrArg Hub.next hplay.symm)
  | _ => exact Nat.le_refl _

/-- A watch is not altered by the opening of another one. -/
theorem watch?_of_watch_of_lt {scope : String} {revision : Int} {other : WatchId}
    (hw : h.watch scope revision = .ok (h', other)) (hid : id < h.next) : h'.watch? id = h.watch? id := by
  obtain ⟨-, -, -, rfl⟩ := watch_eq_ok_iff.1 hw
  unfold watch?
  rw [List.lookup_append, List.lookup_cons, beq_false_of_ne (Nat.ne_of_lt hid)]
  simp

/-- What a commit adds to a watch has the next revision. -/
theorem lt_of_mem_publish {t : Transaction} {r : Response} {w : Watch} (hr : h.store.response? t = some r)
    (hx : x ∈ (w.publish r).pending) : x ∈ w.pending ∨ h.store.revision < x.revision := by
  unfold Watch.publish at hx
  split at hx
  · exact .inl hx
  · rcases List.mem_append.1 hx with hx | hx
    · exact .inl hx
    · obtain ⟨-, -, rfl⟩ := Store.response?_eq_some_iff.1 hr
      rw [Response.eq_of_restrict? (Option.mem_toList.1 hx)]
      exact .inr (Int.lt_succ _)

/-- What waits in a watch after a commit has waited in it before, or has just been committed. -/
theorem mem_pending_of_commit {t : Transaction} {reply : Reply} (hc : h.commit t = .ok (h', reply))
    (hx : x ∈ h'.pending id) : x ∈ h.pending id ∨ h.store.revision < x.revision := by
  obtain ⟨w', hw', hmem⟩ := mem_pending_iff.1 hx
  rw [watch?_of_commit hc, Option.map_eq_some_iff] at hw'
  obtain ⟨w, hw, rfl⟩ := hw'
  cases hr : h.store.response? t with
  | none =>
    rw [hr] at hmem
    exact .inl (mem_pending_iff.2 ⟨w, hw, hmem⟩)
  | some r =>
    rw [hr] at hmem
    exact (lt_of_mem_publish hr hmem).imp_left fun hold => mem_pending_iff.2 ⟨w, hw, hold⟩

/-- What waits in a watch after a move has waited in it before, or the move has just committed it. -/
theorem mem_pending_play (hid : id < h.next) (hx : x ∈ (h.play move).pending id) :
    x ∈ h.pending id ∨ h.store.revision < x.revision := by
  obtain ⟨w', hw', hmem⟩ := mem_pending_iff.1 hx
  cases move with
  | commit t =>
    rcases play_commit h t with ⟨reply, hc, -⟩ | ⟨hplay, -⟩
    · exact mem_pending_of_commit hc hx
    · rw [hplay] at hx
      exact .inl hx
  | watch scope revision =>
    rcases play_watch h scope revision with ⟨other, hopened⟩ | hplay
    -- the number is given already, so that the new watch is another one
    · rw [watch?_of_watch_of_lt hopened hid] at hw'
      exact .inl (mem_pending_iff.2 ⟨w', hw', hmem⟩)
    · rw [hplay] at hx
      exact .inl hx
  | take other count =>
    unfold play at hw'
    rw [watch?_leave, Option.map_eq_some_iff] at hw'
    obtain ⟨w, hw, rfl⟩ := hw'
    split at hmem
    next hother =>
      rw [beq_iff_eq.1 hother]
      exact .inl (List.mem_of_mem_drop hmem)
    next => exact .inl (mem_pending_iff.2 ⟨w, hw, hmem⟩)
  | drop other =>
    unfold play at hw'
    rw [watch?_drop] at hw'
    split at hw'
    next => exact nomatch hw'
    next => exact .inl (mem_pending_iff.2 ⟨w', hw', hmem⟩)
  | closeWatches =>
    unfold play closeWatches at hw'
    rw [watch?_mapWatches, Option.map_eq_some_iff] at hw'
    obtain ⟨w, hw, rfl⟩ := hw'
    exact .inl (mem_pending_iff.2 ⟨w, hw, hmem⟩)
  | _ => exact .inl hx

theorem mem_pending_of_mem_taken (hx : x ∈ h.taken id move) : x ∈ h.pending id := by
  unfold taken at hx
  split at hx
  · split at hx
    · exact List.mem_of_mem_take hx
    · exact nomatch hx
  · exact nomatch hx

/-! ### Runs -/

theorem given_cons (h : Hub) (id : WatchId) (move : Move) (moves : List Move) :
    h.given id (move :: moves) = h.taken id move ++ (h.play move).given id moves := by
  simp [given, takenIn]

/-- Whatever a watch hands over in a run has waited in it from the start, or is committed on the way. -/
theorem mem_given {moves : List Move} (hid : id < h.next) (hx : x ∈ h.given id moves) :
    x ∈ h.pending id ∨ h.store.revision < x.revision := by
  -- what is committed later is beyond the present revision, since revisions never go back
  induction moves generalizing h with
  | nil => exact .inl hx
  | cons move moves ih =>
    rw [given_cons] at hx
    rcases List.mem_append.1 hx with hx | hx
    · exact .inl (mem_pending_of_mem_taken hx)
    · rcases ih (Nat.lt_of_lt_of_le hid (next_le_play h move)) hx with hx | hlt
      · exact mem_pending_play hid hx
      · exact .inr (Int.lt_of_le_of_lt (revision_le_play h move) hlt)

/-- An open watch is given what the next transaction changes in its scope. -/
theorem mem_given_commit {t : Transaction} {r : Response} {w : Watch} (ha : h.store.available = true)
    (hr : h.store.response? t = some r) (hw : h.watch? id = some w) (hopen : w.closed = false)
    (hx : r.restrict? w.scope = some x) : x ∈ h.given id [.commit t] := by
  have hgiven : h.given id [.commit t] = (h.play (.commit t)).pending id := rfl
  rw [hgiven, mem_pending_iff]
  rcases play_commit h t with ⟨reply, hc, -⟩ | ⟨-, hnone⟩
  · rw [watch?_of_commit hc, hw, hr]
    refine ⟨_, rfl, ?_⟩
    simp [Watch.publish, hopen, hx]
  · simp [committed, ha, hr] at hnone

/-! ### From the opening on -/

section Opened

variable {scope : String} {revision : Int}

/-- Whatever a new watch hands over is from the revision that it has asked for on, or from the next one of the
store. -/
theorem min_le_of_mem_given (hh : h.IsNumbered) (hw : h.watch scope revision = .ok (h', id))
    {later : List Move} (hx : x ∈ h'.given id later) : min revision (h.store.revision + 1) ≤ x.revision := by
  have hopened := (hh.watch?_of_watch hw).1
  rcases mem_given ((hh.watch hw).lt_next hopened) hx with hx | hlt
  · rw [pending_eq hopened] at hx
    obtain ⟨r, hr, hx⟩ := List.mem_filterMap.1 hx
    have hle : revision ≤ r.revision := of_decide_eq_true (List.mem_filter.1 hr).2
    rw [Response.eq_of_restrict? hx]
    exact Int.le_trans (Int.min_le_left _ _) hle
  · rw [store_of_watch hw] at hlt
    exact Int.le_trans (Int.min_le_right _ _) hlt

/-- Some transaction makes a new watch hand over something of the next revision, whatever it has asked for. -/
theorem exists_mem_given (hh : h.IsNumbered) (hw : h.watch scope revision = .ok (h', id)) :
    ∃ t, ∃ x ∈ h'.given id [.commit t], x.revision = h.store.revision + 1 := by
  have hstore := store_of_watch hw
  have ha : h'.store.available = true := hstore ▸ (watch_eq_ok_iff.1 hw).1
  obtain ⟨r, x, hr, hx, hrev⟩ := h'.store.exists_response? scope
  exact ⟨_, x, mem_given_commit ha hr (hh.watch?_of_watch hw).1 rfl hx, hstore ▸ hrev⟩

/-- A stream that is opened in a run never hands over anything from before the revision that it has asked for,
nor from before the next revision of the store if that comes first.  It keeps to what it has asked for, even for a
single transaction only, exactly if it has not asked for more than the next revision. -/
theorem onset_of_run {past : List Move} (hpast : empty.playAll past = h)
    (hw : h.watch scope revision = .ok (h', id)) :
    (∀ later, ∀ x ∈ h'.given id later, min revision (h.store.revision + 1) ≤ x.revision) ∧
      ((∀ t, ∀ x ∈ h'.given id [.commit t], revision ≤ x.revision) ↔
        revision ≤ h.store.revision + 1) := by
  have hh : h.IsNumbered := hpast ▸ IsNumbered.empty.playAll past
  refine ⟨fun later x hx => min_le_of_mem_given hh hw hx, fun hkept => ?_, fun hle t x hx => ?_⟩
  · obtain ⟨t, x, hx, hrev⟩ := exists_mem_given hh hw
    exact hrev ▸ hkept t x hx
  · have hmin := min_le_of_mem_given hh hw hx
    rwa [Int.min_eq_left hle] at hmin

end Opened

/-- A store that has forgotten its only response. -/
def forgetful : List Move :=
  [.commit ⟨[], [.put "/r/a" [1], .put "/s" [2]]⟩, .compact 1]

theorem onset_of_forgetful :
    ∃ h h', empty.playAll forgetful = h ∧ h.store.revision = 1 ∧ h.watch "/r/" 2 = .ok (h', 0) ∧
      (∀ later, ∀ x ∈ h'.given 0 later, 2 ≤ x.revision) ∧
      ∀ t, ∀ x ∈ h'.given 0 [.commit t], 2 ≤ x.revision := by
  have hrev : (empty.playAll forgetful).store.revision = 1 := by decide +kernel
  have hopens : (match (empty.playAll forgetful).watch "/r/" 2 with
      | .ok w => decide (w.2 = 0)
      | .error _ => false) = true := by
    decide +kernel
  split at hopens
  next w hw =>
    obtain ⟨h', id⟩ := w
    obtain rfl : id = 0 := of_decide_eq_true hopens
    obtain ⟨hleast, hkept⟩ := onset_of_run rfl hw
    rw [hrev] at hleast hkept
    exact ⟨_, h', rfl, hrev, hw, hleast, hkept.2 (by decide)⟩
  next => exact nomatch hopens

/-- A watch that asks for revision four is handed over what revision two changes. -/
theorem exists_early :
    ∃ h h' id, empty.playAll forgetful = h ∧ h.watch "/r/" 4 = .ok (h', id) ∧
      ∃ x ∈ h'.given id [.commit ⟨[], [.put "/r/b" [3]]⟩], x.revision < 4 := by
  have hearly : (match (empty.playAll forgetful).watch "/r/" 4 with
      | .ok w => (w.1.given w.2 [.commit ⟨[], [.put "/r/b" [3]]⟩]).any fun x => decide (x.revision < 4)
      | .error _ => false) = true := by
    decide +kernel
  split at hearly
  next w hw =>
    obtain ⟨x, hx, hlt⟩ := List.any_eq_true.1 hearly
    exact ⟨_, w.1, w.2, rfl, hw, x, hx, of_decide_eq_true hlt⟩
  next => exact nomatch hearly

end Hub

end Allotment
