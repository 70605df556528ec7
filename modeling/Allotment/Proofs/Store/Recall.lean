import Allotment.Proofs.Store.Chronicle

/-!
# What a store remembers

A store keeps the responses after its compaction point and the contents at that point
(`Chronicle.Remembers`).  From these it serves the contents right after every revision that is not
forgotten, and they are the ones of its chronicle (`Remembers.contentsAt_eq`, `Remembers.of_read`); a new
watch is given what the chronicle holds for its scope (`Remembers.since_eq`).  The contents of a scope at
one revision and the responses since then lead to its contents at every later revision
(`IsOrdered.next_of_since_eq_cons`, `IsOrdered.get?_of_since_eq_nil`).
-/

namespace Allotment

theorem Contents.replay_append (c : Contents) (es es' : List Change) :
    c.replay (es ++ es') = (c.replay es).replay es' :=
  List.foldl_append

/-- Changes of other keys leave a key alone. -/
theorem Contents.get?_replay_of_ne (c : Contents) {es : List Change} {k : String}
    (h : ∀ e ∈ es, e.key ≠ k) : (c.replay es).get? k = c.get? k := by
  rw [Change.get?_replay, lastOn_eq_none_iff.2 h]
  rfl

namespace Response

theorem restrict?_eq_none_iff {scope : String} {r : Response} :
    r.restrict? scope = none ↔ ∀ e ∈ r.changes, ¬ e.key.startsWith scope = true := by
  unfold restrict?
  rw [← List.filter_eq_nil_iff]
  cases r.changes.filter fun e => e.key.startsWith scope <;> simp

theorem eq_of_restrict? {scope : String} {r r' : Response} (h : r.restrict? scope = some r') :
    r' = ⟨r.revision, r.changes.filter fun e => e.key.startsWith scope⟩ := by
  unfold restrict? at h
  cases hc : r.changes.filter fun e => e.key.startsWith scope with
  | nil => rw [hc] at h; exact nomatch h
  | cons e es =>
    rw [hc] at h
    exact (Option.some.inj h).symm

/-- Within a scope, a response and its restriction to the scope do the same. -/
theorem get?_replay_of_restrict? {scope : String} {r r' : Response}
    (h : r.restrict? scope = some r') (c : Contents) {k : String}
    (hk : k.startsWith scope = true) :
    (c.replay r'.changes).get? k = (c.replay r.changes).get? k := by
  obtain rfl := eq_of_restrict? h
  rw [Change.get?_replay, Change.get?_replay]
  unfold lastOn
  rw [List.filter_filter]
  congr 3
  apply List.filter_congr
  intro e _
  by_cases he : e.key = k
  · subst he
    simp [hk]
  · simp [he]

end Response

namespace Chronicle

/-! ### Parts of a chronicle -/

/-- The responses up to a revision. -/
def upTo (log : Chronicle) (revision : Int) : Chronicle :=
  log.filter fun r => decide (r.revision ≤ revision)

/-- The responses after a revision. -/
def after (log : Chronicle) (revision : Int) : Chronicle :=
  log.filter fun r => decide (revision < r.revision)

theorem upTo_upTo (log : Chronicle) {a b : Int} (hab : a ≤ b) : (log.upTo b).upTo a = log.upTo a := by
  unfold upTo
  rw [List.filter_filter]
  apply List.filter_congr
  intro r _
  have : r.revision ≤ a → r.revision ≤ b := fun hr => Int.le_trans hr hab
  simpa using this

theorem after_after (log : Chronicle) {a b : Int} (hab : a ≤ b) : (log.after a).after b = log.after b := by
  unfold after
  rw [List.filter_filter]
  apply List.filter_congr
  intro r _
  have : b < r.revision → a < r.revision := fun hr => Int.lt_of_le_of_lt hab hr
  simpa using this

theorem after_upTo (log : Chronicle) (a b : Int) : (log.upTo b).after a = (log.after a).upTo b := by
  unfold upTo after
  rw [List.filter_filter, List.filter_filter]
  simp only [Bool.and_comm]

/-- What happens in a scope after a revision. -/
def since (log : Chronicle) (scope : String) (revision : Int) : List Response :=
  (log.after revision).filterMap (·.restrict? scope)

/-- Some key under a scope changes after a revision. -/
def Touched (log : Chronicle) (scope : String) (revision : Int) : Prop :=
  ∃ e ∈ log.changes, e.key.startsWith scope = true ∧ revision < e.revision

instance (log : Chronicle) (scope : String) (revision : Int) : Decidable (log.Touched scope revision) :=
  inferInstanceAs (Decidable (∃ e ∈ log.changes, e.key.startsWith scope = true ∧ revision < e.revision))

theorem Touched.append {log : Chronicle} {scope : String} {revision : Int}
    (h : log.Touched scope revision) (later : Chronicle) : Touched (log ++ later) scope revision := by
  obtain ⟨e, he, hlater⟩ := h
  exact ⟨e, by rw [changes_append]; exact List.mem_append_left _ he, hlater⟩

/-- The responses of a chronicle follow one another, and each has changes of its own revision. -/
structure IsOrdered (log : Chronicle) : Prop where
  inOrder : log.Pairwise fun a b => a.revision < b.revision
  stamped : ∀ r ∈ log, ∀ e ∈ r.changes, e.revision = r.revision

theorem since_append_singleton (log : Chronicle) (scope : String) {revision : Int} {r : Response}
    (h : revision < r.revision) :
    since (log ++ [r]) scope revision = log.since scope revision ++ (r.restrict? scope).toList := by
  unfold since after
  rw [List.filter_append, List.filterMap_append, List.filter_cons_of_pos (by simpa using h)]
  cases hr : r.restrict? scope <;> simp [hr]

namespace IsOrdered

variable {log : Chronicle} {scope : String} {a b : Int}

theorem append_singleton (h : IsOrdered log) {r : Response}
    (hlt : ∀ r' ∈ log, r'.revision < r.revision) (hr : ∀ e ∈ r.changes, e.revision = r.revision) :
    IsOrdered (log ++ [r]) := by
  constructor
  · rw [List.pairwise_append]
    refine ⟨h.inOrder, List.pairwise_singleton _ _, fun x hx y hy => ?_⟩
    rw [List.mem_singleton.1 hy]
    exact hlt x hx
  · intro x hx
    rcases List.mem_append.1 hx with hx | hx
    · exact h.stamped x hx
    · rw [List.mem_singleton.1 hx]
      exact hr

theorem since_eq_nil_iff (h : IsOrdered log) : log.since scope a = [] ↔ ¬ log.Touched scope a := by
  unfold since after
  rw [List.filterMap_eq_nil_iff]
  constructor
  · rintro hnone ⟨e, he, hscope, hlt⟩
    obtain ⟨r, hr, hmem⟩ := List.mem_flatMap.1 he
    rw [h.stamped r hr e hmem] at hlt
    have hafter : r ∈ log.filter fun r => decide (a < r.revision) :=
      List.mem_filter.2 ⟨hr, decide_eq_true hlt⟩
    exact Response.restrict?_eq_none_iff.1 (hnone r hafter) e hmem hscope
  · intro hquiet r hr
    obtain ⟨hr, hlt⟩ := List.mem_filter.1 hr
    refine Response.restrict?_eq_none_iff.2 fun e he hscope => hquiet ?_
    exact ⟨e, List.mem_flatMap.2 ⟨r, hr, he⟩, hscope, h.stamped r hr e he ▸ of_decide_eq_true hlt⟩

theorem takeWhile_eq (h : IsOrdered log) (a : Int) :
    (log.takeWhile fun r => decide (r.revision ≤ a)) = log.upTo a := by
  have hl := h.inOrder
  clear h
  unfold upTo
  induction log with
  | nil => rfl
  | cons r rs ih =>
    obtain ⟨hr, hrs⟩ := List.pairwise_cons.1 hl
    by_cases hle : r.revision ≤ a
    · rw [List.takeWhile_cons_of_pos (by simpa using hle),
        List.filter_cons_of_pos (by simpa using hle), ih hrs]
    · rw [List.takeWhile_cons_of_neg (by simpa using hle),
        List.filter_cons_of_neg (by simpa using hle), eq_comm, List.filter_eq_nil_iff]
      intro x hx
      have := hr x hx
      simp only [decide_eq_true_eq]
      omega

theorem upTo_append_after (h : IsOrdered log) (a : Int) : log.upTo a ++ log.after a = log := by
  have hl := h.inOrder
  clear h
  unfold upTo after
  induction log with
  | nil => rfl
  | cons r rs ih =>
    obtain ⟨hr, hrs⟩ := List.pairwise_cons.1 hl
    by_cases hle : r.revision ≤ a
    · rw [List.filter_cons_of_pos (by simpa using hle), List.filter_cons_of_neg (by simpa using hle),
        List.cons_append, ih hrs]
    · have hnone : (rs.filter fun x => decide (x.revision ≤ a)) = [] := by
        rw [List.filter_eq_nil_iff]
        intro x hx
        have := hr x hx
        simp only [decide_eq_true_eq]
        omega
      rw [List.filter_cons_of_neg (by simpa using hle), hnone, List.nil_append,
        List.filter_cons_of_pos (by simpa using hle)]
      congr 1
      rw [List.filter_eq_self]
      intro x hx
      have := hr x hx
      simp only [decide_eq_true_eq]
      omega

/-- Up to one of its responses a chronicle has what comes before that, and the response itself. -/
theorem upTo_append_cons {before later : Chronicle} {r : Response} (h : IsOrdered (before ++ r :: later)) :
    upTo (before ++ r :: later) r.revision = before ++ [r] := by
  obtain ⟨-, hlater, hbefore⟩ := List.pairwise_append.1 h.inOrder
  have hlate : later.filter (fun x => decide (x.revision ≤ r.revision)) = [] := by
    rw [List.filter_eq_nil_iff]
    intro x hx
    have := (List.pairwise_cons.1 hlater).1 x hx
    simp only [decide_eq_true_eq]
    omega
  unfold upTo
  rw [List.filter_append, List.filter_cons_of_pos (by simp), hlate, List.filter_eq_self.2]
  intro x hx
  have := hbefore x hx r List.mem_cons_self
  simp only [decide_eq_true_eq]
  omega

theorem after_append_cons {before later : Chronicle} {r : Response}
    (h : IsOrdered (before ++ r :: later)) : after (before ++ r :: later) r.revision = later := by
  have hparts := h.upTo_append_after r.revision
  rw [h.upTo_append_cons, List.append_assoc] at hparts
  exact (List.cons.inj (List.append_cancel_left hparts)).2

theorem dropWhile_eq (h : IsOrdered log) (a : Int) :
    (log.dropWhile fun r => decide (r.revision ≤ a)) = log.after a := by
  have hsplit := List.takeWhile_append_dropWhile (p := fun r : Response => decide (r.revision ≤ a))
    (l := log)
  rw [h.takeWhile_eq] at hsplit
  exact List.append_cancel_left (hsplit.trans (h.upTo_append_after a).symm)

theorem sublist (h : IsOrdered log) {log' : Chronicle} (hl : log'.Sublist log) : IsOrdered log' :=
  ⟨h.inOrder.sublist hl, fun r hr => h.stamped r (hl.subset hr)⟩

/-! ### Contents -/

theorem contentsAt_eq (h : IsOrdered log) (a : Int) :
    log.contentsAt a = Contents.replay KeyMap.empty (log.upTo a).changes := by
  have hl := h.stamped
  clear h
  unfold contentsAt
  congr 1
  unfold upTo changes
  induction log with
  | nil => rfl
  | cons r rs ih =>
    obtain ⟨hr, hrs⟩ := List.forall_mem_cons.1 hl
    rw [List.flatMap_cons, List.filter_append, ih hrs]
    by_cases hle : r.revision ≤ a
    · rw [List.filter_cons_of_pos (by simpa using hle), List.flatMap_cons, List.filter_eq_self.2]
      intro e he
      rw [hr e he]
      simpa using hle
    · rw [List.filter_cons_of_neg (by simpa using hle), List.filter_eq_nil_iff.2, List.nil_append]
      intro e he
      rw [hr e he]
      simpa using hle

/-- The responses between two revisions lead from the contents at the one to those at the other. -/
theorem replay_contentsAt (h : IsOrdered log) (hab : a ≤ b) :
    (log.contentsAt a).replay (changes ((log.after a).upTo b)) = log.contentsAt b := by
  have hcut : IsOrdered (log.upTo b) := h.sublist List.filter_sublist
  have hparts := hcut.upTo_append_after a
  rw [log.upTo_upTo hab, log.after_upTo] at hparts
  rw [h.contentsAt_eq, h.contentsAt_eq, ← Contents.replay_append, ← changes_append, hparts]

/-- A scope in which nothing has happened since a revision has what it had then. -/
theorem get?_of_since_eq_nil (h : IsOrdered log) (hs : log.since scope a = []) (hab : a ≤ b)
    {k : String} (hk : k.startsWith scope = true) :
    (log.contentsAt b).get? k = (log.contentsAt a).get? k := by
  rw [← h.replay_contentsAt hab]
  apply Contents.get?_replay_of_ne
  rintro e he rfl
  obtain ⟨r, hr, he⟩ := List.mem_flatMap.1 he
  have hnone := List.filterMap_eq_nil_iff.1 hs r (List.mem_filter.1 hr).1
  exact Response.restrict?_eq_none_iff.1 hnone e he hk

/-- Within a scope, what comes before its next response does nothing. -/
theorem get?_replay_of_skipped {skipped : Chronicle} {r r' : Response} (hr : r'.restrict? scope = some r)
    (hskipped : ∀ x ∈ skipped, x.restrict? scope = none) (c : Contents) {k : String}
    (hk : k.startsWith scope = true) :
    (c.replay (changes (skipped ++ [r']))).get? k = (c.replay r.changes).get? k := by
  have hchanges : changes (skipped ++ [r']) = changes skipped ++ r'.changes := by
    rw [changes_append]
    simp [changes]
  rw [Response.get?_replay_of_restrict? hr _ hk, hchanges, Contents.replay_append,
    Change.get?_replay _ r'.changes, Change.get?_replay _ r'.changes]
  congr 1
  apply Contents.get?_replay_of_ne
  rintro e he rfl
  obtain ⟨x, hx, he⟩ := List.mem_flatMap.1 he
  exact Response.restrict?_eq_none_iff.1 (hskipped x hx) e he hk

/-- The next response in a scope leads from its contents at one revision to those right after it. -/
theorem next_of_since_eq_cons (h : IsOrdered log) {r : Response} {rest : List Response}
    (hs : log.since scope a = r :: rest) :
    a < r.revision ∧ log.since scope r.revision = rest ∧
      (∃ r' ∈ log, r'.revision = r.revision ∧ ∀ e ∈ r.changes, e ∈ r'.changes) ∧
      (∀ e ∈ r.changes, e.revision = r.revision ∧ e.key.startsWith scope = true) ∧
      ∀ k, k.startsWith scope = true →
        (log.contentsAt r.revision).get? k = ((log.contentsAt a).replay r.changes).get? k := by
  -- `r` is the part in the scope of a response `r'`, before which nothing has happened there.
  obtain ⟨skipped, r', later, hafter, hskipped, hr, hlater⟩ := List.filterMap_eq_cons_iff.1 hs
  have hrev : r.revision = r'.revision := by rw [Response.eq_of_restrict? hr]
  have hordered : IsOrdered (skipped ++ r' :: later) := hafter ▸ h.sublist List.filter_sublist
  have hmem : r' ∈ log.after a := by
    rw [hafter]
    exact List.mem_append_cons_self
  obtain ⟨hlog, hlt⟩ := List.mem_filter.1 hmem
  have hlt : a < r'.revision := of_decide_eq_true hlt
  have hupTo : (log.after a).upTo r'.revision = skipped ++ [r'] := by
    rw [hafter, hordered.upTo_append_cons]
  have hrest : log.after r'.revision = later := by
    rw [← log.after_after (Int.le_of_lt hlt), hafter, hordered.after_append_cons]
  refine ⟨hrev ▸ hlt, ?_, ⟨r', hlog, hrev.symm, fun e he => ?_⟩, fun e he => ?_, fun k hk => ?_⟩
  · unfold since
    rw [hrev, hrest, hlater]
  · rw [Response.eq_of_restrict? hr] at he
    exact (List.mem_filter.1 he).1
  · rw [Response.eq_of_restrict? hr] at he ⊢
    obtain ⟨he, hscope⟩ := List.mem_filter.1 he
    exact ⟨h.stamped r' hlog e he, hscope⟩
  · rw [hrev, ← h.replay_contentsAt (Int.le_of_lt hlt), hupTo, get?_replay_of_skipped hr hskipped _ hk]

end IsOrdered

/-! ### The memory of a store -/

/-- A store has the contents at its compaction point and all responses after it. -/
structure Remembers (log : Chronicle) (s : Store) : Prop extends IsOrdered log, Explains log s where
  within : ∀ r ∈ log, 1 ≤ r.revision ∧ r.revision ≤ s.revision
  nonempty : ∀ r ∈ log, r.changes ≠ []
  complete : ∀ i, 1 ≤ i → i ≤ s.revision → ∃ r ∈ log, r.revision = i
  history : s.history = log.after s.compacted
  base : s.base = log.contentsAt s.compacted

namespace Remembers

variable {log : Chronicle} {s : Store}

theorem empty : Remembers [] Store.empty where
  toIsOrdered := ⟨List.Pairwise.nil, fun _ hr => nomatch hr⟩
  toExplains := Explains.empty
  within := fun _ hr => nomatch hr
  nonempty := fun _ hr => nomatch hr
  complete := fun i hlow hhigh => absurd (Int.le_trans hlow hhigh) (by decide)
  history := rfl
  base := rfl

/-- The store serves the contents right after every revision that is not forgotten. -/
theorem contentsAt_eq (h : Remembers log s) {revision : Int} (hle : s.compacted ≤ revision) :
    s.contentsAt revision = log.contentsAt revision := by
  have hordered : IsOrdered (log.after s.compacted) := h.toIsOrdered.sublist List.filter_sublist
  unfold Store.contentsAt
  rw [h.history, h.base, hordered.takeWhile_eq, ← h.replay_contentsAt hle]
  unfold Contents.replay changes
  rw [List.foldl_flatMap]

theorem record (h : Remembers log s) {t : Transaction} {r : Response} (hr : s.response? t = some r) :
    Remembers (log ++ [r]) (s.record r) := by
  have hrev : r.revision = s.revision + 1 := by
    obtain ⟨-, -, rfl⟩ := Store.response?_eq_some_iff.1 hr
    rfl
  have hstamped : ∀ e ∈ r.changes, e.revision = r.revision := by
    obtain ⟨-, -, rfl⟩ := Store.response?_eq_some_iff.1 hr
    exact fun e he => (Write.mem_changes he).1
  have hne : r.changes ≠ [] := by
    obtain ⟨-, hne, rfl⟩ := Store.response?_eq_some_iff.1 hr
    exact hne
  have hc := h.compacted_le
  refine ⟨h.append_singleton (fun r' hr' => ?_) hstamped, h.toExplains.record hr, fun r' hr' => ?_,
    fun r' hr' => ?_, fun i hlow hhigh => ?_, ?_, ?_⟩
  · have := (h.within r' hr').2
    omega
  · show 1 ≤ r'.revision ∧ r'.revision ≤ r.revision
    rcases List.mem_append.1 hr' with hr' | hr'
    · have := h.within r' hr'
      omega
    · rw [List.mem_singleton.1 hr']
      omega
  · rcases List.mem_append.1 hr' with hr' | hr'
    · exact h.nonempty r' hr'
    · rw [List.mem_singleton.1 hr']
      exact hne
  · have hhigh : i ≤ r.revision := hhigh
    by_cases hi : i = r.revision
    · exact ⟨r, by simp, hi.symm⟩
    · obtain ⟨r', hr', hi⟩ := h.complete i hlow (by omega)
      exact ⟨r', List.mem_append_left _ hr', hi⟩
  · show s.history ++ [r] = after (log ++ [r]) s.compacted
    have hlt : s.compacted < r.revision := by omega
    unfold after
    rw [List.filter_append, List.filter_cons_of_pos (by simpa using hlt), List.filter_nil, h.history]
    rfl
  · show s.base = contentsAt (log ++ [r]) s.compacted
    rw [contentsAt_append_of_le log hr hc.2, h.base]

theorem compact (h : Remembers log s) (revision : Int) : Remembers log (s.compact revision) := by
  have hexplains := h.toExplains.compact revision
  unfold Store.compact at hexplains ⊢
  dsimp only at hexplains ⊢
  by_cases hlt : min revision s.revision ≤ s.compacted
  · rw [if_pos hlt]
    exact h
  · rw [if_neg hlt] at hexplains ⊢
    refine ⟨h.toIsOrdered, hexplains, h.within, h.nonempty, h.complete, ?_, ?_⟩
    · show (s.history.dropWhile fun r => decide (r.revision ≤ min revision s.revision)) =
        log.after (min revision s.revision)
      have hordered : IsOrdered (log.after s.compacted) := h.toIsOrdered.sublist List.filter_sublist
      rw [h.history, hordered.dropWhile_eq, log.after_after (by omega)]
    · exact h.contentsAt_eq (by omega)

theorem setAvailable (h : Remembers log s) (available : Bool) :
    Remembers log (s.setAvailable available) :=
  ⟨h.toIsOrdered, h.toExplains.setAvailable available, h.within, h.nonempty, h.complete, h.history,
    h.base⟩

end Remembers

/-- Every store remembers its chronicle from its compaction point on. -/
theorem Reached.remembers {log : Chronicle} {s : Store} (h : Reached log s) : Remembers log s := by
  induction h with
  | empty => exact Remembers.empty
  | @commit log s s' t reply h hc ih =>
    obtain ⟨-, ⟨r, hr, rfl, -⟩ | ⟨hr, rfl, -⟩⟩ := Store.commit_eq_ok_iff.1 hc
    · rw [hr]
      exact ih.record hr
    · rw [hr]
      simpa using ih
  | compact h revision ih => exact ih.compact revision
  | setAvailable h available ih => exact ih.setAvailable available

namespace Remembers

variable {log : Chronicle} {s : Store}

/-- A read answers the entries of its scope right after the revision that it is stamped with. -/
theorem of_read (h : Remembers log s) {scope : String} {revision : Int} {reading : Reading}
    (hr : s.read scope revision = .ok reading) :
    s.compacted ≤ reading.revision ∧ reading.revision ≤ s.revision ∧
      reading.entries = (log.contentsAt reading.revision).entriesUnder scope := by
  have hc := h.compacted_le
  unfold Store.read Store.guardAvailable at hr
  by_cases ha : s.available
  · simp only [ha, ↓reduceIte, bind, Except.bind, pure, Except.pure] at hr
    split at hr
    next =>
      obtain rfl := Except.ok.inj hr
      refine ⟨hc.2, Int.le_refl _, ?_⟩
      show s.live.entriesUnder scope = (log.contentsAt s.revision).entriesUnder scope
      rw [h.contentsAt_revision]
    next hcur =>
      split at hr
      next => exact nomatch hr
      next hle =>
        obtain rfl := Except.ok.inj hr
        have hle : s.compacted ≤ revision := by omega
        refine ⟨hle, ?_, ?_⟩
        · show revision ≤ s.revision
          omega
        · show (s.contentsAt revision).entriesUnder scope = (log.contentsAt revision).entriesUnder scope
          rw [h.contentsAt_eq hle]
  · simp [ha, bind, Except.bind] at hr

/-- A watch from a revision on that is not forgotten is first given all that has happened since. -/
theorem since_eq (h : Remembers log s) (scope : String) {revision : Int}
    (hc : ¬ (0 < s.compacted ∧ revision ≤ s.compacted)) :
    s.since scope revision = log.since scope (revision - 1) := by
  have hlow := h.compacted_le
  unfold Store.since since after
  rw [h.history]
  unfold after
  rw [List.filter_filter]
  congr 1
  apply List.filter_congr
  intro r hr
  have := h.within r hr
  rw [Bool.eq_iff_iff]
  simp only [Bool.and_eq_true, decide_eq_true_eq]
  omega

end Remembers

end Chronicle

end Allotment
