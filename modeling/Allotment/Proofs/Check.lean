import Allotment.Check
import Allotment.Proofs.Plan.Packing
import Allotment.Proofs.Plan.Roster

/-!
# What the checks say

A check of a decoded snapshot passes exactly if the following holds: no member holds more assignments than
its limit (`capacity_eq_ok_iff`), the slots of every item count up from zero (`density_eq_ok_iff`), every
item has the wanted number of consistent replicas on distinct members that exist, and every assignment is
one of an existing item (`replication_eq_ok_iff`).
-/

namespace Allotment

namespace Check

theorem forM_eq_ok_iff {α : Type} {f : α → Except Violation Unit} {xs : List α} :
    xs.forM f = .ok () ↔ ∀ x ∈ xs, f x = .ok () := by
  induction xs with
  | nil => exact ⟨fun _ x hx => absurd hx List.not_mem_nil, fun _ => rfl⟩
  | cons x xs ih =>
    rw [List.forall_mem_cons, ← ih]
    show (f x >>= fun _ => xs.forM f) = .ok () ↔ _
    cases f x with
    | error violation => exact ⟨(nomatch ·), fun h => nomatch h.1⟩
    | ok u => exact ⟨fun h => ⟨rfl, h⟩, fun h => h.2⟩

theorem bind_eq_ok_iff {x y : Except Violation Unit} :
    (x >>= fun _ => y) = .ok () ↔ x = .ok () ∧ y = .ok () := by
  cases x with
  | error violation => exact ⟨(nomatch ·), fun h => nomatch h.1⟩
  | ok u => exact ⟨fun h => ⟨rfl, h⟩, fun h => h.2⟩

theorem ite_eq_ok_iff {c : Prop} [Decidable c] {violation : Violation} :
    (if c then .ok () else .error violation) = (.ok () : Except Violation Unit) ↔ c := by
  by_cases h : c <;> simp [h]

end Check

/-! ### Counting keys -/

/-- Counting keys adds how often each of them occurs. -/
theorem KeyMap.get?_foldl_count (ks : List String) (m : KeyMap Nat) (k : String) :
    ((ks.foldl (fun m k => m.insert k ((m.get? k).getD 0 + 1)) m).get? k).getD 0 =
      (m.get? k).getD 0 + ks.count k := by
  induction ks generalizing m with
  | nil => rfl
  | cons k' ks ih =>
    rw [List.foldl_cons, ih, KeyMap.get?_insert, List.count_cons]
    by_cases h : k' = k
    · subst h
      simp
      omega
    · rw [if_neg fun he => h he.symm, if_neg (by simpa using h)]
      omega

theorem KeyMap.get?_ofList_zero (ks : List String) (k : String) :
    ((KeyMap.ofList (ks.map fun k => (k, 0))).get? k).getD 0 = 0 := by
  unfold KeyMap.ofList
  rw [List.foldl_map]
  have hfold : ∀ m : KeyMap Nat, (m.get? k).getD 0 = 0 →
      ((ks.foldl (fun m k => m.insert k 0) m).get? k).getD 0 = 0 := by
    induction ks with
    | nil => exact fun m hm => hm
    | cons k' ks ih =>
      intro m hm
      refine ih _ ?_
      rw [KeyMap.get?_insert]
      split
      · rfl
      · exact hm
  exact hfold _ rfl

/-! ### What is counted -/

theorem nodup_eraseDups : (xs : List String) → xs.eraseDups.Nodup
  | [] => List.nodup_nil
  | x :: xs => by
    rw [List.eraseDups_cons]
    refine List.nodup_cons.2 ⟨?_, nodup_eraseDups _⟩
    simp
termination_by xs => xs.length
decreasing_by exact Nat.lt_succ_of_le (List.length_filter_le _ _)

namespace Snapshot

variable {s : Snapshot}

/-- The load of a member is the number of assignments that it holds. -/
theorem get?_loads (hs : s.IsFaithful) {e : Entry Member} (he : e ∈ s.members) :
    (s.loads.get? e.key).getD 0 = (s.assignments.map (·.value)).countP (·.holder == e.value.id) := by
  obtain ⟨hkey, hvalid⟩ := parse_of_mem_members hs he
  unfold loads
  have hzero := KeyMap.get?_ofList_zero (s.members.map (·.key)) e.key
  rw [List.map_map] at hzero
  rw [KeyMap.get?_foldl_count]
  refine (congrArg (· + _) hzero).trans ?_
  rw [Nat.zero_add, List.count_eq_countP, List.countP_map, List.countP_map]
  refine List.countP_congr fun a _ => ?_
  show (s.layout.memberKey a.value.holder == e.key) = true ↔ (a.value.holder == e.value.id) = true
  rw [beq_iff_eq, beq_iff_eq, hkey]
  exact ⟨fun h => Layout.memberKey_injective hvalid h, fun h => by rw [h]⟩

theorem mem_heldItems_iff {item : String} :
    item ∈ s.heldItems ↔ ∃ e ∈ s.assignments, e.value.item = item := by
  unfold heldItems
  rw [(eraseReps_of_ascending (pairwise_mergeSort_le _)).2, List.mem_mergeSort, List.mem_map]

theorem mem_held_iff {id : String} {a : Assignment} :
    a ∈ s.held id ↔ ∃ e ∈ s.assignments, e.value = a ∧ a.item = id := by
  unfold held
  rw [List.mem_filter, List.mem_map, beq_iff_eq]
  constructor
  · rintro ⟨⟨e, he, rfl⟩, hi⟩
    exact ⟨e, he, rfl, hi⟩
  · rintro ⟨e, he, rfl, hi⟩
    exact ⟨⟨e, he, rfl⟩, hi⟩

theorem held_eq_nil {id : String} (hid : id ∉ s.heldItems) : s.held id = [] := by
  refine List.eq_nil_iff_forall_not_mem.2 fun a ha => hid ?_
  obtain ⟨e, he, rfl, rfl⟩ := mem_held_iff.1 ha
  exact mem_heldItems_iff.2 ⟨e, he, rfl⟩

theorem mem_openZones_iff {zone : String} :
    zone ∈ s.openZones ↔ ∃ e ∈ s.members, e.value.isDraining = false ∧ e.value.id.zone = zone := by
  unfold openZones
  rw [List.mem_eraseDups, List.mem_map]
  constructor
  · rintro ⟨m, hm, rfl⟩
    obtain ⟨hm, hopen⟩ := List.mem_filter.1 hm
    obtain ⟨e, he, rfl⟩ := List.mem_map.1 hm
    exact ⟨e, he, by simpa using hopen, rfl⟩
  · rintro ⟨e, he, hopen, rfl⟩
    exact ⟨e.value, List.mem_filter.2 ⟨List.mem_map_of_mem he, by simpa using hopen⟩, rfl⟩

end Snapshot

/-! ### The checks -/

namespace Check

variable {s : Snapshot}

theorem capacity_eq_ok_iff (hs : s.IsFaithful) :
    capacity s = .ok () ↔
      ∀ e ∈ s.members,
        (s.assignments.map (·.value)).countP (·.holder == e.value.id) ≤ e.value.limit := by
  unfold capacity
  rw [forM_eq_ok_iff]
  refine forall₂_congr fun e he => ?_
  rw [Snapshot.get?_loads hs he]
  exact ite_eq_ok_iff

theorem density_eq_ok_iff :
    density s = .ok () ↔
      ∀ item ∈ s.heldItems,
        ((s.held item).map (·.slot)).Perm (List.range (s.held item).length) := by
  unfold density
  rw [forM_eq_ok_iff]
  refine forall₂_congr fun item _ => ite_eq_ok_iff.trans ?_
  unfold areDense
  rw [countsUp_iff, List.length_map]

theorem missing_eq_nil_iff {held : List Assignment} :
    ((held.map (·.holder)).filter fun m => (s.member? m).isNone).mergeSort MemberId.le = [] ↔
      ∀ a ∈ held, (s.member? a.holder).isSome = true := by
  rw [← List.length_eq_zero_iff, List.length_mergeSort, List.length_eq_zero_iff,
    List.filter_eq_nil_iff, List.forall_mem_map]
  simp [Option.isSome_iff_ne_none]

theorem item_eq_ok_iff {i : Item} :
    item s i = .ok () ↔
      (s.held i.id).length = i.replication ∧ (∀ a ∈ s.held i.id, a.consistent = true) ∧
        ((s.held i.id).map (·.holder)).Nodup ∧
          ∀ a ∈ s.held i.id, (s.member? a.holder).isSome = true := by
  unfold item
  by_cases hlen : (s.held i.id).length = i.replication
  case neg =>
    rw [if_pos hlen]
    exact ⟨(nomatch ·), fun h => absurd h.1 hlen⟩
  rw [if_neg (not_not_intro hlen)]
  cases hfind : (s.held i.id).find? fun a => !a.consistent with
  | some a =>
    have hc : a.consistent = false := by simpa using List.find?_some hfind
    refine ⟨(nomatch ·), fun h => ?_⟩
    exact nomatch hc.symm.trans (h.2.1 a (List.mem_of_find?_eq_some hfind))
  | none =>
    have hc : ∀ a ∈ s.held i.id, a.consistent = true := fun a ha => by
      simpa using List.find?_eq_none.1 hfind a ha
    by_cases hnodup : ((s.held i.id).map (·.holder)).Nodup
    case neg =>
      simp only [distinctHolders, hnodup, decide_false, Bool.not_false, ↓reduceIte]
      exact ⟨(nomatch ·), fun h => h.2.2.1.elim⟩
    simp only [distinctHolders, hnodup, decide_true, Bool.not_true, Bool.false_eq_true, ↓reduceIte]
    cases hmissing : (((s.held i.id).map (·.holder)).filter fun m =>
        (s.member? m).isNone).mergeSort MemberId.le with
    | cons m ms =>
      have hne := mt missing_eq_nil_iff.2 (hmissing ▸ List.cons_ne_nil m ms)
      exact ⟨(nomatch ·), fun h => absurd h.2.2.2 hne⟩
    | nil => exact ⟨fun _ => ⟨hlen, hc, trivial, missing_eq_nil_iff.1 hmissing⟩, fun _ => rfl⟩

theorem replication_eq_ok_iff :
    replication s = .ok () ↔
      (∀ e ∈ s.items, item s e.value = .ok ()) ∧
        ∀ a ∈ s.assignments, (s.item? a.value.item).isSome = true := by
  unfold replication
  rw [bind_eq_ok_iff, forM_eq_ok_iff]
  refine and_congr_right fun _ => ?_
  cases hfind : s.heldItems.find? fun i => (s.item? i).isNone with
  | some i =>
    refine ⟨(nomatch ·), fun h => ?_⟩
    obtain ⟨a, ha, rfl⟩ := Snapshot.mem_heldItems_iff.1 (List.mem_of_find?_eq_some hfind)
    have hnone := List.find?_some hfind
    rw [← Option.not_isSome, h a ha] at hnone
    exact nomatch hnone
  | none =>
    refine ⟨fun _ a ha => ?_, fun _ => rfl⟩
    have hsome := List.find?_eq_none.1 hfind _ (Snapshot.mem_heldItems_iff.2 ⟨a, ha, rfl⟩)
    simpa [Option.isSome_iff_ne_none] using hsome

theorem convergence_eq_ok_iff :
    convergence s = .ok () ↔
      capacity s = .ok () ∧ density s = .ok () ∧ replication s = .ok () := by
  unfold convergence
  rw [bind_eq_ok_iff, bind_eq_ok_iff]

theorem spread_eq_ok_iff :
    spread s = .ok () ↔
      ∀ e ∈ s.items, min s.openZones.length e.value.replication ≤
        ((s.held e.value.id).map (·.holder.zone)).eraseDups.length := by
  unfold spread
  rw [forM_eq_ok_iff]
  exact forall₂_congr fun e _ => ite_eq_ok_iff

end Check

end Allotment
