import Allotment.Convergence
import Allotment.Plan.Packing

/-!
# Packing makes slots dense

The replicas that `renumbering` leaves alone, the settlers, hold distinct slots below the count, and
the others move to exactly the slots that are missing.  So the settlers and the new slots together are
the numbers below the count (`slots_renumbering_perm`), and nothing moves exactly if the slots were
these numbers before (`renumbering_eq_nil_iff`).
-/

namespace Allotment

namespace Packing

/-- The replicas that keep their slot. -/
def settlers (n : Nat) : (taken : List Nat) → List Replica → List Replica
  | _, [] => []
  | taken, r :: rs =>
    if r.slot < n && !taken.contains r.slot then r :: settlers n (r.slot :: taken) rs
    else settlers n taken rs

theorem movers_append_settlers_perm (n : Nat) (taken : List Nat) (rs : List Replica) :
    (movers n taken rs ++ settlers n taken rs).Perm rs := by
  induction rs generalizing taken with
  | nil => exact List.Perm.refl []
  | cons r rs ih =>
    simp only [movers, settlers]
    split
    · exact List.perm_middle.trans ((ih _).cons r)
    · exact (ih taken).cons r

theorem mem_slots_settlers_iff {n : Nat} {taken : List Nat} {rs : List Replica} {slot : Nat} :
    slot ∈ (settlers n taken rs).map (·.slot) ↔
      slot ∈ rs.map (·.slot) ∧ slot < n ∧ slot ∉ taken := by
  induction rs generalizing taken with
  | nil => simp [settlers]
  | cons r rs ih =>
    simp only [settlers, Bool.and_eq_true, decide_eq_true_eq, Bool.not_eq_true',
      List.contains_eq_mem, decide_eq_false_iff_not]
    split
    next h =>
      simp only [List.map_cons, List.mem_cons, ih, not_or]
      constructor
      · rintro (rfl | ⟨hs, hn, -, ht⟩)
        · exact ⟨.inl rfl, h⟩
        · exact ⟨.inr hs, hn, ht⟩
      · rintro ⟨hs, hn, ht⟩
        by_cases he : slot = r.slot
        · exact .inl he
        · exact .inr ⟨hs.resolve_left he, hn, he, ht⟩
    next h =>
      simp only [List.map_cons, List.mem_cons, ih]
      constructor
      · rintro ⟨hs, hn, ht⟩
        exact ⟨.inr hs, hn, ht⟩
      · rintro ⟨rfl | hs, hn, ht⟩
        · exact absurd ⟨hn, ht⟩ h
        · exact ⟨hs, hn, ht⟩

theorem nodup_slots_settlers (n : Nat) (taken : List Nat) (rs : List Replica) :
    ((settlers n taken rs).map (·.slot)).Nodup := by
  induction rs generalizing taken with
  | nil => exact List.nodup_nil
  | cons r rs ih =>
    simp only [settlers]
    split
    · rw [List.map_cons, List.nodup_cons]
      refine ⟨fun hm => ?_, ih _⟩
      exact (mem_slots_settlers_iff.1 hm).2.2 List.mem_cons_self
    · exact ih taken

/-- The slots of the settlers and the gaps are all slots below the count. -/
theorem slots_settlers_append_gaps_perm (rs : List Replica) :
    ((settlers rs.length [] rs).map (·.slot) ++ gaps rs).Perm (List.range rs.length) := by
  have hgaps : ∀ slot, slot ∈ gaps rs ↔ slot < rs.length ∧ slot ∉ rs.map (·.slot) := by
    intro slot
    simp [gaps]
  have hnodup : ((settlers rs.length [] rs).map (·.slot) ++ gaps rs).Nodup := by
    rw [List.nodup_append]
    refine ⟨nodup_slots_settlers _ _ _, List.nodup_range.filter _, fun a ha b hb he => ?_⟩
    exact ((hgaps b).1 hb).2 (he ▸ (mem_slots_settlers_iff.1 ha).1)
  rw [List.perm_ext_iff_of_nodup hnodup List.nodup_range]
  intro slot
  rw [List.mem_append, mem_slots_settlers_iff, hgaps, List.mem_range]
  by_cases h : slot ∈ rs.map (·.slot) <;> simp [h]

theorem length_gaps (rs : List Replica) :
    (gaps rs).length = (movers rs.length [] rs).length := by
  have h₁ := (slots_settlers_append_gaps_perm rs).length_eq
  have h₂ := (movers_append_settlers_perm rs.length [] rs).length_eq
  simp only [List.length_append, List.length_map, List.length_range] at h₁ h₂
  omega

theorem movers_eq_nil_iff {n : Nat} {taken : List Nat} {rs : List Replica} :
    movers n taken rs = [] ↔
      (rs.map (·.slot)).Nodup ∧ ∀ r ∈ rs, r.slot < n ∧ r.slot ∉ taken := by
  constructor
  · intro h
    have hperm := movers_append_settlers_perm n taken rs
    rw [h, List.nil_append] at hperm
    refine ⟨((hperm.map _).nodup_iff).1 (nodup_slots_settlers _ _ _), fun r hr => ?_⟩
    have hmem := List.mem_map_of_mem (f := (·.slot)) (hperm.mem_iff.2 hr)
    exact (mem_slots_settlers_iff.1 hmem).2
  · rintro ⟨hnodup, hall⟩
    have hslots : (rs.map (·.slot)).Perm ((settlers n taken rs).map (·.slot)) := by
      rw [List.perm_ext_iff_of_nodup hnodup (nodup_slots_settlers _ _ _)]
      intro slot
      rw [mem_slots_settlers_iff]
      constructor
      · intro hs
        obtain ⟨r, hr, rfl⟩ := List.mem_map.1 hs
        exact ⟨hs, hall r hr⟩
      · exact fun hs => hs.1
    have h₁ := hslots.length_eq
    have h₂ := (movers_append_settlers_perm n taken rs).length_eq
    simp only [List.length_append, List.length_map] at h₁ h₂
    exact List.length_eq_zero_iff.1 (by omega)

end Packing

open Packing

theorem map_fst_renumbering (rs : List Replica) :
    (renumbering rs).map (·.1) = (movers rs.length [] rs).reverse := by
  exact List.map_fst_zip (Nat.le_of_eq (by rw [List.length_reverse, length_gaps]))

theorem map_snd_renumbering (rs : List Replica) : (renumbering rs).map (·.2) = gaps rs := by
  exact List.map_snd_zip (Nat.le_of_eq (by rw [List.length_reverse, length_gaps]))

theorem length_renumbering_le (rs : List Replica) : (renumbering rs).length ≤ rs.length := by
  have hmovers := (movers_append_settlers_perm rs.length [] rs).length_eq
  have hlength := congrArg List.length (map_fst_renumbering rs)
  rw [List.length_map, List.length_reverse] at hlength
  rw [List.length_append] at hmovers
  omega

/-- Once the moves are made, the slots are the numbers below the count. -/
theorem slots_renumbering_perm (rs : List Replica) :
    ((settlers rs.length [] rs).map (·.slot) ++ (renumbering rs).map (·.2)).Perm
      (List.range rs.length) := by
  rw [map_snd_renumbering]
  exact slots_settlers_append_gaps_perm rs

theorem mem_of_mem_renumbering {rs : List Replica} {m : Replica × Nat} (h : m ∈ renumbering rs) :
    m.1 ∈ rs ∧ m.2 ∉ rs.map (·.slot) := by
  constructor
  · have hmem : m.1 ∈ (renumbering rs).map (·.1) := List.mem_map_of_mem h
    rw [map_fst_renumbering, List.mem_reverse] at hmem
    exact (movers_append_settlers_perm _ _ _).mem_iff.1 (List.mem_append_left _ hmem)
  · have hmem : m.2 ∈ (renumbering rs).map (·.2) := List.mem_map_of_mem h
    rw [map_snd_renumbering] at hmem
    simpa [gaps] using (List.mem_filter.1 hmem).2

theorem lt_of_mem_renumbering {rs : List Replica} {m : Replica × Nat} (h : m ∈ renumbering rs) :
    m.2 < rs.length := by
  have hgap : m.2 ∈ gaps rs := map_snd_renumbering rs ▸ List.mem_map_of_mem h
  exact List.mem_range.1 (List.mem_filter.1 hgap).1

theorem nodup_slots_of_renumbering (rs : List Replica) : ((renumbering rs).map (·.2)).Nodup := by
  rw [map_snd_renumbering]
  exact List.nodup_range.filter _

theorem nodup_replicas_of_renumbering {rs : List Replica} (h : rs.Nodup) :
    ((renumbering rs).map (·.1)).Nodup := by
  rw [map_fst_renumbering, (List.reverse_perm _).nodup_iff]
  have := (movers_append_settlers_perm rs.length [] rs).nodup_iff.2 h
  exact (List.nodup_append.1 this).1

/-- Nothing moves exactly if the slots are the numbers below the count. -/
theorem renumbering_eq_nil_iff {rs : List Replica} :
    renumbering rs = [] ↔ (rs.map (·.slot)).Perm (List.range rs.length) := by
  have hnil : renumbering rs = [] ↔ movers rs.length [] rs = [] := by
    rw [← List.map_eq_nil_iff (f := (·.1)), map_fst_renumbering, List.reverse_eq_nil_iff]
  rw [hnil, movers_eq_nil_iff]
  constructor
  · rintro ⟨hnodup, hlt⟩
    have hmovers := movers_eq_nil_iff.2 ⟨hnodup, hlt⟩
    have hgaps : gaps rs = [] := by
      rw [← List.length_eq_zero_iff, length_gaps, hmovers, List.length_nil]
    have hperm := movers_append_settlers_perm rs.length [] rs
    rw [hmovers, List.nil_append] at hperm
    have hslots := slots_settlers_append_gaps_perm rs
    rw [hgaps, List.append_nil] at hslots
    exact ((hperm.map _).symm).trans hslots
  · intro h
    refine ⟨h.nodup_iff.2 List.nodup_range, fun r hr => ⟨?_, by simp⟩⟩
    exact List.mem_range.1 (h.mem_iff.1 (List.mem_map_of_mem hr))

/-! ### Dense slots -/

theorem countsUp_iff {slots : List Nat} :
    countsUp slots = true ↔ slots.Perm (List.range slots.length) := by
  unfold countsUp
  rw [beq_iff_eq]
  constructor
  · intro h
    rw [← h]
    exact (List.mergeSort_perm _ _).symm
  · intro h
    have hsorted : (slots.mergeSort (· ≤ ·)).Pairwise (· ≤ ·) :=
      (List.pairwise_mergeSort (fun a b c hab hbc => by simp at *; omega)
        (fun a b => by simp; omega) slots).imp fun hab => by simpa using hab
    refine List.Perm.eq_of_pairwise ?_ hsorted ?_ ((List.mergeSort_perm _ _).trans h)
    · exact fun a b _ _ hab hba => Nat.le_antisymm hab hba
    · exact List.pairwise_lt_range.imp Nat.le_of_lt

/-- In slot order, slots are dense only as the numbers below their count, one by one. -/
theorem isPacked_of_ordered {rs : List Replica} (ho : rs.Pairwise fun a b => a.slot ≤ b.slot)
    (h : (rs.map (·.slot)).Perm (List.range rs.length)) : isPacked rs = true := by
  unfold isPacked
  rw [beq_iff_eq]
  refine List.Perm.eq_of_pairwise ?_ (List.pairwise_map.2 ho) ?_ h
  · exact fun a b _ _ hab hba => Nat.le_antisymm hab hba
  · exact List.pairwise_lt_range.imp Nat.le_of_lt

theorem map_slot_of_isPacked {rs : List Replica} (h : isPacked rs = true) :
    rs.map (·.slot) = List.range rs.length := by
  simpa [isPacked] using h

end Allotment
