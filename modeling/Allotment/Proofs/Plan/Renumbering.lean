import Allotment.Proofs.Plan.Packing
import Mathlib.Data.List.Dedup
import Mathlib.Data.List.Perm.Subperm

/-!
# The least renumbering

Moves give new slots to some replicas and leave the others where they are; they pack the replicas if the slots
are the numbers below the count afterwards (`Packing.Packs`).  Of the replicas that share a slot only one can
stay, and none whose slot is not below the count, so that at least the others move, whatever the moves
(`Packing.Packs.length_le`).  The moves of `renumbering` pack the replicas (`Packing.packs_renumbering`), and they
are that many and no more (`Packing.length_renumbering`).  They are none exactly if the slots are dense, be it
tested on the replicas in slot order or on their assignments in any order (`Packing.areDense_iff`).
-/

namespace Allotment

namespace Packing

/-- The slots after some moves: the replicas that are not moved keep theirs. -/
def slotsAfter (rs : List Replica) (moves : List (Replica × Nat)) : List Nat :=
  (rs.diff (moves.map (·.1))).map (·.slot) ++ moves.map (·.2)

/-- The moves give new slots to some of the replicas, once each, and the slots are then the numbers below the
count of all replicas. -/
structure Packs (rs : List Replica) (moves : List (Replica × Nat)) : Prop where
  subperm : (moves.map (·.1)).Subperm rs
  slots_perm : (slotsAfter rs moves).Perm (List.range rs.length)

/-- The slots below the count that are held, each of them once. -/
def tenable (rs : List Replica) : List Nat :=
  ((rs.map (·.slot)).filter fun slot => decide (slot < rs.length)).dedup

variable {rs : List Replica} {moves : List (Replica × Nat)}

theorem mem_tenable_iff {slot : Nat} : slot ∈ tenable rs ↔ slot ∈ rs.map (·.slot) ∧ slot < rs.length := by
  unfold tenable
  rw [List.mem_dedup, List.mem_filter, decide_eq_true_eq]

theorem nodup_tenable (rs : List Replica) : (tenable rs).Nodup :=
  List.nodup_dedup _

/-- Some of the replicas and the remaining ones are all of them. -/
theorem append_diff_perm {moved : List Replica} (h : moved.Subperm rs) : (moved ++ rs.diff moved).Perm rs :=
  List.subperm_append_diff_self_of_count_le fun r _ => h.count_le r

/-! ### How many replicas have to move -/

theorem slots_settlers_perm_tenable (rs : List Replica) :
    ((settlers rs.length [] rs).map (·.slot)).Perm (tenable rs) := by
  rw [List.perm_ext_iff_of_nodup (nodup_slots_settlers _ _ _) (nodup_tenable rs)]
  intro slot
  rw [mem_slots_settlers_iff, mem_tenable_iff]
  simp

theorem length_renumbering (rs : List Replica) :
    (renumbering rs).length + (tenable rs).length = rs.length := by
  have hmovers : (renumbering rs).length = (movers rs.length [] rs).length := by
    rw [← List.length_map (·.1), map_fst_renumbering, List.length_reverse]
  have hsettlers := (slots_settlers_perm_tenable rs).length_eq
  have hall := (movers_append_settlers_perm rs.length [] rs).length_eq
  rw [List.length_map] at hsettlers
  rw [List.length_append] at hall
  omega

/-- The slots of the replicas that are not moved are different and below the count. -/
theorem Packs.kept_subperm_tenable (h : Packs rs moves) :
    ((rs.diff (moves.map (·.1))).map (·.slot)).Subperm (tenable rs) := by
  have hnodup : (slotsAfter rs moves).Nodup := h.slots_perm.nodup_iff.2 List.nodup_range
  refine List.subperm_of_subset (List.nodup_append.1 hnodup).1 fun slot hslot => ?_
  obtain ⟨r, hr, rfl⟩ := List.mem_map.1 hslot
  refine mem_tenable_iff.2 ⟨List.mem_map_of_mem (List.diff_subset _ _ hr), ?_⟩
  exact List.mem_range.1 (h.slots_perm.mem_iff.1 (List.mem_append_left _ hslot))

/-- No moves that pack the replicas are fewer. -/
theorem Packs.length_le (h : Packs rs moves) : (renumbering rs).length ≤ moves.length := by
  have hkept := h.kept_subperm_tenable.length_le
  have hall := (append_diff_perm h.subperm).length_eq
  have hleast := length_renumbering rs
  rw [List.length_map] at hkept
  rw [List.length_append, List.length_map] at hall
  omega

theorem packs_renumbering (rs : List Replica) : Packs rs (renumbering rs) := by
  have hperm : ((renumbering rs).map (·.1) ++ settlers rs.length [] rs).Perm rs := by
    rw [map_fst_renumbering]
    exact ((List.reverse_perm _).append_right _).trans (movers_append_settlers_perm _ _ _)
  have hsub : ((renumbering rs).map (·.1)).Subperm rs :=
    (List.sublist_append_left _ _).subperm.trans hperm.subperm
  have hkept : (rs.diff ((renumbering rs).map (·.1))).Perm (settlers rs.length [] rs) :=
    (List.perm_append_left_iff _).1 ((append_diff_perm hsub).trans hperm.symm)
  exact ⟨hsub, ((hkept.map _).append_right _).trans (slots_renumbering_perm rs)⟩

/-! ### Three tests -/

theorem isPacked_iff (ho : rs.Pairwise fun a b => a.slot ≤ b.slot) :
    isPacked rs = true ↔ renumbering rs = [] := by
  rw [renumbering_eq_nil_iff]
  constructor
  · intro h
    rw [map_slot_of_isPacked h]
  · exact isPacked_of_ordered ho

/-- Assignments are dense exactly if their replicas, in whatever order, need not move. -/
theorem areDense_iff {held : List Assignment} (hp : held.Perm (rs.map (·.assignment))) :
    areDense held = true ↔ renumbering rs = [] := by
  have hslots : (held.map (·.slot)).Perm (rs.map (·.slot)) := by
    have hmap := hp.map (·.slot)
    rwa [List.map_map] at hmap
  have hlength : (held.map (·.slot)).length = rs.length := by
    rw [hslots.length_eq, List.length_map]
  unfold areDense
  rw [countsUp_iff, renumbering_eq_nil_iff, hlength]
  exact ⟨hslots.symm.trans, hslots.trans⟩

/-- Of replicas in slot order, `renumbering` moves as few as any moves that pack them: all but one for each of the
different slots below their count.  It moves them to slots that none of them holds, and it moves none exactly if
they are dense, by the test on replicas in slot order as well as by the one on assignments in any order. -/
theorem renumbering_least_of_ordered (ho : rs.Pairwise fun a b => a.slot ≤ b.slot) :
    Packs rs (renumbering rs) ∧
      (renumbering rs).length + (tenable rs).length = rs.length ∧
      (∀ moves, Packs rs moves → (renumbering rs).length ≤ moves.length) ∧
      (∀ m ∈ renumbering rs, ∀ r ∈ rs, r.slot ≠ m.2) ∧
      (renumbering rs = [] ↔ isPacked rs = true) ∧
      ∀ held : List Assignment, held.Perm (rs.map (·.assignment)) →
        (renumbering rs = [] ↔ areDense held = true) := by
  refine ⟨packs_renumbering rs, length_renumbering rs, fun _ => Packs.length_le, fun m hm r hr he => ?_,
    (isPacked_iff ho).symm, fun held hp => (areDense_iff hp).symm⟩
  exact (mem_of_mem_renumbering hm).2 (he ▸ List.mem_map_of_mem hr)

/-- Four replicas, two of them under one slot and one beyond the count. -/
def scattered : List Replica :=
  [("k", 0), ("l", 0), ("m", 2), ("n", 9)].map fun r =>
    ⟨Layout.assignmentKey ⟨"/r"⟩ "job" ⟨"a", r.1⟩ r.2, ⟨"job", ⟨"a", r.1⟩, r.2, true⟩, false⟩

/-- The highest slot goes to the lowest gap, and no single move would do. -/
theorem renumbering_least_of_scattered :
    (scattered.Pairwise fun a b => a.slot ≤ b.slot) ∧ tenable scattered = [0, 2] ∧
      (renumbering scattered).map (fun m => (m.1.slot, m.2)) = [(9, 1), (0, 3)] ∧
      Packs scattered (renumbering scattered) ∧ (∀ moves, Packs scattered moves → 2 ≤ moves.length) ∧
      isPacked scattered = false := by
  have ho : scattered.Pairwise fun a b => a.slot ≤ b.slot := by decide
  have hmoves : (renumbering scattered).map (fun m => (m.1.slot, m.2)) = [(9, 1), (0, 3)] := by decide
  have htwo : (renumbering scattered).length = 2 := by
    rw [← List.length_map, hmoves]
    rfl
  obtain ⟨hpacks, -, hleast, -, hnil, -⟩ := renumbering_least_of_ordered ho
  refine ⟨ho, by decide, hmoves, hpacks, fun moves h => htwo ▸ hleast moves h, ?_⟩
  refine Bool.eq_false_iff.2 fun hpacked => ?_
  rw [hnil.2 hpacked] at htwo
  exact nomatch htwo

end Packing

end Allotment
