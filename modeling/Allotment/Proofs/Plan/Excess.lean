import Allotment.Proofs.Plan.Share
import Mathlib.Data.Finset.Card
import Mathlib.Data.List.Perm.Subperm

/-!
# The zones that are left

Dropping replicas from the most crowded zone first costs an item no more zones than it must
(`Spread.span_of_excess_append_perm`): those that are left span as many zones as there are replicas, or else
all zones that there were.  No other way to drop as many leaves more (`Spread.span_le_of_drop`,
`Spread.excess_keeps_zones`).  So what a placement keeps of too many replicas spans as many zones as the item
wants replicas, if that many were in reach (`Room.span_kept_place`).
-/

namespace Allotment

namespace Spread

/-- The number of zones that replicas lie in. -/
def span (rs : List Replica) : Nat :=
  (rs.map (·.zone)).toFinset.card

variable {rs rest dropped : List Replica} {r : Replica}

theorem span_perm (h : rs.Perm rest) : span rs = span rest :=
  congrArg Finset.card (List.toFinset_eq_of_perm _ _ (h.map _))

theorem span_le_length (rs : List Replica) : span rs ≤ rs.length := by
  rw [← List.length_map (·.zone)]
  exact List.toFinset_card_le _

theorem span_le_of_subset (h : ∀ r ∈ rest, r ∈ rs) : span rest ≤ span rs := by
  refine Finset.card_le_card fun z hz => ?_
  obtain ⟨r, hr, rfl⟩ := List.mem_map.1 (List.mem_toFinset.1 hz)
  exact List.mem_toFinset.2 (List.mem_map_of_mem (h r hr))

theorem span_eq_length (h : ∀ r ∈ rs, inZone rs r.zone ≤ 1) : span rs = rs.length := by
  unfold span
  rw [List.toFinset_card_of_nodup (nodup_zones h), List.length_map]

/-- A replica in a zone with others adds none. -/
theorem span_cons_of_mem (h : ∃ q ∈ rs, q.zone = r.zone) : span (r :: rs) = span rs := by
  obtain ⟨q, hq, hz⟩ := h
  unfold span
  rw [List.map_cons, List.toFinset_cons, Finset.insert_eq_self.2]
  exact List.mem_toFinset.2 (hz ▸ List.mem_map_of_mem hq)

/-! ### One at a time -/

/-- The replica that goes first shares its zone, or all zones are apart. -/
theorem inZone_le_one_of_choose? (hfirst : choose? (goesBefore rs) rs = some r)
    (hperm : (r :: rest).Perm rs) (halone : ¬ ∃ q ∈ rest, q.zone = r.zone) :
    ∀ q ∈ rs, inZone rs q.zone ≤ 1 := by
  have hnone : inZone rest r.zone = 0 :=
    List.countP_eq_zero.2 fun q hq hz => halone ⟨q, hq, eq_of_beq hz⟩
  have hone : inZone rs r.zone = 1 := by
    unfold inZone at hnone ⊢
    rw [← hperm.countP_eq, List.countP_cons, hnone, beq_self_eq_true, if_pos rfl]
  exact fun q hq => hone ▸ inZone_le_of_choose? hfirst hq

/-- Without the replica that goes first all zones are left, unless each replica has a zone of its own. -/
theorem span_of_choose? (hfirst : choose? (goesBefore rs) rs = some r)
    (hperm : (r :: rest).Perm rs) : span rest = min rest.length (span rs) := by
  by_cases hshared : ∃ q ∈ rest, q.zone = r.zone
  · rw [← span_perm hperm, span_cons_of_mem hshared]
    exact (Nat.min_eq_right (span_le_length rest)).symm
  · have hapart := inZone_le_one_of_choose? hfirst hperm hshared
    have hrest : ∀ q ∈ rest, inZone rest q.zone ≤ 1 := fun q hq => by
      have hle := hapart q (hperm.mem_iff.1 (List.mem_cons_of_mem _ hq))
      unfold inZone at hle ⊢
      rw [← hperm.countP_eq, List.countP_cons] at hle
      omega
    have hlength := hperm.length_eq
    rw [List.length_cons] at hlength
    rw [span_eq_length hapart, span_eq_length hrest]
    omega

/-- What is left of some replicas spans as many zones as it can. -/
theorem span_of_excess_append_perm {n : Nat} (hn : n ≤ rs.length)
    (hperm : (excess n rs ++ rest).Perm rs) : span rest = min (rs.length - n) (span rs) := by
  induction n generalizing rs with
  | zero =>
    have hrest : rest.Perm rs := hperm
    rw [span_perm hrest, Nat.sub_zero]
    exact (Nat.min_eq_right (span_le_length rs)).symm
  | succ n ih =>
    cases hfirst : choose? (goesBefore rs) rs with
    | none =>
      rw [choose?_eq_none_iff] at hfirst
      rw [hfirst] at hn
      exact absurd hn (Nat.not_succ_le_zero n)
    | some r =>
      have herase := cons_eraseBySwap_perm (mem_of_choose? hfirst)
      have hexcess : excess (n + 1) rs = r :: excess n (eraseBySwap rs r) := by
        simp only [excess, hfirst]
      rw [hexcess] at hperm
      have hrest := (hperm.trans herase.symm).cons_inv
      have hlength := herase.length_eq
      rw [List.length_cons] at hlength
      rw [ih (by omega) hrest, span_of_choose? hfirst herase]
      omega

/-! ### All at once -/

theorem excess_subperm (n : Nat) (rs : List Replica) : (excess n rs).Subperm rs := by
  obtain ⟨rest, hperm, -⟩ := excess_perm n rs
  exact (List.sublist_append_left _ rest).subperm.trans hperm.subperm

theorem nodup_of_subperm (hrs : rs.Nodup) (hdropped : dropped.Subperm rs) : dropped.Nodup := by
  obtain ⟨l, hperm, hsub⟩ := hdropped
  exact hperm.nodup_iff.1 (hrs.sublist hsub)

theorem perm_append_rest (hrs : rs.Nodup) (hdropped : dropped.Subperm rs) :
    (dropped ++ rs.filter fun r => !dropped.contains r).Perm rs :=
  (perm_append_filter hrs (nodup_of_subperm hrs hdropped) fun _ hr => hdropped.subset hr).symm

/-- No choice of what to drop leaves more zones than there are replicas left, or than there were. -/
theorem span_le_of_drop (hrs : rs.Nodup) (hdropped : dropped.Subperm rs) :
    span (rs.filter fun r => !dropped.contains r) ≤ min (rs.length - dropped.length) (span rs) := by
  have hlength := (perm_append_rest hrs hdropped).length_eq
  rw [List.length_append] at hlength
  have hkept := span_le_length (rs.filter fun r => !dropped.contains r)
  exact Nat.le_min.2 ⟨by omega, span_le_of_subset fun r hr => (List.mem_filter.1 hr).1⟩

/-- Of the live replicas that stay, as many different ones are dropped as there are too many.  Those that are
kept span as many zones as are wanted replicas, or all zones if there are fewer, and whatever else is dropped in
their stead leaves no more zones. -/
theorem excess_keeps_zones {live staying : List Replica} (hlive : (live.map (·.holder)).Nodup)
    (hstaying : staying.Subperm live) {wanted : Nat} (hwanted : wanted ≤ staying.length) :
    (excess (staying.length - wanted) staying).Subperm staying ∧
      (excess (staying.length - wanted) staying).length = staying.length - wanted ∧
      span (staying.filter fun r => !(excess (staying.length - wanted) staying).contains r) =
        min wanted (span staying) ∧
      ∀ dropped : List Replica, dropped.Subperm staying → dropped.length = staying.length - wanted →
        span (staying.filter fun r => !dropped.contains r) ≤
          span (staying.filter fun r => !(excess (staying.length - wanted) staying).contains r) := by
  have hnodup : staying.Nodup := nodup_of_subperm (List.Nodup.of_map _ hlive) hstaying
  have hexcess := excess_subperm (staying.length - wanted) staying
  have hspan := span_of_excess_append_perm (Nat.sub_le _ _) (perm_append_rest hnodup hexcess)
  rw [Nat.sub_sub_self hwanted] at hspan
  refine ⟨hexcess, ?_, hspan, fun dropped hdropped hlength => ?_⟩
  · rw [length_excess]
    omega
  · have hle := span_le_of_drop hnodup hdropped
    rwa [hlength, Nat.sub_sub_self hwanted, ← hspan] at hle

/-- Six replicas in three zones, two of them under one slot. -/
def crowd : List Replica :=
  [(⟨"a", "k"⟩, 0), (⟨"b", "l"⟩, 1), (⟨"a", "m"⟩, 2), (⟨"c", "n"⟩, 3), (⟨"b", "o"⟩, 3), (⟨"a", "p"⟩, 5)].map
    fun r => ⟨Layout.assignmentKey ⟨"/r"⟩ "job" r.1 r.2, ⟨"job", r.1, r.2, true⟩, false⟩

/-- Two of them are shed.  Of the four others, which lie in three zones, two are dropped, and the two that are
kept lie in two zones, like any two replicas at best. -/
theorem excess_keeps_zones_of_crowd :
    (crowd.map (·.holder)).Nodup ∧ (crowd.drop 2).Subperm crowd ∧ 2 ≤ (crowd.drop 2).length ∧
      span (crowd.drop 2) = 3 ∧ (excess 2 (crowd.drop 2)).map (·.holder) = [⟨"a", "p"⟩, ⟨"b", "o"⟩] ∧
      span ((crowd.drop 2).filter fun r => !(excess 2 (crowd.drop 2)).contains r) = 2 ∧
      ∀ dropped : List Replica, dropped.Subperm (crowd.drop 2) → dropped.length = 2 →
        span ((crowd.drop 2).filter fun r => !dropped.contains r) ≤ 2 := by
  have hholders : (crowd.map (·.holder)).Nodup := by decide
  have hstaying : (crowd.drop 2).Subperm crowd := (List.drop_sublist 2 crowd).subperm
  have hwanted : 2 ≤ (crowd.drop 2).length := by decide
  obtain ⟨-, -, hspan, hbest⟩ := excess_keeps_zones hholders hstaying hwanted
  have hzones : span (crowd.drop 2) = 3 := by decide
  rw [hzones] at hspan
  exact ⟨hholders, hstaying, hwanted, hzones, by decide, hspan, fun dropped hdropped hlength =>
    Nat.le_trans (hbest dropped hdropped hlength) (Nat.le_of_eq hspan)⟩

end Spread

namespace Room

variable {shedding : List String} {wanted : Nat} {rs : List Replica} {room : Room}

/-- If more replicas stay than are wanted, then those that are kept lie in as many zones as possible. -/
theorem span_kept_place (h : wanted ≤ (room.place shedding wanted rs).1.staying.length) :
    Spread.span (room.place shedding wanted rs).1.kept =
      min wanted (Spread.span (room.place shedding wanted rs).1.staying) := by
  have hnodup : (room.place shedding wanted rs).1.staying.Nodup :=
    (List.Nodup.of_map _ (Placement.nodup_holders_liveOf [] rs)).filter _
  unfold Placement.kept
  rw [excess_place]
  have hexcess := Spread.excess_subperm ((room.place shedding wanted rs).1.staying.length - wanted)
    (room.place shedding wanted rs).1.staying
  have hspan := Spread.span_of_excess_append_perm (Nat.sub_le _ _) (Spread.perm_append_rest hnodup hexcess)
  rwa [Nat.sub_sub_self h] at hspan

end Room

end Allotment
