import Allotment.Resource
import Mathlib.Data.Finset.Card
import Mathlib.Data.Finset.Image

/-!
# The backlog of an item

How far an item is from being settled, as one number.  Its digits, from the highest, are the zones that the
item could span and does not (`Demand.missing`), how far the number of its serving replicas is off
(`Demand.drift`), its replicas on draining members (`Demand.retiring`) and those that are not consistent
(`Demand.unflagged`).  While zones are missing, every serving replica counts as drift, since one of them may
have to go before its replacement in another zone can come.  Each of the four things that a member does to
an item shrinks the backlog: it retires a replica (`backlog_lt_of_retire`), makes one consistent
(`backlog_lt_of_flag`), claims one (`backlog_lt_of_claim`) or releases one that is not needed
(`backlog_lt_of_release`).
-/

namespace Allotment

/-- What counts of a replica: who holds it, and whether it is consistent. -/
structure Stake where
  holder : MemberId
  consistent : Bool
  deriving DecidableEq

/-- The stake of an assignment. -/
def Assignment.stake (a : Assignment) : Stake :=
  ⟨a.holder, a.consistent⟩

/-- What an item asks for. -/
structure Demand where
  /-- The members that are not draining. -/
  servers : Finset MemberId
  wanted : Nat
  /-- The item has no more replicas than this, and wants no more. -/
  bound : Nat

namespace Demand

/-! ### Digits -/

section Digits

variable (d : Demand) (rs : List Stake)

/-- The replicas on members that are not draining. -/
def serving : List Stake :=
  rs.filter fun r => decide (r.holder ∈ d.servers)

/-- The zones of the serving replicas. -/
def reach : Finset String :=
  ((d.serving rs).map (·.holder.zone)).toFinset

/-- How many zones the item is to span. -/
def span : Nat :=
  min d.wanted (d.servers.image (·.zone)).card

/-- How many zones are missing. -/
def missing : Nat :=
  d.span - (d.reach rs).card

/-- How far the number of serving replicas is off. -/
def drift : Nat :=
  if 0 < d.missing rs then (d.serving rs).length
  else ((d.serving rs).length - d.wanted) + (d.wanted - (d.serving rs).length)

/-- How many replicas are on draining members. -/
def retiring : Nat :=
  rs.countP fun r => decide (r.holder ∉ d.servers)

/-- How many replicas are not consistent. -/
def unflagged : Nat :=
  rs.countP fun r => !r.consistent

/-- How far the item is from being settled. -/
def backlog : Nat :=
  ((d.missing rs * (d.bound + 1) + d.drift rs) * (d.bound + 1) + d.retiring rs) * (d.bound + 1) +
    unflagged rs

end Digits

theorem digit_lt {n high high' low low' : Nat} (h : high' < high) (hlow : low' ≤ n) :
    high' * (n + 1) + low' < high * (n + 1) + low :=
  calc high' * (n + 1) + low' < (high' + 1) * (n + 1) := by
        rw [Nat.succ_mul]
        omega
    _ ≤ high * (n + 1) := Nat.mul_le_mul_right _ h
    _ ≤ high * (n + 1) + low := Nat.le_add_right _ _

variable {d : Demand} {rs rs' : List Stake} {r : Stake}

theorem serving_cons_of_mem (hr : r.holder ∈ d.servers) :
    d.serving (r :: rs) = r :: d.serving rs :=
  List.filter_cons_of_pos (by simpa using hr)

theorem serving_cons_of_not_mem (hr : r.holder ∉ d.servers) : d.serving (r :: rs) = d.serving rs :=
  List.filter_cons_of_neg (by simpa using hr)

theorem reach_cons_of_mem (hr : r.holder ∈ d.servers) :
    d.reach (r :: rs) = insert r.holder.zone (d.reach rs) := by
  unfold reach
  rw [serving_cons_of_mem hr, List.map_cons, List.toFinset_cons]

theorem reach_cons_of_not_mem (hr : r.holder ∉ d.servers) : d.reach (r :: rs) = d.reach rs := by
  unfold reach
  rw [serving_cons_of_not_mem hr]

theorem length_serving_le (d : Demand) (rs : List Stake) : (d.serving rs).length ≤ rs.length :=
  List.length_filter_le _ _

theorem retiring_le (d : Demand) (rs : List Stake) : d.retiring rs ≤ rs.length :=
  List.countP_le_length

theorem unflagged_le (rs : List Stake) : unflagged rs ≤ rs.length :=
  List.countP_le_length

theorem drift_le (hwanted : d.wanted ≤ d.bound) (hrs : rs.length ≤ d.bound) :
    d.drift rs ≤ d.bound := by
  have hserving := d.length_serving_le rs
  unfold drift
  split <;> omega

theorem reach_subset (d : Demand) (rs : List Stake) : d.reach rs ⊆ d.servers.image (·.zone) := by
  intro z hz
  obtain ⟨r, hr, rfl⟩ := List.mem_map.1 (List.mem_toFinset.1 hz)
  exact Finset.mem_image_of_mem _ (by simpa using (List.mem_filter.1 hr).2)

/-- A zone is missing if some member is in a zone that the item does not reach. -/
theorem missing_pos (hwanted : (d.reach rs).card < d.wanted) {m : MemberId} (hm : m ∈ d.servers)
    (hz : m.zone ∉ d.reach rs) : 0 < d.missing rs := by
  have hzones : d.reach rs ⊂ d.servers.image (·.zone) := by
    refine (Finset.ssubset_iff_of_subset (d.reach_subset rs)).2 ?_
    exact ⟨m.zone, Finset.mem_image_of_mem (·.zone) hm, hz⟩
  have hcard := Finset.card_lt_card hzones
  unfold missing span
  omega

theorem exists_zone_of_missing (h : 0 < d.missing rs) : ∃ m ∈ d.servers, m.zone ∉ d.reach rs := by
  refine Decidable.byContradiction fun hnone => ?_
  have hzones : d.servers.image (·.zone) ⊆ d.reach rs := by
    intro z hz
    obtain ⟨m, hm, rfl⟩ := Finset.mem_image.1 hz
    exact Decidable.byContradiction fun hmissed => hnone ⟨m, hm, hmissed⟩
  have hcard := Finset.card_le_card hzones
  unfold missing span at h
  omega

theorem missing_eq_of_reach (h : d.reach rs = d.reach rs') : d.missing rs = d.missing rs' := by
  unfold missing
  rw [h]

theorem drift_eq_of_serving (h : (d.serving rs).length = (d.serving rs').length)
    (hmissing : d.missing rs = d.missing rs') : d.drift rs = d.drift rs' := by
  unfold drift
  rw [h, hmissing]

/-! ### The order of the replicas does not count -/

theorem serving_perm (d : Demand) (h : rs.Perm rs') : (d.serving rs).Perm (d.serving rs') :=
  h.filter _

theorem reach_perm (d : Demand) (h : rs.Perm rs') : d.reach rs = d.reach rs' :=
  List.toFinset_eq_of_perm _ _ ((d.serving_perm h).map _)

theorem backlog_perm (d : Demand) (h : rs.Perm rs') : d.backlog rs = d.backlog rs' := by
  have hserving := d.serving_perm h
  have hmissing := missing_eq_of_reach (d.reach_perm h)
  have hretiring : d.retiring rs = d.retiring rs' := h.countP_eq _
  have hunflagged : unflagged rs = unflagged rs' := h.countP_eq _
  unfold backlog
  rw [hmissing, drift_eq_of_serving hserving.length_eq hmissing, hretiring, hunflagged]

/-! ### What members do -/

/-- A draining member gives up its replica. -/
theorem backlog_lt_of_retire (hr : r.holder ∉ d.servers) (hrs : rs.length ≤ d.bound) :
    d.backlog rs < d.backlog (r :: rs) := by
  have hmissing : d.missing (r :: rs) = d.missing rs :=
    missing_eq_of_reach (reach_cons_of_not_mem hr)
  have hdrift : d.drift (r :: rs) = d.drift rs :=
    drift_eq_of_serving (by rw [serving_cons_of_not_mem hr]) hmissing
  have hretiring : d.retiring (r :: rs) = d.retiring rs + 1 :=
    List.countP_cons_of_pos (by simpa using hr)
  have hunflagged := unflagged_le rs
  unfold backlog
  rw [hmissing, hdrift]
  exact digit_lt (by omega) (by omega)

/-- A replica becomes consistent. -/
theorem backlog_lt_of_flag (m : MemberId) : d.backlog (⟨m, true⟩ :: rs) < d.backlog (⟨m, false⟩ :: rs) := by
  have hserving : (d.serving (⟨m, true⟩ :: rs)).map (·.holder) =
      (d.serving (⟨m, false⟩ :: rs)).map (·.holder) := by
    by_cases hm : m ∈ d.servers
    · rw [serving_cons_of_mem hm, serving_cons_of_mem hm]
      rfl
    · rw [serving_cons_of_not_mem hm, serving_cons_of_not_mem hm]
  have hmissing : d.missing (⟨m, true⟩ :: rs) = d.missing (⟨m, false⟩ :: rs) := by
    refine missing_eq_of_reach ?_
    have hzones := congrArg (fun ms : List MemberId => (ms.map (·.zone)).toFinset) hserving
    simp only [List.map_map] at hzones
    exact hzones
  have hdrift : d.drift (⟨m, true⟩ :: rs) = d.drift (⟨m, false⟩ :: rs) := by
    refine drift_eq_of_serving ?_ hmissing
    have hlength := congrArg List.length hserving
    rwa [List.length_map, List.length_map] at hlength
  have hretiring : d.retiring (⟨m, true⟩ :: rs) = d.retiring (⟨m, false⟩ :: rs) := by
    unfold retiring
    rw [List.countP_cons, List.countP_cons]
  have hunflagged : unflagged (⟨m, false⟩ :: rs) = unflagged (⟨m, true⟩ :: rs) + 1 := by
    unfold unflagged
    rw [List.countP_cons_of_pos rfl, List.countP_cons_of_neg (by simp)]
  unfold backlog
  rw [hmissing, hdrift, hretiring, hunflagged]
  exact Nat.lt_succ_self _

/-- A member takes a replica that is wanted.  If a zone is missing, the member is in one that is. -/
theorem backlog_lt_of_claim (hr : r.holder ∈ d.servers)
    (hneeded : 0 < d.missing rs ∨ (d.serving rs).length < d.wanted)
    (hzone : 0 < d.missing rs → r.holder.zone ∉ d.reach rs) (hwanted : d.wanted ≤ d.bound)
    (hrs : rs.length < d.bound) : d.backlog (r :: rs) < d.backlog rs := by
  have hlength : (r :: rs).length ≤ d.bound := hrs
  have hdrift' := drift_le hwanted hlength
  have hretiring' := d.retiring_le (r :: rs)
  have hunflagged' := unflagged_le (r :: rs)
  have hserving : (d.serving (r :: rs)).length = (d.serving rs).length + 1 := by
    rw [serving_cons_of_mem hr, List.length_cons]
  unfold backlog
  by_cases hmissing : 0 < d.missing rs
  · have hreach : (d.reach (r :: rs)).card = (d.reach rs).card + 1 := by
      rw [reach_cons_of_mem hr, Finset.card_insert_of_notMem (hzone hmissing)]
    have hless : d.missing (r :: rs) < d.missing rs := by
      unfold missing at hmissing ⊢
      omega
    exact digit_lt (digit_lt (digit_lt hless hdrift') (by omega)) (by omega)
  · have hreach : (d.reach rs).card ≤ (d.reach (r :: rs)).card := by
      rw [reach_cons_of_mem hr]
      exact Finset.card_le_card (Finset.subset_insert _ _)
    have hsame : d.missing (r :: rs) = d.missing rs := by
      unfold missing at hmissing ⊢
      omega
    have hless : d.drift (r :: rs) < d.drift rs := by
      unfold drift
      rw [hsame, if_neg hmissing, if_neg hmissing, hserving]
      omega
    rw [hsame]
    exact digit_lt (digit_lt (by omega) (by omega)) (by omega)

/-- A member gives up a replica that is not needed.  Its zone is not lost, or does not count. -/
theorem backlog_lt_of_release (hperm : rs'.Perm (r :: rs)) (hr : r.holder ∈ d.servers)
    (hneedless : 0 < d.missing rs' ∨ d.wanted < (d.serving rs').length)
    (hzone : r.holder.zone ∈ d.reach rs ∨ d.wanted < (d.reach rs').card) (hrs : rs.length ≤ d.bound) :
    d.backlog rs < d.backlog rs' := by
  have hretiring' := d.retiring_le rs
  have hunflagged' := unflagged_le rs
  have hserving := (d.serving_perm hperm).length_eq
  rw [serving_cons_of_mem hr, List.length_cons] at hserving
  have hreach := d.reach_perm hperm
  rw [reach_cons_of_mem hr] at hreach
  have hmissing : d.missing rs = d.missing rs' := by
    rcases hzone with hzone | hzone
    · exact missing_eq_of_reach (by rw [hreach, Finset.insert_eq_of_mem hzone])
    · have hcard : (d.reach rs').card ≤ (d.reach rs).card + 1 := by
        rw [hreach]
        exact Finset.card_insert_le _ _
      have hspan : d.span ≤ d.wanted := Nat.min_le_left _ _
      unfold missing
      omega
  have hless : d.drift rs < d.drift rs' := by
    unfold drift
    rw [hmissing, hserving]
    split <;> omega
  unfold backlog
  rw [hmissing]
  exact digit_lt (digit_lt (by omega) (by omega)) (by omega)

end Demand

end Allotment
