import Allotment.Plan.Shedding
import Allotment.Proofs.Plan.Intact
import Mathlib

/-!
# The choice of what to shed

The candidates of a member are sorted and its excess is taken off the front.  Whether one of them is taken depends
on how many come up to it: no more than are taken, if nothing ties with it (`countP_le_of_mem_take`,
`mem_take_of_countP_le`).  For a replica of an over-replicated item these are other replicas of such items at high
enough slots, which are counted item by item (`Snapshot.rank`), as the live load of the member is
(`Snapshot.liveLoad_eq`).  So a replica is shed if its rank is at most the excess of its holder
(`Snapshot.mem_shedding_of_rank_le`), and only then unless it ties (`Snapshot.rank_le_of_mem_shedding`).
-/

namespace Allotment

/-! ### The first of a list in order -/

section Rank

variable {α : Type} {le : α → α → Bool} {l : List α} {n : Nat} {x : α}

/-- Whatever comes among the first `n` has at most `n` elements up to it, if nothing ties with it. -/
theorem countP_le_of_mem_take (htrans : ∀ a b c, le a b = true → le b c = true → le a c = true)
    (htotal : ∀ a b, (le a b || le b a) = true) (hnodup : l.Nodup)
    (hx : x ∈ (l.mergeSort le).take n) (hties : ∀ y ∈ l, le x y = true → le y x = true → y = x) :
    l.countP (le · x) ≤ n := by
  have hsorted := List.pairwise_mergeSort htrans htotal l
  have hperm := List.mergeSort_perm l le
  rw [← List.take_append_drop n (l.mergeSort le)] at hsorted hperm
  obtain ⟨-, -, hlater⟩ := List.pairwise_append.1 hsorted
  have hapart := List.nodup_append.1 (hperm.nodup_iff.2 hnodup)
  have hnone : ((l.mergeSort le).drop n).countP (le · x) = 0 := by
    refine List.countP_eq_zero.2 fun y hy hle => ?_
    have hmem := hperm.mem_iff.1 (List.mem_append_right _ hy)
    exact hapart.2.2 x hx y hy (hties y hmem (hlater x hx y hy) hle).symm
  rw [← hperm.countP_eq, List.countP_append, hnone, Nat.add_zero]
  exact Nat.le_trans List.countP_le_length (List.length_take_le n _)

/-- Whatever has at most `n` elements up to it comes among the first `n`. -/
theorem mem_take_of_countP_le (htrans : ∀ a b c, le a b = true → le b c = true → le a c = true)
    (htotal : ∀ a b, (le a b || le b a) = true) (hx : x ∈ l) (h : l.countP (le · x) ≤ n) :
    x ∈ (l.mergeSort le).take n := by
  have hsorted := List.pairwise_mergeSort htrans htotal l
  have hperm := List.mergeSort_perm l le
  have hmem := hperm.mem_iff.2 hx
  rw [← List.take_append_drop n (l.mergeSort le)] at hsorted hperm hmem
  refine (List.mem_append.1 hmem).resolve_right fun hdrop => ?_
  obtain ⟨-, -, hlater⟩ := List.pairwise_append.1 hsorted
  have hself : le x x = true := by simpa using htotal x x
  have hbefore : ((l.mergeSort le).take n).countP (le · x) = ((l.mergeSort le).take n).length :=
    List.countP_eq_length.2 fun y hy => hlater y hy x hdrop
  have hlater : 0 < ((l.mergeSort le).drop n).countP (le · x) := List.countP_pos_iff.2 ⟨x, hdrop, hself⟩
  have hpos := List.length_pos_of_mem hdrop
  rw [← hperm.countP_eq, List.countP_append, hbefore, List.length_take] at h
  rw [List.length_drop] at hpos
  omega

end Rank

namespace Candidate

variable {a b c : Candidate}

theorem le_iff : le a b = true ↔
    (a.overReplicated = true ∧ b.overReplicated = false) ∨
      (a.overReplicated = b.overReplicated ∧ (b.replica.slot < a.replica.slot ∨
        (a.replica.slot = b.replica.slot ∧ a.replica.assignment.item ≤ b.replica.assignment.item))) := by
  unfold le
  cases a.overReplicated <;> cases b.overReplicated <;>
    by_cases hs : a.replica.slot = b.replica.slot <;> simp [hs]

theorem le_trans (a b c : Candidate) (hab : le a b = true) (hbc : le b c = true) : le a c = true := by
  rw [le_iff] at hab hbc ⊢
  rcases hab with ⟨ha, hb⟩ | ⟨he, hab⟩ <;> rcases hbc with ⟨hb', hc⟩ | ⟨he', hbc⟩
  · exact .inl ⟨ha, hc⟩
  · exact .inl ⟨ha, he' ▸ hb⟩
  · exact .inl ⟨he ▸ hb', hc⟩
  · refine .inr ⟨he.trans he', ?_⟩
    rcases hab with hab | ⟨hab, hi⟩ <;> rcases hbc with hbc | ⟨hbc, hi'⟩
    · exact .inl (Nat.lt_trans hbc hab)
    · exact .inl (hbc ▸ hab)
    · exact .inl (hab ▸ hbc)
    · exact .inr ⟨hab.trans hbc, String.le_trans hi hi'⟩

theorem le_total (a b : Candidate) : (le a b || le b a) = true := by
  have hbest : ∀ {a b : Candidate}, a.overReplicated = b.overReplicated →
      le a b = true ∨ le b a = true := fun {a b} he => by
    rw [le_iff, le_iff]
    rcases Nat.lt_trichotomy a.replica.slot b.replica.slot with hlt | heq | hlt
    · exact .inr (.inr ⟨he.symm, .inl hlt⟩)
    · exact (String.le_total a.replica.assignment.item b.replica.assignment.item).imp
        (fun hi => .inr ⟨he, .inr ⟨heq, hi⟩⟩) fun hi => .inr ⟨he.symm, .inr ⟨heq.symm, hi⟩⟩
    · exact .inl (.inr ⟨he, .inl hlt⟩)
  rw [Bool.or_eq_true]
  cases ha : a.overReplicated <;> cases hb : b.overReplicated
  · exact hbest (ha.trans hb.symm)
  · exact .inr (le_iff.2 (.inl ⟨hb, ha⟩))
  · exact .inl (le_iff.2 (.inl ⟨ha, hb⟩))
  · exact hbest (ha.trans hb.symm)

/-- Two replicas tie only at one slot of one item. -/
theorem slot_eq_of_le_of_le (hab : le a b = true) (hba : le b a = true) :
    a.overReplicated = b.overReplicated ∧ a.replica.slot = b.replica.slot ∧
      a.replica.assignment.item = b.replica.assignment.item := by
  rw [le_iff] at hab hba
  rcases hab with ⟨ha, hb⟩ | ⟨he, hab⟩
  · rcases hba with ⟨hb', -⟩ | ⟨he, -⟩
    · exact nomatch hb.symm.trans hb'
    · exact nomatch hb.symm.trans (he.trans ha)
  · rcases hba with ⟨hb', ha'⟩ | ⟨-, hba⟩
    · exact nomatch ha'.symm.trans (he.trans hb')
    · rcases hab with hab | ⟨hs, hi⟩ <;> rcases hba with hba | ⟨hs', hi'⟩
      · omega
      · omega
      · omega
      · exact ⟨he, hs, String.le_antisymm hi hi'⟩

end Candidate

/-! ### Sums over items -/

/-- Assignments of some items are counted item by item. -/
theorem countP_eq_sum_items {ids : List String} (hids : ids.Nodup) (as : List Assignment)
    (p : Assignment → Bool) : (as.filter fun a => ids.contains a.item).countP p =
      (ids.map fun id => (as.filter (·.item == id)).countP p).sum := by
  induction ids with
  | nil => simp
  | cons id ids ih =>
    obtain ⟨hnot, hids⟩ := List.nodup_cons.1 hids
    have hone : (as.filter fun a => (id :: ids).contains a.item).filter (·.item == id) =
        as.filter (·.item == id) := by
      rw [List.filter_filter]
      refine List.filter_congr fun a _ => ?_
      by_cases ha : a.item = id <;> simp [ha]
    have hrest : (as.filter fun a => (id :: ids).contains a.item).filter (fun a => !(a.item == id)) =
        as.filter fun a => ids.contains a.item := by
      rw [List.filter_filter]
      refine List.filter_congr fun a _ => ?_
      by_cases ha : a.item = id
      · subst ha
        simp [hnot]
      · simp [ha]
    rw [List.countP_eq_countP_filter_add _ p (·.item == id), hone, hrest, ih hids, List.map_cons,
      List.sum_cons]

namespace Snapshot

variable {s : Snapshot}

theorem nodup_ids_items (hs : s.IsFaithful) : (s.items.map (·.value.id)).Nodup :=
  List.Nodup.map_on (fun _ hi _ hj he => eq_of_mem_items hs hi hj he) ((nodup_view s _ _).of_map _)

theorem isSome_item?_iff (hs : s.IsFaithful) {id : String} :
    (s.item? id).isSome = true ↔ id ∈ s.items.map (·.value.id) := by
  rw [Option.isSome_iff_exists, List.mem_map]
  exact exists_congr fun i => item?_eq_some_iff hs

/-- The number of assignments of existing items that a member holds. -/
def liveLoad (s : Snapshot) (m : MemberId) : Nat :=
  (s.items.map fun i => (s.held i.value.id).countP (·.holder == m)).sum

/-- The seat of a member counts its live load. -/
theorem liveLoad_eq (hs : s.IsFaithful) (m : MemberId) :
    ((s.assignments.map (·.value)).filter fun a => (s.item? a.item).isSome).countP (·.holder == m) =
      s.liveLoad m := by
  have hlive : ((s.assignments.map (·.value)).filter fun a => (s.item? a.item).isSome) =
      (s.assignments.map (·.value)).filter fun a => (s.items.map (·.value.id)).contains a.item := by
    refine List.filter_congr fun a _ => ?_
    rw [Bool.eq_iff_iff, isSome_item?_iff hs, List.contains_iff_mem]
  rw [hlive, countP_eq_sum_items (nodup_ids_items hs), List.map_map]
  rfl

/-- What counts nothing for items that do not exist is summed over the items that do. -/
theorem sum_itemIds (hs : s.IsFaithful) {f : String → Nat} (hf : ∀ id, s.item? id = none → f id = 0) :
    ((Roster.itemIds s).map f).sum = (s.items.map fun i => f i.value.id).sum := by
  have hperm : ((Roster.itemIds s).filter fun id => (s.item? id).isSome).Perm
      (s.items.map (·.value.id)) := by
    rw [List.perm_ext_iff_of_nodup ((Roster.nodup_itemIds s).filter _) (nodup_ids_items hs)]
    intro id
    rw [List.mem_filter, isSome_item?_iff hs, and_iff_right_iff_imp]
    intro hid
    obtain ⟨i, hi, he⟩ := List.mem_map.1 hid
    exact Roster.mem_itemIds_iff.2 (.inl ⟨i, hi, he⟩)
  have hsplit := List.sum_map_filter_add_sum_map_filter_not (fun id => (s.item? id).isSome = true) f
    (Roster.itemIds s)
  have hnone : (((Roster.itemIds s).filter fun id => ¬ (s.item? id).isSome = true).map f).sum = 0 := by
    refine List.sum_eq_zero (List.forall_mem_map.2 fun id hid => hf id ?_)
    simpa using (List.mem_filter.1 hid).2
  have hsome := (hperm.map f).sum_nat
  rw [List.map_map] at hsome
  simp only [Bool.decide_eq_true] at hsplit
  rw [← hsplit, hnone, Nat.add_zero]
  exact hsome

/-! ### Candidates -/

/-- The item exists and has more replicas than it wants. -/
def IsOver (s : Snapshot) (item : String) : Prop :=
  ∃ i ∈ s.items, i.value.id = item ∧ i.value.replication < (s.held item).length

instance (s : Snapshot) (item : String) : Decidable (s.IsOver item) :=
  inferInstanceAs (Decidable (∃ i ∈ s.items, i.value.id = item ∧ i.value.replication < (s.held item).length))

theorem isOver_iff (hs : s.IsFaithful) {i : Entry Item} (hi : i ∈ s.items) :
    s.IsOver i.value.id ↔ i.value.replication < (s.held i.value.id).length := by
  refine ⟨fun ⟨j, hj, he, hlt⟩ => ?_, fun hlt => ⟨i, hi, rfl, hlt⟩⟩
  rwa [eq_of_mem_items hs hj hi he] at hlt

/-- The replicas that a member may shed. -/
def candidates (s : Snapshot) (m : MemberId) : List Candidate :=
  (Roster.ofSnapshot s).groups.flatMap (Candidate.ofGroup m)

/-- An assignment as a replica that may be shed. -/
def candidate (s : Snapshot) (e : Entry Assignment) : Candidate :=
  ⟨decide (s.IsOver e.value.item), Roster.replica s e⟩

theorem length_group (s : Snapshot) (id : String) :
    (Roster.group s (s.assignments.map (Roster.replica s)) id).replicas.length = (s.held id).length := by
  rw [← (Roster.assignments_group_perm s id).length_eq, List.length_map]

theorem isHeldBy_replica {e : Entry Assignment} {m : MemberId} :
    (Roster.replica s e).isHeldBy m = true ↔ e.value.holder = m ∧ (s.member? m).isSome = true := by
  unfold Replica.isHeldBy Roster.replica Replica.holder
  rw [Bool.and_eq_true, Bool.not_eq_true', beq_iff_eq, Option.isNone_eq_false_iff]
  constructor
  · rintro ⟨h, rfl⟩
    exact ⟨rfl, h⟩
  · rintro ⟨rfl, h⟩
    exact ⟨h, rfl⟩

/-- The candidates of a group. -/
theorem ofGroup_group (hs : s.IsFaithful) (m : MemberId) {i : Entry Item} (hi : i ∈ s.items) :
    Candidate.ofGroup m (Roster.group s (s.assignments.map (Roster.replica s)) i.value.id) =
      ((Roster.group s (s.assignments.map (Roster.replica s)) i.value.id).replicas.filter
        (·.isHeldBy m)).map (⟨decide (s.IsOver i.value.id), ·⟩) := by
  have hwanted : (Roster.group s (s.assignments.map (Roster.replica s)) i.value.id).wanted = some i :=
    (item?_eq_some_iff hs).2 ⟨hi, rfl⟩
  unfold Candidate.ofGroup
  simp only [hwanted, length_group, isOver_iff hs hi]

theorem mem_candidates_iff (hs : s.IsFaithful) {m : MemberId} {c : Candidate} :
    c ∈ s.candidates m ↔ (s.member? m).isSome = true ∧ ∃ e ∈ s.assignments, e.value.holder = m ∧
      (∃ i ∈ s.items, i.value.id = e.value.item) ∧ c = s.candidate e := by
  unfold candidates
  rw [List.mem_flatMap]
  constructor
  · rintro ⟨g, hg, hc⟩
    obtain ⟨i, hw, -⟩ := Candidate.mem_ofGroup_iff.1 hc
    obtain ⟨hi, hgi⟩ := Roster.id_of_wanted hs hg hw
    rw [(Roster.mem_groups_iff.1 hg).2, ← hgi, ofGroup_group hs m hi] at hc
    obtain ⟨r, hr, rfl⟩ := List.mem_map.1 hc
    obtain ⟨hr, hheld⟩ := List.mem_filter.1 hr
    obtain ⟨e, he, rfl, hei⟩ := Roster.mem_replicas_group_iff.1 hr
    obtain ⟨hholder, hm⟩ := isHeldBy_replica.1 hheld
    exact ⟨hm, e, he, hholder, ⟨i, hi, hei.symm⟩, by rw [← hei]; rfl⟩
  · rintro ⟨hm, e, he, hholder, ⟨i, hi, hie⟩, rfl⟩
    refine ⟨Roster.group s (s.assignments.map (Roster.replica s)) i.value.id,
      Roster.mem_groups_iff.2 ⟨Roster.mem_itemIds_iff.2 (.inl ⟨i, hi, rfl⟩), rfl⟩, ?_⟩
    rw [ofGroup_group hs m hi]
    refine List.mem_map.2 ⟨Roster.replica s e, List.mem_filter.2
      ⟨Roster.mem_replicas_group_iff.2 ⟨e, he, rfl, hie.symm⟩, isHeldBy_replica.2 ⟨hholder, hm⟩⟩, ?_⟩
    rw [hie]
    rfl

/-- An assignment is shed if it comes early enough among the candidates of its holder. -/
theorem mem_shedding_iff (hs : s.IsFaithful) {e : Entry Assignment} (he : e ∈ s.assignments) :
    e.key ∈ (Roster.ofSnapshot s).shedding ↔ ∃ m, s.member? e.value.holder = some m ∧
      s.candidate e ∈ ((s.candidates e.value.holder).mergeSort Candidate.le).take
        (s.liveLoad e.value.holder - m.value.limit) := by
  unfold Roster.shedding
  simp only [List.mem_map, List.mem_flatMap]
  constructor
  · rintro ⟨r, ⟨seat, hseat, hr⟩, hkey⟩
    obtain ⟨m, hm, rfl⟩ := Roster.mem_seats_iff.1 hseat
    obtain ⟨c, hc, rfl⟩ := List.mem_map.1 hr
    have hc : c ∈ ((s.candidates m.value.id).mergeSort Candidate.le).take
        (((s.assignments.map (·.value)).filter fun a => (s.item? a.item).isSome).countP
          (·.holder == m.value.id) - m.value.limit) := hc
    obtain ⟨-, e', he', hholder, -, rfl⟩ :=
      (mem_candidates_iff hs).1 (List.mem_mergeSort.1 (List.mem_of_mem_take hc))
    obtain rfl : e' = e := List.inj_on_of_nodup_map (nodup_view s _ _) he' he hkey
    rw [liveLoad_eq hs, ← hholder] at hc
    exact ⟨m, (member?_eq_some_iff hs).2 ⟨hm, hholder.symm⟩, hc⟩
  · rintro ⟨m, hm, hc⟩
    obtain ⟨hm, hid⟩ := (member?_eq_some_iff hs).1 hm
    refine ⟨Roster.replica s e, ⟨_, Roster.mem_seats_iff.2 ⟨m, hm, rfl⟩, ?_⟩, rfl⟩
    refine List.mem_map.2 ⟨s.candidate e, ?_, rfl⟩
    show s.candidate e ∈ ((s.candidates m.value.id).mergeSort Candidate.le).take
        (((s.assignments.map (·.value)).filter fun a => (s.item? a.item).isSome).countP
          (·.holder == m.value.id) - m.value.limit)
    rwa [liveLoad_eq hs, hid]

/-! ### Ranks -/

/-- The replicas of an item that a member holds at slots from `n` on. -/
def heldFrom (s : Snapshot) (m : MemberId) (item : String) (n : Nat) : Nat :=
  (s.held item).countP fun a => a.holder == m && decide (n ≤ a.slot)

/-- The lowest slot at which a replica of an item goes no later than `a`, where both items are
over-replicated. -/
def bar (a : Assignment) (item : String) : Nat :=
  if item ≤ a.item then a.slot else a.slot + 1

/-- How many replicas its holder sheds up to one of an over-replicated item. -/
def rank (s : Snapshot) (a : Assignment) : Nat :=
  (s.items.map fun i =>
    if s.IsOver i.value.id then s.heldFrom a.holder i.value.id (bar a i.value.id) else 0).sum

/-- Among replicas of over-replicated items, those that go no later than another are at the bar or above. -/
theorem le_candidate_iff {a b : Candidate} (ha : a.overReplicated = true) : Candidate.le b a = true ↔
    b.overReplicated = true ∧ bar a.replica.assignment b.replica.assignment.item ≤ b.replica.slot := by
  rw [Candidate.le_iff, ha]
  unfold bar
  have hslot : a.replica.assignment.slot = a.replica.slot := rfl
  rw [hslot]
  cases b.overReplicated with
  | false => simp
  | true =>
    split
    next hi =>
      simp only [hi, and_true, true_and, Bool.true_eq_false, and_false, false_or]
      omega
    next hi =>
      simp only [hi, and_false, or_false, true_and, Bool.true_eq_false, false_or]
      omega

/-- The candidates of one item up to a replica of an over-replicated one. -/
theorem countP_ofGroup (hs : s.IsFaithful) {c : Candidate} (hc : c.overReplicated = true) {m : MemberId}
    (hm : (s.member? m).isSome = true) {i : Entry Item} (hi : i ∈ s.items) :
    (Candidate.ofGroup m (Roster.group s (s.assignments.map (Roster.replica s)) i.value.id)).countP
        (Candidate.le · c) =
      if s.IsOver i.value.id then s.heldFrom m i.value.id (bar c.replica.assignment i.value.id) else 0 := by
  rw [ofGroup_group hs m hi, List.countP_map, List.countP_filter]
  split
  next hover =>
    unfold heldFrom
    rw [← (Roster.assignments_group_perm s i.value.id).countP_eq, List.countP_map]
    refine List.countP_congr fun r hr => ?_
    obtain ⟨e, -, rfl, hei⟩ := Roster.mem_replicas_group_iff.1 hr
    have hitem : (Roster.replica s e).assignment.item = i.value.id := hei
    simp only [Function.comp_apply, Bool.and_eq_true, beq_iff_eq, decide_eq_true_eq]
    rw [le_candidate_iff hc, isHeldBy_replica, hitem]
    show (decide (s.IsOver i.value.id) = true ∧ _ ≤ e.value.slot) ∧ e.value.holder = m ∧ _ ↔
      e.value.holder = m ∧ _ ≤ e.value.slot
    simp only [hover, hm, decide_true, true_and, and_true]
    exact and_comm
  next hover =>
    refine List.countP_eq_zero.2 fun r _ hr => ?_
    have hle := (Bool.and_eq_true_iff.1 hr).1
    exact hover (of_decide_eq_true ((le_candidate_iff hc).1 hle).1)

theorem countP_candidates (hs : s.IsFaithful) {e : Entry Assignment} (hover : s.IsOver e.value.item)
    (hm : (s.member? e.value.holder).isSome = true) :
    (s.candidates e.value.holder).countP (Candidate.le · (s.candidate e)) = s.rank e.value := by
  have hc : (s.candidate e).overReplicated = true := decide_eq_true hover
  have hgroups : (Roster.ofSnapshot s).groups = (Roster.itemIds s).map fun id =>
      Roster.group s (s.assignments.map (Roster.replica s)) id := rfl
  unfold candidates rank
  rw [List.countP_flatMap, hgroups, List.map_map]
  refine (sum_itemIds hs fun id hid => ?_).trans ?_
  · have hwanted : (Roster.group s (s.assignments.map (Roster.replica s)) id).wanted = none := hid
    simp [Candidate.ofGroup, hwanted]
  · refine congrArg List.sum (List.map_congr_left fun i hi => ?_)
    exact countP_ofGroup hs hc hm hi

theorem mem_candidates (hs : s.IsFaithful) {e : Entry Assignment} (he : e ∈ s.assignments)
    (hover : s.IsOver e.value.item) (hm : (s.member? e.value.holder).isSome = true) :
    s.candidate e ∈ s.candidates e.value.holder := by
  obtain ⟨i, hi, hie, -⟩ := hover
  exact (mem_candidates_iff hs).2 ⟨hm, e, he, rfl, ⟨i, hi, hie⟩, rfl⟩

theorem nodup_candidates (hs : s.IsFaithful) (m : MemberId) : (s.candidates m).Nodup := by
  unfold candidates
  rw [List.nodup_flatMap]
  constructor
  · intro g hg
    obtain ⟨hid, he⟩ := Roster.mem_groups_iff.1 hg
    have hreplicas : g.replicas.Nodup := he ▸ (Roster.replicasOf_group hs hid).nodup_self
    unfold Candidate.ofGroup
    split
    next => exact List.nodup_nil
    next => exact (hreplicas.filter _).map fun _ _ h => (Candidate.mk.inj h).2
  · have hids : (Roster.ofSnapshot s).groups.Pairwise fun g g' => g.id ≠ g'.id :=
      List.pairwise_map.2 (Roster.nodup_itemIds s)
    refine hids.imp_of_mem fun {g g'} hg hg' hne c hc hc' => hne ?_
    have hitem : ∀ {g : Group}, g ∈ (Roster.ofSnapshot s).groups → c ∈ Candidate.ofGroup m g →
        c.replica.assignment.item = g.id := fun {g} hg hc => by
      obtain ⟨hid, he⟩ := Roster.mem_groups_iff.1 hg
      obtain ⟨-, -, hmem, -⟩ := Candidate.mem_ofGroup_iff.1 hc
      rw [he] at hmem
      exact (Roster.replicasOf_group hs hid).item_eq _ hmem
    exact (hitem hg hc).symm.trans (hitem hg' hc')

/-- What is shed ranks among the excess of its holder, if it ties with nothing. -/
theorem rank_le_of_mem_shedding (hs : s.IsFaithful) {e : Entry Assignment} (he : e ∈ s.assignments)
    (hover : s.IsOver e.value.item)
    (hapart : ∀ q ∈ s.assignments, q.value.holder = e.value.holder → q.value.item = e.value.item →
      q.value.slot = e.value.slot → q = e)
    (h : e.key ∈ (Roster.ofSnapshot s).shedding) :
    ∃ m, s.member? e.value.holder = some m ∧
      s.rank e.value ≤ s.liveLoad e.value.holder - m.value.limit := by
  obtain ⟨m, hm, hc⟩ := (mem_shedding_iff hs he).1 h
  refine ⟨m, hm, ?_⟩
  rw [← countP_candidates hs hover (by rw [hm]; rfl)]
  refine countP_le_of_mem_take Candidate.le_trans Candidate.le_total (nodup_candidates hs _) hc
    fun c hmem hle hle' => ?_
  obtain ⟨-, q, hq, hholder, -, rfl⟩ := (mem_candidates_iff hs).1 hmem
  obtain ⟨-, hslot, hitem⟩ := Candidate.slot_eq_of_le_of_le hle hle'
  rw [hapart q hq hholder hitem.symm hslot.symm]

/-- What ranks among the excess of its holder is shed. -/
theorem mem_shedding_of_rank_le (hs : s.IsFaithful) {e : Entry Assignment} (he : e ∈ s.assignments)
    (hover : s.IsOver e.value.item) {m : Entry Member} (hm : s.member? e.value.holder = some m)
    (h : s.rank e.value ≤ s.liveLoad e.value.holder - m.value.limit) :
    e.key ∈ (Roster.ofSnapshot s).shedding := by
  have hsome : (s.member? e.value.holder).isSome = true := by rw [hm]; rfl
  rw [← countP_candidates hs hover hsome] at h
  exact (mem_shedding_iff hs he).2 ⟨m, hm, mem_take_of_countP_le Candidate.le_trans Candidate.le_total
    (mem_candidates hs he hover hsome) h⟩

end Snapshot

end Allotment
