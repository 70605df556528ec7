import Allotment.Proofs.Plan.Account
import Allotment.Proofs.Plan.Intact
import Allotment.Proofs.Plan.Truncation

/-!
# How large a transaction gets

The bound on the writes of a transaction is kept by all shares but the first, which is taken whatever its size
since it can not be split and would never be made otherwise.  A transaction beyond the bound is therefore the
share in one item (`bounded_of_members`, `exists_beyond_bound`).  How large that is depends on the item alone:
there are at most two writes for each of its assignments (`length_placedWrites_le`), so that the bound is
kept wherever it admits as many (`length_writes_le_of_held`).
-/

namespace Allotment

/-! ### The size of a share -/

namespace Viewpoint

variable {v : Viewpoint} {repairs : Nat} {item : Entry Item} {rs : List Replica} {p : Placement}

theorem length_moveWrites (flags : Option Replica) (ms : List (Replica × Nat)) :
    (ms.flatMap (v.moveWrites flags)).length = 2 * ms.length := by
  induction ms with
  | nil => rfl
  | cons m ms ih =>
    rw [List.flatMap_cons, List.length_append, ih, List.length_cons]
    show 2 + _ = _
    omega

/-- A replica that is renumbered takes two writes, and everything else takes one. -/
theorem length_placedWrites (v : Viewpoint) (repairs : Nat) (item : Entry Item) (rs : List Replica)
    (p : Placement) : (v.placedWrites repairs item rs p).length =
      (v.deleted repairs item p).length + 2 * (v.moving repairs item rs p).length +
        (if v.claims repairs item rs p then 1 else 0) + (v.flagging repairs item rs p).toList.length := by
  unfold placedWrites
  rw [List.length_append, List.length_append, List.length_append, List.length_map, List.length_map,
    length_moveWrites, length_claiming]

/-- Without a deletion, one replica moves at most. -/
theorem length_moving_le_one (h : v.deleted repairs item p = []) (rs : List Replica) :
    (v.moving repairs item rs p).length ≤ 1 := by
  unfold moving moves
  rw [h, List.isEmpty_nil, if_pos rfl]
  exact Nat.le_trans (List.length_filter_le _ _) (List.length_take_le _ _)

/-- Nothing becomes consistent in its place while something moves. -/
theorem flagging_eq_none_of_moving (hd : v.deleted repairs item p = [])
    (hm : v.moving repairs item rs p ≠ []) : v.flagging repairs item rs p = none := by
  have hgaps : areDense (rs.map (·.assignment)) = false := by
    refine Bool.eq_false_iff.2 fun hdense => hm (moving_eq_nil_of_dense hd ?_)
    have hslots := countsUp_iff.1 hdense
    rwa [List.map_map, List.length_map] at hslots
  unfold flagging
  rw [hgaps, Bool.not_false, Bool.or_true, if_pos rfl]

theorem flagging_eq_none_of_pending (h : v.pending item p = none) : v.flagging repairs item rs p = none := by
  unfold flagging
  rw [h, ite_self]

theorem length_deleted_add_spared (v : Viewpoint) (repairs : Nat) (item : Entry Item) (hp : p.Fits rs)
    (hrs : rs.Nodup) :
    (v.deleted repairs item p).length + (v.spared repairs item rs p).length = rs.length := by
  rw [(perm_deleted_append_spared v repairs item hp hrs).length_eq, List.length_append]

/-- With a deletion, there are at most two writes for each replica. -/
theorem length_placedWrites_of_deleted (hp : p.Fits rs) (hrs : rs.Nodup)
    (hd : v.deleted repairs item p ≠ []) : (v.placedWrites repairs item rs p).length ≤ 2 * rs.length := by
  -- nothing is claimed and nothing becomes consistent, so that only what goes and what moves is written
  have hpending : v.pending item p = none :=
    Option.eq_none_iff_forall_ne_some.2 fun r hr => hd (deleted_eq_nil_of_pending hr)
  have hclaims : v.claims repairs item rs p = false :=
    Bool.eq_false_iff.2 fun hclaims => hd (claims_eq_true_iff.1 hclaims).1
  have hmoving := (moving_sublist v repairs item rs p).length_le
  have hspared := length_renumbering_le (v.spared repairs item rs p)
  have hall := length_deleted_add_spared v repairs item hp hrs
  rw [length_placedWrites, hclaims, flagging_eq_none_of_pending hpending, if_neg Bool.false_ne_true]
  show _ + 0 + 0 ≤ _
  omega

/-- Without one, a single replica moves, comes or becomes consistent. -/
theorem length_placedWrites_of_not_deleted (hp : p.Fits rs) (hd : v.deleted repairs item p = []) :
    (v.placedWrites repairs item rs p).length ≤ max 1 (2 * rs.length) := by
  rw [length_placedWrites, hd]
  by_cases hm : v.moving repairs item rs p = []
  · rw [hm]
    cases hclaims : v.claims repairs item rs p with
    | true =>
      rw [flagging_eq_none_of_pending (pending_eq_none_of_claims hp hclaims)]
      exact Nat.le_max_left _ _
    | false =>
      have hflag := Option.length_toList_le (o := v.flagging repairs item rs p)
      rw [if_neg Bool.false_ne_true]
      show 0 + 2 * 0 + 0 + _ ≤ _
      omega
  · have hclaims : v.claims repairs item rs p = false :=
      Bool.eq_false_iff.2 fun hclaims => hm (claims_eq_true_iff.1 hclaims).2.1
    have hone := length_moving_le_one hd rs
    have hsome := (moving_sublist v repairs item rs p).length_le
    have hall := length_renumbering_le (v.spared repairs item rs p)
    have hpos := List.length_pos_iff.2 hm
    rw [spared_of_deleted_eq_nil hd] at hall hsome
    rw [hclaims, flagging_eq_none_of_moving hd hm, if_neg Bool.false_ne_true]
    show 0 + _ + 0 + 0 ≤ _
    omega

theorem length_placedWrites_le (v : Viewpoint) (repairs : Nat) (item : Entry Item) (hp : p.Fits rs)
    (hrs : rs.Nodup) : (v.placedWrites repairs item rs p).length ≤ max 1 (2 * rs.length) := by
  by_cases hd : v.deleted repairs item p = []
  · exact length_placedWrites_of_not_deleted hp hd
  · exact Nat.le_trans (length_placedWrites_of_deleted hp hrs hd) (Nat.le_max_right _ _)

/-- The share in an item has at most two writes for each replica, and one if there is none. -/
theorem length_writes_work_le {t : Planned} (ht : t.Fits) (hrs : t.replicas.Nodup) (repairs : Nat) :
    (v.work repairs t).writes.length ≤ max 1 (2 * t.replicas.length) := by
  cases t with
  | removed name rs =>
    show (v.removedWork repairs name rs).writes.length ≤ _
    rcases writes_removedWork_cases v repairs name rs with h | ⟨top, -, h, -⟩
    · rw [h]
      exact Nat.zero_le _
    · rw [h]
      exact Nat.le_max_left _ _
  | placed item rs p =>
    show (v.placedWork repairs item rs p).writes.length ≤ _
    rw [writes_placedWork]
    exact length_placedWrites_le v repairs item ht hrs

end Viewpoint

namespace Proposal

/-! ### Filling a transaction -/

section Fitting

variable {maxWrites n : Nat} {ws : List Work}

/-- Nothing is added to what is written already beyond the bound. -/
theorem add_written_fitting_le (hpos : 0 < n) (hn : n ≤ maxWrites) :
    n + written (ws.take (fitting maxWrites n ws)) ≤ maxWrites := by
  induction ws generalizing n with
  | nil => exact hn
  | cons w ws ih =>
    unfold fitting
    split
    next => exact hn
    next hfits =>
      have hle : n + w.writes.length ≤ maxWrites := Nat.not_lt.1 fun hover => hfits ⟨hpos, hover⟩
      have hrest := ih (Nat.add_pos_left hpos _) hle
      rw [List.take_succ_cons, written_cons]
      omega

/-- What is written stays within the bound, or it is the first work alone, which does not. -/
theorem written_fitting_cases (hws : ∀ w ∈ ws, w.writes ≠ []) (maxWrites : Nat) :
    written (ws.take (fitting maxWrites 0 ws)) ≤ maxWrites ∨
      ∃ w, ws.head? = some w ∧ fitting maxWrites 0 ws = 1 ∧ maxWrites < w.writes.length := by
  cases ws with
  | nil => exact .inl (Nat.zero_le _)
  | cons w ws =>
    have hpos : 0 < w.writes.length := List.length_pos_iff.2 (hws w List.mem_cons_self)
    have hfirst : fitting maxWrites 0 (w :: ws) = fitting maxWrites w.writes.length ws + 1 := by
      rw [fitting, if_neg fun h => absurd h.1 (Nat.lt_irrefl 0), Nat.zero_add]
    rw [hfirst]
    by_cases hle : w.writes.length ≤ maxWrites
    · left
      rw [List.take_succ_cons, written_cons]
      exact add_written_fitting_le hpos hle
    · refine .inr ⟨w, rfl, ?_, Nat.lt_of_not_le hle⟩
      -- nothing fits behind a work that is beyond the bound already
      cases ws with
      | nil => rfl
      | cons w' ws =>
        rw [fitting, if_pos ⟨hpos, by omega⟩]

end Fitting

/-! ### Proposals -/

variable {s : Snapshot} {self : MemberId} {b : Bounds} {e : Entry Member} {l : Layout} {revision : Int}
  {es : List (Entry Bytes)}

/-- A share has at most two writes for each assignment of its item, and one if there is none. -/
theorem length_writes_le_of_mem_shares (hs : s.IsFaithful) {t : String × Work} (ht : t ∈ shares s self b) :
    t.2.writes.length ≤ max 1 (2 * (s.held t.1).length) := by
  obtain ⟨hmem, -⟩ := List.mem_filter.1 ht
  obtain ⟨⟨repairs, planned⟩, htask, rfl⟩ := List.mem_map.1 hmem
  have hplanned : planned ∈ (Roster.ofSnapshot s).planned b := by
    rw [← (viewpoint s self).map_snd_tasks b.repairs ((Roster.ofSnapshot s).planned b)]
    exact List.mem_map_of_mem htask
  have hheld : planned.replicas.length = (s.held planned.name).length := by
    rw [(Roster.replicas_of_mem_planned hs hplanned).2, ← (Roster.assignments_group_perm s _).length_eq,
      List.length_map]
  rw [← hheld]
  exact Viewpoint.length_writes_work_le (Roster.fits_of_mem_planned hs hplanned)
    (Roster.replicasOf_of_mem_planned hs hplanned).nodup_self repairs

/-- A proposal stays within the bound, or it is the first share alone, which does not. -/
theorem length_writes_cases (hs : s.IsFaithful) (he : e ∈ s.members) (b : Bounds) :
    ∃ p, require s e.value.id b = .ok p ∧ (p.transaction.writes.length ≤ b.writes ∨
      ∃ t, (shares s e.value.id b).head? = some t ∧ p.transaction.writes = t.2.writes ∧
        b.writes < t.2.writes.length) := by
  have hts : ∀ t ∈ shares s e.value.id b, t.2.writes ≠ [] := fun _ => writes_ne_nil_of_mem_shares
  rcases ofSnapshot_of_mem_members hs he with hdrained | hfilled
  · exact ⟨_, require_eq_ok_iff.2 (hdrained b), .inl (Nat.zero_le _)⟩
  · refine ⟨_, require_eq_ok_iff.2 (hfilled b), ?_⟩
    have hwrites := (carries_filledAt hts s.revision e b.writes).1.writes
    rw [hwrites]
    rcases written_fitting_cases (List.forall_mem_map.2 hts) b.writes with hle | ⟨w, hw, hone, hover⟩
    · left
      rwa [written, ← List.map_take, List.flatMap_map] at hle
    · right
      rw [List.head?_map] at hw
      obtain ⟨t, ht, rfl⟩ := Option.map_eq_some_iff.1 hw
      refine ⟨t, ht, ?_, hover⟩
      obtain ⟨rest, hrest⟩ := List.head?_eq_some_iff.1 ht
      rw [hone, hrest, List.take_succ_cons, List.take_zero, List.flatMap_singleton]

/-- If the bound admits two writes for each assignment of any item, then every transaction keeps to it. -/
theorem length_writes_le_of_held (hs : s.IsFaithful) (he : e ∈ s.members) (hb : 1 ≤ b.writes)
    (hheld : ∀ item, 2 * (s.held item).length ≤ b.writes) :
    ∃ p, require s e.value.id b = .ok p ∧ p.transaction.writes.length ≤ b.writes := by
  obtain ⟨p, hp, hle | ⟨t, ht, -, hover⟩⟩ := length_writes_cases hs he b
  · exact ⟨p, hp, hle⟩
  · have hsize := length_writes_le_of_mem_shares hs (List.mem_of_head? ht)
    have hfew := hheld t.1
    omega

/-- The transaction of a member has no more writes than it may, unless the first of the shares that write
something has more by itself.  It is that share, then, and has at most two writes for each assignment of its
item. -/
theorem bounded_of_members (hs : Snapshot.ofEntries l revision es = .ok s) (he : e ∈ s.members)
    (hb : 1 ≤ b.writes) : ∃ p, require s e.value.id b = .ok p ∧
      (p.transaction.writes.length ≤ b.writes ∨
        ∃ t, (shares s e.value.id b).head? = some t ∧ p.transaction.writes = t.2.writes ∧
          b.writes < t.2.writes.length ∧ t.2.writes.length ≤ 2 * (s.held t.1).length) := by
  have hfaithful := Snapshot.faithful_of_ofEntries hs
  obtain ⟨p, hp, hle | ⟨t, ht, hwrites, hover⟩⟩ := length_writes_cases hfaithful he b
  · exact ⟨p, hp, .inl hle⟩
  · have hsize := length_writes_le_of_mem_shares hfaithful (List.mem_of_head? ht)
    exact ⟨p, hp, .inr ⟨t, ht, hwrites, hover, by omega⟩⟩

/-- A member that holds the only replica of an item, at slot 1. -/
def gapEntries : List (Entry Bytes) :=
  [⟨⟨Assignment.encode true, 1, 1⟩, "/r/assignments/w/a/m/1"⟩, ⟨⟨Item.encode 1, 1, 1⟩, "/r/items/w"⟩,
    ⟨⟨Member.encode 1, 1, 1⟩, "/r/members/a/m"⟩]

/-- What is read of it. -/
def gap : Snapshot :=
  ⟨⟨"/r"⟩, 1, ⟨[("/r/assignments/w/a/m/1", ⟨.assignment ⟨"w", ⟨"a", "m"⟩, 1, true⟩, 1, 1⟩),
    ("/r/items/w", ⟨.item ⟨"w", 1⟩, 1, 1⟩), ("/r/members/a/m", ⟨.member ⟨⟨"a", "m"⟩, 1⟩, 1, 1⟩)], by decide⟩⟩

theorem ofEntries_gap : Snapshot.ofEntries ⟨"/r"⟩ 1 gapEntries = .ok gap := by
  cbv

/-- The replica stays, and is to be moved. -/
def gapPlan : Planned :=
  let own : Replica := ⟨"/r/assignments/w/a/m/1", ⟨"w", ⟨"a", "m"⟩, 1, true⟩, false⟩
  .placed ⟨⟨⟨"w", 1⟩, 1, 1⟩, "/r/items/w"⟩ [own] ⟨[own], [], [], [], []⟩

theorem planned_gap : (Roster.ofSnapshot gap).planned ⟨1, 32⟩ = [gapPlan] := by
  simp only [gap, Roster.ofSnapshot, Roster.itemIds, Snapshot.members, Snapshot.items,
    Snapshot.assignments, Snapshot.view, Snapshot.under_eq]
  cbv

theorem seat?_gap : (Roster.ofSnapshot gap).seat? ⟨"a", "m"⟩ =
    some ⟨⟨"a", "m"⟩, "/r/members/a/m", 1, 1, 1, 0⟩ := by
  simp only [gap, Roster.ofSnapshot, Roster.itemIds, Snapshot.members, Snapshot.items,
    Snapshot.assignments, Snapshot.view, Snapshot.under_eq]
  cbv

theorem mem_members_gap :
    (⟨⟨⟨⟨"a", "m"⟩, 1⟩, 1, 1⟩, "/r/members/a/m"⟩ : Entry Member) ∈ gap.members := by
  simp only [gap, Snapshot.members, Snapshot.view, Snapshot.under_eq]
  decide +kernel

theorem writes_gapPlan (caretaker : MemberId) :
    ((Viewpoint.mk ⟨"/r"⟩ 1 ⟨"a", "m"⟩ caretaker).work 32 gapPlan).writes =
      [.delete "/r/assignments/w/a/m/1",
        .put ((Layout.mk "/r").assignmentKey "w" ⟨"a", "m"⟩ 0) (Assignment.encode true)] := by
  simp [gapPlan, Viewpoint.work, Viewpoint.placedWork, Viewpoint.released, Viewpoint.own?,
    Viewpoint.repaired, Viewpoint.moves, Viewpoint.moveWrites, renumbering, Packing.movers, Packing.gaps,
    Viewpoint.guarded, Replica.isHeldBy, Replica.holder, Replica.slot, List.range, List.range.loop]

/-- Closing the gap takes two writes. -/
theorem writes_gap {p : Proposal} (hp : require gap ⟨"a", "m"⟩ ⟨1, 32⟩ = .ok p) : p.transaction.writes =
    [.delete "/r/assignments/w/a/m/1",
      .put ((Layout.mk "/r").assignmentKey "w" ⟨"a", "m"⟩ 0) (Assignment.encode true)] :=
  (of_planned_singleton (require_eq_ok_iff.1 hp) seat?_gap rfl planned_gap).1.trans (writes_gapPlan _)

/-- With room for one write, the member still makes both. -/
theorem bounded_of_gap : ∃ p t, Snapshot.ofEntries ⟨"/r"⟩ 1 gapEntries = .ok gap ∧
    require gap ⟨"a", "m"⟩ ⟨1, 32⟩ = .ok p ∧ (shares gap ⟨"a", "m"⟩ ⟨1, 32⟩).head? = some t ∧
      p.transaction.writes = t.2.writes ∧ t.2.writes =
        [.delete "/r/assignments/w/a/m/1",
          .put ((Layout.mk "/r").assignmentKey "w" ⟨"a", "m"⟩ 0) (Assignment.encode true)] ∧
      t.2.writes.length ≤ 2 * (gap.held t.1).length := by
  obtain ⟨p, hp, hle | ⟨t, ht, hwrites, -, hsize⟩⟩ :=
    bounded_of_members (b := ⟨1, 32⟩) ofEntries_gap mem_members_gap (Nat.le_refl 1)
  · rw [writes_gap hp] at hle
    exact absurd hle (by decide)
  · exact ⟨p, t, ofEntries_gap, hp, ht, hwrites, hwrites.symm.trans (writes_gap hp), hsize⟩

/-- So there is a transaction with more writes than the member may make. -/
theorem exists_beyond_bound : ∃ p, Snapshot.ofEntries ⟨"/r"⟩ 1 gapEntries = .ok gap ∧
    require gap ⟨"a", "m"⟩ ⟨1, 32⟩ = .ok p ∧ ¬ p.transaction.writes.length ≤ 1 := by
  obtain ⟨p, hp⟩ := exists_of_mem_members (Snapshot.faithful_of_ofEntries ofEntries_gap) mem_members_gap ⟨1, 32⟩
  have hrequire := require_eq_ok_iff.2 hp
  refine ⟨p, ofEntries_gap, hrequire, ?_⟩
  rw [writes_gap hrequire]
  decide

end Proposal

end Allotment
