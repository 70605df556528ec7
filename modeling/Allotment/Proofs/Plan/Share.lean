import Allotment.Proofs.Plan.Edits
import Allotment.Proofs.Plan.Packing
import Allotment.Proofs.Plan.Placement

/-!
# What a share makes of an item

The share of a member in an item deletes some replicas, renumbers some of the others, claims a new one
or makes its own consistent.  `Viewpoint.outcome` are the replicas that this leaves, and the writes of
the share turn the replicas of the item into them (`turns_placed`).  Whatever is put or deleted is a
replica that goes, moves, comes or becomes consistent (`of_put_mem_placedWrites`,
`of_delete_mem_placedWrites`).
-/

namespace Allotment

/-! ### Lists -/

section Lists

variable {α β : Type} [DecidableEq α]

theorem perm_append_filter {l d : List α} (hl : l.Nodup) (hd : d.Nodup) (hsub : ∀ x ∈ d, x ∈ l) :
    l.Perm (d ++ l.filter fun x => !d.contains x) := by
  have hperm : (l.filter fun x => d.contains x).Perm d := by
    rw [List.perm_ext_iff_of_nodup (hl.filter _) hd]
    intro x
    simp only [List.mem_filter, List.contains_eq_mem, decide_eq_true_eq]
    exact ⟨fun h => h.2, fun h => ⟨hsub x h, h⟩⟩
  exact (List.filter_append_perm (fun x => d.contains x) l).symm.trans (hperm.append_right _)

theorem lookup_of_mem {ms : List (α × β)} (hnodup : (ms.map (·.1)).Nodup) {m : α × β} (hm : m ∈ ms) :
    ms.lookup m.1 = some m.2 := by
  induction ms with
  | nil => exact nomatch hm
  | cons m' ms ih =>
    obtain ⟨hnot, hnodup'⟩ := List.nodup_cons.1 hnodup
    rcases List.mem_cons.1 hm with rfl | hlater
    · exact List.lookup_cons_self
    · have hne : m.1 ≠ m'.1 := fun he => hnot (List.mem_map.2 ⟨m, hlater, he⟩)
      obtain ⟨k, v⟩ := m'
      rw [List.lookup_cons, beq_false_of_ne hne]
      exact ih hnodup' hlater

end Lists

/-! ### The parts of a share -/

namespace Viewpoint

section Parts

variable (v : Viewpoint) (repairs : Nat) (item : Entry Item) (rs : List Replica) (p : Placement)

/-- The replicas that are deleted. -/
def deleted : List Replica :=
  v.released item.value.replication p ++ v.repaired repairs p

/-- The replicas that are not deleted. -/
def spared : List Replica :=
  rs.filter fun r => !(v.deleted repairs item p).contains r

/-- The replicas that are renumbered, with their new slots. -/
def moving : List (Replica × Nat) :=
  v.moves rs (v.deleted repairs item p)

/-- The own replica that is to become consistent. -/
def pending : Option Replica :=
  (v.own? p).filter fun r =>
    (p.broken.isEmpty && item.value.isFilledBy (p.kept.map (·.assignment))) && p.kept.contains r &&
      !r.assignment.consistent

/-- A new replica is claimed. -/
def claims : Bool :=
  (v.deleted repairs item p).isEmpty && (v.moving repairs item rs p).isEmpty && isPacked rs &&
    p.receivers.head? == some v.self

/-- The new replica. -/
def claimed : Replica :=
  ⟨v.layout.assignmentKey item.value.id v.self rs.length, ⟨item.value.id, v.self, rs.length, false⟩,
    false⟩

/-- The own replica that becomes consistent in its place. -/
def flagging : Option Replica :=
  if (v.moving repairs item rs p).any (fun m => v.pending item p == some m.1) ||
      !areDense (rs.map (·.assignment)) then none
  else v.pending item p

/-- The count of the share. -/
def counts : Tally where
  added := if v.claims repairs item rs p then 1 else 0
  removed := (v.released item.value.replication p).length
  packed := (v.moving repairs item rs p).length
  flagged := (if (v.moving repairs item rs p).any fun m => v.pending item p == some m.1 then 1 else 0) +
    (v.flagging repairs item rs p).toList.length
  repaired := (v.repaired repairs p).length

/-- The writes of the share. -/
def placedWrites : List Write :=
  (v.deleted repairs item p).map (.delete ·.key) ++
    (v.moving repairs item rs p).flatMap (v.moveWrites (v.pending item p)) ++
    (if v.claims repairs item rs p then
      [.put (v.claimed item rs).key (Assignment.encode false)] else []) ++
    (v.flagging repairs item rs p).toList.map fun r => .put r.key (Assignment.encode true)

end Parts

/-! ### Guarded writes -/

section Guarded

variable (v : Viewpoint) (item : String) (modified : Int) (deleted : List Replica)
  (writes : List Write) (tally : Tally)

@[simp]
theorem writes_guarded : (v.guarded item modified deleted writes tally).writes = writes := by
  unfold guarded
  split
  next h => exact (List.isEmpty_iff.1 h).symm
  next => rfl

theorem guards_guarded (h : writes ≠ []) :
    (v.guarded item modified deleted writes tally).guards =
      v.orphanGuards deleted ++ v.itemGuards item modified := by
  unfold guarded
  rw [if_neg fun he => h (List.isEmpty_iff.1 he)]

theorem tally_guarded (h : writes = [] → tally = Tally.zero) :
    (v.guarded item modified deleted writes tally).tally = tally := by
  unfold guarded
  split
  next hnil => exact (h (List.isEmpty_iff.1 hnil)).symm
  next => rfl

end Guarded

variable {v : Viewpoint} {repairs : Nat} {item : Entry Item} {rs : List Replica} {p : Placement}

theorem writes_placedWork :
    (v.placedWork repairs item rs p).writes = v.placedWrites repairs item rs p := by
  have hflag : (v.flagging repairs item rs p).toList.map
      (fun r => Write.put r.key (Assignment.encode true)) =
      if (v.moving repairs item rs p).any (fun m => v.pending item p == some m.1) ||
        !areDense (rs.map (·.assignment)) then []
      else (v.pending item p).toList.map fun r => .put r.key (Assignment.encode true) := by
    unfold flagging
    split <;> rfl
  unfold placedWrites
  rw [hflag]
  exact writes_guarded v item.value.id item.modified _ _ _

theorem guards_placedWork (h : (v.placedWork repairs item rs p).writes ≠ []) :
    (v.placedWork repairs item rs p).guards =
      v.orphanGuards (v.deleted repairs item p) ++ v.itemGuards item.value.id item.modified := by
  refine guards_guarded v item.value.id item.modified (v.deleted repairs item p) _ _ fun he => h ?_
  exact (writes_guarded v item.value.id item.modified _ _ _).trans he

/-- A share in an existing item that writes nothing deletes, moves, claims and flags nothing. -/
theorem parts_of_writes_eq_nil (h : (v.placedWork repairs item rs p).writes = []) :
    v.deleted repairs item p = [] ∧ v.moving repairs item rs p = [] ∧
      v.claims repairs item rs p = false ∧ v.flagging repairs item rs p = none := by
  have hw : v.placedWrites repairs item rs p = [] := writes_placedWork.symm.trans h
  unfold placedWrites at hw
  obtain ⟨hw, hflag⟩ := List.append_eq_nil_iff.1 hw
  obtain ⟨hw, hclaim⟩ := List.append_eq_nil_iff.1 hw
  obtain ⟨hdel, hmove⟩ := List.append_eq_nil_iff.1 hw
  refine ⟨List.map_eq_nil_iff.1 hdel, ?_, ?_, ?_⟩
  · cases hm : v.moving repairs item rs p with
    | nil => rfl
    | cons m ms =>
      rw [hm, List.flatMap_cons] at hmove
      exact nomatch hmove
  · cases hc : v.claims repairs item rs p with
    | false => rfl
    | true =>
      rw [hc] at hclaim
      exact nomatch hclaim
  · cases hf : v.flagging repairs item rs p with
    | none => rfl
    | some r =>
      rw [hf] at hflag
      exact nomatch hflag

theorem counts_eq_zero_of_writes_eq_nil (h : (v.placedWork repairs item rs p).writes = []) :
    v.counts repairs item rs p = Tally.zero := by
  obtain ⟨hdel, hmove, hclaims, hflagging⟩ := parts_of_writes_eq_nil h
  obtain ⟨hreleased, hrepaired⟩ := List.append_eq_nil_iff.1 hdel
  unfold counts
  rw [hclaims, hreleased, hrepaired, hmove, hflagging]
  rfl

/-- A claim is one write. -/
theorem length_claiming (v : Viewpoint) (repairs : Nat) (item : Entry Item) (rs : List Replica)
    (p : Placement) : (if v.claims repairs item rs p then
      [Write.put (v.claimed item rs).key (Assignment.encode false)] else []).length =
      if v.claims repairs item rs p then 1 else 0 := by
  split <;> rfl

/-- What a share reports is the count of its parts. -/
theorem tally_placedWork :
    (v.placedWork repairs item rs p).tally = v.counts repairs item rs p := by
  have hclaim := length_claiming v repairs item rs p
  have hflag : (if (v.moving repairs item rs p).any (fun m => v.pending item p == some m.1) ||
        !areDense (rs.map (·.assignment)) then []
      else (v.pending item p).toList.map fun r => Write.put r.key (Assignment.encode true)).length =
      (v.flagging repairs item rs p).toList.length := by
    unfold flagging
    split
    · rfl
    · exact List.length_map _
  have hzero : (v.placedWork repairs item rs p).writes = [] → v.counts repairs item rs p = Tally.zero :=
    counts_eq_zero_of_writes_eq_nil
  unfold counts at hzero ⊢
  rw [← hclaim, ← hflag] at hzero ⊢
  exact tally_guarded v item.value.id item.modified (v.deleted repairs item p) _ _ fun hnil =>
    hzero ((writes_guarded v item.value.id item.modified (v.deleted repairs item p) _ _).trans hnil)

/-! ### What is deleted -/

theorem of_own?_eq_some {r : Replica} (h : v.own? p = some r) :
    r ∈ p.live ∧ r.orphan = false ∧ r.holder = v.self := by
  have hheld := List.find?_some h
  simp only [Replica.isHeldBy, Bool.and_eq_true, Bool.not_eq_true', beq_iff_eq] at hheld
  exact ⟨List.mem_of_find?_eq_some h, hheld⟩

/-- A replica is released only if enough of the others are consistent. -/
theorem mem_released_iff {wanted : Nat} {r : Replica} :
    r ∈ v.released wanted p ↔ v.own? p = some r ∧ (r ∈ p.leaving ∨ r ∈ p.excess) ∧
      wanted ≤ (p.live.filter (· != r)).countP (·.assignment.consistent) := by
  simp only [released, List.mem_filter, Option.mem_toList, Bool.and_eq_true, Bool.or_eq_true,
    List.contains_eq_mem, decide_eq_true_eq]

/-- The member that keeps an item in order. -/
def keeper (v : Viewpoint) (p : Placement) : MemberId :=
  (p.live.head?.map (·.holder)).getD v.caretaker

theorem mem_broken_of_mem_repaired {r : Replica} (h : r ∈ v.repaired repairs p) : r ∈ p.broken :=
  (List.mem_filter.1 (List.mem_of_mem_take h)).1

theorem mem_of_mem_deleted (hp : p.Fits rs) {r : Replica} (h : r ∈ v.deleted repairs item p) :
    r ∈ rs := by
  rcases List.mem_append.1 h with h | h
  · have hlive := (of_own?_eq_some (mem_released_iff.1 h).1).1
    rw [hp.live] at hlive
    exact Placement.mem_of_mem_liveOf hlive
  · have hbroken := mem_broken_of_mem_repaired h
    rw [hp.broken] at hbroken
    exact Placement.mem_of_mem_brokenOf hbroken

/-- A live replica is deleted only if it is released. -/
theorem mem_released_of_mem_deleted (hp : p.Fits rs) (hrs : rs.Nodup) {r : Replica}
    (hr : r ∈ p.live) (h : r ∈ v.deleted repairs item p) :
    r ∈ v.released item.value.replication p := by
  refine (List.mem_append.1 h).resolve_right fun h => ?_
  have hbroken := mem_broken_of_mem_repaired h
  rw [hp.broken] at hbroken
  rw [hp.live] at hr
  exact Placement.not_mem_brokenOf_of_mem_liveOf hrs hr hbroken

theorem nodup_deleted (hp : p.Fits rs) (hrs : rs.Nodup) : (v.deleted repairs item p).Nodup := by
  have hbroken : p.broken.Nodup := by
    rw [hp.broken]
    exact (List.nodup_append.1 ((Placement.live_append_broken_perm [] rs).nodup_iff.2 hrs)).2.1
  refine List.nodup_append.2 ⟨?_, (hbroken.filter _).sublist (List.take_sublist _ _), ?_⟩
  · refine List.Nodup.filter _ ?_
    cases v.own? p <;> simp
  · rintro r hr q hq rfl
    have hlive := (of_own?_eq_some (mem_released_iff.1 hr).1).1
    have hb := mem_broken_of_mem_repaired hq
    rw [hp.live] at hlive
    rw [hp.broken] at hb
    exact Placement.not_mem_brokenOf_of_mem_liveOf hrs hlive hb

theorem of_pending_eq_some {r : Replica} (h : v.pending item p = some r) :
    v.own? p = some r ∧ r ∈ p.kept := by
  obtain ⟨hown, hr⟩ := Option.filter_eq_some_iff.1 h
  simp only [Bool.and_eq_true, List.contains_eq_mem, decide_eq_true_eq] at hr
  exact ⟨hown, hr.1.2⟩

theorem consistent_of_pending {r : Replica} (h : v.pending item p = some r) :
    r.assignment.consistent = false := by
  have hcond := (Option.filter_eq_some_iff.1 h).2
  simp only [Bool.and_eq_true, Bool.not_eq_true'] at hcond
  exact hcond.2

/-- A replica that is to become consistent is not deleted. -/
theorem not_mem_deleted_of_pending (hp : p.Fits rs) (hrs : rs.Nodup) {r : Replica}
    (h : v.pending item p = some r) : r ∉ v.deleted repairs item p := by
  intro hd
  obtain ⟨hlive, hleaving, hexcess⟩ := Placement.mem_kept_iff.1 (of_pending_eq_some h).2
  have hr := mem_released_iff.1 (mem_released_of_mem_deleted hp hrs hlive hd)
  exact hr.2.1.elim hleaving hexcess

/-! ### What moves -/

/-- Only spared replicas move, and only as packing the spared ones requires. -/
theorem moving_sublist (v : Viewpoint) (repairs : Nat) (item : Entry Item) (rs : List Replica)
    (p : Placement) :
    (v.moving repairs item rs p).Sublist (renumbering (v.spared repairs item rs p)) := by
  unfold moving moves spared
  split
  next h =>
    rw [List.isEmpty_iff.1 h]
    have hall : rs.filter (fun r => !([] : List Replica).contains r) = rs := by simp
    rw [hall]
    exact List.filter_sublist.trans (List.take_sublist _ _)
  next => exact List.Sublist.refl _

/-- What is to move is spared, and no spared replica holds its new slot. -/
theorem mem_spared_of_mem_moving {m : Replica × Nat} (h : m ∈ v.moving repairs item rs p) :
    m.1 ∈ v.spared repairs item rs p ∧ m.2 ∉ (v.spared repairs item rs p).map (·.slot) :=
  mem_of_mem_renumbering ((moving_sublist v repairs item rs p).mem h)

/-- After a deletion everything is packed. -/
theorem moving_eq_renumbering (h : v.deleted repairs item p ≠ []) :
    v.moving repairs item rs p = renumbering (v.spared repairs item rs p) := by
  unfold moving moves
  rw [if_neg fun he => h (List.isEmpty_iff.1 he)]
  rfl

theorem claims_eq_true_iff :
    v.claims repairs item rs p = true ↔ v.deleted repairs item p = [] ∧
      v.moving repairs item rs p = [] ∧ isPacked rs = true ∧ p.receivers.head? = some v.self := by
  simp [claims, and_assoc]

theorem pending_eq_none_of_released {wanted : Nat} {r : Replica} (hr : r ∈ v.released wanted p) :
    v.pending item p = none := by
  refine Option.eq_none_iff_forall_ne_some.2 fun q hq => ?_
  obtain ⟨hown, hgoes, -⟩ := mem_released_iff.1 hr
  obtain ⟨hown', hkept⟩ := of_pending_eq_some hq
  obtain rfl := Option.some.inj (hown.symm.trans hown')
  obtain ⟨-, hleaving, hexcess⟩ := Placement.mem_kept_iff.1 hkept
  exact hgoes.elim hleaving hexcess

/-- Nothing is deleted while the own replica is to become consistent. -/
theorem deleted_eq_nil_of_pending {r : Replica} (h : v.pending item p = some r) :
    v.deleted repairs item p = [] := by
  have hcond := (Option.filter_eq_some_iff.1 h).2
  simp only [Bool.and_eq_true] at hcond
  have hrepaired : v.repaired repairs p = [] := by
    unfold repaired
    rw [List.isEmpty_iff.1 hcond.1.1.1]
    simp
  have hreleased : v.released item.value.replication p = [] :=
    List.eq_nil_iff_forall_not_mem.2 fun q hq => nomatch (pending_eq_none_of_released hq).symm.trans h
  exact List.append_eq_nil_iff.2 ⟨hreleased, hrepaired⟩

/-- Whoever is to receive a replica has none. -/
theorem own?_eq_none_of_claims (hp : p.Fits rs) (h : v.claims repairs item rs p = true) :
    v.own? p = none := by
  refine Option.eq_none_iff_forall_ne_some.2 fun r hr => ?_
  obtain ⟨hlive, ho, hself⟩ := of_own?_eq_some hr
  rw [hp.live] at hlive
  refine hp.receivers v.self ?_ r (Placement.mem_of_mem_liveOf hlive) ho hself
  exact List.mem_of_head? (claims_eq_true_iff.1 h).2.2.2

theorem pending_eq_none_of_claims (hp : p.Fits rs) (h : v.claims repairs item rs p = true) :
    v.pending item p = none := by
  unfold pending
  rw [own?_eq_none_of_claims hp h]
  rfl

theorem spared_of_deleted_eq_nil (h : v.deleted repairs item p = []) :
    v.spared repairs item rs p = rs := by
  simp [spared, h]

/-! ### The outcome -/

section Outcome

variable (v : Viewpoint) (repairs : Nat) (item : Entry Item) (rs : List Replica) (p : Placement)

/-- What becomes of a replica that is not deleted. -/
def settled (r : Replica) : Replica :=
  match (v.moving repairs item rs p).lookup r with
  | some n => v.moved (v.pending item p) (r, n)
  | none => if v.flagging repairs item rs p = some r then r.flagged else r

/-- The replicas of an existing item after the share. -/
def placedOutcome : List Replica :=
  (if v.claims repairs item rs p then [v.claimed item rs] else []) ++
    (v.spared repairs item rs p).map (v.settled repairs item rs p)

/-- The replicas of an item after the share. -/
def outcome : Planned → List Replica
  | .placed item rs p => v.placedOutcome repairs item rs p
  | .removed item rs => if (v.removedWork repairs item rs).writes = [] then rs else rs.dropLast

end Outcome

theorem holder_settled (r : Replica) : (v.settled repairs item rs p r).holder = r.holder := by
  unfold settled
  split
  · rfl
  · split <;> rfl

theorem consistent_settled {r : Replica} (h : r.assignment.consistent = true) :
    (v.settled repairs item rs p r).assignment.consistent = true := by
  unfold settled
  split
  · show (r.assignment.consistent || _) = true
    rw [h, Bool.true_or]
  · split
    · rfl
    · exact h

/-! ### The writes lead to the outcome -/

/-- The spared replicas that keep their slot. -/
def resting (v : Viewpoint) (repairs : Nat) (item : Entry Item) (rs : List Replica)
    (p : Placement) : List Replica :=
  (v.spared repairs item rs p).filter fun r => !((v.moving repairs item rs p).map (·.1)).contains r

theorem nodup_spared (hrs : rs.Nodup) : (v.spared repairs item rs p).Nodup :=
  hrs.filter _

theorem mem_spared_iff {r : Replica} :
    r ∈ v.spared repairs item rs p ↔ r ∈ rs ∧ r ∉ v.deleted repairs item p := by
  simp [spared]

theorem nodup_moving (hrs : rs.Nodup) : ((v.moving repairs item rs p).map (·.1)).Nodup :=
  (nodup_replicas_of_renumbering (nodup_spared hrs)).sublist ((moving_sublist v _ _ _ _).map _)

theorem spared_perm (v : Viewpoint) (repairs : Nat) (item : Entry Item) (p : Placement)
    (hrs : rs.Nodup) :
    (v.spared repairs item rs p).Perm
      ((v.moving repairs item rs p).map (·.1) ++ v.resting repairs item rs p) := by
  refine perm_append_filter (nodup_spared hrs) (nodup_moving hrs) fun r hr => ?_
  obtain ⟨m, hm, rfl⟩ := List.mem_map.1 hr
  exact (mem_spared_of_mem_moving hm).1

theorem lookup_moving_of_mem_resting {r : Replica} (h : r ∈ v.resting repairs item rs p) :
    (v.moving repairs item rs p).lookup r = none := by
  rw [List.lookup_eq_none_iff]
  intro m hm
  have hnot : r ∉ (v.moving repairs item rs p).map (·.1) := by
    simpa using (List.mem_filter.1 h).2
  exact bne_iff_ne.2 fun he => hnot (List.mem_map.2 ⟨m, hm, he.symm⟩)

/-- The outcome is what has moved, what has rested and what has become consistent in its place. -/
theorem map_settled_perm (hrs : rs.Nodup) :
    ((v.spared repairs item rs p).map (v.settled repairs item rs p)).Perm
      ((v.moving repairs item rs p).map (v.moved (v.pending item p)) ++
        (v.resting repairs item rs p).map
          fun r => if v.flagging repairs item rs p = some r then r.flagged else r) := by
  refine ((spared_perm v repairs item p hrs).map _).trans (List.Perm.of_eq ?_)
  rw [List.map_append, List.map_map]
  congr 1
  · refine List.map_congr_left fun m hm => ?_
    rw [Function.comp_apply, settled, lookup_of_mem (nodup_moving hrs) hm]
  · refine List.map_congr_left fun r hr => ?_
    rw [settled, lookup_moving_of_mem_resting hr]

theorem movable_moving (hrs : ReplicasOf v.layout item.value.id rs) :
    Movable v.layout item.value.id (v.moving repairs item rs p) (v.resting repairs item rs p) where
  named := fun _ hm => hrs.named (mem_spared_iff.1 (mem_spared_of_mem_moving hm).1).1
  nodup := (nodup_slots_of_renumbering _).sublist ((moving_sublist v repairs item rs p).map _)
  free := fun _ hm _ hq he => (mem_spared_of_mem_moving hm).2
    (he ▸ List.mem_map_of_mem ((spared_perm v repairs item p hrs.nodup_self).mem_iff.2 hq))

theorem turns_moving (hrs : ReplicasOf v.layout item.value.id rs) :
    Turns v.layout item.value.id
      ((v.moving repairs item rs p).flatMap (v.moveWrites (v.pending item p)))
      (v.spared repairs item rs p)
      ((v.moving repairs item rs p).map (v.moved (v.pending item p)) ++
        v.resting repairs item rs p) :=
  (Turns.moves hrs.segment (movable_moving hrs)).perm_left (spared_perm v repairs item p hrs.nodup_self)

theorem slot_lt_of_isPacked {r : Replica} (h : isPacked rs = true) (hr : r ∈ rs) :
    r.slot < rs.length := by
  rw [← List.mem_range, ← map_slot_of_isPacked h]
  exact List.mem_map_of_mem hr

theorem isNamed_claimed (hself : v.self.IsValid) :
    (v.claimed item rs).IsNamed v.layout item.value.id :=
  Replica.IsNamed.of_assignmentKey rfl hself rfl

/-- A replica is claimed at the slot after all that are there. -/
theorem slot_lt_of_claims (h : v.claims repairs item rs p = true) {q : Replica}
    (hq : q ∈ (v.moving repairs item rs p).map (v.moved (v.pending item p)) ++
      v.resting repairs item rs p) : q.slot < (v.claimed item rs).slot := by
  obtain ⟨-, hmoving, hpacked, -⟩ := claims_eq_true_iff.1 h
  rw [hmoving, List.map_nil, List.nil_append] at hq
  exact slot_lt_of_isPacked hpacked (mem_spared_iff.1 (List.mem_filter.1 hq).1).1

theorem turns_claim (hrs : ReplicasOf v.layout item.value.id rs) (hself : v.self.IsValid) :
    Turns v.layout item.value.id
      (if v.claims repairs item rs p then
        [.put (v.claimed item rs).key (Assignment.encode false)] else [])
      ((v.moving repairs item rs p).map (v.moved (v.pending item p)) ++ v.resting repairs item rs p)
      ((if v.claims repairs item rs p then [v.claimed item rs] else []) ++
        ((v.moving repairs item rs p).map (v.moved (v.pending item p)) ++
          v.resting repairs item rs p)) := by
  split
  next hclaims =>
    exact Turns.put hrs.segment (isNamed_claimed hself) rfl fun q hq =>
      Nat.ne_of_lt (slot_lt_of_claims hclaims hq)
  next => exact Turns.nil _ _ _

theorem of_flagging_eq_some {r : Replica} (h : v.flagging repairs item rs p = some r) :
    v.pending item p = some r ∧ r ∉ (v.moving repairs item rs p).map (·.1) := by
  unfold flagging at h
  split at h
  next => exact nomatch h
  next hnot =>
    refine ⟨h, fun hm => hnot ?_⟩
    obtain ⟨m, hmoves, rfl⟩ := List.mem_map.1 hm
    rw [Bool.or_eq_true]
    exact .inl (List.any_eq_true.2 ⟨m, hmoves, by simp [h]⟩)

theorem mem_resting_of_flagging (hp : p.Fits rs) (hrs : rs.Nodup) {r : Replica}
    (h : v.flagging repairs item rs p = some r) : r ∈ v.resting repairs item rs p := by
  obtain ⟨hpending, hmoving⟩ := of_flagging_eq_some h
  have hlive := (of_own?_eq_some (of_pending_eq_some hpending).1).1
  rw [hp.live] at hlive
  have hspared : r ∈ v.spared repairs item rs p := mem_spared_iff.2
    ⟨Placement.mem_of_mem_liveOf hlive, not_mem_deleted_of_pending hp hrs hpending⟩
  exact List.mem_filter.2 ⟨hspared, by simpa using hmoving⟩

theorem turns_flag (hp : p.Fits rs) (hrs : rs.Nodup) (l : Layout) (name : String)
    (others : List Replica) :
    Turns l name
      ((v.flagging repairs item rs p).toList.map fun r => .put r.key (Assignment.encode true))
      (others ++ v.resting repairs item rs p)
      (others ++ (v.resting repairs item rs p).map
        fun r => if v.flagging repairs item rs p = some r then r.flagged else r) := by
  cases hf : v.flagging repairs item rs p with
  | none => simpa using Turns.nil l name _
  | some r =>
    have hmem := mem_resting_of_flagging hp hrs hf
    have hperm := List.perm_cons_erase hmem
    have hnot : r ∉ (v.resting repairs item rs p).erase r :=
      ((nodup_spared hrs).filter _).not_mem_erase
    have hmap : ((v.resting repairs item rs p).map fun q => if some r = some q then q.flagged else q).Perm
        (r.flagged :: (v.resting repairs item rs p).erase r) := by
      refine (hperm.map _).trans (List.Perm.of_eq ?_)
      rw [List.map_cons, if_pos rfl]
      congr 1
      refine (List.map_congr_left fun q hq => ?_).trans (List.map_id _)
      have hne : ¬ some r = some q := fun he => hnot (Option.some.inj he ▸ hq)
      rw [if_neg hne]
      rfl
    have hflag := Turns.flag l name r (others ++ (v.resting repairs item rs p).erase r)
    refine (hflag.perm_left ?_).perm_right ?_
    · exact (hperm.append_left others).trans List.perm_middle
    · exact List.perm_middle.symm.trans (hmap.symm.append_left others)

theorem perm_deleted_append_spared (v : Viewpoint) (repairs : Nat) (item : Entry Item) (hp : p.Fits rs)
    (hrs : rs.Nodup) : rs.Perm (v.deleted repairs item p ++ v.spared repairs item rs p) :=
  perm_append_filter hrs (nodup_deleted hp hrs) fun _ hr => mem_of_mem_deleted hp hr

/-- The share in an existing item leaves its outcome. -/
theorem turns_placed (hrs : ReplicasOf v.layout item.value.id rs) (hp : p.Fits rs)
    (hself : v.self.IsValid) :
    Turns v.layout item.value.id (v.placedWrites repairs item rs p) rs
      (v.placedOutcome repairs item rs p) := by
  have hdeletes : Turns v.layout item.value.id _ rs (v.spared repairs item rs p) :=
    (Turns.deletes _ _ (v.deleted repairs item p) _).perm_left
      (perm_deleted_append_spared v repairs item hp hrs.nodup_self)
  have hclaimed := ((hdeletes.append (turns_moving hrs)).append (turns_claim hrs hself))
  have hall := (hclaimed.perm_right (List.Perm.of_eq (List.append_assoc _ _ _).symm)).append
    (turns_flag hp hrs.nodup_self _ _ _)
  refine hall.perm_right ?_
  rw [List.append_assoc]
  exact (map_settled_perm hrs.nodup_self).symm.append_left _

/-! ### The keys of the writes -/

/-- A write of a share deletes a replica that goes, renumbers one that stays, puts a new one or makes one
consistent. -/
theorem mem_placedWrites_iff {w : Write} : w ∈ v.placedWrites repairs item rs p ↔
    (∃ r ∈ v.deleted repairs item p, w = .delete r.key) ∨
      (∃ m ∈ v.moving repairs item rs p, w = .delete m.1.key ∨
        w = .put (v.moved (v.pending item p) m).key
          (Assignment.encode (v.moved (v.pending item p) m).assignment.consistent)) ∨
      (v.claims repairs item rs p = true ∧ w = .put (v.claimed item rs).key (Assignment.encode false)) ∨
        ∃ r, v.flagging repairs item rs p = some r ∧ w = .put r.key (Assignment.encode true) := by
  have hclaim : w ∈ (if v.claims repairs item rs p then
      [Write.put (v.claimed item rs).key (Assignment.encode false)] else []) ↔
      v.claims repairs item rs p = true ∧ w = .put (v.claimed item rs).key (Assignment.encode false) := by
    rw [List.mem_ite_nil_right, List.mem_singleton]
  unfold placedWrites
  rw [List.mem_append, List.mem_append, List.mem_append, hclaim, or_assoc, or_assoc]
  refine or_congr ?_ (or_congr ?_ (or_congr Iff.rfl ?_))
  · rw [List.mem_map]
    exact exists_congr fun r => and_congr_right fun _ => eq_comm
  · rw [List.mem_flatMap]
    exact exists_congr fun m => and_congr_right fun _ => List.mem_pair
  · rw [List.mem_map]
    exact exists_congr fun r => and_congr Option.mem_toList eq_comm

/-- What a share puts is a replica that moves, a new one or one that becomes consistent. -/
theorem of_put_mem_placedWrites {k : String} {value : Bytes}
    (h : .put k value ∈ v.placedWrites repairs item rs p) :
    ∃ consistent, value = Assignment.encode consistent ∧
      ((∃ m ∈ v.moving repairs item rs p,
          k = v.layout.assignmentKey m.1.assignment.item m.1.holder m.2) ∨
        (v.claims repairs item rs p = true ∧ k = (v.claimed item rs).key) ∨
        ∃ r, v.flagging repairs item rs p = some r ∧ k = r.key) := by
  rcases mem_placedWrites_iff.1 h with ⟨r, -, he⟩ | ⟨m, hm, he | he⟩ | ⟨hclaims, he⟩ | ⟨r, hr, he⟩
  · exact nomatch he
  · exact nomatch he
  · obtain ⟨rfl, rfl⟩ := Write.put.inj he
    exact ⟨_, rfl, .inl ⟨m, hm, rfl⟩⟩
  · obtain ⟨rfl, rfl⟩ := Write.put.inj he
    exact ⟨false, rfl, .inr (.inl ⟨hclaims, rfl⟩)⟩
  · obtain ⟨rfl, rfl⟩ := Write.put.inj he
    exact ⟨true, rfl, .inr (.inr ⟨r, hr, rfl⟩)⟩

/-- What a share deletes is a replica that goes or one that moves. -/
theorem of_delete_mem_placedWrites {k : String} (h : .delete k ∈ v.placedWrites repairs item rs p) :
    (∃ r ∈ v.deleted repairs item p, r.key = k) ∨ ∃ m ∈ v.moving repairs item rs p, m.1.key = k := by
  rcases mem_placedWrites_iff.1 h with ⟨r, hr, he⟩ | ⟨m, hm, he | he⟩ | ⟨-, he⟩ | ⟨r, -, he⟩
  · exact .inl ⟨r, hr, (Write.delete.inj he).symm⟩
  · exact .inr ⟨m, hm, (Write.delete.inj he).symm⟩
  · exact nomatch he
  · exact nomatch he
  · exact nomatch he

/-- A replica that moves is deleted and put again. -/
theorem mem_placedWrites_of_moving {m : Replica × Nat} (h : m ∈ v.moving repairs item rs p) :
    .delete m.1.key ∈ v.placedWrites repairs item rs p ∧
      ∃ value, .put (v.layout.assignmentKey m.1.assignment.item m.1.holder m.2) value ∈
        v.placedWrites repairs item rs p :=
  ⟨mem_placedWrites_iff.2 (.inr (.inl ⟨m, h, .inl rfl⟩)), _,
    mem_placedWrites_iff.2 (.inr (.inl ⟨m, h, .inr rfl⟩))⟩

end Viewpoint

end Allotment
