import Allotment.Proofs.Quiet.Converged
import Allotment.Proofs.Settle.Readable
import Allotment.Proofs.Settle.Shift
import Allotment.Rota

/-!
# What a turn achieves

A member takes its turn when it plans on the latest contents and its proposal is committed
(`Snapshot.Turn`).  Its shares are carried out on what they were planned for (`Turn.landing`).  So the
snapshot stays orderly (`Turn.settling`), the checks after the commit pass (`Turn.checkCommit_eq_ok`), and the
backlog of all items together shrinks (`Turn.backlog_lt`).
-/

namespace Allotment

namespace Snapshot

/-- How far a snapshot is from being settled. -/
def backlog (s : Snapshot) : Nat :=
  (s.items.map fun i => (s.demand i.value).backlog ((s.held i.value.id).map Assignment.stake)).sum

variable {l : Layout} {s s' : Snapshot}

/-- A proposal on the latest contents that is committed, with the snapshots before and after. -/
structure Turn (l : Layout) (log : Chronicle) (store store' : Store) (m : MemberId) (b : Bounds)
    (p : Proposal) (entry : Entry Member) (ts : List (Nat × Planned)) (s s' : Snapshot) : Prop where
  commits : Commits l log store m b p s store'
  made : Proposal.Made s m b p entry ts
  before : ofEntries l store.revision (store.live.entriesUnder l.scope) = .ok s
  after : ofEntries l store'.revision (store'.live.entriesUnder l.scope) = .ok s'
  start : s.IsSettling

namespace Turn

variable {log : Chronicle} {store store' : Store} {m : MemberId} {b : Bounds} {p : Proposal}
  {entry : Entry Member} {ts : List (Nat × Planned)}

/-! ### What the items show -/

theorem exists_spot (h : Turn l log store store' m b p entry ts s s') {t : Nat × Planned} (ht : t ∈ ts) :
    ∃ g item room, Spot s g item room ∧ t.2 = .placed item g.replicas (placement s g item room) :=
  h.start.exists_spot (h.made.mem_planned ht)

theorem layout_eq (h : Turn l log store store' m b p entry ts s s') : s.layout = l :=
  (ofEntries_eq_ok h.before).1

theorem landing (h : Turn l log store store' m b p entry ts s s') :
    Landing s (Proposal.viewpoint s m) ts store.live store'.live s where
  before := (ofEntries_entriesUnder_eq_ok_iff.1 h.before).2.2
  effect := h.layout_eq ▸ h.commits.effect h.made
  spot := fun _ ht => h.exists_spot ht
  members := rfl
  items := rfl
  length_le := fun t ht => by
    obtain ⟨g, item, room, hspot, he⟩ := h.exists_spot ht
    rw [he]
    exact Nat.le_trans (hspot.length_placedOutcome_le _ _) h.start.slots

theorem shift (h : Turn l log store store' m b p entry ts s s') :
    Shift store.live store'.live (Landing.shown (Proposal.viewpoint s m) ts) s s' := by
  obtain ⟨hl, -, hafter⟩ := ofEntries_entriesUnder_eq_ok_iff.1 h.after
  exact h.landing.shift hafter (hl.trans h.layout_eq.symm)

theorem name_mem_items (h : Turn l log store store' m b p entry ts s s') {t : Nat × Planned}
    (ht : t ∈ ts) : t.2.name ∈ s.items.map (·.value.id) := by
  obtain ⟨i, hi, hid, -⟩ := h.landing.exists_item ht
  exact List.mem_map.2 ⟨i, hi, hid⟩

/-! ### The snapshot stays orderly -/

theorem orderly (h : Turn l log store store' m b p entry ts s s') : s'.IsOrderly :=
  h.landing.orderly h.start.orderly h.shift

theorem settling (h : Turn l log store store' m b p entry ts s s') : s'.IsSettling where
  orderly := h.orderly
  roomy := by
    refine ⟨h.shift.isAmple h.start.roomy.limit, ?_⟩
    rw [h.shift.members_eq, h.shift.items_eq]
    exact h.start.roomy.replication
  slots := h.shift.members_eq ▸ h.start.slots

/-- The checks after a commit pass. -/
theorem checkCommit_eq_ok (h : Turn l log store store' m b p entry ts s s') :
    Rota.checkCommit s' m p = .ok () := by
  have hdensity : Check.density s' = .ok () :=
    Check.density_eq_ok_iff.2 fun id _ => h.orderly.dense id
  obtain ⟨hmem, rfl⟩ := (member?_eq_some_iff h.start.orderly.faithful).1 h.made.member
  have hmem' : entry ∈ s'.members := h.shift.members_eq ▸ hmem
  have hkey := (parse_of_mem_members h.orderly.faithful hmem').1
  -- only an open member claims, and an open member is never over its limit
  have hload : 0 < p.tally.added →
      (s'.assignments.map (·.value)).countP (·.holder == entry.value.id) ≤ entry.value.limit := by
    intro hadded
    rw [h.made.added] at hadded
    obtain ⟨n, hn, hpos⟩ := List.sum_pos_iff_exists_pos_nat.1 hadded
    obtain ⟨t, ht, rfl⟩ := List.mem_map.1 hn
    obtain ⟨g, item, room, hspot, he⟩ := h.exists_spot ht
    rw [he] at hpos
    have hclaims : (Proposal.viewpoint s entry.value.id).claims t.1 item g.replicas
        (placement s g item room) = true := by
      refine Decidable.byContradiction fun hno => ?_
      have hnone : ((Proposal.viewpoint s entry.value.id).placedWork t.1 item g.replicas
          (placement s g item room)).tally.added = 0 := by
        rw [Viewpoint.tally_placedWork]
        exact if_neg hno
      exact Nat.ne_of_gt hpos hnone
    have hopen : entry.value.isDraining = false :=
      (mem_openMembers_of_mem h.start.orderly.faithful hmem).1 (hspot.of_claims hclaims).1
    exact Nat.le_trans (h.orderly.intact.load_le _) (h.shift.items_eq ▸ h.start.roomy.limit entry hmem hopen)
  have hlimit : ((s'.member? entry.value.id).map (·.value.limit)).getD 0 = entry.value.limit := by
    rw [(member?_eq_some_iff h.orderly.faithful).2 ⟨hmem', rfl⟩]
    rfl
  unfold Rota.checkCommit
  simp only [hdensity, bind, Except.bind]
  rw [← hkey, get?_loads h.orderly.faithful hmem', hlimit, if_neg]
  · rfl
  · rw [Bool.and_eq_true, decide_eq_true_eq, decide_eq_true_eq]
    rintro ⟨hadded, hover⟩
    exact Nat.not_lt.2 (hload hadded) hover

/-! ### The backlog shrinks -/

theorem stakes_of_not_mem (h : Turn l log store store' m b p entry ts s s') {id : String}
    (hid : id ∈ s.items.map (·.value.id)) (hne : ∀ t ∈ ts, t.2.name ≠ id) (d : Demand) :
    d.backlog ((s'.held id).map Assignment.stake) = d.backlog ((s.held id).map Assignment.stake) :=
  d.backlog_perm ((h.shift.held_of_not_mem hid (List.forall_mem_map.2 hne)).map _)

/-- The backlog of every item of the proposal shrinks. -/
theorem backlog_lt_of_mem (h : Turn l log store store' m b p entry ts s s') {i : Entry Item}
    (hi : i ∈ s.items) {t : Nat × Planned} (ht : t ∈ ts) (hname : t.2.name = i.value.id) :
    (s.demand i.value).backlog ((s'.held i.value.id).map Assignment.stake) <
      (s.demand i.value).backlog ((s.held i.value.id).map Assignment.stake) := by
  have hheld := h.shift.held_of_mem (Landing.mem_shown ht)
  have hwriting := h.made.writing t ht
  obtain ⟨g, item, room, hspot, he⟩ := h.exists_spot ht
  obtain ⟨hmem, hg⟩ := Roster.id_of_wanted hspot.orderly.faithful hspot.group hspot.wanted
  simp only [hname] at hheld
  rw [he] at hheld hwriting hname
  obtain rfl : item = i := eq_of_mem_items hspot.orderly.faithful hmem hi hname
  have hgroup := IsOrderly.group_perm hspot.group
  rw [← hg] at hgroup
  have hlt := hspot.backlog_lt h.start.roomy hwriting
  have hafter := hheld.map Assignment.stake
  have hbefore := hgroup.map Assignment.stake
  rw [List.map_map] at hafter hbefore
  rw [Demand.backlog_perm _ hafter, ← Demand.backlog_perm _ hbefore]
  exact hlt

/-- Unless nothing is written, the backlog shrinks. -/
theorem backlog_lt (h : Turn l log store store' m b p entry ts s s') (hts : ts ≠ []) :
    s'.backlog < s.backlog := by
  unfold backlog
  rw [h.shift.items_eq]
  refine List.sum_lt_sum _ _ (fun i hi => ?_) ?_
  · rw [h.shift.demand_eq]
    by_cases htask : ∃ t ∈ ts, t.2.name = i.value.id
    · obtain ⟨t, ht, hname⟩ := htask
      exact Nat.le_of_lt (h.backlog_lt_of_mem hi ht hname)
    · have hne : ∀ t ∈ ts, t.2.name ≠ i.value.id := fun t ht he => htask ⟨t, ht, he⟩
      exact Nat.le_of_eq (h.stakes_of_not_mem (List.mem_map_of_mem hi) hne _)
  · obtain ⟨t, ht⟩ := List.exists_mem_of_ne_nil ts hts
    obtain ⟨i, hi, hname⟩ := List.mem_map.1 (h.name_mem_items ht)
    refine ⟨i, hi, ?_⟩
    rw [h.shift.demand_eq]
    exact h.backlog_lt_of_mem hi ht hname.symm

end Turn

end Snapshot

end Allotment
