import Allotment.Proofs.Plan.Proposal

/-!
# Members without anything to do

A member is idle if its shares in all items write nothing.  Where every proposal is empty, every holder is
idle, and every member with a limit (`IsSilent.idle_of_holder`, `IsSilent.idle_of_limit`).  In a quiet
snapshot, where repairs are allowed too, so is the caretaker (`IsQuiet.exists_caretaker`).  Since somebody
is responsible for every removed item and for every broken replica, there are none (`IsQuiet.wanted`,
`IsQuiet.broken_eq_nil`).
-/

namespace Allotment

/-! ### Shares without writes -/

namespace Viewpoint

variable {v : Viewpoint} {repairs : Nat} {item : Entry Item} {rs : List Replica} {p : Placement}

/-- If nothing is written, then no repair is ever used up. -/
theorem writes_work_of_works {ps : List Planned} (h : ∀ w ∈ v.works repairs ps, w.writes = []) :
    ∀ t ∈ ps, (v.work repairs t).writes = [] := by
  induction ps with
  | nil => exact fun t ht => absurd ht List.not_mem_nil
  | cons q ps ih =>
    obtain ⟨hq, hps⟩ := List.forall_mem_cons.1
      (show ∀ w ∈ v.work repairs q :: v.works (repairs - (v.work repairs q).tally.repaired) ps,
        w.writes = [] from h)
    rw [work_eq_none hq] at hps
    exact List.forall_mem_cons.2 ⟨hq, ih hps⟩

/-- Whoever is responsible for the last replica of a removed item deletes it. -/
theorem writes_removedWork_ne_nil {name : String} {top : Replica} (hrepairs : 0 < repairs)
    (htop : rs.getLast? = some top)
    (h : top.isHeldBy v.self = true ∨ top.orphan = true ∧ v.caretaker = v.self) :
    (v.work repairs (.removed name rs)).writes ≠ [] := by
  show (v.removedWork repairs name rs).writes ≠ []
  have hcond : (decide (0 < repairs) &&
      (top.isHeldBy v.self || (top.orphan && v.caretaker == v.self))) = true := by
    simpa [hrepairs] using h
  unfold removedWork
  rw [htop]
  simp only [hcond, ↓reduceIte]
  rw [writes_guarded]
  exact List.cons_ne_nil _ _

/-- Whoever is responsible for a broken replica deletes one. -/
theorem deleted_ne_nil_of_broken (hrepairs : 0 < repairs) {r : Replica} (hr : r ∈ p.broken)
    (h : r.isHeldBy v.self = true ∨ r.orphan = true ∧ v.keeper p = v.self) :
    v.deleted repairs item p ≠ [] := by
  have hmem : r ∈ p.broken.filter fun q =>
      q.isHeldBy v.self || (q.orphan && v.keeper p == v.self) :=
    List.mem_filter.2 ⟨hr, by simpa using h⟩
  intro hnil
  have htake : v.repaired repairs p = [] := (List.append_eq_nil_iff.1 hnil).2
  have hfilter : (p.broken.filter fun q =>
      q.isHeldBy v.self || (q.orphan && v.keeper p == v.self)) = [] := by
    rcases List.take_eq_nil_iff.1 htake with h0 | h0
    · omega
    · exact h0
  rw [hfilter] at hmem
  exact nomatch hmem

end Viewpoint

/-! ### Quiet snapshots -/

namespace Snapshot

/-- The shares of a member in all items write nothing. -/
def IsIdle (s : Snapshot) (b : Bounds) (m : MemberId) : Prop :=
  ∀ t ∈ (Roster.ofSnapshot s).planned b, ((Proposal.viewpoint s m).work b.repairs t).writes = []

/-- A decoded snapshot in which no member proposes anything. -/
structure IsSilent (s : Snapshot) (b : Bounds) : Prop where
  faithful : s.IsFaithful
  quiet : ∀ e ∈ s.members, ∃ p, Proposal.ofSnapshot s e.value.id b = some p ∧ p.isEmpty = true

namespace IsSilent

variable {s : Snapshot} {b : Bounds}

/-- A member with a limit or an assignment is not drained, and so it is idle. -/
theorem idle_of_member (h : s.IsSilent b) {e : Entry Member} (he : e ∈ s.members)
    (hacts : e.value.limit ≠ 0 ∨ ∃ a ∈ s.assignments, a.value.holder = e.value.id) :
    s.IsIdle b e.value.id := by
  obtain ⟨p, hp, hempty⟩ := h.quiet e he
  obtain ⟨entry, seat, hentry, hseat, rfl⟩ := Proposal.eq_of_ofSnapshot hp
  obtain ⟨hmem, hid⟩ := (Roster.seat?_eq_some_iff h.faithful).1 hseat
  obtain ⟨e', he', rfl⟩ := Roster.mem_seats_iff.1 hmem
  obtain rfl := Snapshot.eq_of_mem_members h.faithful he' he hid
  split at hempty
  next hdrained =>
    exfalso
    rw [Bool.and_eq_true] at hdrained
    rcases hacts with hlimit | ⟨a, ha, hholder⟩
    · exact hlimit (eq_of_beq hdrained.1)
    · have hload : (s.assignments.map (·.value)).countP (·.holder == e'.value.id) = 0 :=
        eq_of_beq hdrained.2
      rw [List.countP_eq_zero] at hload
      exact hload _ (List.mem_map_of_mem ha) (by simpa using hholder)
  next =>
    have hfill := List.isEmpty_iff.1 hempty
    exact Viewpoint.writes_work_of_works (Proposal.writes_eq_nil_of_fill hfill).2

theorem idle_of_limit (h : s.IsSilent b) {e : Entry Member} (he : e ∈ s.members)
    (hlimit : e.value.limit ≠ 0) : s.IsIdle b e.value.id :=
  h.idle_of_member he (.inl hlimit)

theorem idle_of_holder (h : s.IsSilent b) {g : Group} (hg : g ∈ (Roster.ofSnapshot s).groups)
    {r : Replica} (hr : r ∈ g.replicas) (ho : r.orphan = false) : s.IsIdle b r.holder := by
  rw [(Roster.mem_groups_iff.1 hg).2] at hr
  obtain ⟨a, ha, rfl, -⟩ := Roster.mem_replicas_group_iff.1 hr
  obtain ⟨e, he⟩ : ∃ e, s.member? a.value.holder = some e := by
    rw [← Option.isSome_iff_exists]
    simpa [Roster.replica] using ho
  obtain ⟨hmem, hid⟩ := (Snapshot.member?_eq_some_iff h.faithful).1 he
  have hidle := h.idle_of_member hmem (.inr ⟨a, ha, hid.symm⟩)
  rwa [hid] at hidle

end IsSilent

/-- A decoded snapshot in which no member proposes anything, though somebody could tend to orphans and
repairs are allowed. -/
structure IsQuiet (s : Snapshot) (b : Bounds) : Prop where
  faithful : s.IsFaithful
  quiet : ∀ e ∈ s.members, ∃ p, Proposal.ofSnapshot s e.value.id b = some p ∧ p.isEmpty = true
  repairs : 0 < b.repairs
  staffed : ∃ e ∈ s.members, e.value.isDraining = false

namespace IsQuiet

variable {s : Snapshot} {b : Bounds}

theorem silent (h : s.IsQuiet b) : s.IsSilent b :=
  ⟨h.faithful, h.quiet⟩

/-- Everybody agrees on an idle caretaker. -/
theorem exists_caretaker (h : s.IsQuiet b) :
    ∃ c, s.IsIdle b c ∧ ∀ m, (Proposal.viewpoint s m).caretaker = c := by
  obtain ⟨e, he, hopen⟩ := h.staffed
  cases hc : (Roster.ofSnapshot s).seats.find? fun m => !m.isDraining with
  | none =>
    have hnone := List.find?_eq_none.1 hc _ (Roster.mem_seats_iff.2 ⟨e, he, rfl⟩)
    refine absurd ?_ hnone
    show (!(e.value.limit == 0)) = true
    rw [show (e.value.limit == 0) = false from hopen]
    rfl
  | some seat =>
    have hcaretaker : (Roster.ofSnapshot s).caretaker? = some seat.id := by
      unfold Roster.caretaker?
      rw [hc]
      rfl
    obtain ⟨e', he', hseat⟩ := Roster.mem_seats_iff.1 (List.mem_of_find?_eq_some hc)
    refine ⟨seat.id, ?_, fun m => ?_⟩
    · have hlimit := List.find?_some hc
      rw [hseat] at hlimit ⊢
      exact h.silent.idle_of_limit he' (by simpa [Seat.isDraining, Roster.seat] using hlimit)
    · show (Roster.ofSnapshot s).caretaker?.getD m = seat.id
      rw [hcaretaker]
      rfl

/-- Every item with assignments exists. -/
theorem wanted (h : s.IsQuiet b) {g : Group} (hg : g ∈ (Roster.ofSnapshot s).groups) :
    ∃ item, g.wanted = some item := by
  obtain ⟨t, ht, hof⟩ := Roster.exists_planned hg b
  cases hof with
  | @placed item hw room hids => exact ⟨item, hw⟩
  | removed hw =>
    exfalso
    obtain ⟨hid, he⟩ := Roster.mem_groups_iff.1 hg
    obtain ⟨a, ha, hitem⟩ : ∃ a ∈ s.assignments, a.value.item = g.id := by
      refine (Roster.mem_itemIds_iff.1 hid).resolve_left ?_
      rintro ⟨i, hi, hie⟩
      have hsome := (Snapshot.item?_eq_some_iff h.faithful).2 ⟨hi, hie⟩
      rw [he] at hw
      exact nomatch hw.symm.trans hsome
    have hmem : Roster.replica s a ∈ g.replicas := by
      rw [he]
      exact Roster.mem_replicas_group_iff.2 ⟨a, ha, rfl, hitem⟩
    cases htop : g.replicas.getLast? with
    | none =>
      rw [List.getLast?_eq_none_iff.1 htop] at hmem
      exact nomatch hmem
    | some top =>
      cases ho : top.orphan with
      | false =>
        have hidle := h.silent.idle_of_holder hg (List.mem_of_getLast? htop) ho
        refine Viewpoint.writes_removedWork_ne_nil h.repairs htop (.inl ?_) (hidle _ ht)
        simp [Replica.isHeldBy, ho, Proposal.viewpoint]
      | true =>
        obtain ⟨c, hidle, hc⟩ := h.exists_caretaker
        exact Viewpoint.writes_removedWork_ne_nil h.repairs htop (.inr ⟨ho, hc c⟩) (hidle _ ht)

/-- No item has broken replicas. -/
theorem broken_eq_nil (h : s.IsQuiet b) {g : Group} (hg : g ∈ (Roster.ofSnapshot s).groups) :
    Placement.brokenOf [] g.replicas = [] := by
  obtain ⟨t, ht, hof⟩ := Roster.exists_planned hg b
  cases hof with
  | removed hw =>
    obtain ⟨item, hitem⟩ := h.wanted hg
    exact nomatch hw.symm.trans hitem
  | @placed item hw room hids =>
    refine List.eq_nil_iff_forall_not_mem.2 fun r hr => ?_
    have hquiet : ∀ m, s.IsIdle b m → (Proposal.viewpoint s m).deleted b.repairs item
        (room.place (Roster.ofSnapshot s).shedding item.value.replication g.replicas).1 = [] :=
      fun m hm => (Viewpoint.parts_of_writes_eq_nil (hm _ ht)).1
    -- whoever answers for a broken replica, its holder, the keeper or the caretaker, would delete it
    cases ho : r.orphan with
    | false =>
      have hidle := h.silent.idle_of_holder hg (Placement.mem_of_mem_brokenOf hr) ho
      refine Viewpoint.deleted_ne_nil_of_broken h.repairs hr (.inl ?_) (hquiet _ hidle)
      simp [Replica.isHeldBy, ho, Proposal.viewpoint]
    | true =>
      cases hlive : (Placement.liveOf [] g.replicas).head? with
      | none =>
        obtain ⟨c, hidle, hc⟩ := h.exists_caretaker
        refine Viewpoint.deleted_ne_nil_of_broken h.repairs hr (.inr ⟨ho, ?_⟩) (hquiet _ hidle)
        unfold Viewpoint.keeper
        rw [Room.live_place, hlive]
        exact hc c
      | some q =>
        have hq := List.mem_of_head? hlive
        have hidle := h.silent.idle_of_holder hg (Placement.mem_of_mem_liveOf hq)
          (Placement.holder_of_mem_liveOf hq).1
        refine Viewpoint.deleted_ne_nil_of_broken h.repairs hr (.inr ⟨ho, ?_⟩) (hquiet _ hidle)
        unfold Viewpoint.keeper
        rw [Room.live_place, hlive]
        rfl

end IsQuiet

end Snapshot

end Allotment
