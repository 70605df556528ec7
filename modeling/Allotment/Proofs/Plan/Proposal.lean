import Allotment.Plan.Proposal
import Allotment.Proofs.Plan.Outcome

/-!
# What a proposal is made of

A proposal takes some of the shares of its member, each of them whole: its writes, its guards and its
tally are theirs (`Proposal.Made`, `Proposal.made_of_ofSnapshot`).  It proposes nothing only
if no share has anything to write (`writes_eq_nil_of_fill`).
-/

namespace Allotment

/-! ### Tallies -/

namespace Tally

instance : Zero Tally :=
  ⟨zero⟩

instance : Std.Associative (α := Tally) (· + ·) where
  assoc a b c := by
    show add (add a b) c = add a (add b c)
    simp only [add, Nat.add_assoc]

instance : Std.LawfulIdentity (α := Tally) (· + ·) 0 where
  left_id a := by
    show add zero a = a
    simp only [add, zero, Nat.zero_add]
  right_id _ := rfl

/-- What counts of two tallies add up to counts of their sum does so for any number. -/
theorem count_sum (count : Tally → Nat) (hzero : count 0 = 0)
    (hadd : ∀ a b, count (a + b) = count a + count b) (ts : List Tally) :
    count ts.sum = (ts.map count).sum := by
  induction ts with
  | nil => exact hzero
  | cons t ts ih => rw [List.map_cons, List.sum_cons, List.sum_cons, hadd, ih]

theorem added_sum (ts : List Tally) : ts.sum.added = (ts.map (·.added)).sum :=
  count_sum _ rfl (fun _ _ => rfl) ts

end Tally

/-! ### Shares as tasks -/

namespace Viewpoint

variable (v : Viewpoint)

/-- The items of a plan, each with the repairs that are left for it. -/
def tasks : (repairs : Nat) → List Planned → List (Nat × Planned)
  | _, [] => []
  | repairs, p :: ps => (repairs, p) :: tasks (repairs - (v.work repairs p).tally.repaired) ps

theorem works_eq_map_tasks (repairs : Nat) (ps : List Planned) :
    v.works repairs ps = (v.tasks repairs ps).map fun t => v.work t.1 t.2 := by
  induction ps generalizing repairs with
  | nil => rfl
  | cons p ps ih =>
    show v.work repairs p :: v.works _ ps = _
    unfold tasks
    rw [List.map_cons, ih]

theorem map_snd_tasks (repairs : Nat) (ps : List Planned) :
    (v.tasks repairs ps).map (·.2) = ps := by
  induction ps generalizing repairs with
  | nil => rfl
  | cons p ps ih =>
    unfold tasks
    rw [List.map_cons, ih]

end Viewpoint

/-! ### Filling a transaction -/

namespace Proposal

/-- Some of the works are taken, each of them whole. -/
theorem exists_taken_of_fill (maxWrites : Nat) (batch : Work) (ws : List Work) :
    ∃ taken : List Work, taken.Sublist ws ∧ (∀ w ∈ taken, w.writes ≠ []) ∧
      (fill maxWrites batch ws).1 = taken.foldl (· ++ ·) batch := by
  induction ws generalizing batch with
  | nil => exact ⟨[], List.Sublist.refl [], fun _ h => absurd h List.not_mem_nil, rfl⟩
  | cons w ws ih =>
    unfold fill
    split
    next =>
      obtain ⟨taken, hsub, hne, he⟩ := ih batch
      exact ⟨taken, hsub.cons w, hne, he⟩
    next hw =>
      split
      next => exact ⟨[], List.nil_sublist _, fun _ h => absurd h List.not_mem_nil, rfl⟩
      next =>
        obtain ⟨taken, hsub, hne, he⟩ := ih (batch ++ w)
        refine ⟨w :: taken, hsub.cons_cons w, List.forall_mem_cons.2 ⟨fun h => hw ?_, hne⟩, he⟩
        rw [h]
        rfl

theorem writes_append (a b : Work) : (a ++ b).writes = a.writes ++ b.writes :=
  rfl

/-- Nothing is written only if there was nothing to write. -/
theorem writes_eq_nil_of_fill {maxWrites : Nat} {batch : Work} {ws : List Work}
    (h : (fill maxWrites batch ws).1.writes = []) : batch.writes = [] ∧ ∀ w ∈ ws, w.writes = [] := by
  induction ws generalizing batch with
  | nil => exact ⟨h, fun _ hw => absurd hw List.not_mem_nil⟩
  | cons w ws ih =>
    unfold fill at h
    split at h
    next hw =>
      obtain ⟨hb, hws⟩ := ih h
      exact ⟨hb, List.forall_mem_cons.2 ⟨List.isEmpty_iff.1 hw, hws⟩⟩
    next hw =>
      split at h
      next hfull =>
        rw [h] at hfull
        exact nomatch hfull
      next =>
        have hb := (ih h).1
        rw [writes_append, List.append_eq_nil_iff] at hb
        exact absurd (List.isEmpty_iff.2 hb.2) hw

theorem foldl_append_eq (batch : Work) (ws : List Work) :
    (ws.foldl (· ++ ·) batch).writes = batch.writes ++ ws.flatMap (·.writes) ∧
      (ws.foldl (· ++ ·) batch).guards = batch.guards ++ ws.flatMap (·.guards) ∧
      (ws.foldl (· ++ ·) batch).tally = batch.tally + (ws.map (·.tally)).sum := by
  induction ws generalizing batch with
  | nil => exact ⟨(List.append_nil _).symm, (List.append_nil _).symm, rfl⟩
  | cons w ws ih =>
    obtain ⟨hw, hg, ht⟩ := ih (batch ++ w)
    have htally : (batch ++ w).tally = batch.tally + w.tally := rfl
    refine ⟨hw.trans ?_, hg.trans ?_, ht.trans ?_⟩
    · rw [List.flatMap_cons, ← List.append_assoc]
      rfl
    · rw [List.flatMap_cons, ← List.append_assoc]
      rfl
    · rw [htally, List.map_cons, List.sum_cons]
      exact Std.Associative.assoc _ _ _

/-! ### Proposals -/

/-- The viewpoint of a member on a snapshot. -/
def viewpoint (s : Snapshot) (self : MemberId) : Viewpoint :=
  ⟨s.layout, s.revision, self, (Roster.ofSnapshot s).caretaker?.getD self⟩

/-- A proposal of a member is made of the shares of some items, which are guarded. -/
structure Made (s : Snapshot) (m : MemberId) (b : Bounds) (p : Proposal) (entry : Entry Member)
    (ts : List (Nat × Planned)) : Prop where
  revision : p.revision = s.revision
  member : s.member? m = some entry
  planned : (ts.map (·.2)).Sublist ((Roster.ofSnapshot s).planned b)
  writing : ∀ t ∈ ts, ((viewpoint s m).work t.1 t.2).writes ≠ []
  writes : p.transaction.writes = ts.flatMap fun t => ((viewpoint s m).work t.1 t.2).writes
  guards : ∀ t ∈ ts, ∀ g ∈ ((viewpoint s m).work t.1 t.2).guards, g ∈ p.transaction.guards
  guarded : p.transaction.writes ≠ [] →
    .modified entry.key entry.modified ∈ p.transaction.guards
  only : ∀ g ∈ p.transaction.guards, g = .modified entry.key entry.modified ∨
    ∃ t ∈ ts, g ∈ ((viewpoint s m).work t.1 t.2).guards
  tally : p.tally = (ts.map fun t => ((viewpoint s m).work t.1 t.2).tally).sum

namespace Made

variable {s : Snapshot} {m : MemberId} {b : Bounds} {p : Proposal} {entry : Entry Member}
  {ts : List (Nat × Planned)} {t : Nat × Planned}

theorem mem_planned (h : Made s m b p entry ts) (ht : t ∈ ts) : t.2 ∈ (Roster.ofSnapshot s).planned b :=
  h.planned.mem (List.mem_map_of_mem ht)

theorem fits (h : Made s m b p entry ts) (hs : s.IsFaithful) (ht : t ∈ ts) : t.2.Fits :=
  Roster.fits_of_mem_planned hs (h.mem_planned ht)

theorem replicasOf (h : Made s m b p entry ts) (hs : s.IsFaithful) (ht : t ∈ ts) :
    ReplicasOf s.layout t.2.name t.2.replicas :=
  Roster.replicasOf_of_mem_planned hs (h.mem_planned ht)

theorem orphan_eq (h : Made s m b p entry ts) (hs : s.IsFaithful) (ht : t ∈ ts) {r : Replica}
    (hr : r ∈ t.2.replicas) : r.orphan = (s.member? r.holder).isNone :=
  Roster.orphan_of_mem_planned hs (h.mem_planned ht) hr

theorem isValid_self (h : Made s m b p entry ts) (hs : s.IsFaithful) : m.IsValid :=
  Snapshot.isValid_of_member? hs (Option.isSome_of_eq_some h.member)

theorem added (h : Made s m b p entry ts) :
    p.tally.added = (ts.map fun t => ((viewpoint s m).work t.1 t.2).tally.added).sum := by
  rw [h.tally, Tally.added_sum, List.map_map]
  rfl

end Made

/-- A proposal that is required is one that is there. -/
theorem require_eq_ok_iff {s : Snapshot} {self : MemberId} {b : Bounds} {p : Proposal} :
    require s self b = .ok p ↔ ofSnapshot s self b = some p := by
  unfold require
  split <;> simp_all

/-! ### Drained and filled proposals -/

theorem mem_guards_iff {batch : Work} {e : Entry Member} {g : Guard} : g ∈ guards batch e ↔
    g ∈ batch.guards ∨ batch.writes ≠ [] ∧ g = .modified e.key e.modified := by
  unfold guards
  split
  next h =>
    have hnil := List.isEmpty_iff.1 h
    simp [hnil]
  next h =>
    have hne : batch.writes ≠ [] := fun hnil => h (List.isEmpty_iff.2 hnil)
    simp [hne]

/-- What a member proposes whose transaction has been filled. -/
def filledAt (revision : Int) (e : Entry Member) (filled : Work × Bool) : Proposal :=
  ⟨revision, ⟨Proposal.guards filled.1 e, filled.1.writes⟩, filled.1.tally, false, filled.2⟩

section Cases

variable {s : Snapshot} {self : MemberId} {b : Bounds} {p : Proposal} {entry : Entry Member} {seat : Seat}

/-- A member that is in the snapshot is drained, or it fills its transaction. -/
theorem ofSnapshot_eq_some (hentry : s.member? self = some entry)
    (hseat : (Roster.ofSnapshot s).seat? self = some seat) (b : Bounds) :
    ofSnapshot s self b = some (if seat.isDraining && seat.load == 0 then drainedAt s.revision
      else filledAt s.revision entry (fill b.writes Work.none (works s (Roster.ofSnapshot s) self b))) := by
  unfold ofSnapshot
  simp only [hentry, hseat]
  split <;> rfl

/-- Only members that are in the snapshot propose anything. -/
theorem eq_of_ofSnapshot (h : ofSnapshot s self b = some p) : ∃ entry seat,
    s.member? self = some entry ∧ (Roster.ofSnapshot s).seat? self = some seat ∧
      p = if seat.isDraining && seat.load == 0 then drainedAt s.revision
        else filledAt s.revision entry (fill b.writes Work.none (works s (Roster.ofSnapshot s) self b)) := by
  cases hentry : s.member? self with
  | none => simp [ofSnapshot, hentry] at h
  | some entry =>
    cases hseat : (Roster.ofSnapshot s).seat? self with
    | none => simp [ofSnapshot, hentry, hseat] at h
    | some seat =>
      have heq := ofSnapshot_eq_some hentry hseat b
      exact ⟨entry, seat, rfl, rfl, Option.some.inj (h.symm.trans heq)⟩

theorem exists_seat_of_mem_members (hs : s.IsFaithful) (he : entry ∈ s.members) : ∃ seat,
    s.member? entry.value.id = some entry ∧ (Roster.ofSnapshot s).seat? entry.value.id = some seat := by
  have hseat := (Roster.seat?_eq_some_iff hs).2 ⟨Roster.mem_seats_iff.2 ⟨entry, he, rfl⟩, rfl⟩
  exact ⟨_, (Snapshot.member?_eq_some_iff hs).2 ⟨he, rfl⟩, hseat⟩

theorem exists_of_mem_members (hs : s.IsFaithful) (he : entry ∈ s.members) (b : Bounds) :
    ∃ p, ofSnapshot s entry.value.id b = some p := by
  obtain ⟨seat, hentry, hseat⟩ := exists_seat_of_mem_members hs he
  exact ⟨_, ofSnapshot_eq_some hentry hseat b⟩

/-- A member that is not draining is not drained. -/
theorem exists_eq_filledAt (hp : ofSnapshot s self b = some p)
    (hseat : (Roster.ofSnapshot s).seat? self = some seat) (hopen : seat.isDraining = false) :
    ∃ e, p = filledAt s.revision e (fill b.writes Work.none (works s (Roster.ofSnapshot s) self b)) := by
  obtain ⟨entry, seat', -, hseat', rfl⟩ := eq_of_ofSnapshot hp
  obtain rfl := Option.some.inj (hseat'.symm.trans hseat)
  refine ⟨entry, ?_⟩
  rw [hopen]
  rfl

end Cases

theorem made_drainedAt {s : Snapshot} {self : MemberId} {b : Bounds} {entry : Entry Member}
    (hentry : s.member? self = some entry) : Made s self b (drainedAt s.revision) entry [] :=
  ⟨rfl, hentry, List.nil_sublist _, fun _ ht => absurd ht List.not_mem_nil, rfl,
    fun _ ht => absurd ht List.not_mem_nil, fun hne => absurd rfl hne,
    fun _ hg => absurd hg List.not_mem_nil, rfl⟩

theorem made_filledAt {s : Snapshot} {self : MemberId} {b : Bounds} {entry : Entry Member}
    (hentry : s.member? self = some entry) : ∃ ts, Made s self b (filledAt s.revision entry
      (fill b.writes Work.none (works s (Roster.ofSnapshot s) self b))) entry ts := by
  obtain ⟨taken, hsub, hne, he⟩ := exists_taken_of_fill b.writes Work.none
    (works s (Roster.ofSnapshot s) self b)
  have hworks : works s (Roster.ofSnapshot s) self b =
      ((viewpoint s self).tasks b.repairs ((Roster.ofSnapshot s).planned b)).map
        fun t => (viewpoint s self).work t.1 t.2 :=
    Viewpoint.works_eq_map_tasks _ _ _
  obtain ⟨ts, hts, rfl⟩ := List.sublist_map_iff.1 (hworks ▸ hsub)
  obtain ⟨hwrites, hguards, htally⟩ := foldl_append_eq Work.none
    (ts.map fun t => (viewpoint s self).work t.1 t.2)
  rw [← he, List.flatMap_map] at hwrites hguards
  rw [← he, List.map_map] at htally
  have hplanned := hts.map (·.2)
  rw [Viewpoint.map_snd_tasks] at hplanned
  refine ⟨ts, rfl, hentry, hplanned, fun t ht => hne _ (List.mem_map_of_mem ht), hwrites,
    fun t ht g hg => mem_guards_iff.2 (.inl ?_), fun hwriting => mem_guards_iff.2 (.inr ⟨hwriting, rfl⟩),
    fun g hg => ?_, htally.trans (Std.LawfulLeftIdentity.left_id _)⟩
  · rw [hguards]
    exact List.mem_append_right _ (List.mem_flatMap.2 ⟨t, ht, hg⟩)
  · rcases mem_guards_iff.1 hg with hmem | ⟨-, hown⟩
    · rw [hguards] at hmem
      exact .inr (List.mem_flatMap.1 hmem)
    · exact .inl hown

/-- Every proposal is made of shares. -/
theorem made_of_ofSnapshot {s : Snapshot} {self : MemberId} {b : Bounds} {p : Proposal}
    (h : ofSnapshot s self b = some p) : ∃ entry ts, Made s self b p entry ts := by
  obtain ⟨entry, seat, hentry, -, rfl⟩ := eq_of_ofSnapshot h
  split
  · exact ⟨entry, [], made_drainedAt hentry⟩
  · exact ⟨entry, made_filledAt hentry⟩

/-- If there is only one item, then a member with a limit proposes its share in it. -/
theorem of_planned_singleton {s : Snapshot} {m : MemberId} {b : Bounds} {p : Proposal} {seat : Seat}
    {t : Planned} (hp : ofSnapshot s m b = some p) (hseat : (Roster.ofSnapshot s).seat? m = some seat)
    (hopen : seat.isDraining = false) (ht : (Roster.ofSnapshot s).planned b = [t]) :
    p.transaction.writes = ((viewpoint s m).work b.repairs t).writes ∧
      p.tally = ((viewpoint s m).work b.repairs t).tally := by
  have hworks : works s (Roster.ofSnapshot s) m b = [(viewpoint s m).work b.repairs t] := by
    show (viewpoint s m).works b.repairs ((Roster.ofSnapshot s).planned b) = _
    rw [ht, Viewpoint.works, Viewpoint.works]
  obtain ⟨e, rfl⟩ := exists_eq_filledAt hp hseat hopen
  rw [hworks]
  unfold fill
  split
  next hnone =>
    have hwrites := List.isEmpty_iff.1 hnone
    exact ⟨hwrites.symm, congrArg Work.tally (Viewpoint.work_eq_none hwrites).symm⟩
  next =>
    have htally : 0 + ((viewpoint s m).work b.repairs t).tally = _ := Std.LawfulLeftIdentity.left_id _
    exact ⟨rfl, htally⟩

end Proposal

end Allotment
