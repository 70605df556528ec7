import Allotment.Proofs.Plan.Proposal
import Mathlib

/-!
# Members do not get in each other's way

All members that plan from one snapshot make the same plan, in which somebody is responsible for each change.
Only the first receiver of an item adds a replica to it (`Viewpoint.of_put_mem_work`), and whoever deletes a
replica for good holds it or, if its holder does not exist, tends it (`Viewpoint.of_delete_mem_work`).  This
holds whatever else a member has to do and however much of it fits into its transaction.  So no two members
add to one item or release one assignment (`Proposal.exclusive_of_members`).
-/

namespace Allotment

/-! ### Who is responsible -/

namespace Viewpoint

/-- The member that tends the replicas of an item whose holders do not exist. -/
def tender (v : Viewpoint) : Planned → MemberId
  | .placed _ _ p => v.keeper p
  | .removed _ _ => v.caretaker

/-- The member may delete a replica of an item: it is its own or in its care. -/
def AnswersFor (v : Viewpoint) (t : Planned) (r : Replica) : Prop :=
  r.isHeldBy v.self = true ∨ r.orphan = true ∧ v.tender t = v.self

variable {v v' : Viewpoint} {repairs : Nat} {t : Planned} {r : Replica}

/-- Members with the same caretaker do not answer for the same replica. -/
theorem self_eq_of_answersFor (hc : v.caretaker = v'.caretaker) (h : v.AnswersFor t r)
    (h' : v'.AnswersFor t r) : v.self = v'.self := by
  have htender : v.tender t = v'.tender t := by
    cases t with
    | placed item rs p => exact congrArg (fun c => (p.live.head?.map (·.holder)).getD c) hc
    | removed name rs => exact hc
  rcases h with hheld | ⟨ho, hself⟩ <;> rcases h' with hheld' | ⟨ho', hself'⟩
  · simp only [Replica.isHeldBy, Bool.and_eq_true, beq_iff_eq] at hheld hheld'
    exact hheld.2.symm.trans hheld'.2
  · simp [Replica.isHeldBy, ho'] at hheld
  · simp [Replica.isHeldBy, ho] at hheld'
  · exact hself.symm.trans (htender.trans hself')

theorem answersFor_of_mem_deleted {item : Entry Item} {rs : List Replica} {p : Placement}
    (h : r ∈ v.deleted repairs item p) : v.AnswersFor (.placed item rs p) r := by
  rcases List.mem_append.1 h with hr | hr
  · obtain ⟨-, ho, hself⟩ := of_own?_eq_some (mem_released_iff.1 hr).1
    exact .inl (by simp [Replica.isHeldBy, ho, hself])
  · have hcare := (List.mem_filter.1 (List.mem_of_mem_take hr)).2
    simpa [AnswersFor, tender, keeper] using hcare

/-- What a share deletes is a replica that the member answers for, or one that it puts again at another
slot. -/
theorem of_delete_mem_work (ht : t.Fits) {k : String} (h : .delete k ∈ (v.work repairs t).writes) :
    ∃ r ∈ t.replicas, r.key = k ∧ (v.AnswersFor t r ∨
      ∃ n, n ≠ r.slot ∧ ∃ value, .put (v.layout.assignmentKey r.assignment.item r.holder n) value ∈
        (v.work repairs t).writes) := by
  cases t with
  | removed name rs =>
    have h : .delete k ∈ (v.removedWork repairs name rs).writes := h
    rcases writes_removedWork_cases v repairs name rs with he | ⟨top, htop, hw, -, -, hmine⟩
    · rw [he] at h
      exact nomatch h
    · rw [hw, List.mem_singleton, Write.delete.injEq] at h
      exact ⟨top, List.mem_of_getLast? htop, h.symm, .inl hmine⟩
  | placed item rs p =>
    have hwrites : (v.work repairs (.placed item rs p)).writes = _ := writes_placedWork
    rw [hwrites] at h ⊢
    rcases of_delete_mem_placedWrites h with ⟨r, hr, rfl⟩ | ⟨m, hm, rfl⟩
    · exact ⟨r, mem_of_mem_deleted ht hr, rfl, .inl (answersFor_of_mem_deleted hr)⟩
    · obtain ⟨hspared, hfree⟩ := mem_spared_of_mem_moving hm
      refine ⟨m.1, (mem_spared_iff.1 hspared).1, rfl, .inr ⟨m.2, fun he => hfree ?_,
        (mem_placedWrites_of_moving hm).2⟩⟩
      exact he ▸ List.mem_map_of_mem hspared

/-- What a share puts is a replica that it deletes at another slot, one that there is, or a new one of the
first receiver. -/
theorem of_put_mem_work (ht : t.Fits) {k : String} {value : Bytes}
    (h : .put k value ∈ (v.work repairs t).writes) :
    (∃ r ∈ t.replicas, .delete r.key ∈ (v.work repairs t).writes ∧
        ∃ n, k = v.layout.assignmentKey r.assignment.item r.holder n) ∨
      (∃ r ∈ t.replicas, k = r.key) ∨
        (t.promises.head? = some v.self ∧ ∃ n, k = v.layout.assignmentKey t.name v.self n) := by
  cases t with
  | removed name rs =>
    have h : .put k value ∈ (v.removedWork repairs name rs).writes := h
    rcases writes_removedWork_cases v repairs name rs with he | ⟨top, -, hw, -⟩
    · rw [he] at h
      exact nomatch h
    · rw [hw] at h
      exact nomatch List.mem_singleton.1 h
  | placed item rs p =>
    have hwrites : (v.work repairs (.placed item rs p)).writes = _ := writes_placedWork
    rw [hwrites] at h ⊢
    obtain ⟨-, -, ⟨m, hm, rfl⟩ | ⟨hclaims, rfl⟩ | ⟨r, hr, rfl⟩⟩ := of_put_mem_placedWrites h
    · have hspared := (mem_spared_of_mem_moving hm).1
      exact .inl ⟨m.1, (mem_spared_iff.1 hspared).1, (mem_placedWrites_of_moving hm).1, m.2, rfl⟩
    · exact .inr (.inr ⟨(claims_eq_true_iff.1 hclaims).2.2.2, _, rfl⟩)
    · have hlive := (of_own?_eq_some (of_pending_eq_some (of_flagging_eq_some hr).1).1).1
      rw [Placement.Fits.live ht] at hlive
      exact .inr (.inl ⟨r, Placement.mem_of_mem_liveOf hlive, rfl⟩)

end Viewpoint

namespace Proposal

/-! ### What a proposal adds and releases -/

/-- The proposal adds an assignment to an item: it puts one that is not there yet, for a holder of whom it
deletes none. -/
def Adds (p : Proposal) (s : Snapshot) (item : String) : Prop :=
  ∃ key value holder slot, .put key value ∈ p.transaction.writes ∧
    s.layout.parse key = .ok (.assignment item holder slot) ∧
      ∀ a ∈ s.assignments, a.value.item = item → a.value.holder = holder →
        a.key ≠ key ∧ .delete a.key ∉ p.transaction.writes

/-- The proposal releases an assignment: it deletes it, and does not put it again at another slot. -/
def Releases (p : Proposal) (s : Snapshot) (a : Entry Assignment) : Prop :=
  .delete a.key ∈ p.transaction.writes ∧
    ∀ n value, n ≠ a.value.slot →
      .put (s.layout.assignmentKey a.value.item a.value.holder n) value ∉ p.transaction.writes

section

variable {s : Snapshot} {m m' : MemberId} {b : Bounds} {p p' : Proposal}

/-- A replica that is planned for is one of the assignments. -/
theorem exists_assignment_of_mem_planned (hs : s.IsFaithful) {t : Planned}
    (ht : t ∈ (Roster.ofSnapshot s).planned b) {r : Replica} (hr : r ∈ t.replicas) :
    ∃ a ∈ s.assignments, a.key = r.key ∧ a.value = r.assignment ∧ a.value.item = t.name := by
  rw [(Roster.replicas_of_mem_planned hs ht).2] at hr
  obtain ⟨a, ha, rfl, hi⟩ := Roster.mem_replicas_group_iff.1 hr
  exact ⟨a, ha, rfl, rfl, hi⟩

/-- Whoever adds an assignment to an item is its first receiver. -/
theorem exists_planned_of_adds (hs : s.IsFaithful) (hp : ofSnapshot s m b = some p) {item : String}
    (h : p.Adds s item) :
    ∃ t ∈ (Roster.ofSnapshot s).planned b, t.name = item ∧ t.promises.head? = some m := by
  obtain ⟨key, value, holder, slot, hput, hparse, hnew⟩ := h
  obtain ⟨entry, ts, hmade⟩ := made_of_ofSnapshot hp
  have hwrites := hmade.writes
  rw [hwrites] at hput
  obtain ⟨⟨repairs, t⟩, ht, hput⟩ := List.mem_flatMap.1 hput
  have hplanned := hmade.mem_planned ht
  have hrs := Roster.replicasOf_of_mem_planned hs hplanned
  rcases Viewpoint.of_put_mem_work (hmade.fits hs ht) hput with
    ⟨r, hr, hdelete, n, rfl⟩ | ⟨r, hr, rfl⟩ | ⟨hhead, n, rfl⟩
  · -- a replica that moves has been deleted
    exfalso
    obtain ⟨a, ha, hkey, hvalue, -⟩ := exists_assignment_of_mem_planned hs hplanned hr
    have hitem := hrs.item_eq r hr
    have hid := ((Layout.parse_assignmentKey_eq_ok_iff (hitem ▸ hrs.segment) (hrs.named hr).holder).1
      hparse).1
    obtain ⟨hi, hh, -⟩ := Identity.assignment.inj hid
    refine (hnew a ha ?_ ?_).2 ?_
    · rw [hvalue, hi]
    · rw [hvalue, hh]
      rfl
    · rw [hwrites, hkey]
      exact List.mem_flatMap.2 ⟨_, ht, hdelete⟩
  · -- a replica that becomes consistent has been there
    exfalso
    obtain ⟨a, ha, hkey, hvalue, -⟩ := exists_assignment_of_mem_planned hs hplanned hr
    have hid := Except.ok.inj ((hrs.parse r hr).symm.trans hparse)
    obtain ⟨hi, hh, -⟩ := Identity.assignment.inj hid
    exact (hnew a ha (by rw [hvalue, hrs.item_eq r hr, hi]) (by rw [hvalue]; exact hh)).1 hkey
  · have hid :=
      ((Layout.parse_assignmentKey_eq_ok_iff hrs.segment (hmade.isValid_self hs)).1 hparse).1
    exact ⟨t, hplanned, (Identity.assignment.inj hid).1.symm, hhead⟩

/-- Whoever releases an assignment answers for it. -/
theorem exists_planned_of_releases (hs : s.IsFaithful) (hp : ofSnapshot s m b = some p)
    {a : Entry Assignment} (ha : a ∈ s.assignments) (h : p.Releases s a) :
    ∃ t ∈ (Roster.ofSnapshot s).planned b, t.name = a.value.item ∧
      ∃ r ∈ t.replicas, r.key = a.key ∧ (viewpoint s m).AnswersFor t r := by
  obtain ⟨hdelete, hnot⟩ := h
  obtain ⟨entry, ts, hmade⟩ := made_of_ofSnapshot hp
  have hwrites := hmade.writes
  rw [hwrites] at hdelete
  obtain ⟨⟨repairs, t⟩, ht, hdelete⟩ := List.mem_flatMap.1 hdelete
  have hplanned := hmade.mem_planned ht
  have hrs := Roster.replicasOf_of_mem_planned hs hplanned
  obtain ⟨r, hr, hkey, hcase⟩ := Viewpoint.of_delete_mem_work (hmade.fits hs ht) hdelete
  have hparse := hrs.parse r hr
  rw [hkey, Snapshot.parse_of_mem_assignments hs ha] at hparse
  obtain ⟨hi, hh, hslot⟩ := Identity.assignment.inj (Except.ok.inj hparse)
  refine ⟨t, hplanned, hi.symm, r, hr, hkey, hcase.resolve_right ?_⟩
  rintro ⟨n, hne, value, hput⟩
  rw [hrs.item_eq r hr, ← hi, ← hh] at hput
  refine hnot n value (hslot ▸ hne) ?_
  rw [hwrites]
  exact List.mem_flatMap.2 ⟨_, ht, hput⟩

/-- There is a caretaker that everybody agrees on if some member is not draining. -/
theorem caretaker_eq (h : ∃ e ∈ s.members, e.value.isDraining = false) (m m' : MemberId) :
    (viewpoint s m).caretaker = (viewpoint s m').caretaker := by
  obtain ⟨e, he, hopen⟩ := h
  cases hc : (Roster.ofSnapshot s).caretaker? with
  | some c =>
    show (Roster.ofSnapshot s).caretaker?.getD m = (Roster.ofSnapshot s).caretaker?.getD m'
    rw [hc]
    rfl
  | none =>
    unfold Roster.caretaker? at hc
    have hnone := List.find?_eq_none.1 (Option.map_eq_none_iff.1 hc) _
      (Roster.mem_seats_iff.2 ⟨e, he, rfl⟩)
    refine absurd ?_ hnone
    show (!e.value.isDraining) = true
    rw [hopen]
    rfl

/-- Only one member adds to an item. -/
theorem eq_of_adds (hs : s.IsFaithful) (hp : ofSnapshot s m b = some p) (hp' : ofSnapshot s m' b = some p')
    {item : String} (h : p.Adds s item) (h' : p'.Adds s item) : m = m' := by
  obtain ⟨t, ht, hname, hhead⟩ := exists_planned_of_adds hs hp h
  obtain ⟨t', ht', hname', hhead'⟩ := exists_planned_of_adds hs hp' h'
  obtain rfl := List.inj_on_of_nodup_map (Roster.nodup_names_planned hs b) ht ht' (hname.trans hname'.symm)
  exact Option.some.inj (hhead.symm.trans hhead')

/-- Only one member releases an assignment. -/
theorem eq_of_releases (hs : s.IsFaithful) (hopen : ∃ e ∈ s.members, e.value.isDraining = false)
    (hp : ofSnapshot s m b = some p) (hp' : ofSnapshot s m' b = some p') {a : Entry Assignment}
    (ha : a ∈ s.assignments) (h : p.Releases s a) (h' : p'.Releases s a) : m = m' := by
  obtain ⟨t, ht, hname, r, hr, hkey, hmine⟩ := exists_planned_of_releases hs hp ha h
  obtain ⟨t', ht', hname', r', hr', hkey', hmine'⟩ := exists_planned_of_releases hs hp' ha h'
  obtain rfl := List.inj_on_of_nodup_map (Roster.nodup_names_planned hs b) ht ht' (hname.trans hname'.symm)
  obtain rfl := List.inj_on_of_nodup_map (Roster.replicasOf_of_mem_planned hs ht).nodup hr hr'
    (hkey.trans hkey'.symm)
  exact Viewpoint.self_eq_of_answersFor (caretaker_eq hopen m m') hmine hmine'

end

/-- Members do not get in each other's way: of the proposals that two members make from one snapshot, no item
has an assignment added by both, and if some member is not draining, no assignment is released by both. -/
theorem exclusive_of_members {l : Layout} {revision : Int} {es : List (Entry Bytes)} {s : Snapshot}
    (hs : Snapshot.ofEntries l revision es = .ok s) {e e' : Entry Member} (he : e ∈ s.members)
    (he' : e' ∈ s.members) (hne : e ≠ e') (b : Bounds) :
    ∃ p p', require s e.value.id b = .ok p ∧ require s e'.value.id b = .ok p' ∧
      (∀ item, ¬ (p.Adds s item ∧ p'.Adds s item)) ∧
        ((∃ e ∈ s.members, e.value.isDraining = false) →
          ∀ a ∈ s.assignments, ¬ (p.Releases s a ∧ p'.Releases s a)) := by
  have hfaithful := Snapshot.faithful_of_ofEntries hs
  have hids : e.value.id ≠ e'.value.id := fun h => hne (Snapshot.eq_of_mem_members hfaithful he he' h)
  obtain ⟨p, hp⟩ := exists_of_mem_members hfaithful he b
  obtain ⟨p', hp'⟩ := exists_of_mem_members hfaithful he' b
  refine ⟨p, p', require_eq_ok_iff.2 hp, require_eq_ok_iff.2 hp', fun item h => ?_, fun hopen a ha h => ?_⟩
  · exact hids (eq_of_adds hfaithful hp hp' h.1 h.2)
  · exact hids (eq_of_releases hfaithful hopen hp hp' ha h.1 h.2)

/-- An item that is wanted twice, held by one of two members and by another one that does not exist. -/
def rivalEntries : List (Entry Bytes) :=
  [⟨⟨Member.encode 1, 1, 1⟩, "/r/members/a/m"⟩, ⟨⟨Member.encode 1, 1, 1⟩, "/r/members/b/m"⟩,
    ⟨⟨Item.encode 2, 1, 1⟩, "/r/items/job"⟩,
    ⟨⟨Assignment.encode true, 1, 1⟩, "/r/assignments/job/a/m/0"⟩,
    ⟨⟨Assignment.encode true, 1, 1⟩, "/r/assignments/job/c/m/1"⟩]

/-- The replica that nobody holds. -/
def strayAssignment : Entry Assignment :=
  ⟨⟨⟨"job", ⟨"c", "m"⟩, 1, true⟩, 1, 1⟩, "/r/assignments/job/c/m/1"⟩

/-- The member without a replica receives one. -/
def rivalPlan : Planned :=
  let held : Replica := ⟨"/r/assignments/job/a/m/0", ⟨"job", ⟨"a", "m"⟩, 0, true⟩, false⟩
  let stray : Replica := ⟨strayAssignment.key, strayAssignment.value, true⟩
  .placed ⟨⟨⟨"job", 2⟩, 1, 1⟩, "/r/items/job"⟩ [held, stray] ⟨[held], [stray], [], [], [⟨"b", "m"⟩]⟩

theorem writes_rivalPlan_keeper (caretaker : MemberId) :
    ((Viewpoint.mk ⟨"/r"⟩ 1 ⟨"a", "m"⟩ caretaker).work 32 rivalPlan).writes =
      [.delete strayAssignment.key] := by
  simp [rivalPlan, strayAssignment, Viewpoint.work, Viewpoint.placedWork, Viewpoint.released,
    Viewpoint.own?, Viewpoint.repaired, Viewpoint.moves, renumbering, Packing.movers, Packing.gaps,
    Viewpoint.guarded, Replica.isHeldBy, Replica.holder, Replica.slot, List.range, List.range.loop]

theorem writes_rivalPlan_receiver (caretaker : MemberId) :
    ((Viewpoint.mk ⟨"/r"⟩ 1 ⟨"b", "m"⟩ caretaker).work 32 rivalPlan).writes =
      [.put ((Layout.mk "/r").assignmentKey "job" ⟨"b", "m"⟩ 2) (Assignment.encode false)] := by
  simp [rivalPlan, strayAssignment, Viewpoint.work, Viewpoint.placedWork, Viewpoint.released,
    Viewpoint.own?, Viewpoint.repaired, Viewpoint.moves, renumbering, Packing.movers, Packing.gaps,
    Viewpoint.guarded, Replica.isHeldBy, Replica.holder, Replica.slot, isPacked, List.range,
    List.range.loop]

theorem releases_of_writes {s : Snapshot} {p : Proposal} {a : Entry Assignment}
    (h : p.transaction.writes = [.delete a.key]) : p.Releases s a := by
  unfold Releases
  rw [h]
  refine ⟨List.mem_cons_self, fun n value _ hput => ?_⟩
  cases List.mem_singleton.1 hput

theorem adds_of_writes {s : Snapshot} {p : Proposal} {item : String} {m : MemberId} {n : Nat} {value : Bytes}
    (hi : IsSegment item) (hm : m.IsValid) (hn : n < Layout.slotLimit)
    (h : p.transaction.writes = [.put (s.layout.assignmentKey item m n) value])
    (hnone : ∀ a ∈ s.assignments, a.value.item = item → a.value.holder ≠ m) : p.Adds s item := by
  refine ⟨_, value, m, n, ?_, (Layout.parse_assignmentKey_eq_ok_iff hi hm).2 ⟨rfl, hn⟩,
    fun a ha hitem hholder => absurd hholder (hnone a ha hitem)⟩
  rw [h]
  exact List.mem_cons_self

/-- The keeper of the item releases the stray replica, and the receiver adds one. -/
theorem exclusive_of_rivalEntries :
    ∃ s p p', Snapshot.ofEntries ⟨"/r"⟩ 1 rivalEntries = .ok s ∧
      require s ⟨"a", "m"⟩ Bounds.standard = .ok p ∧ require s ⟨"b", "m"⟩ Bounds.standard = .ok p' ∧
        p.Releases s strayAssignment ∧ ¬ p'.Releases s strayAssignment ∧
          p'.Adds s "job" ∧ ¬ p.Adds s "job" := by
  have hfacts : (Snapshot.ofEntries ⟨"/r"⟩ 1 rivalEntries).toOption.map (fun s =>
      (s.members, s.assignments, (Roster.ofSnapshot s).seat? ⟨"a", "m"⟩,
        (Roster.ofSnapshot s).seat? ⟨"b", "m"⟩, (Roster.ofSnapshot s).planned Bounds.standard)) =
      some ([⟨⟨⟨⟨"a", "m"⟩, 1⟩, 1, 1⟩, "/r/members/a/m"⟩,
          ⟨⟨⟨⟨"b", "m"⟩, 1⟩, 1, 1⟩, "/r/members/b/m"⟩],
        [⟨⟨⟨"job", ⟨"a", "m"⟩, 0, true⟩, 1, 1⟩, "/r/assignments/job/a/m/0"⟩, strayAssignment],
        some ⟨⟨"a", "m"⟩, "/r/members/a/m", 1, 1, 1, 0⟩,
        some ⟨⟨"b", "m"⟩, "/r/members/b/m", 1, 0, 0, 1⟩, [rivalPlan]) := by
    simp only [Roster.ofSnapshot, Roster.itemIds, Snapshot.members, Snapshot.items,
      Snapshot.assignments, Snapshot.view, Snapshot.under_eq]
    cbv
  obtain ⟨s, hs, hfacts⟩ := Option.map_eq_some_iff.1 hfacts
  simp only [Prod.mk.injEq] at hfacts
  obtain ⟨hmembers, hassignments, hkeeper, hreceiver, hplanned⟩ := hfacts
  have hdecoded := toOption_eq_some_iff.1 hs
  obtain ⟨hlayout, hrevision, -⟩ := Snapshot.ofEntries_eq_ok hdecoded
  have ha : (⟨⟨⟨⟨"a", "m"⟩, 1⟩, 1, 1⟩, "/r/members/a/m"⟩ : Entry Member) ∈ s.members := by
    rw [hmembers]
    decide
  have hb : (⟨⟨⟨⟨"b", "m"⟩, 1⟩, 1, 1⟩, "/r/members/b/m"⟩ : Entry Member) ∈ s.members := by
    rw [hmembers]
    decide
  have hstray : strayAssignment ∈ s.assignments := by
    rw [hassignments]
    decide
  obtain ⟨p, p', hp, hp', hadds, hreleases⟩ :=
    exclusive_of_members hdecoded ha hb (by decide) Bounds.standard
  have hview : ∀ m, viewpoint s m = ⟨⟨"/r"⟩, 1, m, (Roster.ofSnapshot s).caretaker?.getD m⟩ := fun m => by
    rw [viewpoint, hlayout, hrevision]
  have hwrites := (of_planned_singleton (require_eq_ok_iff.1 hp) hkeeper rfl hplanned).1
  rw [hview] at hwrites
  replace hwrites := hwrites.trans (writes_rivalPlan_keeper _)
  have hwrites' := (of_planned_singleton (require_eq_ok_iff.1 hp') hreceiver rfl hplanned).1
  rw [hview] at hwrites'
  replace hwrites' := hwrites'.trans (writes_rivalPlan_receiver _)
  rw [← hlayout] at hwrites'
  have hreleased : p.Releases s strayAssignment := releases_of_writes hwrites
  have hadded : p'.Adds s "job" := by
    refine adds_of_writes (by decide) ⟨by decide, by decide⟩ (by decide) hwrites' ?_
    rw [hassignments]
    decide
  exact ⟨s, p, p', hdecoded, hp, hp', hreleased,
    fun h => hreleases ⟨_, ha, rfl⟩ _ hstray ⟨hreleased, h⟩, hadded, fun h => hadds _ ⟨h, hadded⟩⟩

end Proposal

end Allotment
