import Allotment.Proofs.Agreement
import Allotment.Proofs.Commit
import Allotment.Proofs.Store.Recall

/-!
# Guards that a snapshot backs

A guard of a proposal says of one key, or of the assignments of one item, what the snapshot shows there
(`Snapshot.Backs`, `Proposal.Made.backs`).  An item without an entry is guarded to be absent, and so is the
holder of an orphan that is deleted; their keys have no entry in the snapshot either.  What the snapshot of
an earlier revision backs still holds as long as nothing has changed in the keyspace, provided that the
revision has not been forgotten (`Chronicle.Explains.holds_of_backs`, `Proposal.guards_hold`).
-/

namespace Allotment

namespace Snapshot

variable {s : Snapshot}

/-- When the entry of a key was last changed; zero if there is no entry. -/
def stamp (s : Snapshot) (k : String) : Int :=
  ((s.entries.get? k).map (·.modified)).getD 0

/-- A guard says of a key, or of the assignments of an item, what the snapshot shows there. -/
def Backs (s : Snapshot) : Guard → Prop
  | .modified k revision => k.startsWith s.layout.scope = true ∧ s.stamp k = revision
  | .unchanged scope revision => (∃ item, scope = s.layout.itemScope item) ∧ revision = s.revision

/-- Contents that a snapshot agrees with at a key have its stamp there. -/
theorem AgreesAt.stamp_eq {c : Contents} {k : String} (h : s.AgreesAt c k) :
    s.stamp k = ((c.get? k).map (·.modified)).getD 0 := by
  unfold stamp
  cases hc : c.get? k with
  | none =>
    rw [(agreesAt_none hc).1 h]
    rfl
  | some raw =>
    obtain ⟨v, hv, hd⟩ := (agreesAt_some hc).1 h
    obtain ⟨r, he, -⟩ := Resource.decode_eq_ok_iff.1 hd
    rw [hv]
    exact congrArg (fun e : Entry Resource => e.modified) he

theorem stamp_of_get? {k : String} {v : Stamped Resource} (h : s.entries.get? k = some v) :
    s.stamp k = v.modified := by
  unfold stamp
  rw [h]
  rfl

theorem stamp_of_get?_eq_none {k : String} (h : s.entries.get? k = none) : s.stamp k = 0 := by
  unfold stamp
  rw [h]
  rfl

/-- A member that is not found has no entry. -/
theorem get?_memberKey_eq_none (hs : s.IsFaithful) {m : MemberId} (hm : m.IsValid)
    (h : s.member? m = none) : s.entries.get? (s.layout.memberKey m) = none := by
  cases hv : s.entries.get? (s.layout.memberKey m) with
  | none => rfl
  | some v =>
    have hparse : s.layout.parse (s.layout.memberKey m) = .ok v.value.identity := hs _ _ hv
    rw [Layout.parse_eq_member_iff.2 ⟨rfl, hm⟩] at hparse
    obtain ⟨r, created, modified⟩ := v
    cases r with
    | item i => exact nomatch hparse
    | assignment a => exact nomatch hparse
    | member a =>
      have hid : m = a.id := Identity.member.inj (Except.ok.inj hparse)
      have hmember := (member?_eq_some_iff hs).2
        ⟨(mem_members_iff hs (e := ⟨⟨a, created, modified⟩, _⟩)).2 hv, hid.symm⟩
      exact nomatch h.symm.trans hmember

/-- An item that is not found has no entry. -/
theorem get?_itemKey_eq_none (hs : s.IsFaithful) {item : String} (hi : IsSegment item)
    (h : s.item? item = none) : s.entries.get? (s.layout.itemKey item) = none := by
  cases hv : s.entries.get? (s.layout.itemKey item) with
  | none => rfl
  | some v =>
    have hparse : s.layout.parse (s.layout.itemKey item) = .ok v.value.identity := hs _ _ hv
    rw [Layout.parse_eq_item_iff.2 ⟨rfl, hi⟩] at hparse
    obtain ⟨r, created, modified⟩ := v
    cases r with
    | member m => exact nomatch hparse
    | assignment a => exact nomatch hparse
    | item a =>
      have hid : item = a.id := Identity.item.inj (Except.ok.inj hparse)
      have hitem := (item?_eq_some_iff hs).2
        ⟨(mem_items_iff hs (e := ⟨⟨a, created, modified⟩, _⟩)).2 hv, hid.symm⟩
      exact nomatch h.symm.trans hitem

theorem backs_of_mem_members (hs : s.IsFaithful) {e : Entry Member} (he : e ∈ s.members) :
    s.Backs (.modified e.key e.modified) :=
  ⟨Layout.startsWith_scope_of_parse (hs _ _ ((mem_members_iff hs).1 he)),
    stamp_of_get? ((mem_members_iff hs).1 he)⟩

theorem backs_of_member?_eq_none (hs : s.IsFaithful) {m : MemberId} (hm : m.IsValid)
    (h : s.member? m = none) : s.Backs (.modified (s.layout.memberKey m) 0) :=
  ⟨Layout.startsWith_scope_of_parse (Layout.parse_eq_member_iff.2 ⟨rfl, hm⟩),
    stamp_of_get?_eq_none (get?_memberKey_eq_none hs hm h)⟩

end Snapshot

/-- What is planned for an item knows when the item was last changed. -/
theorem Roster.stamp_of_mem_planned {s : Snapshot} (hs : s.IsFaithful) {b : Bounds} {t : Planned}
    (ht : t ∈ (Roster.ofSnapshot s).planned b) : s.stamp (s.layout.itemKey t.name) = t.modified := by
  have hseg : IsSegment t.name := (replicasOf_of_mem_planned hs ht).segment
  obtain ⟨g, hg, hof⟩ := of_mem_planned ht
  cases hof with
  | removed hw =>
    rw [(mem_groups_iff.1 hg).2] at hw
    exact Snapshot.stamp_of_get?_eq_none (Snapshot.get?_itemKey_eq_none hs hseg hw)
  | @placed item hw room hids =>
    have hitem := (id_of_wanted hs hg hw).1
    have hentry := (Snapshot.mem_items_iff hs).1 hitem
    rw [(Snapshot.parse_of_mem_items hs hitem).1] at hentry
    exact Snapshot.stamp_of_get? hentry

namespace Viewpoint

variable {v : Viewpoint} {repairs : Nat} {t : Planned} {guard : Guard}

theorem of_mem_orphanGuards {ds : List Replica} (h : guard ∈ v.orphanGuards ds) :
    ∃ r ∈ ds, r.orphan = true ∧ guard = .modified (v.layout.memberKey r.holder) 0 := by
  obtain ⟨r, hr, rfl⟩ := List.mem_map.1 h
  obtain ⟨hr, ho⟩ := List.mem_filter.1 hr
  exact ⟨r, hr, ho, rfl⟩

theorem mem_itemGuards_iff {item : String} {modified : Int} : guard ∈ v.itemGuards item modified ↔
    guard = .modified (v.layout.itemKey item) modified ∨
      guard = .unchanged (v.layout.itemScope item) v.revision := by
  simp [itemGuards]

/-- A share is guarded by its item and by the absence of the holders of orphans that it deletes. -/
theorem exists_guards_work_eq (ht : t.Fits) (hw : (v.work repairs t).writes ≠ []) :
    ∃ ds, (∀ r ∈ ds, r ∈ t.replicas) ∧
      (v.work repairs t).guards = v.orphanGuards ds ++ v.itemGuards t.name t.modified := by
  cases t with
  | removed name rs =>
    rcases writes_removedWork_cases v repairs name rs with he | ⟨top, htop, -, hguards, -⟩
    · exact absurd (congrArg Work.writes he) hw
    · refine ⟨[top], fun r hr => ?_, hguards⟩
      obtain rfl := List.mem_singleton.1 hr
      exact List.mem_of_getLast? htop
  | placed item rs p => exact ⟨_, fun r hr => mem_of_mem_deleted ht hr, guards_placedWork hw⟩

theorem of_mem_guards_work (ht : t.Fits) (h : guard ∈ (v.work repairs t).guards) :
    (∃ r ∈ t.replicas, r.orphan = true ∧ guard = .modified (v.layout.memberKey r.holder) 0) ∨
      guard = .modified (v.layout.itemKey t.name) t.modified ∨
        guard = .unchanged (v.layout.itemScope t.name) v.revision := by
  by_cases hw : (v.work repairs t).writes = []
  · rw [work_eq_none hw] at h
    exact nomatch h
  · obtain ⟨ds, hds, hguards⟩ := exists_guards_work_eq ht hw
    rw [hguards] at h
    rcases List.mem_append.1 h with h | h
    · obtain ⟨r, hr, ho, rfl⟩ := of_mem_orphanGuards h
      exact .inl ⟨r, hds r hr, ho, rfl⟩
    · exact .inr (mem_itemGuards_iff.1 h)

end Viewpoint

/-- Every guard of a proposal says what the snapshot shows. -/
theorem Proposal.Made.backs {s : Snapshot} {m : MemberId} {b : Bounds} {p : Proposal}
    {entry : Entry Member} {ts : List (Nat × Planned)} (h : Made s m b p entry ts) (hs : s.IsFaithful)
    {guard : Guard} (hguard : guard ∈ p.transaction.guards) : s.Backs guard := by
  rcases h.only guard hguard with rfl | ⟨t, ht, hwork⟩
  · exact Snapshot.backs_of_mem_members hs ((Snapshot.member?_eq_some_iff hs).1 h.member).1
  have hplanned := h.mem_planned ht
  have hrs := Roster.replicasOf_of_mem_planned hs hplanned
  rcases Viewpoint.of_mem_guards_work (h.fits hs ht) hwork with ⟨r, hr, ho, rfl⟩ | rfl | rfl
  · refine Snapshot.backs_of_member?_eq_none hs (hrs.named hr).holder ?_
    rw [h.orphan_eq hs ht hr] at ho
    exact Option.isNone_iff_eq_none.1 ho
  · exact ⟨Layout.startsWith_scope_of_parse (Layout.parse_eq_item_iff.2 ⟨rfl, hrs.segment⟩),
      Roster.stamp_of_mem_planned hs hplanned⟩
  · exact ⟨⟨t.2.name, rfl⟩, rfl⟩

/-! ### Guards that hold -/

variable {l : Layout} {log : Chronicle} {store : Store} {s : Snapshot}

namespace Chronicle.Explains

/-- Nothing has changed since the current revision. -/
theorem not_touched (h : log.Explains store) (scope : String) : ¬ log.Touched scope store.revision := by
  rintro ⟨e, he, -, hlt⟩
  exact Int.not_le.2 hlt (h.bounded e he).2

/-- What an earlier snapshot shows still holds if nothing has changed in the keyspace and the revision of
the snapshot is not forgotten. -/
theorem holds_of_backs (h : log.Explains store) (hs : log.snapshotAt l s.revision = .ok s)
    (hcompacted : store.compacted ≤ s.revision) (hquiet : ¬ log.Touched l.scope s.revision)
    {guard : Guard} (hguard : s.Backs guard) : store.holds guard = true := by
  obtain rfl : s.layout = l := (Snapshot.ofEntries_eq_ok hs).1
  have hsame : ∀ e ∈ log.changes, e.key.startsWith s.layout.scope = true → e.revision ≤ s.revision :=
    fun e he hscope => Int.not_lt.1 fun hlt => hquiet ⟨e, he, hscope, hlt⟩
  cases guard with
  | modified k revision =>
    obtain ⟨hk, rfl⟩ := hguard
    have hagrees : s.AgreesAt (log.contentsAt s.revision) k := Snapshot.agreesAt_of_ofEntries hs hk
    rw [hagrees.stamp_eq, h.get?_contentsAt_eq fun e he hek => hsame e he (hek ▸ hk)]
    exact beq_self_eq_true _
  | unchanged scope revision =>
    obtain ⟨⟨item, rfl⟩, rfl⟩ := hguard
    exact h.holds_unchanged_iff.2
      ⟨hcompacted, fun e he hscope => hsame e he (Layout.startsWith_scope_of_itemScope hscope)⟩

end Chronicle.Explains

namespace Proposal

variable {m : MemberId} {b : Bounds} {p : Proposal}

/-- All guards of a proposal hold while nothing changes in the keyspace and the revision of the snapshot is
not forgotten. -/
theorem guards_hold (h : log.Explains store) (hs : log.snapshotAt l s.revision = .ok s)
    (hcompacted : store.compacted ≤ s.revision) (hquiet : ¬ log.Touched l.scope s.revision)
    (hp : ofSnapshot s m b = some p) : p.transaction.guards.all store.holds = true := by
  obtain ⟨entry, ts, hm⟩ := made_of_ofSnapshot hp
  exact List.all_eq_true.2 fun guard hguard =>
    h.holds_of_backs hs hcompacted hquiet (hm.backs (Snapshot.faithful_of_ofEntries hs) hguard)

/-- All guards of a proposal on the latest contents hold. -/
theorem guards_hold_of_latest (h : log.Explains store) (hs : log.snapshotAt l store.revision = .ok s)
    (hp : ofSnapshot s m b = some p) : p.transaction.guards.all store.holds = true := by
  have hrevision : s.revision = store.revision := (Snapshot.ofEntries_eq_ok hs).2.1
  exact guards_hold h (hrevision.symm ▸ hs) (hrevision.symm ▸ h.compacted_le.2)
    (hrevision.symm ▸ h.not_touched l.scope) hp

/-- A proposal that writes anything is guarded by an item whose assignments have not changed. -/
theorem exists_unchanged_guard (hp : ofSnapshot s m b = some p) (hne : p.isEmpty = false) :
    ∃ item, .unchanged (s.layout.itemScope item) s.revision ∈ p.transaction.guards := by
  obtain ⟨entry, ts, hm⟩ := made_of_ofSnapshot hp
  cases ts with
  | nil =>
    unfold isEmpty at hne
    rw [hm.writes] at hne
    exact nomatch hne
  | cons t ts =>
    have ht : t ∈ t :: ts := List.mem_cons_self
    exact ⟨t.2.name, hm.guards t ht _ (Viewpoint.guards_work t.1 (hm.writing t ht)).2⟩

end Proposal

end Allotment
