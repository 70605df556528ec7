import Allotment.Proofs.Backing
import Allotment.Proofs.Run.Handover

/-!
# A commit acts on what it saw

A proposal may be submitted long after the contents that it was computed from.  If it is applied all the
same, then every item that it writes to still has its key and all its assignments as they were, and so has
the member its own key (`Commits.unmoved_item`, `Commits.unmoved_scope`, `Commits.unmoved_member`).  A
holder that loses an assignment because the snapshot did not know it is still absent
(`Commits.absent_of_fewer`).  So no update by anybody else is lost (`unmoved_of_run`).
-/

namespace Allotment

/-! ### Holders that lose a replica -/

namespace Viewpoint

variable {v : Viewpoint} {repairs : Nat} {item : Entry Item} {rs : List Replica} {p : Placement}

/-- The guard that the holder of a deleted orphan is still absent. -/
theorem mem_orphanGuards {ds : List Replica} {r : Replica} (hr : r ∈ ds) (ho : r.orphan = true) :
    .modified (v.layout.memberKey r.holder) 0 ∈ v.orphanGuards ds :=
  List.mem_map.2 ⟨r, List.mem_filter.2 ⟨hr, ho⟩, rfl⟩

/-- A holder that has fewer replicas after a share has lost one that the share deletes. -/
theorem exists_deleted_of_countP_lt {m : MemberId}
    (h : (v.placedOutcome repairs item rs p).countP (·.holder == m) < rs.countP (·.holder == m)) :
    ∃ r ∈ v.deleted repairs item p, r.holder = m := by
  refine Decidable.byContradiction fun hnone => absurd h (Nat.not_lt.2 ?_)
  have hall : (v.spared repairs item rs p).countP (·.holder == m) = rs.countP (·.holder == m) := by
    simpa using v.countP_spared_eq (fun r _ hm hd => hnone ⟨r, hd, hm⟩) fun _ => true
  unfold placedOutcome
  rw [List.countP_append, countP_holder_map_settled, hall]
  exact Nat.le_add_left _ _

/-- An orphan's holder that has fewer replicas after a share is guarded to be absent. -/
theorem absent_guard_of_countP_lt {t : Planned} {m : MemberId}
    (hw : (v.work repairs t).writes ≠ []) (horphan : ∀ r ∈ t.replicas, r.holder = m → r.orphan = true)
    (ht : t.Fits)
    (h : (v.outcome repairs t).countP (·.holder == m) < t.replicas.countP (·.holder == m)) :
    .modified (v.layout.memberKey m) 0 ∈ (v.work repairs t).guards := by
  cases t with
  | placed item rs p =>
    obtain ⟨r, hr, rfl⟩ := exists_deleted_of_countP_lt h
    have ho := horphan r (mem_of_mem_deleted ht hr) rfl
    show _ ∈ (v.placedWork repairs item rs p).guards
    rw [guards_placedWork hw]
    exact List.mem_append_left _ (mem_orphanGuards hr ho)
  | removed name rs =>
    rcases writes_removedWork_cases v repairs name rs with he | ⟨top, htop, hwrites, hguards, -⟩
    · exact absurd (congrArg Work.writes he) hw
    · obtain ⟨init, rfl⟩ := List.getLast?_eq_some_iff.1 htop
      have hlost : top.holder = m := by
        refine Decidable.byContradiction fun hne => ?_
        simp only [outcome, hwrites, Planned.replicas, List.dropLast_concat, reduceCtorEq, ↓reduceIte,
          List.countP_append, List.countP_singleton, beq_false_of_ne hne, Bool.false_eq_true,
          Nat.add_zero, Nat.lt_irrefl] at h
      subst hlost
      show _ ∈ (v.removedWork repairs name _).guards
      rw [hguards]
      have hmem : top ∈ init ++ [top] := List.mem_append_right _ List.mem_cons_self
      exact List.mem_append_left _ (mem_orphanGuards List.mem_cons_self (horphan top hmem rfl))

end Viewpoint

/-! ### Replicas as keys -/

namespace Contents

/-- The number of keys that stand for a replica of an item on a member, whatever their slots. -/
def replicaCount (l : Layout) (c : Contents) (item : String) (m : MemberId) : Nat :=
  c.keys.countP (·.startsWith (l.holdingScope item m))

variable {l : Layout} {c c' : Contents} {item : String} {m : MemberId}

theorem Shows.replicaCount_eq {rs : List Replica} (h : Shows l item c rs) (hm : m.IsValid) :
    c.replicaCount l item m = rs.countP (·.holder == m) := by
  have hscope : c.replicaCount l item m = (c.keys.filter (·.startsWith (l.itemScope item))).countP
      (·.startsWith (l.holdingScope item m)) := by
    unfold replicaCount
    rw [List.countP_filter]
    refine List.countP_congr fun k _ => ?_
    rw [Bool.and_eq_true]
    exact (and_iff_left_of_imp Layout.startsWith_itemScope_of_holdingScope).symm
  rw [hscope, h.keys_perm.countP_eq, List.countP_map]
  refine List.countP_congr fun r hr => ?_
  rw [Function.comp_apply, (h.named r hr).startsWith_holdingScope_iff hm, beq_iff_eq]

/-- The replicas of an item depend on the keys in its scope only. -/
theorem replicaCount_congr
    (h : ∀ k, k.startsWith (l.itemScope item) = true → c'.get? k = c.get? k) :
    c'.replicaCount l item m = c.replicaCount l item m := by
  unfold replicaCount
  rw [List.countP_eq_length_filter, List.countP_eq_length_filter]
  refine (filter_keys_perm _ fun k hk => ?_).length_eq
  unfold value?
  rw [h k (Layout.startsWith_itemScope_of_holdingScope hk)]

end Contents

/-! ### What a commit finds -/

/-- The key is in the store as it was right after a revision, and as a snapshot has it. -/
structure Unmoved (log : Chronicle) (s : Store) (revision : Int) (snapshot : Snapshot) (k : String) :
    Prop where
  entry : s.live.get? k = (log.contentsAt revision).get? k
  agrees : snapshot.AgreesAt s.live k

namespace Commits

variable {l : Layout} {log : Chronicle} {s s' : Store} {m : MemberId} {b : Bounds} {p : Proposal}
  {snapshot : Snapshot} {entry : Entry Member} {ts : List (Nat × Planned)} {k : String}

theorem unmoved (h : Commits l log s m b p snapshot s') (hk : k.startsWith l.scope = true)
    (he : s.live.get? k = (log.contentsAt p.revision).get? k) :
    Unmoved log s p.revision snapshot k :=
  ⟨he, (Snapshot.agreesAt_of_ofEntries h.decoded hk).congr he⟩

/-- A key that is guarded by the stamp that it has in the snapshot has not moved. -/
theorem unmoved_of_stamp (h : Commits l log s m b p snapshot s') (hk : k.startsWith l.scope = true)
    (hg : .modified k (snapshot.stamp k) ∈ p.transaction.guards) :
    Unmoved log s p.revision snapshot k := by
  refine h.unmoved hk ?_
  rw [(Snapshot.agreesAt_of_ofEntries h.decoded hk).stamp_eq] at hg
  cases hraw : (log.contentsAt p.revision).get? k with
  | none =>
    rw [hraw] at hg
    exact h.explains.get?_eq_none_of_holds_modified_zero (h.holds hg)
  | some raw =>
    rw [hraw] at hg
    exact h.explains.get?_eq_of_holds_modified hraw (h.holds hg)

/-- The assignments of an item that a share writes to have not moved. -/
theorem unmoved_scope (h : Commits l log s m b p snapshot s')
    (hm : Proposal.Made snapshot m b p entry ts) {t : Nat × Planned} (ht : t ∈ ts)
    (hk : k.startsWith (l.itemScope t.2.name) = true) : Unmoved log s p.revision snapshot k := by
  refine h.unmoved (Layout.startsWith_scope_of_itemScope hk) ?_
  have hguard := hm.guards t ht _ (Viewpoint.guards_work t.1 (hm.writing t ht)).2
  have hunchanged := (h.explains.holds_unchanged_iff.1 (h.holds hguard)).2
  have hl : (Proposal.viewpoint snapshot m).layout = l := h.layout_eq
  have hrev : (Proposal.viewpoint snapshot m).revision = p.revision := hm.revision.symm
  rw [hl, hrev] at hunchanged
  exact (h.explains.get?_contentsAt_eq fun e he hek => hunchanged e he (hek ▸ hk)).symm

/-- The key of an item that a share writes to has not moved. -/
theorem unmoved_item (h : Commits l log s m b p snapshot s')
    (hm : Proposal.Made snapshot m b p entry ts) {t : Nat × Planned} (ht : t ∈ ts) :
    Unmoved log s p.revision snapshot (l.itemKey t.2.name) := by
  have hguard := hm.guards t ht _ (Viewpoint.guards_work t.1 (hm.writing t ht)).1
  have hl : (Proposal.viewpoint snapshot m).layout = snapshot.layout := rfl
  rw [hl, ← Roster.stamp_of_mem_planned h.faithful (hm.mem_planned ht), h.layout_eq] at hguard
  refine h.unmoved_of_stamp ?_ hguard
  rw [String.startsWith_string_iff]
  simp [Layout.scope, Layout.itemKey]

/-- The key of the member itself exists and has not moved. -/
theorem unmoved_member (h : Commits l log s m b p snapshot s')
    (hm : Proposal.Made snapshot m b p entry ts) (hw : p.transaction.writes ≠ []) :
    Unmoved log s p.revision snapshot (l.memberKey m) ∧
      (s.live.get? (l.memberKey m)).isSome = true := by
  have hl := h.layout_eq
  subst hl
  obtain ⟨hkey, hentry⟩ := Snapshot.get?_memberKey_of_member? h.faithful hm.member
  have hguard := hm.guarded hw
  rw [hkey] at hguard
  have hunmoved : Unmoved log s p.revision snapshot (snapshot.layout.memberKey m) := by
    refine h.unmoved_of_stamp ?_ ?_
    · rw [String.startsWith_string_iff]
      simp [Layout.scope, Layout.memberKey]
    · rw [Snapshot.stamp_of_get? hentry]
      exact hguard
  refine ⟨hunmoved, ?_⟩
  rw [hunmoved.agrees.isSome_eq, hentry]
  rfl

/-- A holder that the snapshot does not know and that loses a replica is absent. -/
theorem absent_of_fewer (h : Commits l log s m b p snapshot s') {item : String} (hi : IsSegment item)
    {holder : MemberId} (hvalid : holder.IsValid) (hunknown : snapshot.member? holder = none)
    (hfewer : s'.live.replicaCount l item holder < s.live.replicaCount l item holder) :
    s.live.get? (l.memberKey holder) = none := by
  have hl := h.layout_eq
  subst hl
  obtain ⟨entry, ts, hm⟩ := Proposal.made_of_ofSnapshot h.proposed
  have heffect := h.effect hm
  obtain ⟨t, ht, rfl⟩ : ∃ t ∈ ts, t.2.name = item := by
    refine Decidable.byContradiction fun hnone => ?_
    refine absurd (Contents.replicaCount_congr fun k hk => ?_) (Nat.ne_of_lt hfewer)
    exact heffect.get?_eq_of_not_mem (fun t ht => (h.replicasOf hm ht).segment) hi
      (fun t ht he => hnone ⟨t, ht, he⟩) hk
  rw [(heffect.before t ht).replicaCount_eq hvalid, (heffect.after t ht).replicaCount_eq hvalid]
    at hfewer
  refine h.explains.get?_eq_none_of_holds_modified_zero (h.holds (hm.guards t ht _ ?_))
  refine Viewpoint.absent_guard_of_countP_lt (hm.writing t ht) (fun r hr hholder => ?_)
    (hm.fits h.faithful ht) hfewer
  rw [hm.orphan_eq h.faithful ht hr, hholder, hunknown]
  rfl

end Commits

namespace World

variable {l : Layout} {w w' : World}

/-- No update is lost.  Let a draft be applied, whatever has happened since the revision that it was
computed from.  Then every item that it writes to has its key and all its assignments as they were then and
as the draft saw them, and so has the member its key; and a holder that the draft did not know, but of whose
assignments it deletes one, is absent. -/
theorem unmoved_of_run (h₀ : w.IsStart) (h : Run l Rules.wild w w') {d : Draft} (hd : d ∈ w'.drafts)
    (hw : d.proposal.isEmpty = false) {s : Store} {reply : Reply}
    (hc : w'.store.commit d.proposal.transaction = .ok (s, reply)) (hs : reply.succeeded = true) :
    (∀ write ∈ d.proposal.transaction.writes, ∃ item, IsSegment item ∧
      write.key.startsWith (l.itemScope item) = true ∧
        Unmoved w'.log w'.store d.proposal.revision d.snapshot (l.itemKey item) ∧
        ∀ k, k.startsWith (l.itemScope item) = true →
          Unmoved w'.log w'.store d.proposal.revision d.snapshot k) ∧
      (Unmoved w'.log w'.store d.proposal.revision d.snapshot (l.memberKey d.member) ∧
        (w'.store.live.get? (l.memberKey d.member)).isSome = true) ∧
      ∀ item holder, IsSegment item → holder.IsValid → d.snapshot.member? holder = none →
        s.live.replicaCount l item holder < w'.store.live.replicaCount l item holder →
          w'.store.live.get? (l.memberKey holder) = none := by
  have hcommits := (h.sound h₀.sound).commits hd hc hs
  obtain ⟨entry, ts, hm⟩ := Proposal.made_of_ofSnapshot hcommits.proposed
  have hwrites : d.proposal.transaction.writes ≠ [] := fun he => by
    rw [Proposal.isEmpty, he] at hw
    exact nomatch hw
  refine ⟨fun write hwrite => ?_, hcommits.unmoved_member hm hwrites, ?_⟩
  · rw [hm.writes] at hwrite
    obtain ⟨t, ht, hwrite⟩ := List.mem_flatMap.1 hwrite
    have hof := hcommits.replicasOf hm ht
    refine ⟨t.2.name, hof.segment, ?_, hcommits.unmoved_item hm ht,
      fun k hk => hcommits.unmoved_scope hm ht hk⟩
    exact hm.startsWith_of_mem_writes hcommits.decoded ht hwrite
  · exact fun item holder hi hvalid hunknown hfewer =>
      hcommits.absent_of_fewer hi hvalid hunknown hfewer

/-- When a draft is submitted after the store has moved on, its member and its item have not moved. -/
theorem unmoved_of_staleDraft :
    ∃ w, Run ⟨"/r"⟩ Rules.wild fresh w ∧ ∃ d ∈ w.drafts, d.proposal.revision < w.store.revision ∧
      d.proposal.isEmpty = false ∧ ∃ s reply,
        w.store.commit d.proposal.transaction = .ok (s, reply) ∧ reply.succeeded = true ∧
          (∀ write ∈ d.proposal.transaction.writes, ∃ item, IsSegment item ∧
            write.key.startsWith ((Layout.mk "/r").itemScope item) = true ∧
              Unmoved w.log w.store d.proposal.revision d.snapshot ((Layout.mk "/r").itemKey item)) ∧
          Unmoved w.log w.store d.proposal.revision d.snapshot
            ((Layout.mk "/r").memberKey d.member) := by
  have hreplay : ((fresh.replay ⟨"/r"⟩ Rules.wild staleDraft).any fun w =>
      w.drafts.any fun d => (w.store.commit d.proposal.transaction).toOption.any fun answer =>
        answer.2.succeeded && decide (d.proposal.revision < w.store.revision) &&
          !d.proposal.isEmpty) = true := by
    simp only [staleDraft, replay, play, advance, Store.commit, Store.response?,
      Store.holds_eq, Chronicle.snapshotAt, Contents.entriesUnder, Proposal.ofSnapshot,
      Proposal.works, Roster.ofSnapshot, Roster.itemIds, Snapshot.members, Snapshot.items,
      Snapshot.assignments, Snapshot.view, Snapshot.under_eq]
    cbv
  obtain ⟨w, hw, hdrafts⟩ := (Option.any_eq_true _ _).1 hreplay
  obtain ⟨d, hd, hanswer⟩ := List.any_eq_true.1 hdrafts
  obtain ⟨⟨s, reply⟩, hc, hfacts⟩ := (Option.any_eq_true _ _).1 hanswer
  simp only [Bool.and_eq_true, decide_eq_true_eq, Bool.not_eq_true'] at hfacts
  obtain ⟨⟨hsucc, hstale⟩, hwrites⟩ := hfacts
  have hcommit := toOption_eq_some_iff.1 hc
  obtain ⟨hitems, ⟨hmember, -⟩, -⟩ :=
    unmoved_of_run isStart_fresh (run_of_replay hw) hd hwrites hcommit hsucc
  refine ⟨w, run_of_replay hw, d, hd, hstale, hwrites, s, reply, hcommit, hsucc,
    fun write hwrite => ?_, hmember⟩
  obtain ⟨item, hseg, hscope, hitem, -⟩ := hitems write hwrite
  exact ⟨item, hseg, hscope, hitem⟩

end World

end Allotment
