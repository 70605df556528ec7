import Allotment.Proofs.Run.Replay

/-!
# Replicas are made before they are broken

A share deletes the replica of an existing member only if enough others are consistent, and it keeps
these.  The guards of the commit make sure that what the snapshot showed is still there.  So whatever the
contents were, and whoever else writes, no commit makes an existing member let an existing item go unless
the wanted number of other members hold it consistently right afterwards (`replaced_of_run`).
-/

namespace Allotment

/-- Anybody may write anything, and members plan as they like. -/
def Rules.wild : Rules :=
  ⟨fun _ => True, fun _ _ _ => True⟩

instance Rules.decidableEditsWild : DecidablePred Rules.wild.edits := fun _ =>
  inferInstanceAs (Decidable True)

instance Rules.decidablePlansWild (w : World) (m : MemberId) (revision : Int) :
    Decidable (Rules.wild.plans w m revision) :=
  inferInstanceAs (Decidable True)

theorem Contents.isSegment_of_resource? {l : Layout} {c : Contents} {item : String} {i : Item}
    (h : c.resource? l (l.itemKey item) = some (.item i)) : IsSegment item := by
  obtain ⟨raw, -, hraw⟩ := Option.bind_eq_some_iff.1 h
  obtain ⟨d, hd, hitem⟩ := Option.map_eq_some_iff.1 hraw
  obtain ⟨r, rfl, hp, -⟩ := Resource.decode_eq_ok_iff.1 (toOption_eq_some_iff.1 hd)
  obtain rfl : r = .item i := hitem
  obtain ⟨hk, hi⟩ := Layout.parse_eq_item_iff.1 hp
  exact (Layout.itemKey_injective hk) ▸ hi

/-- Holding depends on the scope of the item only. -/
theorem Effect.holds_of_not_mem {l : Layout} {v : Viewpoint} {ts : List (Nat × Planned)}
    {c c' : Contents} (h : Effect l v ts c c') {item : String} (hi : IsSegment item)
    (hseg : ∀ t ∈ ts, IsSegment t.2.name) (hne : ∀ t ∈ ts, t.2.name ≠ item) {m : MemberId}
    (hm : c.Holds l item m) : c'.Holds l item m := by
  obtain ⟨k, hk, hs⟩ := hm
  refine ⟨k, ?_, hs⟩
  have hscope := Layout.startsWith_itemScope_of_holdingScope hs
  rw [Contents.mem_keys_iff] at hk ⊢
  unfold Contents.value? at hk ⊢
  rwa [h.get?_eq_of_not_mem hseg hi hne hscope]

/-- A share in an existing item lets nobody go unless enough others hold the item consistently. -/
theorem Effect.replaced {l : Layout} {v : Viewpoint} {ts : List (Nat × Planned)} {c c' : Contents}
    (h : Effect l v ts c c') {repairs : Nat} {item : Entry Item} {rs : List Replica} {p : Placement}
    (ht : (repairs, .placed item rs p) ∈ ts) (hrs : rs.Nodup) (hp : p.Fits rs)
    (exist : MemberId → Bool) (horphan : ∀ q ∈ rs, q.orphan = !exist q.holder) {holder : MemberId}
    (hvalid : holder.IsValid) (hexists : exist holder = true)
    (hheld : c.Holds l item.value.id holder) (hgone : ¬ c'.Holds l item.value.id holder) :
    ∃ others : List MemberId, others.Nodup ∧ item.value.replication ≤ others.length ∧
      ∀ o ∈ others, o ≠ holder ∧ exist o = true ∧ c'.HoldsConsistent l item.value.id o := by
  have hafter : c'.Shows l item.value.id (v.placedOutcome repairs item rs p) := h.after _ ht
  obtain ⟨r, hr, rfl⟩ := ((h.before _ ht).holds_iff hvalid).1 hheld
  have hgone' := mt (hafter.holds_iff hvalid).2 hgone
  have ho : r.orphan = false := by
    rw [horphan r hr, hexists]
    rfl
  obtain ⟨others, hnodup, hlen, hothers⟩ := v.replaced_of_let_go repairs item hp hrs hr ho
    fun q hq hqe => hgone' ⟨q, hq, hqe⟩
  refine ⟨others, hnodup, hlen, fun o hom => ?_⟩
  obtain ⟨hne, ⟨q, hq, hqo, rfl⟩, q', hq', hholder, hc⟩ := hothers o hom
  refine ⟨hne, ?_, hholder ▸ hafter.holdsConsistent hq' hc⟩
  rw [horphan q hq] at hqo
  simpa using hqo

/-- A commit by which an existing member lets an existing item go leaves it with enough others. -/
theorem Commits.replaced {l : Layout} {log : Chronicle} {s s' : Store} {m : MemberId} {b : Bounds}
    {p : Proposal} {snapshot : Snapshot} (h : Commits l log s m b p snapshot s') {holder : MemberId}
    {item : String} {wanted : Nat} (hexists : (snapshot.member? holder).isSome = true)
    (hitem : s.live.resource? l (l.itemKey item) = some (.item ⟨item, wanted⟩))
    (hheld : s.live.Holds l item holder) (hgone : ¬ s'.live.Holds l item holder) :
    ∃ others : List MemberId, others.Nodup ∧ wanted ≤ others.length ∧
      ∀ o ∈ others, o ≠ holder ∧ (snapshot.member? o).isSome = true ∧
        s'.live.HoldsConsistent l item o := by
  obtain ⟨entry, ts, hm⟩ := Proposal.made_of_ofSnapshot h.proposed
  have heffect := h.effect hm
  by_cases hex : ∃ t ∈ ts, t.2.name = item
  · obtain ⟨⟨repairs, t⟩, ht, rfl⟩ := hex
    have hguard := h.item_eq hm ht
    rw [hitem] at hguard
    have hfits := hm.fits h.faithful ht
    cases t with
    | removed name rs => exact nomatch hguard
    | placed e rs place =>
      have he : ⟨_, wanted⟩ = e.value := Resource.item.inj (Option.some.inj hguard)
      have horphan : ∀ q ∈ rs, q.orphan = !(snapshot.member? q.holder).isSome := fun q hq => by
        rw [hm.orphan_eq h.faithful ht hq, Option.not_isSome]
      have hothers := heffect.replaced ht (h.replicasOf hm ht).nodup_self hfits
        (fun m => (snapshot.member? m).isSome) horphan (Snapshot.isValid_of_member? h.faithful hexists)
        hexists hheld hgone
      rwa [← he] at hothers
  · refine absurd ?_ hgone
    exact heffect.holds_of_not_mem (Contents.isSegment_of_resource? hitem)
      (fun t ht => (h.replicasOf hm ht).segment) (fun t ht he => hex ⟨t, ht, he⟩) hheld

namespace World

variable {l : Layout} {w w' : World}

/-- No commit takes an existing item below the wanted number of consistent holders by making an existing
member let it go. -/
theorem replaced_of_run (h₀ : w.IsStart) (h : Run l Rules.wild w w') {d : Draft} (hd : d ∈ w'.drafts)
    {s : Store} {reply : Reply} (hc : w'.store.commit d.proposal.transaction = .ok (s, reply))
    (hs : reply.succeeded = true) {holder : MemberId} {item : String} {wanted : Nat}
    (hexists : (d.snapshot.member? holder).isSome = true)
    (hitem : w'.store.live.resource? l (l.itemKey item) = some (.item ⟨item, wanted⟩))
    (hheld : w'.store.live.Holds l item holder) (hgone : ¬ s.live.Holds l item holder) :
    ∃ others : List MemberId, others.Nodup ∧ wanted ≤ others.length ∧
      ∀ o ∈ others, o ≠ holder ∧ (d.snapshot.member? o).isSome = true ∧
        s.live.HoldsConsistent l item o := by
  have hsound : w'.Sound l := h.sound h₀.sound
  have hcommits := hsound.commits hd hc hs
  exact hcommits.replaced hexists hitem hheld hgone

/-! ### A drained member lets go -/

/-- Two members hold an item that is wanted once, and one of them drains. -/
def drainEdit : Transaction :=
  ⟨[], [.put "/r/items/job" (Item.encode 1), .put "/r/members/east/one" (Member.encode 0),
    .put "/r/members/west/two" (Member.encode 1),
    .put "/r/assignments/job/east/one/0" (Assignment.encode true),
    .put "/r/assignments/job/west/two/1" (Assignment.encode true)]⟩

/-- The replica of the draining member. -/
def drainedReplica : Replica :=
  ⟨"/r/assignments/job/east/one/0", ⟨"job", ⟨"east", "one"⟩, 0, true⟩, false⟩

/-- The replica of the other member. -/
def remainingReplica : Replica :=
  ⟨"/r/assignments/job/west/two/1", ⟨"job", ⟨"west", "two"⟩, 1, true⟩, false⟩

/-- What is to become of the two replicas. -/
def drainPlan : Planned :=
  .placed ⟨⟨⟨"job", 1⟩, 1, 1⟩, "/r/items/job"⟩ [drainedReplica, remainingReplica]
    ⟨[drainedReplica, remainingReplica], [], [drainedReplica], [], []⟩

/-- The draining member gives its replica up, and the other one moves to the first slot. -/
def drainWork : Work where
  guards := [.modified "/r/items/job" 1, .unchanged "/r/assignments/job/" 1]
  writes := [.delete "/r/assignments/job/east/one/0", .delete "/r/assignments/job/west/two/1",
    .put "/r/assignments/job/west/two/0" (Assignment.encode true)]
  tally := ⟨0, 1, 1, 0, 0⟩

theorem work_drainPlan :
    (Viewpoint.mk ⟨"/r"⟩ 1 ⟨"east", "one"⟩ ⟨"west", "two"⟩).work 32 drainPlan = drainWork := by
  have hkey : (Layout.mk "/r").assignmentKey "job" ⟨"west", "two"⟩ 0 =
      "/r/assignments/job/west/two/0" := rfl
  simp [drainPlan, drainWork, Viewpoint.work, Viewpoint.placedWork, Viewpoint.released,
    Viewpoint.own?, Viewpoint.repaired, Viewpoint.moves, renumbering, Packing.movers, Packing.gaps,
    Viewpoint.moveWrites, Viewpoint.guarded, Viewpoint.orphanGuards, Viewpoint.itemGuards,
    drainedReplica, remainingReplica, Replica.isHeldBy, Replica.holder, Replica.slot,
    Layout.itemKey, Layout.itemScope, hkey, List.range, List.range.loop]

/-- The proposal of the draining member. -/
def drainRelease : Proposal :=
  ⟨1, ⟨drainWork.guards ++ [.modified "/r/members/east/one" 1], drainWork.writes⟩, drainWork.tally,
    false, false⟩

theorem ofSnapshot_eq_drainRelease {s : Snapshot} (hl : s.layout = ⟨"/r"⟩) (hr : s.revision = 1)
    (hm : s.member? ⟨"east", "one"⟩ =
      some ⟨⟨⟨⟨"east", "one"⟩, 0⟩, 1, 1⟩, "/r/members/east/one"⟩)
    (hseat : (Roster.ofSnapshot s).seat? ⟨"east", "one"⟩ =
      some ⟨⟨"east", "one"⟩, "/r/members/east/one", 0, 1, 1, 0⟩)
    (hc : (Roster.ofSnapshot s).caretaker? = some ⟨"west", "two"⟩)
    (hp : (Roster.ofSnapshot s).planned Bounds.standard = [drainPlan]) :
    Proposal.ofSnapshot s ⟨"east", "one"⟩ Bounds.standard = some drainRelease := by
  unfold Proposal.ofSnapshot Proposal.works
  simp only [hl, hr, hm, hseat, hc, hp, Option.getD_some]
  rw [show Bounds.standard.repairs = 32 from rfl, Viewpoint.works, Viewpoint.works, work_drainPlan]
  rfl

/-- The item is still held by the other member when the drained one has let it go. -/
theorem replaced_of_drainRelease :
    ∃ w, Run ⟨"/r"⟩ Rules.wild fresh w ∧ ∃ d ∈ w.drafts, d.member = ⟨"east", "one"⟩ ∧
      ∃ s reply, w.store.commit d.proposal.transaction = .ok (s, reply) ∧
        reply.succeeded = true ∧ (d.snapshot.member? ⟨"east", "one"⟩).isSome = true ∧
          w.store.live.resource? ⟨"/r"⟩ ((Layout.mk "/r").itemKey "job") = some (.item ⟨"job", 1⟩) ∧
            w.store.live.Holds ⟨"/r"⟩ "job" ⟨"east", "one"⟩ ∧
              ¬ s.live.Holds ⟨"/r"⟩ "job" ⟨"east", "one"⟩ ∧
                ∃ others : List MemberId, others.Nodup ∧ 1 ≤ others.length ∧
                  ∀ o ∈ others, o ≠ ⟨"east", "one"⟩ ∧ (d.snapshot.member? o).isSome = true ∧
                    s.live.HoldsConsistent ⟨"/r"⟩ "job" o := by
  have hreplay : ((fresh.replay ⟨"/r"⟩ Rules.wild [.edit drainEdit]).bind fun w =>
      (w.log.snapshotAt ⟨"/r"⟩ 1).toOption.map fun s =>
        (w.store.revision, w.store.live.keys, w.store.live.resource? ⟨"/r"⟩ "/r/items/job",
          (w.store.commit drainRelease.transaction).toOption.map fun a =>
            (a.2.succeeded, a.1.live.keys),
          s.member? ⟨"east", "one"⟩, (Roster.ofSnapshot s).seat? ⟨"east", "one"⟩,
          (Roster.ofSnapshot s).caretaker?, (Roster.ofSnapshot s).planned Bounds.standard)) =
      some (1, ["/r/assignments/job/east/one/0", "/r/assignments/job/west/two/1", "/r/items/job",
          "/r/members/east/one", "/r/members/west/two"], some (.item ⟨"job", 1⟩),
        some (true, ["/r/assignments/job/west/two/0", "/r/items/job", "/r/members/east/one",
          "/r/members/west/two"]),
        some ⟨⟨⟨⟨"east", "one"⟩, 0⟩, 1, 1⟩, "/r/members/east/one"⟩,
        some ⟨⟨"east", "one"⟩, "/r/members/east/one", 0, 1, 1, 0⟩, some ⟨"west", "two"⟩,
        [drainPlan]) := by
    simp only [replay, play, advance, Store.commit, Store.response?, Store.holds_eq,
      Chronicle.snapshotAt, Contents.entriesUnder, Roster.ofSnapshot, Roster.itemIds,
      Snapshot.members, Snapshot.items, Snapshot.assignments, Snapshot.view, Snapshot.under_eq]
    cbv
  obtain ⟨w, hw, hs⟩ := Option.bind_eq_some_iff.1 hreplay
  obtain ⟨s, hs, hfacts⟩ := Option.map_eq_some_iff.1 hs
  simp only [Prod.mk.injEq] at hfacts
  obtain ⟨hrev, hkeys, hitem, hanswer, hm, hseat, hc, hp⟩ := hfacts
  obtain ⟨⟨store, reply⟩, hcommit, hafter⟩ := Option.map_eq_some_iff.1 hanswer
  obtain ⟨hsucc, hkeys'⟩ := Prod.mk.inj hafter
  have hdecoded := toOption_eq_some_iff.1 hs
  have hproposed := ofSnapshot_eq_drainRelease (Snapshot.ofEntries_eq_ok hdecoded).1
    (Snapshot.ofEntries_eq_ok hdecoded).2.1 hm hseat hc hp
  have hrun := (run_of_replay hw).step (.plan (Int.le_of_eq hrev.symm) trivial hdecoded hproposed)
  have hexists : (s.member? ⟨"east", "one"⟩).isSome = true := by
    rw [hm]
    rfl
  have hheld : w.store.live.Holds ⟨"/r"⟩ "job" ⟨"east", "one"⟩ := by
    unfold Contents.Holds
    rw [hkeys]
    decide +kernel
  have hgone : ¬ store.live.Holds ⟨"/r"⟩ "job" ⟨"east", "one"⟩ := by
    unfold Contents.Holds
    rw [hkeys']
    decide +kernel
  exact ⟨_, hrun, _, List.mem_cons_self, rfl, store, reply, toOption_eq_some_iff.1 hcommit, hsucc,
    hexists, hitem, hheld, hgone, replaced_of_run isStart_fresh hrun List.mem_cons_self
      (toOption_eq_some_iff.1 hcommit) hsucc hexists hitem hheld hgone⟩

end World

end Allotment
