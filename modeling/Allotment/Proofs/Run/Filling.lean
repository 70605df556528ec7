import Allotment.Proofs.Run.Replay
import Allotment.Proofs.Settle.Filling

/-!
# Filling up without churn

Let a run begin with members and items that stay as they are and without assignments, nobody draining and
everybody able to hold all items.  Then the contents are filling after every step (`World.Fills`), whatever
old contents since the beginning the members plan on.  So no replica is ever removed, renumbered or repaired,
no item has more replicas than it wants, and replicas share a zone only if all zones are reached
(`filling_of_run`).
-/

namespace Allotment

/-- Other writers keep away from the root, and members plan on nothing older than a revision. -/
def Rules.closed (l : Layout) (start : Int) : Rules :=
  ⟨Transaction.Spares l.scope, fun _ _ revision => start ≤ revision⟩

instance Rules.decidableEditsClosed (l : Layout) (start : Int) :
    DecidablePred (Rules.closed l start).edits := fun t =>
  inferInstanceAs (Decidable (t.Spares l.scope))

instance Rules.decidablePlansClosed (l : Layout) (start : Int) (w : World) (m : MemberId)
    (revision : Int) : Decidable ((Rules.closed l start).plans w m revision) :=
  inferInstanceAs (Decidable (start ≤ revision))

namespace Snapshot

theorem replication_le_slotLimit {l : Layout} {revision : Int} {c : Contents} {s : Snapshot}
    (h : ofEntries l revision (c.entriesUnder l.scope) = .ok s) {i : Entry Item} (hi : i ∈ s.items) :
    i.value.replication ≤ Layout.slotLimit := by
  obtain ⟨raw, -, -, hd⟩ := exists_raw_of_get? h ((mem_items_iff (faithful_of_ofEntries h)).1 hi)
  exact Nat.le_of_lt (Resource.replication_lt_of_decode hd rfl)

/-- Without assignments everything is still to be filled. -/
theorem isFilling_of_assignments_eq_nil {s : Snapshot} (hs : s.IsFaithful) (hnone : s.assignments = [])
    (hundrained : ∀ e ∈ s.members, e.value.isDraining = false)
    (hlimit : ∀ e ∈ s.members, s.items.length ≤ e.value.limit)
    (hslots : ∀ i ∈ s.items, i.value.replication ≤ Layout.slotLimit) : s.IsFilling := by
  have hheld : ∀ id, s.held id = [] := fun id => by
    unfold held
    rw [hnone]
    rfl
  refine ⟨⟨hs, ?_, ?_, ?_, ?_⟩, hundrained, fun e he _ => hlimit e he, hslots, ?_, ?_⟩
  · exact hnone ▸ fun _ ha => nomatch ha
  · exact hnone ▸ fun _ ha => nomatch ha
  · exact fun id => hheld id ▸ List.nodup_nil
  · exact fun id => hheld id ▸ List.Perm.refl _
  · exact fun i _ => hheld i.value.id ▸ Nat.zero_le _
  · exact fun i _ => .inl (hheld i.value.id ▸ List.nodup_nil)

/-- A snapshot is filling, with the members and the items of an earlier one. -/
structure FillsUp (s₀ s : Snapshot) : Prop where
  members : s.members = s₀.members
  items : s.items = s₀.items
  filling : s.IsFilling

end Snapshot

namespace World

variable {l : Layout} {s₀ : Snapshot} {start : Int} {w w' : World}

/-- Since a revision the contents have been filling, and no draft is older. -/
structure Fills (l : Layout) (s₀ : Snapshot) (start : Int) (w : World) : Prop where
  began : start ≤ w.store.revision
  fillsUp : ∀ revision, start ≤ revision → revision ≤ w.store.revision →
    ∃ s, w.log.snapshotAt l revision = .ok s ∧ s₀.FillsUp s
  recent : ∀ d ∈ w.drafts, start ≤ d.proposal.revision

namespace Fills

theorem exists_live (h : w.Fills l s₀ start) (hsound : w.Sound l) :
    ∃ s, s.layout = l ∧ s.Mirrors w.store.live ∧ s₀.FillsUp s := by
  obtain ⟨s, hs, hfills⟩ := h.fillsUp _ h.began (Int.le_refl _)
  unfold Chronicle.snapshotAt at hs
  rw [hsound.reached.explains.contentsAt_revision] at hs
  obtain ⟨hl, -, hmirrors⟩ := Snapshot.ofEntries_entriesUnder_eq_ok_iff.1 hs
  exact ⟨s, hl, hmirrors, hfills⟩

/-- The snapshot of a draft is filling. -/
theorem of_mem_drafts (h : w.Fills l s₀ start) (hsound : w.Sound l) {d : Draft} (hd : d ∈ w.drafts) :
    s₀.FillsUp d.snapshot := by
  obtain ⟨s, hs, hfills⟩ := h.fillsUp _ (h.recent d hd) (hsound.current d hd)
  rw [hsound.decoded d hd] at hs
  exact Except.ok.inj hs ▸ hfills

/-- A transaction that leaves the contents filling makes one more revision at which they are. -/
theorem advance (h : w.Fills l s₀ start) (hsound : w.Sound l) {t : Transaction} {s : Store} {reply : Reply}
    (hc : w.store.commit t = .ok (s, reply))
    (hnew : reply.succeeded = true → ∃ s', Snapshot.ofEntries l s.revision
      (s.live.entriesUnder l.scope) = .ok s' ∧ s₀.FillsUp s') : (w.advance t s).Fills l s₀ start where
  began := Int.le_trans h.began (Store.revision_le_of_commit hc)
  fillsUp := fun revision hstart hr => by
    have hr : revision ≤ s.revision := hr
    by_cases hle : revision ≤ w.store.revision
    · obtain ⟨s', hs', hfills⟩ := h.fillsUp revision hstart hle
      refine ⟨s', ?_, hfills⟩
      unfold Chronicle.snapshotAt at hs' ⊢
      rw [show (w.advance t s).log = w.log ++ _ from rfl,
        Chronicle.contentsAt_append_response? w.log t hle]
      exact hs'
    · have hlast : revision = s.revision := by
        rcases Store.revision_of_commit hc with he | he <;> omega
      have hsucc : reply.succeeded = true := by
        cases hs : reply.succeeded with
        | true => rfl
        | false =>
          rw [Store.eq_of_commit_of_not_succeeded hc hs] at hr
          exact absurd hr hle
      have hexplains : (w.advance t s).log.contentsAt s.revision = s.live :=
        (hsound.advance hc).reached.explains.contentsAt_revision
      unfold Chronicle.snapshotAt
      rw [hlast, hexplains]
      exact hnew hsucc
  recent := h.recent

theorem withdraw (h : w.Fills l s₀ start) {d : Draft} {before after : List Draft}
    (hd : w.drafts = before ++ d :: after) : Fills l s₀ start { w with drafts := before ++ after } :=
  ⟨h.began, h.fillsUp, fun d' hd' => h.recent d' ((rest_sublist hd).mem hd')⟩

/-- What is written elsewhere leaves the contents filling. -/
theorem edit (h : w.Fills l s₀ start) (hsound : w.Sound l) {t : Transaction} (ht : t.Spares l.scope)
    {s : Store} {reply : Reply} (hc : w.store.commit t = .ok (s, reply)) :
    (w.advance t s).Fills l s₀ start := by
  refine h.advance hsound hc fun hs => ?_
  obtain ⟨u, rfl, hmirrors, hfills⟩ := h.exists_live hsound
  rw [(Store.live_of_commit hc hs).2]
  obtain ⟨u', hu', hshift⟩ := Snapshot.exists_shift [] s.revision hmirrors
    (fun _ ht => nomatch ht) (fun _ hk _ => ht.get?_write w.store.live (w.store.revision + 1) hk)
    (fun _ ht => nomatch ht) (fun _ ht => nomatch ht)
  refine ⟨u', hu', hshift.members_eq.trans hfills.members, hshift.items_eq.trans hfills.items,
    hfills.filling.of_shift hshift (hshift.orderly hfills.filling.toIsOrderly ?_ ?_ ?_) ?_⟩ <;>
  exact fun _ ht => nomatch ht

/-- What a draft writes leaves the contents filling. -/
theorem submit (h : w.Fills l s₀ start) (hsound : w.Sound l) {d : Draft} {before after : List Draft}
    (hd : w.drafts = before ++ d :: after) {s : Store} {reply : Reply}
    (hc : w.store.commit d.proposal.transaction = .ok (s, reply)) :
    (w.submitted d (before ++ after) s reply).Fills l s₀ start := by
  have hmem : d ∈ w.drafts := hd ▸ List.mem_append_cons_self
  have hnext := h.advance hsound hc fun hs => by
    have hcommits := hsound.commits hmem hc hs
    obtain ⟨u, rfl, hmirrors, hu⟩ := h.exists_live hsound
    have hq := h.of_mem_drafts hsound hmem
    obtain ⟨entry, ts, hm⟩ := Proposal.made_of_ofSnapshot hcommits.proposed
    obtain ⟨u', hu', hmembers, hitems, hfilling⟩ := hq.filling.exists_after hu.filling
      (hq.members.trans hu.members.symm) (hq.items.trans hu.items.symm) hm hmirrors
      (hcommits.effect hm) s.revision
    exact ⟨u', hu', hmembers.trans hu.members, hitems.trans hu.items, hfilling⟩
  exact ⟨hnext.began, hnext.fillsUp, (h.withdraw hd).recent⟩

theorem step (h : w.Fills l s₀ start) (hsound : w.Sound l)
    (hs : Step l (Rules.closed l start) w w') : w'.Fills l s₀ start := by
  cases hs with
  | edit ht hc => exact h.edit hsound ht hc
  | plan hr hm hs hp =>
    have hrev := revision_of_snapshotAt hs hp
    exact ⟨h.began, h.fillsUp, List.forall_mem_cons.2 ⟨Int.le_trans hm (Int.le_of_eq hrev.symm), h.recent⟩⟩
  | submit hd hc => exact h.submit hsound hd hc
  | withdraw hd => exact h.withdraw hd
  | compact revision =>
    have hrev : (w.store.compact revision).revision = w.store.revision := Store.revision_compact _ _
    exact ⟨hrev ▸ h.began, hrev ▸ h.fillsUp, h.recent⟩
  | setAvailable available => exact ⟨h.began, h.fillsUp, h.recent⟩

end Fills

/-- A run that begins without assignments fills up the items without churn: nothing is removed, renumbered or
repaired by what is in flight, hence by what is committed. -/
theorem filling_of_run (hr : w.log.Reached w.store) (hdrafts : w.drafts = [])
    (hs : w.log.snapshotAt l w.store.revision = .ok s₀) (hnone : s₀.assignments = [])
    (hundrained : ∀ e ∈ s₀.members, e.value.isDraining = false)
    (hlimit : ∀ e ∈ s₀.members, s₀.items.length ≤ e.value.limit)
    (h : Run l (Rules.closed l w.store.revision) w w') :
    (∀ d ∈ w'.drafts, d.proposal.tally.removed = 0 ∧ d.proposal.tally.packed = 0 ∧
      d.proposal.tally.repaired = 0) ∧
    ∃ s, w'.log.snapshotAt l w'.store.revision = .ok s ∧ s.members = s₀.members ∧ s.items = s₀.items ∧
      ∀ i ∈ s.items, (s.held i.value.id).length ≤ i.value.replication ∧
        (¬ ((s.held i.value.id).map (·.holder.zone)).Nodup →
          ∀ e ∈ s.members, e.value.id.zone ∈ (s.held i.value.id).map (·.holder.zone)) := by
  have hfirst : s₀.FillsUp s₀ := ⟨rfl, rfl, Snapshot.isFilling_of_assignments_eq_nil
    (Snapshot.faithful_of_ofEntries hs) hnone hundrained hlimit
    fun _ hi => Snapshot.replication_le_slotLimit hs hi⟩
  have hfills : w.Fills l s₀ w.store.revision := by
    refine ⟨Int.le_refl _, fun revision hstart hle => ?_, fun d hd => ?_⟩
    · obtain rfl := Int.le_antisymm hle hstart
      exact ⟨s₀, hs, hfirst⟩
    · rw [hdrafts] at hd
      exact nomatch hd
  obtain ⟨hsound, hfills⟩ := h.induct (fun u => u.Sound l ∧ u.Fills l s₀ w.store.revision)
    ⟨sound_of_drafts_eq_nil hr hdrafts, hfills⟩ fun _ _ hu hs => ⟨hu.1.step hs, hu.2.step hu.1 hs⟩
  refine ⟨fun d hd => ?_, ?_⟩
  · obtain ⟨_, _, hm⟩ := Proposal.made_of_ofSnapshot (hsound.proposed d hd)
    have hchurn := (hfills.of_mem_drafts hsound hd).filling.churn_eq_zero hm
    unfold Tally.churn at hchurn
    omega
  · obtain ⟨s, hs', hs⟩ := hfills.fillsUp _ hfills.began (Int.le_refl _)
    refine ⟨s, hs', hs.members, hs.items, fun i hi => ⟨hs.filling.within i hi, fun hshared => ?_⟩⟩
    exact (hs.filling.spread i hi).resolve_left hshared

/-- An item that is wanted twice, and two members of one zone. -/
def pairSeed : Transaction :=
  ⟨[], [.put "/r/items/job" (Item.encode 2), .put "/r/members/east/one" (Member.encode 1),
    .put "/r/members/east/two" (Member.encode 2)]⟩

/-- The first member plans twice on the first contents.  One of its drafts commits, the other stays in flight,
and the second member takes the other replica. -/
def pairing : List Move :=
  [.plan ⟨"east", "two"⟩ Bounds.standard 1, .plan ⟨"east", "two"⟩ ⟨0, 0⟩ 1, .submit 0,
    .plan ⟨"east", "one"⟩ Bounds.standard 2, .submit 0]

/-- Both replicas share a zone, which is the only one. -/
theorem filling_of_pairing :
    ∃ u w, fresh.play ⟨"/r"⟩ (.edit pairSeed) = some u ∧
      u.replay ⟨"/r"⟩ (Rules.closed ⟨"/r"⟩ u.store.revision) pairing = some w ∧
      w.drafts.length = 1 ∧ w.store.live.slots ⟨"/r"⟩ "job" = [1, 0] ∧
      (∀ d ∈ w.drafts, d.proposal.tally.removed = 0 ∧ d.proposal.tally.packed = 0 ∧
        d.proposal.tally.repaired = 0) ∧
      ∃ s, w.log.snapshotAt ⟨"/r"⟩ w.store.revision = .ok s ∧ s.items.map (·.value) = [⟨"job", 2⟩] ∧
        ∀ i ∈ s.items, (s.held i.value.id).length ≤ i.value.replication ∧
          (¬ ((s.held i.value.id).map (·.holder.zone)).Nodup →
            ∀ e ∈ s.members, e.value.id.zone ∈ (s.held i.value.id).map (·.holder.zone)) := by
  have hstart : (fresh.play ⟨"/r"⟩ (.edit pairSeed)).any (fun u =>
      u.store.revision == 1 && u.drafts.isEmpty &&
        (u.log.snapshotAt ⟨"/r"⟩ u.store.revision).toOption.any fun s => s.assignments.isEmpty &&
        s.members.map (·.value) == [⟨⟨"east", "one"⟩, 1⟩, ⟨⟨"east", "two"⟩, 2⟩] &&
        s.items.map (·.value) == [⟨"job", 2⟩]) = true := by
    simp only [pairSeed, play, advance, Store.commit, Store.response?, Store.holds_eq, Chronicle.snapshotAt,
      Contents.entriesUnder, Snapshot.members, Snapshot.items, Snapshot.assignments, Snapshot.view,
      Snapshot.under_eq, ← Bool.cond_eq_ite]
    cbv
  have hreplay : ((fresh.play ⟨"/r"⟩ (.edit pairSeed)).bind fun u =>
      u.replay ⟨"/r"⟩ (Rules.closed ⟨"/r"⟩ 1) pairing).any (fun w => w.drafts.length == 1 &&
        w.store.live.slots ⟨"/r"⟩ "job" == [1, 0]) = true := by
    simp only [pairSeed, pairing, replay, play, submitted, advance, Store.commit, Store.response?,
      Store.holds_eq, Chronicle.snapshotAt, Contents.entriesUnder, Proposal.ofSnapshot, Proposal.works,
      Roster.ofSnapshot, Roster.itemIds, Snapshot.members, Snapshot.items, Snapshot.assignments,
      Snapshot.view, Snapshot.under_eq, Snapshot.ofEntries_eq, Resource.decode, Resource.ofIdentity,
      Resource.decodeConsistent_eq, ← Bool.cond_eq_ite]
    cbv
  obtain ⟨u, hu, hstart⟩ := (Option.any_eq_true _ _).1 hstart
  rw [hu, Option.bind_some] at hreplay
  obtain ⟨w, hw, hreplay⟩ := (Option.any_eq_true _ _).1 hreplay
  simp only [Bool.and_eq_true, beq_iff_eq, List.isEmpty_iff] at hstart hreplay
  obtain ⟨⟨hrevision, hdrafts⟩, hstart⟩ := hstart
  obtain ⟨s₀, hs₀, hstart⟩ := (Option.any_eq_true _ _).1 hstart
  simp only [Bool.and_eq_true, beq_iff_eq, List.isEmpty_iff] at hstart
  obtain ⟨⟨hnone, hmembers⟩, hitems⟩ := hstart
  have hmember : ∀ e ∈ s₀.members, 0 < e.value.limit := fun e he => by
    have hmem := List.mem_map_of_mem (f := fun e : Entry Member => e.value) he
    rw [hmembers] at hmem
    simp only [List.mem_cons, List.not_mem_nil, or_false] at hmem
    rcases hmem with hmem | hmem <;> rw [hmem] <;> decide
  have hlength : s₀.items.length = 1 := by
    rw [← List.length_map (f := fun i : Entry Item => i.value), hitems]
    rfl
  have hstep : Step ⟨"/r"⟩ ⟨fun _ => True, fun _ _ _ => True⟩ fresh u :=
    step_of_play (show Rules.Allow _ fresh (.edit pairSeed) from trivial) hu
  have hreached := (isStart_fresh.sound.step hstep).reached
  rw [← hrevision] at hw
  obtain ⟨hsteady, s, hs, -, hitems', hfilled⟩ := filling_of_run hreached hdrafts
    (toOption_eq_some_iff.1 hs₀) hnone (fun e he => by
      have hpos := hmember e he
      simp [Member.isDraining]
      omega) (fun e he => hlength ▸ hmember e he) (run_of_replay hw)
  exact ⟨u, w, hu, hw, hreplay.1, hreplay.2, hsteady, s, hs, hitems' ▸ hitems, hfilled⟩

end World

end Allotment
