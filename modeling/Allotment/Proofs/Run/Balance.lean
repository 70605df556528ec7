import Allotment.Proofs.Plan.Account
import Allotment.Proofs.Run.Replay

/-!
# Tallies account for the store

What a proposal reports is what its transaction does to the contents of its snapshot: the number of
assignment keys changes by its additions less its removals and repairs, as many replicas are renumbered and
become consistent as it says, and it reports nothing only if it writes nothing (`Proposal.Accounted`).  The
same holds when the proposal is committed later, since its items still show what they showed.  So in a run in
which the other writers keep away from the assignments, all committed tallies together account for the number
of assignment keys (`World.tally_accounts`).
-/

namespace Allotment

/-! ### Proposals -/

/-- A proposal reports what its transaction does to some contents. -/
structure Proposal.Accounted (l : Layout) (c : Contents) (n : Int) (p : Proposal) : Prop where
  keys : ((c.write n p.transaction.writes).under l.assignmentsScope).length + p.tally.removed +
    p.tally.repaired = (c.under l.assignmentsScope).length + p.tally.added
  account : c.account l n p.transaction.writes = p.tally.account
  progress : p.tally.isNonzero = true ↔ p.transaction.writes ≠ []

theorem Proposal.Made.accounted {l : Layout} {revision : Int} {c' : Contents} {s : Snapshot} {m : MemberId}
    {b : Bounds} {p : Proposal} {entry : Entry Member} {ts : List (Nat × Planned)}
    (hm : Made s m b p entry ts) (hs : Snapshot.ofEntries l revision (c'.entriesUnder l.scope) = .ok s)
    {c : Contents} (n : Int) (hshows : ∀ t ∈ ts, c.Shows l t.2.name t.2.replicas) : p.Accounted l c n := by
  obtain rfl := (Snapshot.ofEntries_eq_ok hs).1
  have haccount := hm.account (Snapshot.faithful_of_ofEntries hs) n hshows
  refine ⟨?_, haccount, ?_⟩
  · have hkeys := Contents.length_under_account (l := s.layout) (c := c) (n := n)
      fun _ hw => hm.startsWith_assignmentsScope hs hw
    rw [haccount] at hkeys
    simpa only [Tally.account, Nat.add_assoc] using hkeys
  · rw [Tally.isNonzero, bne_iff_ne]
    exact not_congr hm.tally_eq_zero_iff

/-- A commit changes the number of assignment keys as its proposal reports. -/
theorem Commits.accounted {l : Layout} {log : Chronicle} {s s' : Store} {m : MemberId} {b : Bounds}
    {p : Proposal} {snapshot : Snapshot} (h : Commits l log s m b p snapshot s') :
    p.Accounted l s.live (s.revision + 1) := by
  obtain ⟨entry, ts, hm⟩ := Proposal.made_of_ofSnapshot h.proposed
  exact hm.accounted h.decoded _ fun t ht => h.shows_before hm ht

/-! ### Runs -/

/-- Other writers keep away from the assignments, and members plan as they like. -/
def Rules.reserved (l : Layout) : Rules :=
  ⟨Transaction.Spares l.assignmentsScope, fun _ _ _ => True⟩

instance Rules.decidableEditsReserved (l : Layout) : DecidablePred (Rules.reserved l).edits := fun t =>
  inferInstanceAs (Decidable (t.Spares l.assignmentsScope))

instance Rules.decidablePlansReserved (l : Layout) (w : World) (m : MemberId) (revision : Int) :
    Decidable ((Rules.reserved l).plans w m revision) :=
  inferInstanceAs (Decidable True)

theorem Transaction.Spares.length_under_write {scope : String} {t : Transaction} (h : t.Spares scope)
    (c : Contents) (n : Int) : ((c.write n t.writes).under scope).length = (c.under scope).length := by
  rw [Contents.length_under, Contents.length_under, List.countP_eq_length_filter,
    List.countP_eq_length_filter]
  refine (Contents.filter_keys_perm _ fun k hk => ?_).length_eq
  unfold Contents.value?
  rw [h.get?_write c n hk]

namespace World

variable {l : Layout} {w w' : World}

/-- The proposal that a move commits, if it does. -/
def applied? (w : World) : Move → Option Proposal
  | .submit n =>
    match w.drafts.drop n with
    | [] => none
    | d :: _ =>
      match w.store.commit d.proposal.transaction with
      | .ok (_, reply) => if reply.succeeded then some d.proposal else none
      | .error _ => none
  | _ => none

/-- The proposals that some moves commit, in turn. -/
def applied (l : Layout) (w : World) : List Move → List Proposal
  | [] => []
  | move :: moves =>
    (w.applied? move).toList ++ ((w.play l move).map fun w' => w'.applied l moves).getD []

/-- The tallies of some proposals together. -/
def total (ps : List Proposal) : Tally :=
  (ps.map (·.tally)).sum

/-- A store has as many assignment keys as another, but for what a tally says. -/
def Balance (l : Layout) (s s' : Store) (t : Tally) : Prop :=
  s'.countUnder l.assignmentsScope + t.removed + t.repaired = s.countUnder l.assignmentsScope + t.added

theorem Balance.of_live {s s' : Store} (h : (s'.live.under l.assignmentsScope).length =
    (s.live.under l.assignmentsScope).length) : Balance l s s' 0 :=
  h

theorem Balance.trans {s s' s'' : Store} {t t' : Tally} (h : Balance l s s' t) (h' : Balance l s' s'' t') :
    Balance l s s'' (t + t') := by
  have hadd : t + t' = Tally.add t t' := rfl
  unfold Balance at h h' ⊢
  simp only [hadd, Tally.add]
  omega

theorem balance_of_play (hsound : w.Sound l) {move : Move} (ha : (Rules.reserved l).Allow w move)
    (h : w.play l move = some w') :
    Balance l w.store w'.store (total (w.applied? move).toList) := by
  cases move with
  | edit t =>
    obtain ⟨s, reply, hc, rfl⟩ := play_edit_eq_some_iff.1 h
    refine Balance.of_live ?_
    show (s.live.under l.assignmentsScope).length = _
    cases hs : reply.succeeded with
    | false => rw [Store.eq_of_commit_of_not_succeeded hc hs]
    | true =>
      rw [(Store.live_of_commit hc hs).2]
      exact ha.length_under_write _ _
  | plan m b revision =>
    obtain ⟨-, -, -, -, -, rfl⟩ := play_plan_eq_some_iff.1 h
    exact Balance.of_live rfl
  | submit n =>
    obtain ⟨d, after, s, reply, hd, hc, rfl⟩ := play_submit_eq_some_iff.1 h
    show Balance l w.store s _
    simp only [applied?, hd, hc]
    cases hs : reply.succeeded with
    | false =>
      rw [Store.eq_of_commit_of_not_succeeded hc hs]
      exact Balance.of_live rfl
    | true =>
      have hcommits := hsound.commits (List.mem_of_mem_drop (hd ▸ List.mem_cons_self)) hc hs
      have htotal : total [d.proposal] = d.proposal.tally := List.sum_singleton
      simp only [↓reduceIte, Option.toList_some, htotal]
      have hkeys := hcommits.accounted.keys
      rw [← hcommits.live_eq] at hkeys
      exact hkeys
  | withdraw n =>
    obtain ⟨-, -, -, rfl⟩ := play_withdraw_eq_some_iff.1 h
    exact Balance.of_live rfl
  | compact revision =>
    obtain rfl := Option.some.inj h
    refine Balance.of_live ?_
    show ((w.store.compact revision).live.under l.assignmentsScope).length = _
    rw [Store.live_compact]
  | setAvailable available =>
    obtain rfl := Option.some.inj h
    exact Balance.of_live rfl

theorem total_append (ps qs : List Proposal) : total (ps ++ qs) = total ps + total qs := by
  unfold total
  rw [List.map_append, List.sum_append]

theorem balance_of_replay (hsound : w.Sound l) {moves : List Move}
    (h : w.replay l (Rules.reserved l) moves = some w') :
    Balance l w.store w'.store (total (w.applied l moves)) := by
  induction moves generalizing w with
  | nil =>
    obtain rfl := Option.some.inj h
    exact Balance.of_live rfl
  | cons move moves ih =>
    simp only [replay] at h
    split at h
    next ha =>
      obtain ⟨u, hu, h⟩ := Option.bind_eq_some_iff.1 h
      have hrest := ih (hsound.step (step_of_play ha hu)) h
      rw [applied, hu, total_append]
      exact (balance_of_play hsound ha hu).trans hrest
    next => cases h

/-- Tallies account for the store.  Every proposal reports what its transaction does to the contents of its
snapshot.  And in a run in which the other writers keep away from the assignments, the number of assignment
keys changes by all committed additions, less all committed removals and repairs. -/
theorem tally_accounts (l : Layout) :
    (∀ (revision : Int) (c : Contents) (s : Snapshot),
      Snapshot.ofEntries l revision (c.entriesUnder l.scope) = .ok s →
        ∀ e ∈ s.members, ∀ (b : Bounds) (n : Int),
          ∃ p, Proposal.require s e.value.id b = .ok p ∧ p.Accounted l c n) ∧
    ∀ (w w' : World) (moves : List Move), w.IsStart → w.replay l (Rules.reserved l) moves = some w' →
      w'.store.countUnder l.assignmentsScope + (total (w.applied l moves)).removed +
          (total (w.applied l moves)).repaired =
        w.store.countUnder l.assignmentsScope + (total (w.applied l moves)).added := by
  refine ⟨fun revision c s hs e he b n => ?_, fun w w' moves h₀ h => balance_of_replay h₀.sound h⟩
  obtain ⟨p, hp⟩ := Proposal.exists_of_mem_members (Snapshot.faithful_of_ofEntries hs) he b
  obtain ⟨entry, ts, hm⟩ := Proposal.made_of_ofSnapshot hp
  refine ⟨p, Proposal.require_eq_ok_iff.2 hp, hm.accounted hs n fun t ht => ?_⟩
  rw [← (Snapshot.ofEntries_eq_ok hs).1]
  exact hm.shows hs ht

/-- A member holds an item twice that nobody wants. -/
def surplus : Contents :=
  KeyMap.ofList [("/r/members/a/m", ⟨Member.encode 1, 1, 1⟩), ("/r/items/job", ⟨Item.encode 0, 1, 1⟩),
    ("/r/assignments/job/a/m/0", ⟨Assignment.encode true, 1, 1⟩),
    ("/r/assignments/job/a/m/1", ⟨Assignment.encode true, 1, 1⟩)]

/-- The replica of the lowest slot is in excess, and the other one is broken. -/
def surplusPlan : Planned :=
  let first : Replica := ⟨"/r/assignments/job/a/m/0", ⟨"job", ⟨"a", "m"⟩, 0, true⟩, false⟩
  let second : Replica := ⟨"/r/assignments/job/a/m/1", ⟨"job", ⟨"a", "m"⟩, 1, true⟩, false⟩
  .placed ⟨⟨⟨"job", 0⟩, 1, 1⟩, "/r/items/job"⟩ [first, second] ⟨[first], [second], [], [first], []⟩

/-- The excess goes, and since nothing may be repaired, the broken replica takes its slot. -/
theorem work_surplusPlan (caretaker : MemberId) :
    ((Viewpoint.mk ⟨"/r"⟩ 1 ⟨"a", "m"⟩ caretaker).work 0 surplusPlan).tally = ⟨0, 1, 1, 0, 0⟩ ∧
      ((Viewpoint.mk ⟨"/r"⟩ 1 ⟨"a", "m"⟩ caretaker).work 0 surplusPlan).writes =
        [.delete "/r/assignments/job/a/m/0", .delete "/r/assignments/job/a/m/1",
          .put ((Layout.mk "/r").assignmentKey "job" ⟨"a", "m"⟩ 0) (Assignment.encode true)] := by
  constructor <;>
    simp [surplusPlan, Viewpoint.work, Viewpoint.placedWork, Viewpoint.released, Viewpoint.own?,
      Viewpoint.repaired, Viewpoint.moves, Viewpoint.moveWrites, renumbering, Packing.movers,
      Packing.gaps, Viewpoint.guarded, Replica.isHeldBy, Replica.holder, Replica.slot, List.range,
      List.range.loop]

theorem total_staleDraft :
    total (fresh.applied ⟨"/r"⟩ (staleDraft ++ [.submit 0])) = ⟨1, 0, 0, 0, 0⟩ := by
  simp only [staleDraft, List.cons_append, List.nil_append, play, applied, applied?, submitted, advance,
    Store.commit, Store.response?, Store.holds_eq, Chronicle.snapshotAt, Contents.entriesUnder,
    Proposal.ofSnapshot, Proposal.works, Roster.ofSnapshot, Roster.itemIds, Snapshot.members,
    Snapshot.items, Snapshot.assignments, Snapshot.view, Snapshot.under_eq, ← Bool.cond_eq_ite]
  cbv

/-- A released replica and a packed one are accounted for, although the same keys are there afterwards but
one; and so is the replica that a stale draft adds. -/
theorem tally_accounts_of_surplus :
    (∃ s p, Snapshot.ofEntries ⟨"/r"⟩ 1 (surplus.entriesUnder (Layout.mk "/r").scope) = .ok s ∧
      Proposal.require s ⟨"a", "m"⟩ ⟨128, 0⟩ = .ok p ∧ p.tally = ⟨0, 1, 1, 0, 0⟩ ∧
        p.Accounted ⟨"/r"⟩ surplus 2) ∧
    ∃ w, fresh.replay ⟨"/r"⟩ (Rules.reserved ⟨"/r"⟩) (staleDraft ++ [.submit 0]) = some w ∧
      total (fresh.applied ⟨"/r"⟩ (staleDraft ++ [.submit 0])) = ⟨1, 0, 0, 0, 0⟩ ∧
        w.store.countUnder (Layout.mk "/r").assignmentsScope = 1 := by
  obtain ⟨hsnapshots, hruns⟩ := tally_accounts ⟨"/r"⟩
  constructor
  · have hfacts : (Snapshot.ofEntries ⟨"/r"⟩ 1 (surplus.entriesUnder (Layout.mk "/r").scope)).toOption.map
        (fun s => (s.members.map (·.value), (Roster.ofSnapshot s).seat? ⟨"a", "m"⟩,
          (Roster.ofSnapshot s).planned ⟨128, 0⟩)) =
        some ([⟨⟨"a", "m"⟩, 1⟩], some ⟨⟨"a", "m"⟩, "/r/members/a/m", 1, 2, 2, 0⟩, [surplusPlan]) := by
      simp only [surplus, Contents.entriesUnder, Roster.ofSnapshot, Roster.itemIds, Snapshot.members,
        Snapshot.items, Snapshot.assignments, Snapshot.view, Snapshot.under_eq]
      cbv
    obtain ⟨s, hs, hfacts⟩ := Option.map_eq_some_iff.1 hfacts
    simp only [Prod.mk.injEq] at hfacts
    obtain ⟨hmembers, hseat, hplanned⟩ := hfacts
    have hdecoded := toOption_eq_some_iff.1 hs
    obtain ⟨hlayout, hrevision, -⟩ := Snapshot.ofEntries_eq_ok hdecoded
    have hmem : (⟨⟨"a", "m"⟩, 1⟩ : Member) ∈ s.members.map (·.value) := by
      rw [hmembers]
      exact List.mem_cons_self
    obtain ⟨e, he, hvalue⟩ := List.mem_map.1 hmem
    obtain ⟨p, hp, haccounted⟩ := hsnapshots 1 surplus s hdecoded e he ⟨128, 0⟩ 2
    rw [hvalue] at hp
    have htally := (Proposal.of_planned_singleton (Proposal.require_eq_ok_iff.1 hp) hseat rfl hplanned).2
    rw [Proposal.viewpoint, hlayout, hrevision] at htally
    exact ⟨s, p, hdecoded, hp, htally.trans (work_surplusPlan _).1, haccounted⟩
  · have hreplay : (fresh.replay ⟨"/r"⟩ (Rules.reserved ⟨"/r"⟩)
        (staleDraft ++ [.submit 0])).isSome = true := by
      simp only [staleDraft, List.cons_append, List.nil_append, replay, play, submitted, advance,
        Store.commit, Store.response?, Store.holds_eq, Chronicle.snapshotAt, Contents.entriesUnder,
        Proposal.ofSnapshot, Proposal.works, Roster.ofSnapshot, Roster.itemIds, Snapshot.members,
        Snapshot.items, Snapshot.assignments, Snapshot.view, Snapshot.under_eq]
      cbv
    obtain ⟨w, hw⟩ := Option.isSome_iff_exists.1 hreplay
    have hbalance := hruns fresh w _ isStart_fresh hw
    rw [total_staleDraft] at hbalance
    exact ⟨w, hw, total_staleDraft, hbalance⟩

end World

end Allotment
