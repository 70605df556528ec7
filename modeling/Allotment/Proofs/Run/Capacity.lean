import Allotment.Proofs.Run.Replay

/-!
# Members stay within their limits

Let the other writers put no assignments, and let every member have one draft at a time, on contents no
older than its last commit.  Then the load of a member never exceeds what it was in any contents that the
member may still plan on (`Bounded`): only its own shares add to it.  A proposal adds no more than the
limit left room for in its snapshot, so right after it commits an addition the load is within the limit
(`load_le_limit_of_run`).
-/

namespace Allotment

/-- No assignment key is put; it may be deleted. -/
def Transaction.PutsNoAssignment (l : Layout) (t : Transaction) : Prop :=
  ∀ w ∈ t.writes, w.value?.isSome = true → l.holding? w.key = none

/-- Other writers put no assignments, and members plan on nothing older than their last commit, one
draft at a time. -/
def Rules.orderly (l : Layout) : Rules where
  edits := Transaction.PutsNoAssignment l
  plans w m revision := w.committed m ≤ revision ∧ ∀ d ∈ w.drafts, d.member ≠ m

instance Rules.decidableEditsOrderly (l : Layout) : DecidablePred (Rules.orderly l).edits := fun t =>
  inferInstanceAs (Decidable (∀ w ∈ t.writes, w.value?.isSome = true → l.holding? w.key = none))

instance Rules.decidablePlansOrderly (l : Layout) (w : World) (m : MemberId) (revision : Int) :
    Decidable ((Rules.orderly l).plans w m revision) :=
  inferInstanceAs (Decidable (w.committed m ≤ revision ∧ ∀ d ∈ w.drafts, d.member ≠ m))

/-! ### Loads in snapshots -/

theorem Snapshot.holding?_of_mem_assignments {s : Snapshot} (hs : s.IsFaithful)
    {e : Entry Assignment} (he : e ∈ s.assignments) :
    s.layout.holding? e.key = some ⟨e.value.item, e.value.holder, e.value.slot⟩ :=
  Layout.holding?_eq_some_iff.2 (parse_of_mem_assignments hs he)

/-- A snapshot has an assignment for each assignment key of the contents. -/
theorem Snapshot.keys_assignments_perm {l : Layout} {revision : Int} {c : Contents} {s : Snapshot}
    (h : ofEntries l revision (c.entriesUnder l.scope) = .ok s) :
    (c.keys.filter fun k => (l.holding? k).isSome).Perm (s.assignments.map (·.key)) := by
  have hs := faithful_of_ofEntries h
  obtain rfl := (ofEntries_eq_ok h).1
  have hnodup : (s.assignments.map (·.key)).Nodup := nodup_view s _ _
  rw [List.perm_ext_iff_of_nodup (c.nodup_keys.filter _) hnodup]
  intro k
  rw [List.mem_filter, Contents.mem_keys_iff, Contents.isSome_value?]
  constructor
  · rintro ⟨hk, hh⟩
    obtain ⟨a, ha⟩ := Option.isSome_iff_exists.1 hh
    have hp := Layout.holding?_eq_some_iff.1 ha
    rcases (get?_of_ofEntries_entriesUnder h k).1 (Layout.startsWith_scope_of_parse hp) with
      ⟨hn, -⟩ | ⟨raw, v, -, hv, -⟩
    · rw [hn] at hk
      exact nomatch hk
    · have hid := hs k v hv
      obtain ⟨res, created, modified⟩ := v
      rw [hp] at hid
      cases res with
      | member m => exact nomatch hid
      | item i => exact nomatch hid
      | assignment a =>
        exact List.mem_map.2 ⟨⟨⟨a, created, modified⟩, k⟩, (mem_assignments_iff hs).2 hv, rfl⟩
  · intro hk
    obtain ⟨e, he, rfl⟩ := List.mem_map.1 hk
    obtain ⟨raw, hraw, -⟩ := exists_raw_of_get? h ((mem_assignments_iff hs).1 he)
    rw [hraw, holding?_of_mem_assignments hs he]
    exact ⟨rfl, rfl⟩

/-- In a snapshot a member has the load that it has in the contents. -/
theorem Snapshot.load_eq_countP {l : Layout} {revision : Int} {c : Contents} {s : Snapshot}
    (h : ofEntries l revision (c.entriesUnder l.scope) = .ok s) (m : MemberId) :
    c.load l m = (s.assignments.map (·.value)).countP (·.holder == m) := by
  have hs := faithful_of_ofEntries h
  have hperm := keys_assignments_perm h
  obtain rfl := (ofEntries_eq_ok h).1
  rw [Contents.load_eq, List.countP_map]
  have hfilter : c.keys.countP (fun k => (s.layout.holding? k).any (·.holder == m)) =
      (c.keys.filter fun k => (s.layout.holding? k).isSome).countP
        fun k => (s.layout.holding? k).any (·.holder == m) := by
    rw [List.countP_filter]
    congr 1
    funext k
    cases s.layout.holding? k <;> simp
  rw [hfilter, hperm.countP_eq, List.countP_map]
  refine List.countP_congr fun e he => ?_
  rw [Function.comp_apply, holding?_of_mem_assignments hs he]
  rfl

/-! ### What a commit does to loads -/

section Commits

variable {l : Layout} {log : Chronicle} {s s' : Store} {m : MemberId} {b : Bounds} {p : Proposal}
  {snapshot : Snapshot}

/-- A commit raises nobody's load but that of its member. -/
theorem Commits.load_le_of_ne (h : Commits l log s m b p snapshot s') {m' : MemberId} (hne : m' ≠ m) :
    s'.live.load l m' ≤ s.live.load l m' := by
  obtain ⟨entry, ts, hm⟩ := Proposal.made_of_ofSnapshot h.proposed
  have hle := (h.effect hm).load_le m'
  rw [if_neg (show ¬ m' = (Proposal.viewpoint snapshot m).self from hne)] at hle
  exact hle

theorem sum_added_le (v : Viewpoint) (ts : List (Nat × Planned)) :
    (ts.map fun t => (v.work t.1 t.2).tally.added).sum ≤
      ts.countP fun t => decide (v.self ∈ t.2.promises) := by
  induction ts with
  | nil => exact Nat.le_refl _
  | cons t ts ih =>
    have hone := v.added_work_le t.1 t.2
    rw [List.map_cons, List.sum_cons, List.countP_cons]
    simp only [decide_eq_true_eq]
    omega

/-- A commit with an addition leaves its member within its limit, which is not zero, if the member holds
no more than it did in the snapshot. -/
theorem Commits.load_le_limit (h : Commits l log s m b p snapshot s') (hadd : 0 < p.tally.added)
    (hload : s.live.load l m ≤ (log.contentsAt p.revision).load l m) :
    ∃ limit, s'.live.resource? l (l.memberKey m) = some (.member ⟨m, limit⟩) ∧
      s'.live.load l m ≤ limit ∧ 0 < limit := by
  obtain ⟨entry, ts, hm⟩ := Proposal.made_of_ofSnapshot h.proposed
  obtain ⟨hentry, hid⟩ := (Snapshot.member?_eq_some_iff h.faithful).1 hm.member
  have hafter := (h.effect hm).load_le m
  rw [if_pos (show m = (Proposal.viewpoint snapshot m).self from rfl)] at hafter
  have hadded := sum_added_le (Proposal.viewpoint snapshot m) ts
  rw [← hm.added] at hadded
  have htotal : ts.countP (fun t => decide (m ∈ t.2.promises)) ≤
      ((Roster.ofSnapshot snapshot).planned b).countP fun t => decide (m ∈ t.promises) := by
    refine Nat.le_trans (Nat.le_of_eq ?_) hm.planned.countP_le
    rw [List.countP_map]
    rfl
  have hroom := Roster.countP_promises_planned_le h.faithful b hentry
  rw [hid, ← Snapshot.load_eq_countP h.decoded] at hroom
  have hself : (Proposal.viewpoint snapshot m).self = m := rfl
  rw [hself] at hafter hadded
  have hwrites : p.transaction.writes ≠ [] := by
    intro hnil
    rw [hm.writes, List.flatMap_eq_nil_iff] at hnil
    cases ts with
    | nil =>
      rw [List.countP_nil] at hadded
      omega
    | cons t ts => exact hm.writing t List.mem_cons_self (hnil t List.mem_cons_self)
  have hmember : entry.value = ⟨m, entry.value.limit⟩ := by rw [← hid]
  refine ⟨entry.value.limit, ?_, by omega, by omega⟩
  rw [h.member_eq hm hwrites, ← hmember]

end Commits

/-- Writes that put no assignment leave no assignment key that was not there. -/
theorem Transaction.PutsNoAssignment.mem_keys {l : Layout} {t : Transaction} (ht : t.PutsNoAssignment l)
    {c : Contents} {n : Int} {k : String} (hk : (l.holding? k).isSome = true)
    (hv : k ∈ (c.write n t.writes).keys) : k ∈ c.keys := by
  rcases Contents.mem_keys_of_mem_keys_write hv with hold | ⟨v, hput⟩
  · exact hold
  · have hnone : l.holding? k = none := ht _ hput rfl
    rw [hnone] at hk
    exact nomatch hk

/-- Writers that put no assignment raise nobody's load. -/
theorem load_le_of_putsNoAssignment {l : Layout} {s s' : Store} {t : Transaction} {reply : Reply}
    (hc : s.commit t = .ok (s', reply)) (ht : t.PutsNoAssignment l) (m : MemberId) :
    s'.live.load l m ≤ s.live.load l m := by
  cases hs : reply.succeeded with
  | false => exact Nat.le_of_eq (by rw [Store.eq_of_commit_of_not_succeeded hc hs])
  | true =>
    refine Contents.load_le_of_keys m fun k hk hv => ?_
    rw [(Store.live_of_commit hc hs).2, ← Contents.mem_keys_iff] at hv
    exact Contents.mem_keys_iff.1 (ht.mem_keys hk hv)

/-! ### Runs -/

namespace World

variable {l : Layout} {w w' : World}

/-- No load exceeds what it was in any contents that its member may still plan on or has a draft for. -/
structure Bounded (l : Layout) (w : World) : Prop where
  load_le : ∀ m revision, w.committed m ≤ revision → revision ≤ w.store.revision →
    w.store.live.load l m ≤ (w.log.contentsAt revision).load l m
  recent : ∀ d ∈ w.drafts, w.committed d.member ≤ d.proposal.revision
  single : w.drafts.Pairwise fun d d' => d.member ≠ d'.member

theorem IsStart.bounded (h : w.IsStart) : w.Bounded l where
  load_le := fun m revision hm hr => by
    rw [h.committed] at hm
    obtain rfl := Int.le_antisymm hr hm
    exact Nat.le_of_eq (by rw [h.reached.explains.contentsAt_revision])
  recent := fun d hd => by
    rw [h.drafts] at hd
    exact nomatch hd
  single := by
    rw [h.drafts]
    exact List.Pairwise.nil

/-- A transaction that does not raise a load keeps it within its bounds. -/
theorem Bounded.load_le_advance (h : w.Bounded l) (hsound : w.Sound l) {t : Transaction} {s : Store}
    {reply : Reply} (hc : w.store.commit t = .ok (s, reply)) {m : MemberId}
    (hload : s.live.load l m ≤ w.store.live.load l m) {revision : Int}
    (hm : w.committed m ≤ revision) (hr : revision ≤ s.revision) :
    s.live.load l m ≤ ((w.advance t s).log.contentsAt revision).load l m := by
  by_cases hlast : revision = s.revision
  · have hexplains := (hsound.advance hc).reached.explains
    rw [hlast]
    exact Nat.le_of_eq (congrArg (Contents.load l · m) hexplains.contentsAt_revision.symm)
  · have hle : revision ≤ w.store.revision := by
      rcases Store.revision_of_commit hc with he | he <;> omega
    show _ ≤ (Chronicle.contentsAt (w.log ++ _) revision).load l m
    rw [Chronicle.contentsAt_append_response? w.log t hle]
    exact Nat.le_trans hload (h.load_le m revision hm hle)

theorem Bounded.withdraw (h : w.Bounded l) {d : Draft} {before after : List Draft}
    (hd : w.drafts = before ++ d :: after) : Bounded l { w with drafts := before ++ after } := by
  have hsub := rest_sublist hd
  exact ⟨h.load_le, fun d' hd' => h.recent d' (hsub.mem hd'), h.single.sublist hsub⟩

theorem Bounded.submit (h : w.Bounded l) (hsound : w.Sound l) {d : Draft}
    {before after : List Draft} (hd : w.drafts = before ++ d :: after) {s : Store} {reply : Reply}
    (hc : w.store.commit d.proposal.transaction = .ok (s, reply)) :
    Bounded l (w.submitted d (before ++ after) s reply) := by
  have hmem : d ∈ w.drafts := hd ▸ List.mem_append_cons_self
  have hrest := h.withdraw hd
  have hother : ∀ d' ∈ before ++ after, d'.member ≠ d.member := by
    have hpair := h.single
    rw [hd, List.pairwise_append, List.pairwise_cons] at hpair
    obtain ⟨-, ⟨hafter, -⟩, hbefore⟩ := hpair
    intro d' hd'
    rcases List.mem_append.1 hd' with hd' | hd'
    · exact hbefore d' hd' d List.mem_cons_self
    · exact (hafter d' hd').symm
  refine ⟨fun m revision hm hr => ?_, fun d' hd' => ?_, hrest.single⟩
  · by_cases hs : m = d.member ∧ reply.succeeded = true
    · -- the member itself has committed just now, so that no earlier contents count
      have hle : reply.revision ≤ revision := by
        have hnew : (w.submitted d (before ++ after) s reply).committed m = reply.revision := if_pos hs
        rwa [hnew] at hm
      rw [Store.revision_of_reply hc] at hle
      obtain rfl := Int.le_antisymm hr hle
      have hexplains := (hsound.advance hc).reached.explains
      exact Nat.le_of_eq (congrArg (Contents.load l · m) hexplains.contentsAt_revision.symm)
    · have hold : (w.submitted d (before ++ after) s reply).committed m = w.committed m := if_neg hs
      rw [hold] at hm
      refine h.load_le_advance hsound hc ?_ hm hr
      cases hsucc : reply.succeeded with
      | false => exact Nat.le_of_eq (by rw [Store.eq_of_commit_of_not_succeeded hc hsucc])
      | true => exact (hsound.commits hmem hc hsucc).load_le_of_ne fun he => hs ⟨he, hsucc⟩
  · have hold : (w.submitted d (before ++ after) s reply).committed d'.member =
        w.committed d'.member := if_neg fun he => hother d' hd' he.1
    rw [hold]
    exact hrest.recent d' hd'

theorem Bounded.step (h : w.Bounded l) (hsound : w.Sound l)
    (hs : Step l (Rules.orderly l) w w') : w'.Bounded l := by
  cases hs with
  | edit ht hc =>
    exact ⟨fun m revision hm hr =>
      h.load_le_advance hsound hc (load_le_of_putsNoAssignment hc ht m) hm hr, h.recent, h.single⟩
  | plan hr hm hs hp =>
    have hrev := revision_of_snapshotAt hs hp
    refine ⟨h.load_le, List.forall_mem_cons.2 ⟨?_, h.recent⟩, List.pairwise_cons.2 ⟨?_, h.single⟩⟩
    · exact Int.le_trans hm.1 (Int.le_of_eq hrev.symm)
    · exact fun d hd => (hm.2 d hd).symm
  | submit hd hc => exact h.submit hsound hd hc
  | withdraw hd => exact h.withdraw hd
  | compact revision =>
    refine ⟨fun m r hm hr => ?_, h.recent, h.single⟩
    show (w.store.compact revision).live.load l m ≤ _
    rw [Store.live_compact]
    rw [show (w.store.compact revision).revision = _ from Store.revision_compact _ _] at hr
    exact h.load_le m r hm hr
  | setAvailable available => exact ⟨h.load_le, h.recent, h.single⟩

/-- Right after a member has committed an addition, it holds no more than its limit allows, and the limit
is not zero. -/
theorem load_le_limit_of_run (h₀ : w.IsStart) (h : Run l (Rules.orderly l) w w') {d : Draft}
    (hd : d ∈ w'.drafts) {s : Store} {reply : Reply}
    (hc : w'.store.commit d.proposal.transaction = .ok (s, reply)) (hs : reply.succeeded = true)
    (hadd : 0 < d.proposal.tally.added) :
    ∃ limit, s.live.resource? l (l.memberKey d.member) = some (.member ⟨d.member, limit⟩) ∧
      s.live.load l d.member ≤ limit ∧ 0 < limit := by
  obtain ⟨hsound, hbounded⟩ := h.induct (fun u => u.Sound l ∧ u.Bounded l) ⟨h₀.sound, h₀.bounded⟩
    fun _ _ hu hs => ⟨hu.1.step hs, hu.2.step hu.1 hs⟩
  exact (hsound.commits hd hc hs).load_le_limit hadd
    (hbounded.load_le d.member _ (hbounded.recent d hd) (hsound.current d hd))

/-- A draft that is submitted after the store has moved on fills the limit of its member. -/
theorem load_le_limit_of_staleDraft :
    ∃ w, Run ⟨"/r"⟩ (Rules.orderly ⟨"/r"⟩) fresh w ∧ ∃ d ∈ w.drafts, ∃ s reply,
      w.store.commit d.proposal.transaction = .ok (s, reply) ∧ reply.succeeded = true ∧
        0 < d.proposal.tally.added ∧ ∃ limit,
          s.live.resource? ⟨"/r"⟩ ((Layout.mk "/r").memberKey d.member) =
              some (.member ⟨d.member, limit⟩) ∧
            s.live.load ⟨"/r"⟩ d.member ≤ limit ∧ 0 < limit := by
  have hreplay : ((fresh.replay ⟨"/r"⟩ (Rules.orderly ⟨"/r"⟩) staleDraft).any fun w =>
      w.drafts.any fun d => (w.store.commit d.proposal.transaction).toOption.any fun answer =>
        answer.2.succeeded && decide (0 < d.proposal.tally.added)) = true := by
    simp only [staleDraft, replay, play, advance, Store.commit, Store.response?,
      Store.holds_eq, Chronicle.snapshotAt, Contents.entriesUnder, Proposal.ofSnapshot,
      Proposal.works, Roster.ofSnapshot, Roster.itemIds, Snapshot.members, Snapshot.items,
      Snapshot.assignments, Snapshot.view, Snapshot.under_eq]
    cbv
  obtain ⟨w, hw, hdrafts⟩ := (Option.any_eq_true _ _).1 hreplay
  obtain ⟨d, hd, hanswer⟩ := List.any_eq_true.1 hdrafts
  obtain ⟨⟨s, reply⟩, hc, hadded⟩ := (Option.any_eq_true _ _).1 hanswer
  rw [Bool.and_eq_true, decide_eq_true_eq] at hadded
  have hcommit := toOption_eq_some_iff.1 hc
  exact ⟨w, run_of_replay hw, d, hd, s, reply, hcommit, hadded.1, hadded.2,
    load_le_limit_of_run isStart_fresh (run_of_replay hw) hd hcommit hadded.1 hadded.2⟩

end World

end Allotment
