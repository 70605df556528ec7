import Allotment.Proofs.Commit

/-!
# Runs

A world is a store with the chronicle of all that it has committed, and with the drafts of its members:
proposals that have been computed and may be submitted at any later moment.  In a step, some other writer
edits the store, a member plans on the contents right after any revision so far, a draft is submitted or
withdrawn, or the store is compacted or marked available or not.  `Rules` restrict what the other
writers may write and when a member may plan.  Whatever happens, each draft is the proposal for what the
store held at its revision (`Run.sound`), so that submitting it with success is a commit in the sense of
`Commits` (`Sound.commits`).  A fact about the contents holds throughout a run if edits and commits preserve
it (`Run.live_induct`).
-/

namespace Allotment

/-- A proposal that has been computed and not yet submitted. -/
structure Draft where
  member : MemberId
  bounds : Bounds
  snapshot : Snapshot
  proposal : Proposal

/-- A store, its whole past and the proposals that are in flight. -/
structure World where
  store : Store
  log : Chronicle
  drafts : List Draft
  /-- The revision of the last commit of each member. -/
  committed : MemberId → Int

/-- What may happen in a run. -/
structure Rules where
  /-- What other writers may submit. -/
  edits : Transaction → Prop
  /-- When a member may plan on the contents right after a revision. -/
  plans : World → MemberId → Int → Prop

/-! ### Other writers -/

/-- No key under a scope is written. -/
def Transaction.Spares (scope : String) (t : Transaction) : Prop :=
  ∀ w ∈ t.writes, w.key.startsWith scope = false

namespace Transaction

variable {scope : String} {t : Transaction}

theorem spares_iff : t.Spares scope ↔ ∀ w ∈ t.writes, ¬ scope.toList <+: w.key.toList := by
  unfold Spares
  simp only [← String.startsWith_string_iff, Bool.not_eq_true]

instance : DecidablePred (Spares scope) := fun _ =>
  decidable_of_iff' _ spares_iff

theorem Spares.get?_write (h : t.Spares scope) (c : Contents) (n : Int) {k : String}
    (hk : k.startsWith scope = true) : (c.write n t.writes).get? k = c.get? k := by
  refine Contents.get?_write_of_ne c n fun w hw he => ?_
  rw [← he, h w hw] at hk
  exact nomatch hk

end Transaction

/-! ### Steps -/

namespace World

/-- The world after the store has answered a transaction. -/
def advance (w : World) (t : Transaction) (s : Store) : World :=
  { w with store := s, log := w.log ++ (w.store.response? t).toList }

/-- The world after a draft has been submitted, with the drafts that are left. -/
def submitted (w : World) (d : Draft) (rest : List Draft) (s : Store) (reply : Reply) : World :=
  { w.advance d.proposal.transaction s with
    drafts := rest
    committed := fun m =>
      if m = d.member ∧ reply.succeeded = true then reply.revision else w.committed m }

/-- A world in which a run begins: nothing is in flight, and members plan on nothing older. -/
structure IsStart (w : World) : Prop where
  reached : w.log.Reached w.store
  drafts : w.drafts = []
  committed : ∀ m, w.committed m = w.store.revision

/-- One step of a run. -/
inductive Step (l : Layout) (rules : Rules) (w : World) : World → Prop
  | edit {t : Transaction} {s : Store} {reply : Reply} (ht : rules.edits t)
      (hc : w.store.commit t = .ok (s, reply)) : Step l rules w (w.advance t s)
  | plan {m : MemberId} {b : Bounds} {revision : Int} {snapshot : Snapshot} {p : Proposal}
      (hr : revision ≤ w.store.revision) (hm : rules.plans w m revision)
      (hs : w.log.snapshotAt l revision = .ok snapshot)
      (hp : Proposal.ofSnapshot snapshot m b = some p) :
      Step l rules w { w with drafts := ⟨m, b, snapshot, p⟩ :: w.drafts }
  | submit {d : Draft} {before after : List Draft} {s : Store} {reply : Reply}
      (hd : w.drafts = before ++ d :: after)
      (hc : w.store.commit d.proposal.transaction = .ok (s, reply)) :
      Step l rules w (w.submitted d (before ++ after) s reply)
  | withdraw {d : Draft} {before after : List Draft} (hd : w.drafts = before ++ d :: after) :
      Step l rules w { w with drafts := before ++ after }
  | compact (revision : Int) : Step l rules w { w with store := w.store.compact revision }
  | setAvailable (available : Bool) :
      Step l rules w { w with store := w.store.setAvailable available }

/-- Some steps, one after another. -/
inductive Run (l : Layout) (rules : Rules) (w : World) : World → Prop
  | refl : Run l rules w w
  | step {w' w'' : World} (h : Run l rules w w') (hs : Step l rules w' w'') : Run l rules w w''

/-- What each step preserves holds after a run. -/
theorem Run.induct {l : Layout} {rules : Rules} {w w' : World} (h : Run l rules w w')
    (inv : World → Prop) (h₀ : inv w) (hstep : ∀ u v, inv u → Step l rules u v → inv v) :
    inv w' := by
  induction h with
  | refl => exact h₀
  | step _ hs ih => exact hstep _ _ ih hs

/-! ### Soundness -/

/-- Every draft is the proposal of its member for what the store held at its revision. -/
structure Sound (l : Layout) (w : World) : Prop where
  reached : w.log.Reached w.store
  current : ∀ d ∈ w.drafts, d.proposal.revision ≤ w.store.revision
  decoded : ∀ d ∈ w.drafts, w.log.snapshotAt l d.proposal.revision = .ok d.snapshot
  proposed : ∀ d ∈ w.drafts, Proposal.ofSnapshot d.snapshot d.member d.bounds = some d.proposal

end World

namespace World

variable {l : Layout} {rules : Rules} {w w' : World}

/-- A proposal has the revision that it was made at. -/
theorem revision_of_snapshotAt {log : Chronicle} {revision : Int} {snapshot : Snapshot} {m : MemberId}
    {b : Bounds} {p : Proposal} (hs : log.snapshotAt l revision = .ok snapshot)
    (hp : Proposal.ofSnapshot snapshot m b = some p) : p.revision = revision := by
  obtain ⟨_, _, hmade⟩ := Proposal.made_of_ofSnapshot hp
  exact hmade.revision.trans (Snapshot.ofEntries_eq_ok hs).2.1

/-- The drafts that stay when one is taken out. -/
theorem rest_sublist {d : Draft} {before after : List Draft} (hd : w.drafts = before ++ d :: after) :
    (before ++ after).Sublist w.drafts := by
  rw [hd]
  exact (List.sublist_cons_self d after).append_left before

theorem sound_of_drafts_eq_nil (hr : w.log.Reached w.store) (hd : w.drafts = []) : w.Sound l := by
  refine ⟨hr, ?_, ?_, ?_⟩ <;> rw [hd] <;> exact fun _ hmem => absurd hmem List.not_mem_nil

theorem IsStart.sound (h : w.IsStart) : w.Sound l :=
  sound_of_drafts_eq_nil h.reached h.drafts

/-- Drafts stay what they are when the store answers a transaction. -/
theorem Sound.advance (h : w.Sound l) {t : Transaction} {s : Store} {reply : Reply}
    (hc : w.store.commit t = .ok (s, reply)) : (w.advance t s).Sound l where
  reached := h.reached.commit hc
  current := fun d hd => Int.le_trans (h.current d hd) (Store.revision_le_of_commit hc)
  decoded := fun d hd => by
    unfold Chronicle.snapshotAt
    show Snapshot.ofEntries l _ (Contents.entriesUnder (Chronicle.contentsAt (w.log ++ _) _) _) = _
    rw [Chronicle.contentsAt_append_response? w.log t (h.current d hd)]
    exact h.decoded d hd
  proposed := h.proposed

/-- Fewer drafts are no less sound. -/
theorem Sound.withdraw (h : w.Sound l) {d : Draft} {before after : List Draft}
    (hd : w.drafts = before ++ d :: after) : Sound l { w with drafts := before ++ after } := by
  have hsub : ∀ d' ∈ before ++ after, d' ∈ w.drafts := fun _ hd' => (rest_sublist hd).mem hd'
  exact ⟨h.reached, fun d' hd' => h.current d' (hsub d' hd'), fun d' hd' => h.decoded d' (hsub d' hd'),
    fun d' hd' => h.proposed d' (hsub d' hd')⟩

theorem Sound.step (h : w.Sound l) (hs : Step l rules w w') : w'.Sound l := by
  cases hs with
  | edit ht hc => exact h.advance hc
  | plan hr hm hs hp =>
    have hrev := revision_of_snapshotAt hs hp
    refine ⟨h.reached, List.forall_mem_cons.2 ⟨?_, h.current⟩, List.forall_mem_cons.2 ⟨?_, h.decoded⟩,
      List.forall_mem_cons.2 ⟨hp, h.proposed⟩⟩
    · exact Int.le_trans (Int.le_of_eq hrev) hr
    · rw [hrev]
      exact hs
  | submit hd hc =>
    have hrest := (h.withdraw hd).advance (t := _) hc
    exact ⟨hrest.reached, hrest.current, hrest.decoded, hrest.proposed⟩
  | withdraw hd => exact h.withdraw hd
  | compact revision =>
    refine ⟨h.reached.compact revision, fun d hd => ?_, h.decoded, h.proposed⟩
    show _ ≤ (w.store.compact revision).revision
    rw [Store.revision_compact]
    exact h.current d hd
  | setAvailable available =>
    exact ⟨h.reached.setAvailable available, h.current, h.decoded, h.proposed⟩

theorem Run.sound (h : Run l rules w w') (h₀ : w.Sound l) : w'.Sound l :=
  h.induct (Sound l) h₀ fun _ _ hu hs => hu.step hs

/-- To submit a draft with success is to commit it. -/
theorem Sound.commits (h : w.Sound l) {d : Draft} (hd : d ∈ w.drafts) {s : Store} {reply : Reply}
    (hc : w.store.commit d.proposal.transaction = .ok (s, reply)) (hs : reply.succeeded = true) :
    Commits l w.log w.store d.member d.bounds d.proposal d.snapshot s :=
  ⟨h.reached.explains, h.decoded d hd, h.proposed d hd, reply, hc, hs⟩

/-- What edits and commits preserve of the contents holds after a run. -/
theorem Run.live_induct (h : Run l rules w w') (h₀ : w.Sound l) {inv : Contents → Prop}
    (hw : inv w.store.live) (hedit : ∀ t c n, rules.edits t → inv c → inv (c.write n t.writes))
    (hcommit : ∀ {log s s' m b p snapshot}, Commits l log s m b p snapshot s' → inv s.live →
      inv s'.live) : inv w'.store.live := by
  refine (h.induct (fun u => u.Sound l ∧ inv u.store.live) ⟨h₀, hw⟩ fun u v hu hs => ?_).2
  obtain ⟨hsound, hu⟩ := hu
  refine ⟨hsound.step hs, ?_⟩
  cases hs with
  | @edit t s reply ht hc =>
    show inv s.live
    cases hsucc : reply.succeeded with
    | false => exact Store.eq_of_commit_of_not_succeeded hc hsucc ▸ hu
    | true => exact (Store.live_of_commit hc hsucc).2 ▸ hedit t _ _ ht hu
  | plan => exact hu
  | @submit d before after s reply hd hc =>
    have hmem : d ∈ u.drafts := hd ▸ List.mem_append_cons_self
    show inv s.live
    cases hsucc : reply.succeeded with
    | false => exact Store.eq_of_commit_of_not_succeeded hc hsucc ▸ hu
    | true => exact hcommit (hsound.commits hmem hc hsucc) hu
  | withdraw => exact hu
  | compact revision =>
    show inv (u.store.compact revision).live
    rw [Store.live_compact]
    exact hu
  | setAvailable => exact hu

end World

end Allotment
