import Allotment.Proofs.Allocator.Refusal
import Allotment.Proofs.Rota.Sync

/-!
# Rounds in turn are never refused

A rota is started over any store and takes any commands, whatever they ask of the store, under the root or
elsewhere (`Rota.Logged`).  Each round plans on a snapshot that is as recent as the store, or fails before it
plans anything: the cache never runs ahead of the store, and the round waits until it is not behind
either.  At the current revision nothing is forgotten and nothing has changed since, so that all guards of
the proposal hold (`Proposal.guards_hold_of_latest`).  So no proposal that the store answers is refused, and
the report counts exactly the proposals that have been carried out (`Concord.invariant`,
`conflicts_eq_zero_of_logged`).
-/

namespace Allotment

namespace Rota

variable {l : Layout} {r r' : Rota} {subs : List Submission} {m : MemberId} {p : Proposal}

/-- The rotas of a keyspace whose store is written to by anybody and anywhere, with all that has been
submitted. -/
inductive Logged (l : Layout) : Rota → List Submission → Prop
  | start {qs : List Request} {b : Bounds} {r : Rota}
      (h : Rota.start (Hub.empty.performAll qs).1 l b = .ok r) : Logged l r []
  | perform {r : Rota} {subs : List Submission} (h : Logged l r subs) (c : Command) :
      Logged l (r.perform c).1 (subs ++ r.submissions c)
  | configure {r : Rota} {subs : List Submission} (h : Logged l r subs) (b : Bounds) :
      Logged l { r with bounds := b } subs
  /-- The task is let run. -/
  | run {r : Rota} {subs : List Submission} (h : Logged l r subs) :
      Logged l { r with observer := (r.observer.run r.hub).1, hub := (r.observer.run r.hub).2 } subs
  /-- Others do what they like with watches of their own. -/
  | others {r : Rota} {subs : List Submission} {hub : Hub} (h : Logged l r subs)
      (hstore : hub.store = r.hub.store) (hnumbered : hub.IsNumbered)
      (hown : ∀ id, r.observer.stream = some id → hub.watch? id = r.hub.watch? id) :
      Logged l { r with hub } subs

/-- What has been carried out of what has been submitted. -/
def carriedOut (subs : List Submission) : List Proposal :=
  (subs.filter (·.isCarriedOut)).map (·.proposal)

/-- Nothing that the store has answered was refused, and the report counts what has been carried out. -/
structure Concord (l : Layout) (r : Rota) (subs : List Submission) : Prop where
  watched : ∃ log, Watched l log r.observer r.hub
  agreed : ∀ sub ∈ subs, sub.proposal.isEmpty = false ∧
    ∀ reply, sub.answer = .ok reply → reply.succeeded = true
  conflicts : r.report.conflicts = 0
  commits : r.report.commits = (carriedOut subs).length
  changes : r.report.changes = ((carriedOut subs).map (·.tally)).sum

/-! ### Rounds -/

/-- What is planned on the latest snapshot is not refused. -/
theorem succeeded_of_latest {log : Chronicle} {s : Snapshot} (hw : Watched l log r.observer r.hub)
    (hlatest : r.latest = (r, .ok s)) {b : Bounds} (hp : Proposal.ofSnapshot s m b = some p) {store : Store}
    {reply : Reply} (hc : r.hub.store.commit p.transaction = .ok (store, reply)) :
    reply.succeeded = true := by
  obtain ⟨-, hsnapshot⟩ := watched_latest hw
  obtain ⟨hs, hle⟩ := hsnapshot s (by rw [hlatest])
  rw [hlatest] at hs
  dsimp only at hs
  have hrevision : s.revision = r.hub.store.revision := by
    have hwithin := hw.sound.tracks.within
    have hcache : r.observer.cache.revision = s.revision := congrArg Snapshot.revision hs.symm
    omega
  have hattests : log.Attests r.observer.cache.snapshot := hw.sound.tracks.published
  have hlayout : r.observer.cache.snapshot.layout = l := hw.sound.layout
  unfold Chronicle.Attests at hattests
  rw [hlayout, ← hs, hrevision] at hattests
  exact Bool.of_not_eq_false fun hrefused => Proposal.guards_ne_of_refused hc hrefused
    (Proposal.guards_hold_of_latest hw.reached.explains hattests hp)

/-- A proposal that is not refused counts as a commit if the store answers it. -/
theorem report_submit (m : MemberId)
    (hagreed : ∀ reply, (r.submission p).answer = .ok reply → reply.succeeded = true) :
    (r.submit m p).1.report = if (r.submission p).isCarriedOut then { r.report with
      commits := r.report.commits + 1
      changes := r.report.changes + p.tally } else r.report := by
  unfold submission at hagreed ⊢
  cases hstore : r.hub.store.commit p.transaction with
  | error e =>
    unfold Rota.submit
    rw [Hub.commit_eq_error hstore]
    rfl
  | ok answer =>
    have hsucceeded : answer.2.succeeded = true := hagreed answer.2 (by rw [hstore]; rfl)
    obtain ⟨hub, hc, -⟩ := Hub.exists_commit hstore
    have hcarried : Submission.isCarriedOut ⟨p, Except.map (·.2) (.ok answer)⟩ = true := hsucceeded
    rw [hcarried]
    unfold Rota.submit
    simp only [hc, hsucceeded, ↓reduceIte]
    split
    next he => exact congrArg (fun x : Rota × Except RotaError Snapshot => x.1.report) he.symm
    next he => exact congrArg (fun x : Rota × Except RotaError Snapshot => x.1.report) he.symm

/-- A submission that ends well has given the proposal to the store. -/
theorem of_submit_eq_ok {q : Proposal} (h : r.submit m p = (r', .ok q)) : q = p ∧
    ∃ reply, r.hub.store.commit p.transaction = .ok (r'.hub.store, reply) := by
  unfold Rota.submit at h
  split at h
  next => exact nomatch (Prod.mk.inj h).2
  next hub reply hc =>
    have hstore := (Hub.of_commit hc).1
    split at h
    next =>
      dsimp only at h
      split at h
      next => exact nomatch (Prod.mk.inj h).2
      next r'' after he =>
        obtain ⟨rfl, hchecked⟩ := Prod.mk.inj h
        have hlatest := store_latest { r with
          hub
          report := { r.report with
            commits := r.report.commits + 1
            changes := r.report.changes + p.tally } }
        rw [he] at hlatest
        split at hchecked
        next => exact nomatch hchecked
        next => exact ⟨(Except.ok.inj hchecked).symm, reply, hlatest ▸ hstore⟩
    next =>
      obtain ⟨rfl, hq⟩ := Prod.mk.inj h
      exact ⟨(Except.ok.inj hq).symm, reply, hstore⟩

theorem carriedOut_singleton {sub : Submission} (h : sub.isCarriedOut = true) :
    carriedOut [sub] = [sub.proposal] := by
  unfold carriedOut
  rw [List.filter_cons_of_pos h, List.filter_nil, List.map_cons, List.map_nil]

namespace Concord

theorem frame (h : Concord l r subs) (hw : ∃ log, Watched l log r'.observer r'.hub)
    (hreport : r'.report = r.report) : Concord l r' subs :=
  ⟨hw, h.agreed, hreport ▸ h.conflicts, hreport ▸ h.commits, hreport ▸ h.changes⟩

/-- One more submission that is not refused. -/
theorem append (h : Concord l r subs) {sub : Submission} (hw : ∃ log, Watched l log r'.observer r'.hub)
    (hne : sub.proposal.isEmpty = false)
    (hagreed : ∀ reply, sub.answer = .ok reply → reply.succeeded = true)
    (hreport : r'.report = if sub.isCarriedOut then { r.report with
      commits := r.report.commits + 1
      changes := r.report.changes + sub.proposal.tally } else r.report) : Concord l r' (subs ++ [sub]) := by
  have hall : ∀ sub' ∈ subs ++ [sub], sub'.proposal.isEmpty = false ∧
      ∀ reply, sub'.answer = .ok reply → reply.succeeded = true := by
    intro sub' hmem
    rcases List.mem_append.1 hmem with hmem | hmem
    · exact h.agreed sub' hmem
    · obtain rfl := List.mem_singleton.1 hmem
      exact ⟨hne, hagreed⟩
  have hcarried : carriedOut (subs ++ [sub]) = carriedOut subs ++ carriedOut [sub] := by
    unfold carriedOut
    rw [List.filter_append, List.map_append]
  cases hdone : sub.isCarriedOut with
  | true =>
    rw [hdone, if_pos rfl] at hreport
    rw [carriedOut_singleton hdone] at hcarried
    refine ⟨hw, hall, hreport ▸ h.conflicts, ?_, ?_⟩
    · rw [hreport, hcarried, List.length_append, ← h.commits]
      rfl
    · rw [hreport, hcarried, List.map_append, List.sum_append, ← h.changes]
      rfl
  | false =>
    rw [hdone, if_neg Bool.false_ne_true] at hreport
    have hnone : carriedOut [sub] = [] := by
      unfold carriedOut
      rw [List.filter_cons_of_neg (Bool.eq_false_iff.1 hdone), List.filter_nil, List.map_nil]
    rw [hnone, List.append_nil] at hcarried
    exact ⟨hw, hall, hreport ▸ h.conflicts, by rw [hreport, hcarried]; exact h.commits,
      by rw [hreport, hcarried]; exact h.changes⟩

/-- Nothing that is planned on the latest snapshot is refused. -/
theorem submission_agreed (h : Concord l r subs) {s : Snapshot} (hlatest : r.latest = (r, .ok s)) {b : Bounds}
    (hp : Proposal.ofSnapshot s m b = some p) {reply : Reply}
    (hreply : (r.submission p).answer = .ok reply) : reply.succeeded = true := by
  obtain ⟨log, hw⟩ := h.watched
  unfold submission at hreply
  cases hstore : r.hub.store.commit p.transaction with
  | error e =>
    rw [hstore] at hreply
    exact nomatch hreply
  | ok answer =>
    rw [hstore] at hreply
    obtain rfl := Except.ok.inj hreply
    exact succeeded_of_latest hw hlatest hp hstore

/-- Whatever is done keeps the rota in concord with its store. -/
theorem invariant (l : Layout) : Invariant "" (Concord l) where
  rooted := fun _ k _ => startsWith_empty k
  hub := by
    intro r subs hub h hstep
    obtain ⟨log, hw⟩ := h.watched
    obtain ⟨later, hw', -⟩ := hw.steps (.single hstep)
    exact h.frame ⟨_, hw'⟩ rfl
  latest := by
    intro r subs h
    obtain ⟨log, hw⟩ := h.watched
    exact h.frame ⟨log, (watched_latest hw).1⟩ rfl
  counted := fun h _ _ => ⟨h.watched, h.agreed, h.conflicts, h.commits, h.changes⟩
  submit := by
    intro r subs s m p h hlatest hp hne
    obtain ⟨log, hw⟩ := h.watched
    obtain ⟨later, hw', -⟩ := watched_submit hw m (p := p) fun w _ => startsWith_empty w.key
    have hagreed : ∀ reply, (r.submission p).answer = .ok reply → reply.succeeded = true :=
      fun _ => h.submission_agreed hlatest hp
    exact h.append ⟨_, hw'⟩ hne hagreed (report_submit m hagreed)

end Concord

/-! ### Runs -/

theorem report_start {h : Hub} {b : Bounds} (hr : Rota.start h l b = .ok r) :
    r.report = RotaReport.zero := by
  unfold Rota.start at hr
  split at hr
  next => exact nomatch hr
  next =>
    obtain rfl := Except.ok.inj hr
    rfl

theorem Logged.concord (h : Logged l r subs) : Concord l r subs := by
  induction h with
  | start hr =>
    obtain ⟨log, hw, -⟩ := (Watched.empty l).steps
      (Hub.steps_performAll Hub.empty fun q _ => q.writesUnder_empty)
    have hreport := report_start hr
    exact ⟨⟨_, watched_start hw hr⟩, fun _ hsub => (nomatch hsub), by rw [hreport]; rfl,
      by rw [hreport]; rfl, by rw [hreport]; rfl⟩
  | perform h c ih =>
    refine (Concord.invariant l).perform ih ?_
    cases c with
    | store q => exact q.writesUnder_empty
    | _ => trivial
  | configure h b ih => exact ih.frame ih.watched rfl
  | run h ih =>
    obtain ⟨log, hw⟩ := ih.watched
    exact ih.frame ⟨log, hw.run⟩ rfl
  | others h hstore hnumbered hown ih =>
    obtain ⟨log, hw⟩ := ih.watched
    exact ih.frame ⟨log, hw.others hstore hnumbered hown⟩ rfl

/-- A round that ends well with a proposal that writes anything has submitted it. -/
theorem of_round_eq_ok (h : r.round m = (r', .ok p)) (hne : p.isEmpty = false) : ∃ reply,
    r.hub.store.commit p.transaction = .ok (r'.hub.store, reply) ∧
      r.roundSubmissions m = [⟨p, .ok reply⟩] := by
  have hstore := store_latest r
  unfold Rota.round at h
  unfold roundSubmissions
  cases hl : r.latest with
  | mk r₁ found =>
    rw [hl] at h hstore
    cases found with
    | error e => exact nomatch (Prod.mk.inj h).2
    | ok s =>
      unfold Proposal.require at h
      cases hp : Proposal.ofSnapshot s m r₁.bounds with
      | none =>
        simp only [hp] at h
        exact nomatch (Prod.mk.inj h).2
      | some q =>
        simp only [hp] at h ⊢
        cases hempty : q.isEmpty with
        | true =>
          rw [hempty, if_pos rfl] at h
          obtain rfl := Except.ok.inj (Prod.mk.inj h).2
          exact nomatch hne.symm.trans hempty
        | false =>
          rw [hempty, if_neg Bool.false_ne_true] at h
          obtain ⟨rfl, reply, hc⟩ := of_submit_eq_ok h
          have hc : r.hub.store.commit p.transaction = .ok (r'.hub.store, reply) := hstore ▸ hc
          refine ⟨reply, hc, ?_⟩
          rw [if_neg Bool.false_ne_true]
          unfold submission
          rw [hstore, hc]
          rfl

/-- Rounds in turn are never refused, whatever else is asked of the store: a round that ends well with a
proposal that writes anything has committed it, and the report counts what has been carried out. -/
theorem conflicts_eq_zero_of_logged (h : Logged l r subs) :
    r.report.conflicts = 0 ∧
    (∀ sub ∈ subs, sub.proposal.isEmpty = false ∧
      ∀ reply, sub.answer = .ok reply → reply.succeeded = true) ∧
    r.report.commits = (carriedOut subs).length ∧
    r.report.changes = ((carriedOut subs).map (·.tally)).sum ∧
    ∀ m r' p, r.round m = (r', .ok p) → p.isEmpty = false → ∃ reply,
      r.hub.store.commit p.transaction = .ok (r'.hub.store, reply) ∧ reply.succeeded = true ∧
        r.roundSubmissions m = [⟨p, .ok reply⟩] ∧ r'.report.conflicts = 0 := by
  have hc := h.concord
  refine ⟨hc.conflicts, hc.agreed, hc.commits, hc.changes, fun m r' p hround hne => ?_⟩
  obtain ⟨reply, hcommit, hsubmissions⟩ := of_round_eq_ok hround hne
  have hafter := (Concord.invariant l).round hc m
  rw [hround, hsubmissions] at hafter
  have hlast := hafter.agreed ⟨p, .ok reply⟩ (List.mem_append_right _ List.mem_cons_self)
  exact ⟨reply, hcommit, hlast.2 reply rfl, hsubmissions, hafter.conflicts⟩

/-- The rota of a vacancy, right after the store has forgotten what came before it. -/
def afterForgetting : Option Rota :=
  ((Rota.start (Hub.empty.performAll Proposal.vacancy).1 ⟨"/r"⟩ Bounds.standard).toOption).map fun r =>
    (r.perform (.store (.compact 1))).1

/-- Then a member takes the item. -/
theorem conflicts_eq_zero_of_afterForgetting : ∃ r subs, Logged ⟨"/r"⟩ r subs ∧
    carriedOut subs = [Proposal.taking] ∧ r.report.conflicts = 0 ∧ r.report.commits = 1 ∧
      r.report.changes = Proposal.taking.tally := by
  have hscript : (afterForgetting.any fun r => decide (r.latest.1.bounds = Bounds.standard) &&
      (r.latest.2.toOption.any fun s => decide (s.layout = Proposal.vacant.layout) &&
        decide (s.revision = 1) && decide (s.entries.bindings = Proposal.vacant.entries.bindings)) &&
      (r.latest.1.hub.store.commit Proposal.taking.transaction).toOption.any (·.2.succeeded)) = true := by
    decide +kernel
  obtain ⟨r, hr, hfacts⟩ := (Option.any_eq_true _ _).1 hscript
  simp only [Bool.and_eq_true, decide_eq_true_eq] at hfacts
  obtain ⟨⟨hbounds, hlatest⟩, hanswer⟩ := hfacts
  obtain ⟨s, hs, hsnapshot⟩ := (Option.any_eq_true _ _).1 hlatest
  obtain ⟨⟨store, reply⟩, hc, hsucceeded⟩ := (Option.any_eq_true _ _).1 hanswer
  simp only [Bool.and_eq_true, decide_eq_true_eq] at hsnapshot
  obtain rfl := Proposal.eq_vacant hsnapshot.1.1 hsnapshot.1.2 hsnapshot.2
  have hsubmissions : r.roundSubmissions ⟨"east", "one"⟩ = [⟨Proposal.taking, .ok reply⟩] := by
    have hl : r.latest = (r.latest.1, .ok Proposal.vacant) := Prod.ext rfl (toOption_eq_some_iff.1 hs)
    unfold roundSubmissions
    rw [hl]
    simp only [hbounds, Proposal.ofSnapshot_vacant]
    unfold submission
    rw [toOption_eq_some_iff.1 hc]
    rfl
  have hlogged : Logged ⟨"/r"⟩ r [] := by
    obtain ⟨r₀, hr₀, rfl⟩ := Option.map_eq_some_iff.1 hr
    exact (Logged.start (toOption_eq_some_iff.1 hr₀)).perform (.store (.compact 1))
  have hround := hlogged.perform (.round ⟨"east", "one"⟩)
  have hall : [] ++ r.submissions (.round ⟨"east", "one"⟩) = [⟨Proposal.taking, .ok reply⟩] := hsubmissions
  rw [hall] at hround
  have hcarried : carriedOut [⟨Proposal.taking, .ok reply⟩] = [Proposal.taking] :=
    carriedOut_singleton hsucceeded
  obtain ⟨hconflicts, -, hcommits, hchanges, -⟩ := conflicts_eq_zero_of_logged hround
  rw [hcarried] at hcommits hchanges
  exact ⟨_, _, hround, hcarried, hconflicts, hcommits, hchanges⟩

end Rota

end Allotment
