import Allotment.Proofs.Backing
import Allotment.Proofs.Rota.Sync
import Allotment.Proofs.Settle.Turn

/-!
# Rotas come to rest

A rota whose members take their rounds in an orderly keyspace with enough room never fails: each round
plans on the latest contents, so that it is a turn (`InStep.submit`).  Rounds leave the members and the
items alone, and each that does anything shrinks the backlog (`InStep.exists_round`, `InStep.exists_pass`).
So once there have been more passes than there is backlog, one has found nothing to do
(`InStep.exists_passes`).  Then everything has converged, and nothing is left on draining members
(`Reached.exists_converged_run`).
-/

namespace Allotment

namespace Rota

/-- The snapshot that the cache has published. -/
def snapshot (r : Rota) : Snapshot :=
  r.observer.cache.snapshot

/-- What rounds make of a rota: it is in step again, the members and items are the same, and there is no
more to do than before. -/
structure Advances (l : Layout) (r r' : Rota) : Prop where
  inStep : ∃ log, r'.InStep l log
  bounds : r'.bounds = r.bounds
  settling : r'.snapshot.IsSettling
  members : r'.snapshot.members = r.snapshot.members
  items : r'.snapshot.items = r.snapshot.items
  backlog : r'.snapshot.backlog ≤ r.snapshot.backlog

variable {l : Layout} {log : Chronicle} {r r' r'' : Rota}

namespace Advances

theorem refl (h : r.InStep l log) (hs : r.snapshot.IsSettling) : Advances l r r :=
  ⟨⟨log, h⟩, rfl, hs, rfl, rfl, Nat.le_refl _⟩

theorem trans (h : Advances l r r') (h' : Advances l r' r'') : Advances l r r'' :=
  ⟨h'.inStep, h'.bounds.trans h.bounds, h'.settling, h'.members.trans h.members,
    h'.items.trans h.items, Nat.le_trans h'.backlog h.backlog⟩

theorem withReport (h : Advances l r r') (report : RotaReport) : Advances l r { r' with report } := by
  obtain ⟨log, hin⟩ := h.inStep
  exact ⟨⟨log, hin.withReport report⟩, h.bounds, h.settling, h.members, h.items, h.backlog⟩

theorem ofReport {report : RotaReport} (h : Advances l { r with report } r') : Advances l r r' :=
  ⟨h.inStep, h.bounds, h.settling, h.members, h.items, h.backlog⟩

end Advances

namespace InStep

/-! ### Rounds -/

/-- A proposal on the latest contents is committed, and leaves less to do. -/
theorem submit (h : r.InStep l log) (hs : r.snapshot.IsSettling) {m : MemberId} {p : Proposal}
    (hp : Proposal.ofSnapshot r.snapshot m r.bounds = some p) (hne : p.isEmpty = false) :
    ∃ r', r.submit m p = (r', .ok p) ∧ Advances l r r' ∧ r'.snapshot.backlog < r.snapshot.backlog := by
  obtain ⟨entry, ts, hmade⟩ := Proposal.made_of_ofSnapshot hp
  have hexplains := h.sound.reached.explains
  have hattests : log.Attests r.snapshot := h.sound.sound.tracks.published
  have hlayout : r.snapshot.layout = l := h.sound.sound.layout
  have hrevision : p.revision = r.hub.store.revision := hmade.revision.trans h.current
  have hfresh : log.snapshotAt l r.hub.store.revision = .ok r.snapshot := by
    unfold Chronicle.snapshotAt
    rw [hexplains.contentsAt_revision]
    exact h.decoded
  obtain ⟨hub, reply, log', hc, hsucceeded, havailable, ho, hrun⟩ :=
    h.commit (Proposal.guards_hold_of_latest hexplains hfresh hp)
      (fun w hw => Sound.startsWith_of_proposal hattests hlayout hp hw)
      (fun e he => hlayout ▸ hs.isReadable hp he)
  obtain ⟨r', hlatest, hin, hstore, hbounds⟩ := Sound.exists_latest (r := { r with
    hub
    report := { r.report with
      commits := r.report.commits + 1
      changes := r.report.changes + p.tally } }) ho havailable h.failure hrun
  have hturn : Snapshot.Turn l log r.hub.store hub.store m r.bounds p entry ts r.snapshot r'.snapshot :=
    ⟨⟨hexplains, hrevision ▸ hfresh, hp, reply, (Hub.of_commit hc).1, hsucceeded⟩, hmade, h.decoded,
      hstore ▸ hin.decoded, hs⟩
  have hts : ts ≠ [] := by
    rintro rfl
    unfold Proposal.isEmpty at hne
    rw [hmade.writes] at hne
    exact nomatch hne
  refine ⟨r', ?_, ⟨⟨log', hin⟩, hbounds, hturn.settling, hturn.shift.members_eq, hturn.shift.items_eq,
    Nat.le_of_lt (hturn.backlog_lt hts)⟩, hturn.backlog_lt hts⟩
  have hcheck : checkCommit r'.observer.cache.snapshot m p = .ok () := hturn.checkCommit_eq_ok
  unfold Rota.submit
  simp only [hc, hsucceeded, ↓reduceIte, hlatest, hcheck]

/-- A member either has nothing to do, or does something that leaves less to do. -/
theorem exists_round (h : r.InStep l log) (hs : r.snapshot.IsSettling) {e : Entry Member}
    (he : e ∈ r.snapshot.members) : ∃ r' p, r.round e.value.id = (r', .ok p) ∧ Advances l r r' ∧
      Proposal.ofSnapshot r.snapshot e.value.id r.bounds = some p ∧
        (p.isEmpty = true ∧ r'.snapshot = r.snapshot ∨
          p.isEmpty = false ∧ r'.snapshot.backlog < r.snapshot.backlog) := by
  obtain ⟨p, hp⟩ := Proposal.exists_of_mem_members hs.orderly.faithful he r.bounds
  have hrequire : Proposal.require r.observer.cache.snapshot e.value.id r.bounds = .ok p :=
    Proposal.require_eq_ok_iff.2 hp
  have hcounted := h.withReport { r.report with rounds := r.report.rounds + 1 }
  unfold Rota.round
  simp only [h.latest_eq, hrequire]
  cases hempty : p.isEmpty with
  | true => exact ⟨_, p, rfl, (Advances.refl h hs).withReport _, hp, .inl ⟨hempty, rfl⟩⟩
  | false =>
    obtain ⟨r', hsubmit, hadvances, hlt⟩ := hcounted.submit hs hp hempty
    exact ⟨r', p, hsubmit, hadvances.ofReport, hp, .inr ⟨hempty, hlt⟩⟩

/-- Some members take a round each: either none of them has anything to do, or there is less to do. -/
theorem exists_rounds (h : r.InStep l log) (hs : r.snapshot.IsSettling) {es : List (Entry Member)}
    (hes : ∀ e ∈ es, e ∈ r.snapshot.members) (busy : Bool) :
    ∃ r' busy', r.rounds busy (es.map (·.value.id)) = (r', .ok busy') ∧ Advances l r r' ∧
      (busy' = busy ∧ r'.snapshot = r.snapshot ∧ (∀ e ∈ es, ∃ p,
          Proposal.ofSnapshot r.snapshot e.value.id r.bounds = some p ∧ p.isEmpty = true) ∨
        busy' = true ∧ r'.snapshot.backlog < r.snapshot.backlog) := by
  induction es generalizing r log busy with
  | nil => exact ⟨r, busy, rfl, .refl h hs, .inl ⟨rfl, rfl, fun _ hmem => nomatch hmem⟩⟩
  | cons e es ih =>
    obtain ⟨he, hrest⟩ := List.forall_mem_cons.1 hes
    obtain ⟨r', p, hround, hadvances, hp, hdone⟩ := h.exists_round hs he
    obtain ⟨log', hin⟩ := hadvances.inStep
    obtain ⟨r'', busy', hrounds, hadvances', hdone'⟩ := ih hin hadvances.settling
      (fun e he => hadvances.members ▸ hrest e he) (busy || !p.isEmpty)
    refine ⟨r'', busy', ?_, hadvances.trans hadvances', ?_⟩
    · simp only [List.map_cons, Rota.rounds, hround]
      exact hrounds
    -- a member that has nothing to do leaves the snapshot to the others as it is
    rcases hdone with ⟨hempty, hsame⟩ | ⟨hempty, hlt⟩
    · rw [hempty, hsame, hadvances.bounds, Bool.not_true, Bool.or_false] at hdone'
      exact hdone'.imp_left fun ⟨hb, hs', hidle⟩ =>
        ⟨hb, hs', List.forall_mem_cons.2 ⟨⟨p, hp, hempty⟩, hidle⟩⟩
    · rw [hempty, Bool.not_false, Bool.or_true] at hdone'
      rcases hdone' with ⟨hb, hs', -⟩ | ⟨hb, hlt'⟩
      · exact .inr ⟨hb, hs' ▸ hlt⟩
      · exact .inr ⟨hb, Nat.lt_trans hlt' hlt⟩

/-! ### Passes -/

/-- A pass either finds nothing to do, or leaves less to do. -/
theorem exists_pass (h : r.InStep l log) (hs : r.snapshot.IsSettling) :
    ∃ r' busy, r.pass = (r', .ok busy) ∧ Advances l r r' ∧
      (busy = false ∧ r'.snapshot.IsSilent r'.bounds ∨
        busy = true ∧ r'.snapshot.backlog < r.snapshot.backlog) := by
  obtain ⟨r', busy, hrounds, hadvances, hdone⟩ := h.exists_rounds hs (fun _ he => he) false
  refine ⟨{ r' with report := { r'.report with passes := r'.report.passes + 1 } }, busy, ?_,
    hadvances.withReport _, hdone.imp_left ?_⟩
  · have hrounds' : r.rounds false (r.observer.cache.snapshot.members.map (·.value.id)) =
        (r', .ok busy) := hrounds
    unfold Rota.pass
    simp only [h.latest_eq, hrounds']
  · rintro ⟨hb, hsame, hidle⟩
    refine ⟨hb, hadvances.settling.orderly.faithful, fun e he => ?_⟩
    show ∃ p, Proposal.ofSnapshot r'.snapshot e.value.id r'.bounds = some p ∧ p.isEmpty = true
    rw [hsame, hadvances.bounds]
    exact hidle e (hadvances.members ▸ he)

/-- If there are more passes than there is to do, then one of them finds nothing to do. -/
theorem exists_passes (h : r.InStep l log) (hs : r.snapshot.IsSettling) {limit : Nat}
    (hlimit : r.snapshot.backlog < limit) : ∃ r', r.passes limit = (r', .ok true) ∧ Advances l r r' ∧
      r'.snapshot.IsSilent r'.bounds := by
  induction limit generalizing r log with
  | zero => exact absurd hlimit (Nat.not_lt_zero _)
  | succ limit ih =>
    obtain ⟨r', busy, hpass, hadvances, ⟨rfl, hsilent⟩ | ⟨rfl, hlt⟩⟩ := h.exists_pass hs
    · exact ⟨r', by simp only [Rota.passes, hpass], hadvances, hsilent⟩
    · obtain ⟨log', hin⟩ := hadvances.inStep
      obtain ⟨r'', hpasses, hadvances', hsilent⟩ := ih hin hadvances.settling (by omega)
      exact ⟨r'', by simp only [Rota.passes, hpass, hpasses], hadvances.trans hadvances', hsilent⟩

end InStep

/-! ### At rest -/

/-- Passes see the rota only through what is latest. -/
theorem pass_congr (h : r.latest = r'.latest) : r.pass = r'.pass := by
  unfold Rota.pass
  rw [h]

end Rota

namespace Snapshot

variable {s : Snapshot} {b : Bounds}

/-- Nothing is left to do where nobody has anything to do. -/
theorem IsSettling.isCalm (h : s.IsSettling) (hsilent : s.IsSilent b) : s.IsCalm b :=
  ⟨hsilent, h.orderly.intact⟩

/-- If nobody has anything to do, then nothing is left on draining members. -/
theorem IsSettling.isDraining_eq_false (h : s.IsSettling) (hsilent : s.IsSilent b)
    {a : Entry Assignment} (ha : a ∈ s.assignments) {e : Entry Member} (he : e ∈ s.members)
    (hid : e.value.id = a.value.holder) : e.value.isDraining = false := by
  obtain ⟨g, hg, -, hr⟩ := IsIntact.exists_group ha
  obtain ⟨item, hw⟩ := h.orderly.exists_wanted hg
  refine (mem_openMembers_of_mem h.orderly.faithful he).1 (Decidable.byContradiction fun hnot => ?_)
  rw [hid] at hnot
  exact ((h.isCalm hsilent).settled h.roomy hg hw).unshed _ hr
    ((h.orderly.mem_shedding_iff h.roomy.limit hg hr).2 hnot)

end Snapshot

namespace Rota

variable {l : Layout} {r : Rota}

/-- The snapshot of what the store holds, if that can be decoded. -/
def stored (r : Rota) : Except DecodeError Snapshot :=
  Snapshot.ofEntries r.layout r.hub.store.revision (r.hub.store.live.entriesUnder r.layout.scope)

theorem InStep.stored_eq {log : Chronicle} (h : r.InStep l log) : r.stored = .ok r.snapshot := by
  unfold stored
  rw [h.sound.layout_eq]
  exact h.decoded

/-- The members of an orderly keyspace come to rest.  Let the task of a rota run without fault, over an
available store that is written under the root of the keyspace only.  Let what the store holds be orderly,
with a limit for all items on every member that is not draining, enough such members for the replicas of
each item, and no more members than slots.  Then the members come to rest within some number of passes,
whatever the bounds of a proposal are; the members and items are the same then, everything has converged
and draining members hold nothing. -/
theorem Reached.exists_converged_run (hr : Reached l r) (havailable : r.hub.store.available = true)
    (hfailure : r.observer.cache.failure = none) (hrun : r.observer.IsRunning r.hub) {s : Snapshot}
    (hs : r.stored = .ok s) (hsettling : s.IsSettling) :
    ∃ enough, ∀ limit ≥ enough, ∃ r' report s', r.run limit = (r', .ok report) ∧
      r'.stored = .ok s' ∧ s'.members = s.members ∧ s'.items = s.items ∧
        Check.convergence s' = .ok () ∧ ∀ a ∈ s'.assignments, ∀ e ∈ s'.members,
          e.value.id = a.value.holder → e.value.isDraining = false := by
  obtain ⟨log, hsound⟩ := hr.sound
  obtain ⟨r₁, hlatest, hin, hstore, -⟩ := hsound.exists_latest havailable hfailure hrun
  obtain rfl : s = r₁.snapshot := by
    unfold stored at hs
    rw [hsound.layout_eq, ← hstore, hin.decoded] at hs
    exact (Except.ok.inj hs).symm
  refine ⟨r₁.snapshot.backlog + 1, fun limit hle => ?_⟩
  obtain ⟨r', hpasses, hadvances, hsilent⟩ := hin.exists_passes hsettling hle
  obtain ⟨log', hin'⟩ := hadvances.inStep
  refine ⟨r', r'.report - r.report, r'.snapshot, ?_, hin'.stored_eq, hadvances.members, hadvances.items,
    (hadvances.settling.isCalm hsilent).convergence hadvances.settling.roomy,
    fun a ha e he hid => hadvances.settling.isDraining_eq_false hsilent ha he hid⟩
  -- Whoever looks for the latest snapshot again, once in step, finds the same one.
  obtain ⟨limit, rfl⟩ : ∃ limit', limit = limit' + 1 := ⟨limit - 1, by omega⟩
  have hsame : r.passes (limit + 1) = r₁.passes (limit + 1) := by
    simp only [Rota.passes, pass_congr (hlatest.trans hin.latest_eq.symm)]
  unfold Rota.run
  rw [hsame, hpasses]

/-- The only item is on a member that is draining, and another member has room for it. -/
def drainSeed : List Request :=
  [.transaction ⟨[], [.put "/r/members/a/m" (Member.encode 1), .put "/r/members/b/m" (Member.encode 0),
    .put "/r/items/job" (Item.encode 1), .put "/r/assignments/job/b/m/0" (Assignment.encode true)]⟩]

theorem exists_converged_run_of_drainSeed :
    ∃ r s, Rota.start (Hub.empty.performAll drainSeed).1 ⟨"/r"⟩ Bounds.standard = .ok r ∧
      Reached ⟨"/r"⟩ r ∧ r.hub.store.available = true ∧ r.observer.cache.failure = none ∧
      r.observer.IsRunning r.hub ∧ r.stored = .ok s ∧ s.IsSettling ∧
      s.assignments.map (·.value.holder) = [⟨"b", "m"⟩] ∧
      ∃ enough, ∀ limit ≥ enough, ∃ r' report s', r.run limit = (r', .ok report) ∧
        r'.stored = .ok s' ∧ s'.members = s.members ∧ s'.items = s.items ∧
          Check.convergence s' = .ok () ∧ ∀ a ∈ s'.assignments, ∀ e ∈ s'.members,
            e.value.id = a.value.holder → e.value.isDraining = false := by
  have hstart : ((Rota.start (Hub.empty.performAll drainSeed).1 ⟨"/r"⟩ Bounds.standard).toOption.any
      fun r => r.hub.store.available && r.observer.cache.failure.isNone &&
        decide (r.observer.IsRunning r.hub) && r.stored.toOption.any fun s =>
          s.isSettling && decide (s.assignments.map (·.value.holder) = [⟨"b", "m"⟩])) = true := by
    decide +kernel
  obtain ⟨r, hr, hfacts⟩ := (Option.any_eq_true _ _).1 hstart
  simp only [Bool.and_eq_true, decide_eq_true_eq, Option.isNone_iff_eq_none] at hfacts
  obtain ⟨⟨⟨havailable, hfailure⟩, hrun⟩, hstored⟩ := hfacts
  obtain ⟨s, hs, hfacts⟩ := (Option.any_eq_true _ _).1 hstored
  rw [Bool.and_eq_true, decide_eq_true_eq] at hfacts
  have hreached := Reached.start (by decide +kernel) (toOption_eq_some_iff.1 hr)
  have hdecoded := toOption_eq_some_iff.1 hs
  have hsettling := (Snapshot.faithful_of_ofEntries hdecoded).isSettling_iff.1 hfacts.1
  exact ⟨r, s, toOption_eq_some_iff.1 hr, hreached, havailable, hfailure, hrun, hdecoded, hsettling,
    hfacts.2, hreached.exists_converged_run havailable hfailure hrun hdecoded hsettling⟩

/-! ### What keeps members from coming to rest -/

/-- If a pass fails, then so do all runs. -/
theorem run_ne_ok {e : RotaError} (h : r.pass.2 = .error e) (limit : Nat) (report : RotaReport) :
    (r.run limit).2 ≠ .ok report := by
  have hpasses : (r.passes limit).2 ≠ .ok true := by
    cases limit with
    | zero => rintro ⟨⟩
    | succ limit =>
      obtain ⟨r', hpass⟩ : ∃ r', r.pass = (r', .error e) := ⟨r.pass.1, Prod.ext rfl h⟩
      simp only [Rota.passes, hpass]
      rintro ⟨⟩
  unfold Rota.run
  split
  next => rintro ⟨⟩
  next hdone => exact absurd (congrArg Prod.snd hdone) hpasses
  next => rintro ⟨⟩

/-- All looks well: the task follows the store and has not failed, and what the store holds is settling, with
a member that is not draining. -/
structure IsPoised (l : Layout) (r : Rota) : Prop where
  reached : Reached l r
  following : r.observer.IsFollowing r.hub
  failure : r.observer.cache.failure = none
  settling : ∃ s, r.stored = .ok s ∧ s.IsSettling ∧ ∃ e ∈ s.members, e.value.isDraining = false

/-- One member with room for one item is created, and the cache catches up. -/
def freshFill : List Command :=
  [.createMembers [⟨"a", "m"⟩] 1, .createItems ["job"] 1, .latest]

/-- The store becomes unavailable. -/
def outage : List Command :=
  freshFill ++ [.store (.setAvailable false)]

/-- Something that cannot be read is written and deleted again. -/
def litter : List Command :=
  freshFill ++ [.store (.transaction ⟨[], [.put "/r/members/a" []]⟩),
    .store (.transaction ⟨[], [.delete "/r/members/a"]⟩)]

/-- The rota of an empty store after some commands. -/
def scripted (cs : List Command) : Option Rota :=
  (Rota.start (Hub.empty.performAll []).1 ⟨"/r"⟩ Bounds.standard).toOption.map (·.performAll cs)

/-- A script that can be evaluated, after which all looks well but a pass fails. -/
theorem exists_failing_run {cs : List Command} (hcs : ∀ c ∈ cs, c.WritesUnder (Layout.mk "/r").scope)
    (h : ((scripted cs).any fun r => decide (r.observer.IsFollowing r.hub) &&
      r.observer.cache.failure.isNone && (r.stored.toOption.any fun s =>
        s.isSettling && s.members.any fun e => !e.value.isDraining) &&
      r.pass.2.toOption.isNone) = true) :
    ∃ r, scripted cs = some r ∧ IsPoised ⟨"/r"⟩ r ∧ ∀ limit report, (r.run limit).2 ≠ .ok report := by
  obtain ⟨r, hr, hfacts⟩ := (Option.any_eq_true _ _).1 h
  simp only [Bool.and_eq_true, decide_eq_true_eq, Option.isNone_iff_eq_none] at hfacts
  obtain ⟨⟨⟨hfollowing, hfailure⟩, hstored⟩, hpass⟩ := hfacts
  obtain ⟨s, hs, hfacts⟩ := (Option.any_eq_true _ _).1 hstored
  rw [Bool.and_eq_true, List.any_eq_true] at hfacts
  obtain ⟨hsettling, e, he, hopen⟩ := hfacts
  obtain ⟨r₀, hr₀, rfl⟩ := Option.map_eq_some_iff.1 hr
  have hdecoded := toOption_eq_some_iff.1 hs
  have hreached := Reached.start (by decide) (toOption_eq_some_iff.1 hr₀)
  refine ⟨_, hr, ⟨hreached.performAll hcs, hfollowing, hfailure, s, hdecoded,
    (Snapshot.faithful_of_ofEntries hdecoded).isSettling_iff.1 hsettling, e, he, by simpa using hopen⟩, ?_⟩
  cases hresult : (r₀.performAll cs).pass.2 with
  | ok busy =>
    rw [hresult] at hpass
    exact nomatch hpass
  | error e => exact run_ne_ok hresult

/-- Members do not come to rest without a store that is available, nor with a task that cannot read what
waits for it. -/
theorem not_converged_run_of_outage_of_litter :
    (∃ r, scripted outage = some r ∧ IsPoised ⟨"/r"⟩ r ∧
      ∀ limit report, (r.run limit).2 ≠ .ok report) ∧
    ∃ r, scripted litter = some r ∧ IsPoised ⟨"/r"⟩ r ∧
      ∀ limit report, (r.run limit).2 ≠ .ok report :=
  ⟨exists_failing_run (by decide +kernel) (by decide +kernel),
    exists_failing_run (by decide +kernel) (by decide +kernel)⟩

end Rota

end Allotment
