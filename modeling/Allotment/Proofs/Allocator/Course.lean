import Allotment.Allocator.Rehearsal
import Allotment.Proofs.Allocator.Refusal

/-!
# What an allocator plans on

An allocator meets with the end of its wait and, if it submits a proposal, with the store's answer
(`Allocator.Encounter`); several rounds make up a course (`Allocator.Course`).  A round leaves the allocator
waiting for something later than what it has planned on, and after a commit for the commit at least
(`awaited_of_turn`).  So what it waits for is never behind its own commit, as long as it gets what it waits
for (`le_awaited_of_course`).  A wait that times out is not held against it: the round plans on what there
is, even if that is behind the commit (`exists_plan_behind_commit`), and if such a round is idle or refused
then the next one waits for less.

All that a course takes from its waits is that they do not end early (`Wait.Admits`).  A vigil is a course
whose waits are those of observers (`Allocator.Vigil`), which never do (`Observer.admits_outcome`).
-/

namespace Allotment

/-! ### How waits end -/

/-- The snapshot that a wait ends with. -/
def Outcome.snapshot? : Outcome → Option Snapshot
  | .reached s | .timedOut s => some s
  | .cancelled | .failed _ => none

/-- The wait has timed out while the cache was behind a revision. -/
def Outcome.IsLate (o : Outcome) (revision : Int) : Prop :=
  ∃ s, o = .timedOut s ∧ s.revision < revision

/-- The wait can end like this: what it has reached is not older than what it was for.  When it times out, the
cache may be anywhere. -/
def Wait.Admits (w : Wait) (o : Outcome) : Prop :=
  ∀ s, o = .reached s → w.revision ≤ s.revision

/-- A wait that is not late ends with a snapshot that is not behind a revision, if it is not for less. -/
theorem Wait.Admits.le_revision {w : Wait} {o : Outcome} {s : Snapshot} {revision : Int} (h : w.Admits o)
    (hs : o.snapshot? = some s) (hle : revision ≤ w.revision) (hlate : ¬ o.IsLate revision) :
    revision ≤ s.revision := by
  cases o with
  | reached t =>
    obtain rfl : t = s := Option.some.inj hs
    exact Int.le_trans hle (h t rfl)
  | timedOut t =>
    obtain rfl : t = s := Option.some.inj hs
    exact Int.not_lt.1 fun hlt => hlate ⟨t, rfl, hlt⟩
  | cancelled => exact nomatch hs
  | failed e => exact nomatch hs

theorem Observer.admits_attempt (o : Observer) (h : Hub) (w : Wait) (outcome : Outcome)
    (ha : (o.attempt h w).1 = some outcome) : w.Admits outcome := by
  rintro s rfl
  unfold attempt at ha
  cases hready : w.ready? o.cache with
  | some first =>
    rw [hready] at ha
    exact (Wait.eq_snapshot_of_ready? (hready.trans ha)).2
  | none =>
    rw [hready] at ha
    exact (Wait.eq_snapshot_of_ready? ha).2

/-- How a wait on an observer ends.  Its time is up when nothing else can happen any more. -/
def Observer.outcome (o : Observer) (h : Hub) (w : Wait) : Outcome :=
  match o.attempt h w with
  | (some outcome, _) => outcome
  | (none, o, _) => .timedOut o.cache.snapshot

theorem Observer.admits_outcome (o : Observer) (h : Hub) (w : Wait) : w.Admits (o.outcome h w) := by
  have hadmits := o.admits_attempt h w
  unfold outcome
  generalize o.attempt h w = attempted at hadmits ⊢
  obtain ⟨outcome | outcome, o, h⟩ := attempted
  · exact fun s hs => nomatch hs
  · exact hadmits outcome rfl

/-- An observer whose cache stands at a snapshot, without a task. -/
def Observer.resting (s : Snapshot) : Observer :=
  ⟨{ (Cache.empty s.layout).publish s with loaded := true }, .none⟩

/-- Whatever a wait can reach is what it reaches on some observer. -/
theorem Observer.outcome_resting {s : Snapshot} {w : Wait} (hle : w.revision ≤ s.revision) (h : Hub) :
    (resting s).outcome h w = .reached s := by
  have hready : w.ready? (resting s).cache = some (.reached s) := if_pos hle
  unfold outcome attempt
  rw [hready]

namespace Allocator

/-! ### Rounds -/

/-- What an allocator meets with in a round: how its wait ends, and the answer to its transaction. -/
structure Encounter where
  outcome : Outcome
  answer : Except AllocatorError Reply

/-- A round.  Tells how the allocator has halted, if it has. -/
def turn (a : Allocator) (e : Encounter) : Allocator × Option (Option AllocatorError) :=
  match a.resume e.outcome with
  | (a, .halted fault) => (a, some fault)
  | (a, .idle) => (a, none)
  | (a, .submits p) =>
    match e.answer with
    | .error fault => (a, some (some fault))
    | .ok reply => (a.settle p reply, none)

/-- The revision that a round has committed, if it has. -/
def committed? (a : Allocator) (e : Encounter) : Option Int :=
  match (a.resume e.outcome).2, e.answer with
  | .submits _, .ok reply => if reply.succeeded then some reply.revision else none
  | _, _ => none

/-- Some rounds, one after another, none of which halts the allocator. -/
inductive Course : Allocator → List Encounter → Allocator → Prop
  | nil (a : Allocator) : Course a [] a
  | cons {a a' b : Allocator} {e : Encounter} {es : List Encounter}
      (hwait : Wait.Admits ⟨a.awaited, false⟩ e.outcome) (hturn : a.turn e = (a', none))
      (hrest : Course a' es b) : Course a (e :: es) b

/-- Some rounds, one after another, none of which halts the allocator.  Each waits on an observer, and anything
may have become of the observer and its hub since the round before. -/
inductive Vigil : Allocator → List Encounter → Allocator → Prop
  | nil (a : Allocator) : Vigil a [] a
  | cons {a a' b : Allocator} {e : Encounter} {es : List Encounter} (o : Observer) (h : Hub)
      (hwait : e.outcome = o.outcome h ⟨a.awaited, false⟩) (hturn : a.turn e = (a', none))
      (hrest : Vigil a' es b) : Vigil a (e :: es) b

variable {a a' b : Allocator} {e : Encounter} {es : List Encounter} {s : Snapshot} {revision : Int}

theorem Vigil.course (h : Vigil a es b) : Course a es b := by
  induction h with
  | nil a => exact .nil a
  | cons o h hwait hturn hrest ih => exact .cons (hwait ▸ o.admits_outcome h _) hturn ih

/-- A round on a snapshot is begun and halts, or there is nothing to do, or it submits what it has planned. -/
theorem plan_cases (a : Allocator) (s : Snapshot) :
    (∃ fault, a.plan s = ({ a with round := a.round + 1 }, .halted fault)) ∨
      a.plan s = (finishIdle { a with round := a.round + 1 } s.revision, .idle) ∨
        ∃ p, a.plan s = ({ a with round := a.round + 1 }, .submits p) ∧ p.revision = s.revision := by
  unfold plan
  cases hp : Proposal.require s a.member a.bounds with
  | error e =>
    simp only [hp]
    exact .inl ⟨_, rfl⟩
  | ok p =>
    obtain ⟨entry, ts, hm⟩ := Proposal.made_of_ofSnapshot (Proposal.require_eq_ok_iff.1 hp)
    simp only [hp]
    split
    next => exact .inl ⟨_, rfl⟩
    next =>
      split
      next => exact .inr (.inl rfl)
      next => exact .inr (.inr ⟨p, rfl, hm.revision⟩)

/-- Whoever does not get a snapshot halts, and whoever gets one plans on it. -/
theorem resume_cases (a : Allocator) (o : Outcome) :
    (∃ fault, o.snapshot? = none ∧ a.resume o = (a, .halted fault)) ∨
      ∃ s, o.snapshot? = some s ∧ a.resume o = a.plan s := by
  cases o with
  | reached s => exact .inr ⟨s, rfl, rfl⟩
  | timedOut s => exact .inr ⟨s, rfl, rfl⟩
  | cancelled => exact .inl ⟨_, rfl, rfl⟩
  | failed e => exact .inl ⟨_, rfl, rfl⟩

theorem plan_eq_submits {a : Allocator} {s : Snapshot} {p : Proposal}
    (hp : Proposal.ofSnapshot s a.member a.bounds = some p) (hdrained : p.drained = false)
    (hne : p.isEmpty = false) : a.plan s = ({ a with round := a.round + 1 }, .submits p) := by
  have hrequire := Proposal.require_eq_ok_iff.2 hp
  unfold plan
  simp only [hrequire, hdrained, hne, Bool.false_eq_true, ↓reduceIte]

theorem turn_of_plan {a a' : Allocator} {s : Snapshot} {p : Proposal} (hplan : a.plan s = (a', .submits p))
    (reply : Reply) : a.turn ⟨.reached s, .ok reply⟩ = (a'.settle p reply, none) := by
  have hresume : a.resume (.reached s) = (a', .submits p) := hplan
  unfold turn
  simp only [hresume]

theorem committed?_of_plan {a a' : Allocator} {s : Snapshot} {p : Proposal}
    (hplan : a.plan s = (a', .submits p)) (revision : Int) :
    a.committed? ⟨.reached s, .ok ⟨true, revision⟩⟩ = some revision := by
  have hresume : a.resume (.reached s) = (a', .submits p) := hplan
  unfold committed?
  simp only [hresume, ↓reduceIte]

theorem awaited_settle (a : Allocator) (p : Proposal) (reply : Reply) :
    p.revision < (a.settle p reply).awaited ∧
      (reply.succeeded = true → reply.revision ≤ (a.settle p reply).awaited) := by
  unfold settle
  dsimp only
  split
  next => exact ⟨by omega, fun _ => by omega⟩
  next hrefused => exact ⟨by omega, fun hsucceeded => absurd hsucceeded hrefused⟩

/-- A round that does not halt has planned on a snapshot.  It leaves the allocator waiting for something
later, and not for less than what it has committed. -/
theorem awaited_of_turn (h : a.turn e = (a', none)) : ∃ s, e.outcome.snapshot? = some s ∧
    s.revision < a'.awaited ∧ ∀ revision, a.committed? e = some revision → revision ≤ a'.awaited := by
  unfold turn at h
  unfold committed?
  rcases a.resume_cases e.outcome with ⟨fault, -, hresume⟩ | ⟨s, hs, hresume⟩
  · rw [hresume] at h
    exact nomatch (Prod.mk.inj h).2
  refine ⟨s, hs, ?_⟩
  rw [hresume] at h ⊢
  rcases a.plan_cases s with ⟨fault, hplan⟩ | hplan | ⟨p, hplan, hrevision⟩
  · rw [hplan] at h
    exact nomatch (Prod.mk.inj h).2
  · rw [hplan] at h ⊢
    obtain rfl := (Prod.mk.inj h).1
    exact ⟨Int.lt_succ s.revision, fun revision hc => nomatch hc⟩
  · rw [hplan] at h ⊢
    dsimp only at h ⊢
    cases hanswer : e.answer with
    | error fault =>
      rw [hanswer] at h
      exact nomatch (Prod.mk.inj h).2
    | ok reply =>
      rw [hanswer] at h
      obtain rfl := (Prod.mk.inj h).1
      obtain ⟨hlater, hcommit⟩ := awaited_settle { a with round := a.round + 1 } p reply
      refine ⟨hrevision ▸ hlater, fun revision hc => ?_⟩
      dsimp only at hc
      split at hc
      next hsucceeded => exact Option.some.inj hc ▸ hcommit hsucceeded
      next => exact nomatch hc

end Allocator

/-! ### Rehearsals -/

namespace Rehearsal

open Allocator (Encounter Course Vigil)

theorem allocator_act (r : Rehearsal) (entry : Answer → Entry) (action : Action) :
    (r.act entry action).allocator = r.allocator := by
  cases action with
  | request q => rfl
  | settle => rfl

theorem allocator_actAll (r : Rehearsal) (entry : Answer → Entry) (number : Nat)
    (actions : List (Nat × List Action)) : (r.actAll entry number actions).allocator = r.allocator := by
  unfold actAll
  induction (actions.filter (·.1 == number)).flatMap (·.2) generalizing r with
  | nil => rfl
  | cons action rest ih => exact (ih (r.act entry action)).trans (r.allocator_act entry action)

/-- Nothing but the allocator's own steps changes it. -/
theorem allocator_commit (r : Rehearsal) (s : Script) (p : Proposal) :
    (r.commit s p).1.allocator = r.allocator := by
  unfold commit
  exact (allocator_actAll _ _ _ _).trans (allocator_actAll _ _ _ _)

/-- The wait of a rehearsal is one on its observer. -/
theorem outcome_wait (r : Rehearsal) :
    r.wait.2 = r.observer.outcome r.hub ⟨r.allocator.awaited, false⟩ := by
  unfold wait Observer.outcome
  dsimp only
  obtain ⟨outcome | outcome, o, hub⟩ := r.observer.attempt r.hub ⟨r.allocator.awaited, false⟩ <;> rfl

theorem allocator_wait (r : Rehearsal) : r.wait.1.allocator = r.allocator := by
  unfold wait
  dsimp only
  obtain ⟨outcome | outcome, o, hub⟩ := r.observer.attempt r.hub ⟨r.allocator.awaited, false⟩ <;> rfl

/-- The wait of a rehearsal ends with what the cache has reached, or times out. -/
theorem admits_wait (r : Rehearsal) : Wait.Admits ⟨r.allocator.awaited, false⟩ r.wait.2 :=
  r.outcome_wait ▸ r.observer.admits_outcome r.hub _

/-- A round of a rehearsal halts after the wait or at its transaction, or it ends: as idle, or once the store has
answered. -/
theorem round_cases (r : Rehearsal) (s : Script) :
    (∃ a fault, r.wait.1.allocator.resume r.wait.2 = (a, .halted fault) ∧
      r.round s = ({ r.wait.1 with allocator := a }, some fault)) ∨
    (∃ a, r.wait.1.allocator.resume r.wait.2 = (a, .idle) ∧
      r.round s = (finishRound { r.wait.1 with allocator := a } s true, none)) ∨
    ∃ a p, r.wait.1.allocator.resume r.wait.2 = (a, .submits p) ∧
      ((∃ r' fault, commit { r.wait.1 with allocator := a } s p = (r', .error fault) ∧
        r.round s = (r', some (some (.store fault)))) ∨
      ∃ r' reply, commit { r.wait.1 with allocator := a } s p = (r', .ok reply) ∧
        r.round s = (finishRound { r' with allocator := r'.allocator.settle p reply } s false, none)) := by
  unfold Rehearsal.round
  generalize r.wait = waited
  obtain ⟨r₁, outcome⟩ := waited
  dsimp only
  cases r₁.allocator.resume outcome with
  | mk a step =>
    cases step with
    | halted fault => exact .inl ⟨a, fault, rfl, rfl⟩
    | idle => exact .inr (.inl ⟨a, rfl, rfl⟩)
    | submits p =>
      refine .inr (.inr ⟨a, p, rfl, ?_⟩)
      dsimp only
      generalize commit { r₁ with allocator := a } s p = committed
      obtain ⟨r', fault | reply⟩ := committed
      · exact .inl ⟨r', fault, rfl, rfl⟩
      · exact .inr ⟨r', reply, rfl, rfl⟩

/-- A round of a rehearsal is a round of its allocator. -/
theorem exists_encounter (r : Rehearsal) (s : Script) : ∃ e : Encounter, e.outcome = r.wait.2 ∧
    r.allocator.turn e = ((r.round s).1.allocator, (r.round s).2) := by
  unfold Allocator.turn
  rw [← r.allocator_wait]
  rcases r.round_cases s with ⟨a, fault, hresume, hround⟩ | ⟨a, hresume, hround⟩ | ⟨a, p, hresume, hcommitted⟩
  · refine ⟨⟨r.wait.2, .error .cancelled⟩, rfl, ?_⟩
    rw [hresume, hround]
  · refine ⟨⟨r.wait.2, .error .cancelled⟩, rfl, ?_⟩
    rw [hresume, hround]
    rfl
  · have hkept := allocator_commit { r.wait.1 with allocator := a } s p
    rcases hcommitted with ⟨r', fault, hcommit, hround⟩ | ⟨r', reply, hcommit, hround⟩
    · rw [hcommit] at hkept
      refine ⟨⟨r.wait.2, .error (.store fault)⟩, rfl, ?_⟩
      rw [hresume, hround]
      exact congrArg (·, _) hkept.symm
    · rw [hcommit] at hkept
      refine ⟨⟨r.wait.2, .ok reply⟩, rfl, ?_⟩
      rw [hresume, hround]
      exact congrArg (fun a => (a.settle p reply, none)) hkept.symm

theorem round_of_submits {r r₁ r₂ : Rehearsal} {s : Script} {outcome : Outcome} {a : Allocator}
    {p : Proposal} {reply : Reply} (hwait : r.wait = (r₁, outcome))
    (hresume : r₁.allocator.resume outcome = (a, .submits p))
    (hcommit : commit { r₁ with allocator := a } s p = (r₂, .ok reply)) : r.round s =
      (finishRound { r₂ with allocator := r₂.allocator.settle p reply } s false, none) := by
  unfold Rehearsal.round
  simp only [hwait, hresume, hcommit]

/-- The rounds of a rehearsal are a vigil of its allocator, and perhaps a last round that halts it. -/
theorem exists_vigil (r : Rehearsal) (s : Script) (more : Nat) : ∃ es b, Vigil r.allocator es b ∧
    (b = (rounds s more r).1.allocator ∨ ∃ e fault,
      (∃ o h, e.outcome = Observer.outcome o h ⟨b.awaited, false⟩) ∧
        b.turn e = ((rounds s more r).1.allocator, some fault)) := by
  fun_induction rounds s more r with
  | case1 more r r' fault hround =>
    obtain ⟨e, he, hturn⟩ := r.exists_encounter s
    rw [hround] at hturn
    exact ⟨[], _, .nil _, .inr ⟨e, fault, ⟨_, _, he.trans r.outcome_wait⟩, hturn⟩⟩
  | case2 r r' hround =>
    obtain ⟨e, he, hturn⟩ := r.exists_encounter s
    rw [hround] at hturn
    exact ⟨[e], _, .cons _ _ (he.trans r.outcome_wait) hturn (.nil _), .inl rfl⟩
  | case3 r r' hround more ih =>
    obtain ⟨e, he, hturn⟩ := r.exists_encounter s
    rw [hround] at hturn
    obtain ⟨es, b, hvigil, hlast⟩ := ih
    exact ⟨e :: es, b, .cons _ _ (he.trans r.outcome_wait) hturn hvigil, hlast⟩

/-- The rounds of a rehearsal are a course of its allocator, and perhaps a last round that halts it. -/
theorem exists_course (r : Rehearsal) (s : Script) (more : Nat) : ∃ es b, Course r.allocator es b ∧
    (b = (rounds s more r).1.allocator ∨ ∃ e fault, Wait.Admits ⟨b.awaited, false⟩ e.outcome ∧
      b.turn e = ((rounds s more r).1.allocator, some fault)) := by
  obtain ⟨es, b, hvigil, hlast⟩ := r.exists_vigil s more
  refine ⟨es, b, hvigil.course, hlast.imp_right ?_⟩
  rintro ⟨e, fault, ⟨o, h, hwait⟩, hturn⟩
  exact ⟨e, fault, hwait ▸ o.admits_outcome h _, hturn⟩

end Rehearsal

/-! ### First rounds -/

namespace Allocator

open Proposal (vacancy vacant taking ofSnapshot_vacant)

variable {a b : Allocator} {e : Encounter} {es : List Encounter} {s : Snapshot} {revision : Int}

/-- The member of a vacancy finds it, and its proposal is committed. -/
def claiming : Encounter :=
  ⟨.reached vacant, .ok ⟨true, 2⟩⟩

/-- What the cache makes of the commit. -/
def taken : Snapshot :=
  ⟨⟨"/r"⟩, 2, ⟨[("/r/assignments/job/east/one/0",
      ⟨.assignment ⟨"job", ⟨"east", "one"⟩, 0, false⟩, 2, 2⟩),
    ("/r/items/job", ⟨.item ⟨"job", 1⟩, 1, 1⟩),
    ("/r/members/east/one", ⟨.member ⟨⟨"east", "one"⟩, 1⟩, 1, 1⟩)], by decide⟩⟩

/-- The allocator of the member. -/
def claimant : Allocator :=
  start ⟨"east", "one"⟩ Bounds.standard 1

theorem plan_vacant : claimant.plan vacant = ({ claimant with round := 1 }, .submits taking) :=
  plan_eq_submits ofSnapshot_vacant rfl rfl

/-- The allocator after its proposal has been committed. -/
def claimed : Allocator :=
  { claimant with round := 1 }.settle taking ⟨true, 2⟩

/-- The member's next proposal, which makes its assignment consistent. -/
def settling : Proposal where
  revision := 2
  transaction := ⟨[.modified "/r/items/job" 1, .unchanged "/r/assignments/job/" 2,
    .modified "/r/members/east/one" 1], [.put "/r/assignments/job/east/one/0" (Assignment.encode true)]⟩
  tally := { Tally.zero with flagged := 1 }
  drained := false
  deferred := false

theorem ofSnapshot_taken :
    Proposal.ofSnapshot taken ⟨"east", "one"⟩ Bounds.standard = some settling := by
  simp only [taken, Proposal.ofSnapshot, Proposal.works, Roster.ofSnapshot, Roster.itemIds, Snapshot.members,
    Snapshot.items, Snapshot.assignments, Snapshot.view, Snapshot.under_eq]
  cbv

theorem plan_taken : claimed.plan taken = ({ claimed with round := 2 }, .submits settling) :=
  plan_eq_submits ofSnapshot_taken rfl rfl

/-- A rehearsal of the member over the vacancy, whose cache is loaded but not kept current. -/
def unfollowed : Rehearsal :=
  ⟨(Hub.empty.performAll vacancy).1, ⟨{ (Cache.empty ⟨"/r"⟩).publish vacant with loaded := true }, .none⟩,
    claimant, 0, 0, []⟩

/-- What is prescribed for it. -/
def unfollowedScript : Rehearsal.Script :=
  ⟨⟨"/r"⟩, ⟨"east", "one"⟩, Bounds.standard, vacancy, true, [], false, 2, [], [], []⟩

theorem load_unfollowed :
    (Observer.empty ⟨"/r"⟩).load unfollowed.hub 0 = .ok unfollowed.observer := by
  have hread : (unfollowed.hub.store.read (Layout.mk "/r").scope 0).toOption.any (fun reading =>
      (Snapshot.ofEntries ⟨"/r"⟩ reading.revision reading.entries).toOption.any fun s =>
        decide (s.layout = vacant.layout) && decide (s.revision = 1) &&
          decide (s.entries.bindings = vacant.entries.bindings)) = true := by
    decide +kernel
  obtain ⟨reading, hreading, hs⟩ := (Option.any_eq_true _ _).1 hread
  obtain ⟨s, hs, hfacts⟩ := (Option.any_eq_true _ _).1 hs
  simp only [Bool.and_eq_true, decide_eq_true_eq] at hfacts
  obtain rfl := Proposal.eq_vacant hfacts.1.1 hfacts.1.2 hfacts.2
  have hcache : (Cache.empty ⟨"/r"⟩).load (unfollowed.hub.store.read (Layout.mk "/r").scope 0) =
      .ok unfollowed.observer.cache := Cache.load_eq_ok_iff.2
    ⟨reading, vacant, toOption_eq_some_iff.1 hreading, toOption_eq_some_iff.1 hs, rfl⟩
  exact congrArg (Except.map fun c => { Observer.empty ⟨"/r"⟩ with cache := c }) hcache

/-- Its first round commits the proposal, and leaves the cache alone. -/
theorem exists_round_unfollowed : ∃ r, unfollowed.round unfollowedScript = (r, none) ∧
    r.allocator = claimed ∧ r.observer = unfollowed.observer := by
  have hwait : unfollowed.wait = (unfollowed, .reached vacant) := rfl
  have hcommit : (unfollowed.hub.commit taking.transaction).toOption.any
      (fun x => decide (x.2 = ⟨true, 2⟩)) = true := by
    decide +kernel
  obtain ⟨⟨hub, reply⟩, hc, hreply⟩ := (Option.any_eq_true _ _).1 hcommit
  obtain rfl : reply = ⟨true, 2⟩ := of_decide_eq_true hreply
  have hcommitted : Rehearsal.commit { unfollowed with allocator := { claimant with round := 1 } }
      unfollowedScript taking = (⟨hub, unfollowed.observer, { claimant with round := 1 }, 1, 0,
        [.transaction 1 taking.transaction.writes (.ok ⟨true, 2⟩)]⟩, .ok ⟨true, 2⟩) := by
    have hstored : unfollowed.hub.commit taking.transaction = .ok (hub, ⟨true, 2⟩) :=
      toOption_eq_some_iff.1 hc
    unfold Rehearsal.commit
    simp only [Rehearsal.actAll, unfollowedScript, List.filter_nil, List.flatMap_nil, List.foldl_nil, hstored]
    rfl
  exact ⟨_, Rehearsal.round_of_submits hwait plan_vacant hcommitted, rfl, rfl⟩

/-! ### Commits -/

/-- As long as no wait is late, the allocator does not wait for less than a revision. -/
theorem le_awaited_of_course (h : Course a es b) (hle : revision ≤ a.awaited)
    (hlate : ∀ e ∈ es, ¬ e.outcome.IsLate revision) : revision ≤ b.awaited := by
  induction h with
  | nil a => exact hle
  | cons hwait hturn hrest ih =>
    obtain ⟨hfirst, hrest⟩ := List.forall_mem_cons.1 hlate
    obtain ⟨s, hs, hlt, -⟩ := awaited_of_turn hturn
    have hreached := hwait.le_revision hs hle hfirst
    exact ih (Int.le_trans hreached (Int.le_of_lt hlt)) hrest

theorem Course.le_revision (hcourse : Course a (e :: es) b) (hcommit : a.committed? e = some revision)
    {o : Outcome} (hwait : Wait.Admits ⟨b.awaited, false⟩ o) (hs : o.snapshot? = some s)
    (hlate : ∀ o' ∈ es.map (·.outcome) ++ [o], ¬ o'.IsLate revision) : revision ≤ s.revision := by
  cases hcourse with
  | cons _ hturn hrest =>
    obtain ⟨-, -, -, hcommitted⟩ := awaited_of_turn hturn
    have hawaited := le_awaited_of_course hrest (hcommitted revision hcommit) fun e' he' =>
      hlate e'.outcome (List.mem_append_left _ (List.mem_map_of_mem he'))
    exact hwait.le_revision hs hawaited (hlate o (List.mem_append_right _ List.mem_cons_self))

/-- Once a round has committed, every later round plans on a snapshot that is not behind the commit, unless
its own wait or that of a round in between has timed out while the cache was behind the commit.  The waits may
be any that do not end early, and those on observers never do. -/
theorem le_revision_of_course (hcommit : a.committed? e = some revision) :
    (∀ es b o s, Course a (e :: es) b → Wait.Admits ⟨b.awaited, false⟩ o → o.snapshot? = some s →
      (∀ o' ∈ es.map (·.outcome) ++ [o], ¬ o'.IsLate revision) → revision ≤ s.revision) ∧
    ∀ es b observer hub s, let o := Observer.outcome observer hub ⟨b.awaited, false⟩
      Vigil a (e :: es) b → o.snapshot? = some s →
        (∀ o' ∈ es.map (·.outcome) ++ [o], ¬ o'.IsLate revision) → revision ≤ s.revision := by
  constructor
  · intro es b o s hcourse hwait hs hlate
    exact hcourse.le_revision hcommit hwait hs hlate
  · intro es b observer hub s o hvigil hs hlate
    exact hvigil.course.le_revision hcommit (observer.admits_outcome hub _) hs hlate

/-- The member commits its first proposal and its second is refused, both on observers at rest. -/
theorem vigil_claiming : ∃ b, Vigil claimant [claiming, ⟨.reached taken, .ok ⟨false, 7⟩⟩] b ∧
    b.awaited = 3 := by
  have hfirst : claiming.outcome = (Observer.resting vacant).outcome Hub.empty ⟨claimant.awaited, false⟩ :=
    (Observer.outcome_resting (by decide) _).symm
  have hsecond : .reached taken = (Observer.resting taken).outcome Hub.empty ⟨claimed.awaited, false⟩ :=
    (Observer.outcome_resting (by decide) _).symm
  exact ⟨_, .cons _ _ hfirst (turn_of_plan plan_vacant _)
    (.cons _ _ hsecond (turn_of_plan plan_taken _) (.nil _)), rfl⟩

/-- The first proposal is committed at revision 2 and the second refused; then a wait for revision 3 times out
on what the member has committed. -/
theorem le_revision_of_claiming : ∃ e b o s, claimant.committed? claiming = some 2 ∧
    Course claimant [claiming, e] b ∧ Wait.Admits ⟨b.awaited, false⟩ o ∧
    Vigil claimant [claiming, e] b ∧ (Observer.resting s).outcome Hub.empty ⟨b.awaited, false⟩ = o ∧
    o = .timedOut s ∧ (∀ o' ∈ [e.outcome, o], ¬ o'.IsLate 2) ∧ (2 : Int) ≤ s.revision := by
  obtain ⟨b, hvigil, hawaited⟩ := vigil_claiming
  have hcommit : claimant.committed? claiming = some 2 := committed?_of_plan plan_vacant 2
  have hlate : ∀ o' ∈ [Outcome.reached taken, .timedOut taken], ¬ o'.IsLate 2 := by
    rintro o' ho' ⟨s, rfl, hlt⟩
    simp only [List.mem_cons, reduceCtorEq, Outcome.timedOut.injEq, List.not_mem_nil, or_false,
      false_or] at ho'
    exact absurd (ho' ▸ hlt) (by decide)
  have houtcome : (Observer.resting taken).outcome Hub.empty ⟨b.awaited, false⟩ = .timedOut taken := by
    rw [hawaited]
    rfl
  have hle : (2 : Int) ≤ taken.revision :=
    (le_revision_of_course hcommit).2 _ b (Observer.resting taken) Hub.empty taken hvigil
      (congrArg Outcome.snapshot? houtcome) (houtcome ▸ hlate)
  exact ⟨_, b, _, taken, hcommit, hvigil.course, houtcome ▸ Observer.admits_outcome _ _ _, hvigil, houtcome,
    rfl, hlate, hle⟩

/-- The round commits at revision 2.  The next wait times out, and the member plans on revision 1 again. -/
theorem exists_plan_behind_commit : ∃ r : Rehearsal,
    (Observer.empty ⟨"/r"⟩).load unfollowed.hub 0 = .ok unfollowed.observer ∧
    unfollowed.round unfollowedScript = (r, none) ∧
    claimant.committed? claiming = some 2 ∧ Course claimant [claiming] r.allocator ∧
    Wait.Admits ⟨r.allocator.awaited, false⟩ r.wait.2 ∧ r.wait.2.snapshot? = some vacant ∧
    (r.allocator.resume r.wait.2).2 = .submits taking ∧ ¬ (2 : Int) ≤ vacant.revision := by
  obtain ⟨r, hround, hallocator, hobserver⟩ := exists_round_unfollowed
  have hlast : r.wait.2 = .timedOut vacant := by
    unfold Rehearsal.wait
    rw [hallocator, hobserver]
    rfl
  have hplan : claimed.plan vacant = (_, .submits taking) := plan_eq_submits ofSnapshot_vacant rfl rfl
  refine ⟨r, load_unfollowed, hround, committed?_of_plan plan_vacant 2, ?_⟩
  rw [hallocator, hlast]
  exact ⟨.cons (fun s hs => by cases hs; decide) (turn_of_plan plan_vacant _) (.nil _),
    fun s hs => (nomatch hs), rfl, congrArg Prod.snd hplan, by decide⟩

end Allocator

end Allotment
