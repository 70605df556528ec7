import Allotment.Proofs.Allocator.Course

/-!
# The books of an allocator

A journal is an allocator with what others have seen of it: the rounds that it has reported, and the proposals
that the store has answered (`Allocator.Journal`).  The counters of the allocator always account for its
journal, whatever it meets with and however it halts (`Journal.Balanced`, `accounts_of_encounters`): a round
that halts the allocator is neither reported nor counted, and every other round is idle or has been answered.
The log of a rehearsal is such a journal (`Rehearsal.exists_journal`), so that the same holds of it
(`Rehearsal.counters_of_play`).
-/

namespace Allotment

namespace Allocator

/-- What is reported of a round: its number, and whether there was nothing to do. -/
structure Report where
  round : Nat
  idle : Bool

/-- An allocator with what others have seen of it. -/
structure Journal where
  allocator : Allocator
  /-- The rounds reported so far. -/
  reports : List Report
  /-- The proposals that the store has answered so far, with its answers. -/
  answers : List (Proposal × Reply)
  /-- How the allocator has halted, if it has. -/
  ending : Option (Option AllocatorError)

section Settling

variable (a : Allocator) (revision : Int) (p : Proposal) (reply : Reply)

@[simp]
theorem round_finishIdle : (a.finishIdle revision).round = a.round :=
  rfl

@[simp]
theorem counters_finishIdle : (a.finishIdle revision).counters = a.counters.countRound true :=
  rfl

@[simp]
theorem round_settle : (a.settle p reply).round = a.round :=
  rfl

@[simp]
theorem rounds_settle : (a.settle p reply).counters.rounds = a.counters.rounds + 1 := by
  unfold settle
  cases reply.succeeded <;> rfl

@[simp]
theorem idle_settle : (a.settle p reply).counters.idle = a.counters.idle := by
  unfold settle
  cases reply.succeeded <;> rfl

@[simp]
theorem conflicts_settle : (a.settle p reply).counters.conflicts =
    a.counters.conflicts + if reply.succeeded then 0 else 1 := by
  unfold settle
  cases reply.succeeded <;> rfl

@[simp]
theorem changes_settle : (a.settle p reply).counters.changes =
    a.counters.changes + if reply.succeeded then p.tally else 0 := by
  unfold settle
  cases reply.succeeded <;> rfl

end Settling

namespace Journal

/-- Nothing has been seen of the allocator. -/
def opened (a : Allocator) : Journal :=
  ⟨a, [], [], none⟩

/-- The journal after another round; there are no more once the allocator has halted. -/
def next (j : Journal) (e : Encounter) : Journal :=
  match j.ending with
  | some _ => j
  | none =>
    match j.allocator.resume e.outcome with
    | (a, .halted fault) => { j with allocator := a, ending := some fault }
    | (a, .idle) => { j with allocator := a, reports := j.reports ++ [⟨a.round, true⟩] }
    | (a, .submits p) =>
      match e.answer with
      | .error fault => { j with allocator := a, ending := some (some fault) }
      | .ok reply =>
        { j with
          allocator := a.settle p reply
          reports := j.reports ++ [⟨a.round, false⟩]
          answers := j.answers ++ [(p, reply)] }

/-- The journal after more rounds. -/
def play (j : Journal) (es : List Encounter) : Journal :=
  es.foldl next j

/-- The proposals that the store has committed so far. -/
def commits (j : Journal) : List Proposal :=
  (j.answers.filter (·.2.succeeded)).map (·.1)

/-- The counters of the allocator account for what has been seen of it. -/
structure Balanced (j : Journal) : Prop where
  numbered : j.reports.map (·.round) = List.range' 1 j.reports.length
  /-- The rounds that have been begun are those that have been reported. -/
  begun : j.ending = none → j.allocator.round = j.reports.length
  rounds : j.allocator.counters.rounds = j.reports.length
  idle : j.allocator.counters.idle = j.reports.countP (·.idle)
  answered : j.reports.countP (!·.idle) = j.answers.length
  conflicts : j.allocator.counters.conflicts = j.answers.countP (!·.2.succeeded)
  changes : j.allocator.counters.changes = (j.commits.map (·.tally)).sum

variable {j : Journal} {e : Encounter} {s : Snapshot} {fault : Option AllocatorError}

/-! ### Rounds -/

theorem next_of_ending (h : j.ending = some fault) (e : Encounter) : j.next e = j := by
  unfold next
  rw [h]

/-- A round halts the allocator, or it is reported: as idle, or once the store has answered. -/
theorem next_cases (h : j.ending = none) (e : Encounter) :
    (∃ round fault, j.next e =
      { j with allocator := { j.allocator with round }, ending := some fault }) ∨
    (∃ revision, j.next e =
      { j with
        allocator := finishIdle { j.allocator with round := j.allocator.round + 1 } revision
        reports := j.reports ++ [⟨j.allocator.round + 1, true⟩] }) ∨
    ∃ p reply, e.answer = .ok reply ∧ j.next e =
      { j with
        allocator := settle { j.allocator with round := j.allocator.round + 1 } p reply
        reports := j.reports ++ [⟨j.allocator.round + 1, false⟩]
        answers := j.answers ++ [(p, reply)] } := by
  unfold next
  rw [h]
  rcases j.allocator.resume_cases e.outcome with ⟨fault, -, hresume⟩ | ⟨s, -, hresume⟩
  · rw [hresume]
    exact .inl ⟨_, _, rfl⟩
  rw [hresume]
  rcases j.allocator.plan_cases s with ⟨fault, hplan⟩ | hplan | ⟨p, hplan, -⟩
  · rw [hplan]
    exact .inl ⟨_, _, rfl⟩
  · rw [hplan]
    exact .inr (.inl ⟨_, rfl⟩)
  · rw [hplan]
    dsimp only
    cases e.answer with
    | error fault => exact .inl ⟨_, _, rfl⟩
    | ok reply => exact .inr (.inr ⟨p, reply, rfl, rfl⟩)

/-- The journal follows the rounds of its allocator. -/
theorem turn_eq (h : j.ending = none) (e : Encounter) :
    j.allocator.turn e = ((j.next e).allocator, (j.next e).ending) := by
  unfold next turn
  rw [h]
  obtain ⟨a, step⟩ := j.allocator.resume e.outcome
  cases step with
  | halted fault => rfl
  | idle => rfl
  | submits p =>
    dsimp only
    cases e.answer with
    | error fault => rfl
    | ok reply => rfl

/-! ### Accounts -/

theorem balanced_start (m : MemberId) (b : Bounds) (revision : Int) :
    (opened (start m b revision)).Balanced where
  numbered := rfl
  begun := fun _ => rfl
  rounds := rfl
  idle := rfl
  answered := rfl
  conflicts := rfl
  changes := rfl

theorem numbered_append {rs : List Report} (h : rs.map (·.round) = List.range' 1 rs.length) (idle : Bool) :
    (rs ++ [(⟨rs.length + 1, idle⟩ : Report)]).map (·.round) =
      List.range' 1 (rs ++ [(⟨rs.length + 1, idle⟩ : Report)]).length := by
  rw [List.map_append, h, List.length_append, List.length_singleton, List.range'_1_concat, Nat.add_comm 1]
  rfl

theorem Balanced.next (h : j.Balanced) (e : Encounter) : (j.next e).Balanced := by
  cases hending : j.ending with
  | some fault =>
    rw [next_of_ending hending]
    exact h
  | none =>
    have hbegun := h.begun hending
    -- a round that halts is begun, but leaves no report; any other adds one under the number it was begun with
    rcases next_cases hending e with ⟨round, fault, hnext⟩ | ⟨revision, hnext⟩ | ⟨p, reply, -, hnext⟩
    · rw [hnext]
      exact { h with begun := fun hnone => nomatch hnone }
    · rw [hnext, hbegun]
      exact {
        numbered := numbered_append h.numbered true
        begun := fun _ => by simp
        rounds := by simp [Counters.countRound, h.rounds]
        idle := by simp [Counters.countRound, h.idle]
        answered := by simp [h.answered]
        conflicts := h.conflicts
        changes := h.changes }
    · rw [hnext, hbegun]
      exact {
        numbered := numbered_append h.numbered false
        begun := fun _ => by simp
        rounds := by simp [h.rounds]
        idle := by simp [h.idle]
        answered := by simp [h.answered]
        conflicts := by
          cases hreply : reply.succeeded <;> simp [hreply, h.conflicts]
        changes := by
          cases hreply : reply.succeeded <;>
            simp [commits, hreply, h.changes, List.sum_append, Std.LawfulRightIdentity.right_id] }

theorem Balanced.play (h : j.Balanced) (es : List Encounter) : (j.play es).Balanced := by
  induction es generalizing j with
  | nil => exact h
  | cons e es ih => exact ih (h.next e)

/-- Every round that is not idle has been committed or refused. -/
theorem Balanced.rounds_eq (h : j.Balanced) : j.allocator.counters.rounds =
    j.allocator.counters.idle + (j.commits.length + j.allocator.counters.conflicts) := by
  have hreports := List.length_eq_countP_add_countP (fun x => x.idle) (l := j.reports)
  have hanswers := List.length_eq_countP_add_countP (fun x => x.2.succeeded) (l := j.answers)
  have hcommits : j.commits.length = j.answers.countP (·.2.succeeded) := by
    rw [commits, List.length_map, List.countP_eq_length_filter]
  have hanswered := h.answered
  simp only [Bool.not_eq_true, Bool.decide_eq_false] at hreports hanswers
  rw [h.rounds, h.idle, h.conflicts]
  omega

/-- Of whatever kind they are, the changes that are counted are those of the committed proposals. -/
theorem Balanced.count_changes (h : j.Balanced) (count : Tally → Nat) (hzero : count 0 = 0)
    (hadd : ∀ a b, count (a + b) = count a + count b) :
    count j.allocator.counters.changes = (j.commits.map fun p => count p.tally).sum := by
  rw [h.changes, Tally.count_sum count hzero hadd, List.map_map]
  rfl

/-- Whoever halts an allocator, or meets with one that has halted, leaves no trace. -/
theorem of_ending_next (hhalt : (j.next e).ending = some fault) :
    (j.next e).allocator.counters = j.allocator.counters ∧ (j.next e).reports = j.reports ∧
      (j.next e).answers = j.answers := by
  cases hending : j.ending with
  | some earlier =>
    rw [next_of_ending hending]
    exact ⟨rfl, rfl, rfl⟩
  | none =>
    rcases next_cases hending e with ⟨round, fault, hnext⟩ | ⟨revision, hnext⟩ | ⟨p, reply, -, hnext⟩
    · rw [hnext]
      exact ⟨rfl, rfl, rfl⟩
    · rw [hnext, hending] at hhalt
      exact nomatch hhalt
    · rw [hnext, hending] at hhalt
      exact nomatch hhalt

end Journal

open Proposal (taking)

/-- A fresh allocator meets with anything.  Its rounds have then been reported under the numbers from 1 on, and
its counters account for these reports and for the answers of the store, whether it has halted or not: the
changes of each kind are those of the proposals that have been committed.  A round that halts it leaves the
counters as they are, and is not reported. -/
theorem accounts_of_encounters (m : MemberId) (b : Bounds) (revision : Int) (es : List Encounter) :
    let j := (Journal.opened (start m b revision)).play es
    let c := j.allocator.counters
    j.reports.map (·.round) = List.range' 1 j.reports.length ∧
      c.rounds = j.reports.length ∧
      c.idle = j.reports.countP (·.idle) ∧
      c.rounds = c.idle + (j.commits.length + c.conflicts) ∧
      c.conflicts = j.answers.countP (!·.2.succeeded) ∧
      c.changes = (j.commits.map (·.tally)).sum ∧
      c.changes.added = (j.commits.map (·.tally.added)).sum ∧
      c.changes.removed = (j.commits.map (·.tally.removed)).sum ∧
      c.changes.packed = (j.commits.map (·.tally.packed)).sum ∧
      c.changes.flagged = (j.commits.map (·.tally.flagged)).sum ∧
      c.changes.repaired = (j.commits.map (·.tally.repaired)).sum ∧
      ∀ e fault, (j.next e).ending = some fault → (j.next e).allocator.counters = c ∧
        (j.next e).reports = j.reports ∧ (j.next e).answers = j.answers := by
  intro j c
  have h : j.Balanced := (Journal.balanced_start m b revision).play es
  have hkind (kind : Tally → Nat) := h.count_changes kind
  exact ⟨h.numbered, h.rounds, h.idle, h.rounds_eq, h.conflicts, h.changes,
    hkind (·.added) rfl fun _ _ => rfl, hkind (·.removed) rfl fun _ _ => rfl,
    hkind (·.packed) rfl fun _ _ => rfl, hkind (·.flagged) rfl fun _ _ => rfl,
    hkind (·.repaired) rfl fun _ _ => rfl, fun e fault hhalt => Journal.of_ending_next hhalt⟩

/-- The member of the vacancy commits its first proposal, the second is refused, and then it is cancelled. -/
theorem accounts_of_claiming : ∃ j j' : Journal,
    (Journal.opened claimant).play [claiming, ⟨.reached taken, .ok ⟨false, 7⟩⟩] = j ∧
    j.next ⟨.cancelled, .error .cancelled⟩ = j' ∧ j'.ending = some (some .cancelled) ∧
    j.reports.map (·.round) = [1, 2] ∧ j.allocator.counters.rounds = 2 ∧ j.allocator.counters.idle = 0 ∧
    j.allocator.counters.conflicts = 1 ∧ j.commits = [taking] ∧ j.allocator.counters.changes = taking.tally ∧
    j.allocator.counters.changes.added = 1 ∧ j.allocator.counters.changes.flagged = 0 ∧
    j'.allocator.counters = j.allocator.counters := by
  have hfirst : (Journal.opened claimant).next claiming =
      ⟨claimed, [⟨1, false⟩], [(taking, ⟨true, 2⟩)], none⟩ := by
    unfold Journal.next
    simp only [Journal.opened, claiming, resume, plan_vacant]
    rfl
  have hsecond : (Journal.opened claimant).play [claiming, ⟨.reached taken, .ok ⟨false, 7⟩⟩] =
      ⟨{ claimed with round := 2 }.settle settling ⟨false, 7⟩, [⟨1, false⟩, ⟨2, false⟩],
        [(taking, ⟨true, 2⟩), (settling, ⟨false, 7⟩)], none⟩ := by
    show ((Journal.opened claimant).next claiming).next _ = _
    rw [hfirst]
    unfold Journal.next
    simp only [resume, plan_taken]
    rfl
  obtain ⟨hnumbers, hrounds, hidle, -, hconflicts, hchanges, hadded, -, -, hflagged, -, hhalt⟩ :=
    accounts_of_encounters ⟨"east", "one"⟩ Bounds.standard 1 [claiming, ⟨.reached taken, .ok ⟨false, 7⟩⟩]
  obtain ⟨hcounters, -, -⟩ := hhalt ⟨.cancelled, .error .cancelled⟩ (some .cancelled)
    (congrArg (fun j => (Journal.next j _).ending) hsecond)
  have hstart : start ⟨"east", "one"⟩ Bounds.standard 1 = claimant := rfl
  rw [hstart, hsecond] at hnumbers hrounds hidle hconflicts hchanges hadded hflagged hcounters
  exact ⟨_, _, hsecond, rfl, rfl, hnumbers, hrounds, hidle, hconflicts, rfl, hchanges, hadded, hflagged,
    hcounters⟩

end Allocator

/-! ### Rehearsals -/

namespace Rehearsal

open Allocator (Encounter Journal Report)

/-- The round that an entry of the log reports. -/
def Entry.report? : Entry → Option Report
  | .round n idle _ _ => some ⟨n, idle⟩
  | _ => none

/-- The writes that the store has answered by an entry of the log, with its answer. -/
def Entry.answer? : Entry → Option (List Write × Reply)
  | .transaction _ ws (.ok reply) => some (ws, reply)
  | _ => none

/-- A journal tells what a rehearsal has in its log. -/
structure Tells (j : Journal) (r : Rehearsal) : Prop where
  allocator : j.allocator = r.allocator
  reports : j.reports = r.log.filterMap Entry.report?
  answers : j.answers.map (fun x => (x.1.transaction.writes, x.2)) = r.log.filterMap Entry.answer?

/-- The entry is about neither a round nor a transaction. -/
def Entry.IsAside (entry : Entry) : Prop :=
  entry.report? = none ∧ entry.answer? = none

theorem Entry.isAside_seed (a : Answer) : (Entry.seed a).IsAside :=
  ⟨rfl, rfl⟩

theorem Entry.isAside_afterLoad (a : Answer) : (Entry.afterLoad a).IsAside :=
  ⟨rfl, rfl⟩

theorem Entry.isAside_before (n : Nat) (a : Answer) : (Entry.before n a).IsAside :=
  ⟨rfl, rfl⟩

theorem Entry.isAside_after (n : Nat) (a : Answer) : (Entry.after n a).IsAside :=
  ⟨rfl, rfl⟩

theorem Entry.isAside_hook (n : Nat) (a : Answer) : (Entry.hook n a).IsAside :=
  ⟨rfl, rfl⟩

variable {j : Journal} {r r' : Rehearsal}

/-- Asides make no difference to what a journal tells. -/
theorem Tells.asides (h : Tells j r) (hallocator : r'.allocator = r.allocator) {log : List Entry}
    (hlog : r'.log = r.log ++ log) (haside : ∀ entry ∈ log, entry.IsAside) : Tells j r' where
  allocator := h.allocator.trans hallocator.symm
  reports := by
    rw [hlog, List.filterMap_append, List.filterMap_eq_nil_iff.2 fun entry he => (haside entry he).1,
      List.append_nil]
    exact h.reports
  answers := by
    rw [hlog, List.filterMap_append, List.filterMap_eq_nil_iff.2 fun entry he => (haside entry he).2,
      List.append_nil]
    exact h.answers

theorem Tells.requests (h : Tells j r) {entry : Answer → Entry} (haside : ∀ a, (entry a).IsAside)
    (rs : List Request) : Tells j (r.requests entry rs) :=
  h.asides rfl rfl (List.forall_mem_map.2 fun a _ => haside a)

theorem Tells.actAll (h : Tells j r) {entry : Answer → Entry} (haside : ∀ a, (entry a).IsAside)
    (number : Nat) (actions : List (Nat × List Action)) : Tells j (r.actAll entry number actions) := by
  unfold Rehearsal.actAll
  induction (actions.filter (·.1 == number)).flatMap (·.2) generalizing r with
  | nil => exact h
  | cons action rest ih =>
    refine ih ?_
    cases action with
    | request q => exact h.requests haside [q]
    | settle => exact h.asides rfl (List.append_nil _).symm (fun _ he => nomatch he)

theorem Tells.wait (h : Tells j r) : Tells j r.wait.1 := by
  unfold Rehearsal.wait
  dsimp only
  obtain ⟨outcome | outcome, o, hub⟩ := r.observer.attempt r.hub ⟨r.allocator.awaited, false⟩
  · exact h.asides rfl (List.append_nil _).symm (fun _ he => nomatch he)
  · exact h.asides rfl (List.append_nil _).symm (fun _ he => nomatch he)

theorem Tells.finishRound (h : Tells j r) (s : Script) (idle : Bool) :
    Tells { j with reports := j.reports ++ [⟨j.allocator.round, idle⟩] } (r.finishRound s idle) := by
  have hrecord : Tells { j with reports := j.reports ++ [⟨j.allocator.round, idle⟩] }
      (r.record (.round r.allocator.round idle r.observer.cache.revision r.timeouts)) := by
    refine ⟨h.allocator, ?_, ?_⟩
    · show _ = (r.log ++ [_]).filterMap Entry.report?
      rw [List.filterMap_append, ← h.reports, h.allocator]
      rfl
    · show _ = (r.log ++ [_]).filterMap Entry.answer?
      rw [List.filterMap_append, ← h.answers]
      exact (List.append_nil _).symm
  exact hrecord.requests (Entry.isAside_hook r.allocator.round) _

/-- An answered transaction is told as soon as the store has answered. -/
theorem Tells.commit (h : Tells j r) (s : Script) (p : Proposal) :
    Tells { j with answers := j.answers ++ ((r.commit s p).2.toOption.map (p, ·)).toList }
      (r.commit s p).1 := by
  have hcounted : Tells j { r with transactions := r.transactions + 1 } :=
    ⟨h.allocator, h.reports, h.answers⟩
  have hbefore := hcounted.actAll (Entry.isAside_before (r.transactions + 1)) (r.transactions + 1) s.before
  unfold Rehearsal.commit
  dsimp only
  generalize Rehearsal.actAll { r with transactions := r.transactions + 1 } _ _ s.before = r₁ at hbefore
  have hanswered (hub : Hub) (reply : Except StoreError Reply) :
      Tells { j with answers := j.answers ++ (reply.toOption.map (p, ·)).toList }
        (record { r₁ with hub } (.transaction (r.transactions + 1) p.transaction.writes reply)) := by
    refine ⟨hbefore.allocator, ?_, ?_⟩
    · show _ = (r₁.log ++ [_]).filterMap Entry.report?
      rw [List.filterMap_append, ← hbefore.reports]
      exact (List.append_nil _).symm
    · show _ = (r₁.log ++ [_]).filterMap Entry.answer?
      rw [List.filterMap_append, ← hbefore.answers, List.map_append]
      cases reply <;> rfl
  exact (hanswered _ _).actAll (Entry.isAside_after (r.transactions + 1)) (r.transactions + 1) s.after

/-- A round of a rehearsal is a round of its journal. -/
theorem Tells.exists_next (h : Tells j r) (hending : j.ending = none) (s : Script) :
    ∃ e, Tells (j.next e) (r.round s).1 ∧ (j.next e).ending = (r.round s).2 := by
  obtain ⟨hallocator, hreports, hanswers⟩ := h.wait
  obtain ⟨a₀, reports, answers, ending⟩ := j
  obtain rfl : ending = none := hending
  obtain rfl : a₀ = r.wait.1.allocator := hallocator
  have hbegun (a : Allocator) : Tells ⟨a, reports, answers, none⟩ { r.wait.1 with allocator := a } :=
    ⟨rfl, hreports, hanswers⟩
  unfold Journal.next
  rcases r.round_cases s with ⟨a, fault, hresume, hround⟩ | ⟨a, hresume, hround⟩ | ⟨a, p, hresume, hcommitted⟩
  · refine ⟨⟨r.wait.2, .error .cancelled⟩, ?_⟩
    rw [hround]
    dsimp only
    rw [hresume]
    exact ⟨⟨rfl, hreports, hanswers⟩, rfl⟩
  · refine ⟨⟨r.wait.2, .error .cancelled⟩, ?_⟩
    rw [hround]
    dsimp only
    rw [hresume]
    exact ⟨(hbegun a).finishRound s true, rfl⟩
  · have htold := (hbegun a).commit s p
    rcases hcommitted with ⟨r', fault, hcommit, hround⟩ | ⟨r', reply, hcommit, hround⟩
    · rw [hcommit] at htold
      refine ⟨⟨r.wait.2, .error (.store fault)⟩, ?_⟩
      have hunanswered : answers ++ [] = answers := List.append_nil _
      rw [hround]
      dsimp only
      rw [hresume]
      exact ⟨⟨htold.allocator, htold.reports, hunanswered ▸ htold.answers⟩, rfl⟩
    · rw [hcommit] at htold
      have hsettled : Tells ⟨a.settle p reply, reports, answers ++ [(p, reply)], none⟩
          { r' with allocator := r'.allocator.settle p reply } :=
        ⟨congrArg (Allocator.settle · p reply) htold.allocator, htold.reports, htold.answers⟩
      refine ⟨⟨r.wait.2, .ok reply⟩, ?_⟩
      rw [hround]
      dsimp only
      rw [hresume]
      exact ⟨hsettled.finishRound s false, rfl⟩

/-- The rounds of a rehearsal are told by a journal. -/
theorem Tells.exists_play (h : Tells j r) (hending : j.ending = none) (s : Script) (more : Nat) :
    ∃ es, Tells (j.play es) (rounds s more r).1 := by
  fun_induction rounds s more r generalizing j with
  | case1 more r r' fault hround =>
    obtain ⟨e, hnext, -⟩ := h.exists_next hending s
    rw [hround] at hnext
    exact ⟨[e], hnext⟩
  | case2 r r' hround =>
    obtain ⟨e, hnext, -⟩ := h.exists_next hending s
    rw [hround] at hnext
    exact ⟨[e], hnext⟩
  | case3 r r' hround more ih =>
    obtain ⟨e, hnext, hgoes⟩ := h.exists_next hending s
    rw [hround] at hnext hgoes
    obtain ⟨es, hrest⟩ := ih hnext hgoes
    exact ⟨e :: es, hrest⟩

/-- The log of a rehearsal is the journal of a fresh allocator. -/
theorem exists_journal (s : Script) {r : Rehearsal} {fault : Option AllocatorError}
    (hplay : play s = (r, .halted fault)) : ∃ revision es,
      Tells ((Journal.opened (Allocator.start s.member s.bounds revision)).play es) r := by
  have hseeded : Tells (Journal.opened (Allocator.start s.member s.bounds 0))
      ((⟨Hub.empty, Observer.empty s.layout, Allocator.start s.member s.bounds 0, 0, 0, []⟩ :
        Rehearsal).requests .seed s.seed) :=
    Tells.requests ⟨rfl, rfl, rfl⟩ Entry.isAside_seed s.seed
  unfold Rehearsal.play at hplay
  dsimp only at hplay
  generalize Rehearsal.requests _ .seed s.seed = seeded at hplay hseeded
  split at hplay
  next => exact nomatch (Prod.mk.inj hplay).2
  next observer hload =>
    have hobserved : Tells (Journal.opened (Allocator.start s.member s.bounds 0)) { seeded with observer } :=
      ⟨hseeded.allocator, hseeded.reports, hseeded.answers⟩
    have hloaded := hobserved.requests Entry.isAside_afterLoad s.afterLoad
    generalize Rehearsal.requests { seeded with observer } .afterLoad s.afterLoad = loaded at hplay hloaded
    generalize (if s.follow then _ else _ : Observer × Hub) = followed at hplay
    obtain ⟨observer, hub⟩ := followed
    have hstarted : Tells (Journal.opened (Allocator.start s.member s.bounds observer.cache.revision))
        { loaded with
          observer
          hub
          allocator := Allocator.start s.member s.bounds observer.cache.revision } :=
      ⟨rfl, hloaded.reports, hloaded.answers⟩
    obtain ⟨es, hes⟩ := hstarted.exists_play rfl s (s.maxRounds - 1)
    exact ⟨_, es, (Prod.mk.inj hplay).1 ▸ hes⟩

/-- So the counters in the end account for the log. -/
theorem counters_of_play (s : Script) {r : Rehearsal} {fault : Option AllocatorError}
    (hplay : play s = (r, .halted fault)) :
    let reports := r.log.filterMap Entry.report?
    let answers := r.log.filterMap Entry.answer?
    reports.map (·.round) = List.range' 1 reports.length ∧
      r.allocator.counters.rounds = reports.length ∧
      r.allocator.counters.idle = reports.countP (·.idle) ∧
      reports.countP (!·.idle) = answers.length ∧
      r.allocator.counters.conflicts = answers.countP (!·.2.succeeded) := by
  obtain ⟨revision, es, htells⟩ := exists_journal s hplay
  have h := (Journal.balanced_start s.member s.bounds revision).play es
  generalize (Journal.opened (Allocator.start s.member s.bounds revision)).play es = j at htells h
  dsimp only
  rw [← htells.allocator, ← htells.reports, ← htells.answers, List.length_map, List.countP_map]
  exact ⟨h.numbered, h.rounds, h.idle, h.answered, h.conflicts⟩

end Rehearsal

end Allotment
