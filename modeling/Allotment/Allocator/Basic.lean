import Allotment.Cache.Wait
import Allotment.Plan.Proposal
/-!
# The rounds of an allocator

An allocator waits for its cache to reach a revision, plans on the snapshot, submits its proposal
and goes on to the next round; it halts when its member has been drained, or by an error. What it
waits for lies behind the snapshot it has planned on, and not before the revision of its own commit.
`Allocator.resume` is the half of a round up to the transaction, and `Allocator.settle` the half
after the store has answered.
-/

namespace Allotment

/-- An allocator between two rounds. -/
structure Allocator where
  member : MemberId
  bounds : Bounds
  /-- The revision that the next round waits for. -/
  awaited : Int
  /-- The rounds begun. -/
  round : Nat
  counters : Counters

/-- How a round goes on after the wait. -/
inductive Allocator.Step where
  /-- The allocator has halted: its member is drained, unless there is a fault. -/
  | halted (fault : Option AllocatorError)
  /-- The round is over, and there was nothing to do. -/
  | idle
  /-- The proposal is to be committed. -/
  | submits (p : Proposal)

namespace Allocator

/-- The allocator of a member whose cache stands at a revision. -/
def start (m : MemberId) (b : Bounds) (revision : Int) : Allocator :=
  ⟨m, b, revision, 0, Counters.zero⟩

/-- The allocator after a round on a snapshot of the given revision: it waits for a later one. -/
def finishIdle (a : Allocator) (revision : Int) : Allocator :=
  { a with awaited := revision + 1, counters := a.counters.countRound true }

/-- Plans a round on a snapshot. -/
def plan (a : Allocator) (s : Snapshot) : Allocator × Step :=
  let a := { a with round := a.round + 1 }
  match Proposal.require s a.member a.bounds with
  | .error e => (a, .halted (some e))
  | .ok p =>
    if p.drained then (a, .halted none)
    else if p.isEmpty then (a.finishIdle s.revision, .idle)
    else (a, .submits p)

/-- Goes on after a wait. -/
def resume (a : Allocator) : Outcome → Allocator × Step
  | .reached s => a.plan s
  | .timedOut s => a.plan s
  | .cancelled => (a, .halted (some .cancelled))
  | .failed e => (a, .halted (some (.cache e)))

/-- The allocator after the store has answered its transaction, which ends the round. -/
def settle (a : Allocator) (p : Proposal) (reply : Reply) : Allocator :=
  let counters :=
    if reply.succeeded then a.counters.countCommit p.tally else a.counters.countConflict
  { a with
    awaited := if reply.succeeded then max reply.revision (p.revision + 1) else p.revision + 1
    counters := counters.countRound false }

end Allocator

end Allotment
