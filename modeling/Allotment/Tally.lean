/-!
# Tallies and counters

A `Tally` counts the changes that one plan makes, and `Counters` accumulate the rounds and changes
of an allocator.
-/

namespace Allotment

/-- The changes of a plan, by kind. -/
structure Tally where
  added : Nat
  removed : Nat
  packed : Nat
  flagged : Nat
  repaired : Nat
  deriving DecidableEq, Repr, Inhabited

namespace Tally

/-- No change. -/
def zero : Tally :=
  ⟨0, 0, 0, 0, 0⟩

/-- The changes of two plans together. -/
def add (a b : Tally) : Tally :=
  ⟨a.added + b.added, a.removed + b.removed, a.packed + b.packed, a.flagged + b.flagged,
    a.repaired + b.repaired⟩

instance : Add Tally :=
  ⟨add⟩

/-- The changes that one tally counts and an earlier one does not. -/
def sub (a b : Tally) : Tally :=
  ⟨a.added - b.added, a.removed - b.removed, a.packed - b.packed, a.flagged - b.flagged,
    a.repaired - b.repaired⟩

instance : Sub Tally :=
  ⟨sub⟩

/-- Some change is made. -/
def isNonzero (t : Tally) : Bool :=
  t != zero

end Tally

/-- The rounds of an allocator and the changes it has committed. -/
structure Counters where
  rounds : Nat
  idle : Nat
  conflicts : Nat
  changes : Tally
  deriving DecidableEq, Repr, Inhabited

namespace Counters

/-- Nothing counted yet. -/
def zero : Counters :=
  ⟨0, 0, 0, Tally.zero⟩

/-- The counts of two allocators together. -/
def add (a b : Counters) : Counters :=
  ⟨a.rounds + b.rounds, a.idle + b.idle, a.conflicts + b.conflicts, a.changes + b.changes⟩

instance : Add Counters :=
  ⟨add⟩

/-- The counters after one more round. -/
def countRound (c : Counters) (wasIdle : Bool) : Counters :=
  { c with rounds := c.rounds + 1, idle := if wasIdle then c.idle + 1 else c.idle }

/-- The counters after a transaction was refused. -/
def countConflict (c : Counters) : Counters :=
  { c with conflicts := c.conflicts + 1 }

/-- The counters after a plan was committed. -/
def countCommit (c : Counters) (t : Tally) : Counters :=
  { c with changes := c.changes + t }

end Counters

end Allotment
