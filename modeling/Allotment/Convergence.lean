import Allotment.Resource
/-!
# Convergence of one item

An item has converged if its slots are a dense prefix from zero and exactly the wanted number of
assignments exists, all of them consistent. `Status.ofItem` classifies an item by its assignments.
-/

namespace Allotment

/-- The assignments number exactly the wanted replicas, and all are consistent. -/
def Item.isMetBy (i : Item) (held : List Assignment) : Bool :=
  held.length == i.replication && held.all (·.consistent)

/-- The holders of some assignments are distinct members. -/
def distinctHolders (held : List Assignment) : Bool :=
  decide (held.map (·.holder)).Nodup

/-- The assignments that remain after planned departures number exactly the wanted replicas, on
distinct members. Only then may a holder become consistent. -/
def Item.isFilledBy (i : Item) (kept : List Assignment) : Bool :=
  kept.length == i.replication && distinctHolders kept

/-- Numbers are, in some order, exactly those below their count. -/
def countsUp (slots : List Nat) : Bool :=
  slots.mergeSort (· ≤ ·) == List.range slots.length

/-- The slots of some assignments are exactly the numbers below their count. -/
def areDense (held : List Assignment) : Bool :=
  countsUp (held.map (·.slot))

/-- How far an item has come. -/
inductive Status where
  | converged
  | converging
  /-- The slots have to be packed. -/
  | diverged
  deriving DecidableEq, Repr

namespace Status

/-- The status of an item with its assignments. -/
def ofItem (i : Item) (held : List Assignment) : Status :=
  if !areDense held then .diverged
  else if i.isMetBy held then .converged
  else .converging

/-- The item has converged. -/
def isConverged (s : Status) : Bool :=
  s == .converged

/-- The item is still converging. -/
def isConverging (s : Status) : Bool :=
  s == .converging

end Status

end Allotment
