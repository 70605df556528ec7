import Allotment.Plan.Roster
/-!
# Packing slots

Slots are dense if they count up from zero without gap. `renumbering` makes them dense again by
renumbering as few replicas as possible: those whose slot is too high or taken already move into the
gaps, the highest into the lowest gap.
-/

namespace Allotment

/-- The slots of replicas in slot order are exactly the numbers below their count. -/
def isPacked (rs : List Replica) : Bool :=
  rs.map (·.slot) == List.range rs.length

namespace Packing

/-- The replicas that have to move: those whose slot is not below `n`, or is taken by an earlier
one. -/
def movers (n : Nat) : (taken : List Nat) → List Replica → List Replica
  | _, [] => []
  | taken, r :: rs =>
    if r.slot < n && !taken.contains r.slot then movers n (r.slot :: taken) rs
    else r :: movers n taken rs

/-- The slots below the number of replicas that none of them holds. -/
def gaps (rs : List Replica) : List Nat :=
  (List.range rs.length).filter fun slot => !(rs.map (·.slot)).contains slot

end Packing

/-- The replicas that move, each with its new slot. -/
def renumbering (rs : List Replica) : List (Replica × Nat) :=
  (Packing.movers rs.length [] rs).reverse.zip (Packing.gaps rs)

end Allotment
