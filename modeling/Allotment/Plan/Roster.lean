import Allotment.Snapshot
/-!
# Seats and replicas

What a plan is computed from. A `Seat` is a member with what it holds and how much it may still
take, and a `Replica` is an assignment with its key. Replicas are grouped by item, in slot order;
items stand in the order of their names, also those that only assignments still name.
-/

namespace Allotment

/-- A member in the plan. -/
structure Seat where
  id : MemberId
  key : String
  limit : Nat
  /-- All assignments held, also those of items that do not exist. -/
  load : Nat
  /-- The assignments held of items that exist. -/
  liveLoad : Nat
  /-- What the member may still take. -/
  spare : Nat
  deriving DecidableEq, Repr

/-- A member that may hold no item is draining. -/
def Seat.isDraining (m : Seat) : Bool :=
  m.limit == 0

/-- An assignment in the plan. -/
structure Replica where
  key : String
  assignment : Assignment
  /-- The holder does not exist. -/
  orphan : Bool
  deriving DecidableEq, Repr

namespace Replica

/-- The slot that is held. -/
def slot (r : Replica) : Nat :=
  r.assignment.slot

/-- The member that the slot is bound to. -/
def holder (r : Replica) : MemberId :=
  r.assignment.holder

/-- The zone of the holder. -/
def zone (r : Replica) : String :=
  r.assignment.holder.zone

/-- Held by an existing member. -/
def isHeldBy (r : Replica) (m : MemberId) : Bool :=
  !r.orphan && r.holder == m

/-- Replicas are ordered by slot, and by key within a slot. -/
def le (a b : Replica) : Bool :=
  decide (a.slot < b.slot) || (a.slot == b.slot && decide (a.key ≤ b.key))

end Replica

/-- The replicas of one item, in slot order, and the item if it exists. -/
structure Group where
  id : String
  wanted : Option (Entry Item)
  replicas : List Replica

/-- Everything that a plan depends on but the identity of the planner. -/
structure Roster where
  seats : List Seat
  groups : List Group

namespace Roster

/-- An assignment of a snapshot as a replica. -/
def replica (s : Snapshot) (e : Entry Assignment) : Replica :=
  ⟨e.key, e.value, (s.member? e.value.holder).isNone⟩

/-- The names of all items that exist or have an assignment, in order. -/
def itemIds (s : Snapshot) : List String :=
  ((s.items.map (·.value.id) ++ s.assignments.map (·.value.item)).mergeSort (· ≤ ·)).eraseReps

/-- The group of an item. -/
def group (s : Snapshot) (replicas : List Replica) (id : String) : Group :=
  ⟨id, s.item? id, (replicas.filter (·.assignment.item == id)).mergeSort Replica.le⟩

/-- A member as a seat, given all assignments and those of items that exist. -/
def seat (held live : List Assignment) (m : Entry Member) : Seat :=
  let load := held.countP (·.holder == m.value.id)
  { id := m.value.id
    key := m.key
    limit := m.value.limit
    load
    liveLoad := live.countP (·.holder == m.value.id)
    spare := m.value.limit - load }

/-- The roster of a snapshot. -/
def ofSnapshot (s : Snapshot) : Roster :=
  let held := s.assignments.map (·.value)
  let live := held.filter fun a => (s.item? a.item).isSome
  let replicas := s.assignments.map (replica s)
  ⟨s.members.map (seat held live), (itemIds s).map (group s replicas)⟩

/-- The seat of a member. -/
def seat? (r : Roster) (m : MemberId) : Option Seat :=
  r.seats.find? (·.id == m)

/-- The member that tends orphans which no live member is responsible for: the first in key order
that is not draining, if there is one. -/
def caretaker? (r : Roster) : Option MemberId :=
  (r.seats.find? fun m => !m.isDraining).map (·.id)

end Roster

end Allotment
