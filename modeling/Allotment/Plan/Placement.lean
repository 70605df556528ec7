import Allotment.Plan.Shedding
import Allotment.Plan.Spread
/-!
# Placement

The half of a plan on which all members agree: which replicas of each item leave, which are in
excess, and which members receive new ones. Items are placed in the order of their names, and each
placement uses up the room of its receivers, and perhaps a zone move, for the items after it.
-/

namespace Allotment

/-- What limits one plan. -/
structure Bounds where
  /-- Writes in a transaction. -/
  writes : Nat
  /-- Repairs in a plan, and separately moves between zones. -/
  repairs : Nat
  deriving DecidableEq, Repr, Inhabited

/-- The bounds of an allocator that is given none. -/
def Bounds.standard : Bounds :=
  ⟨128, 32⟩

/-- What is to become of the replicas of one item. -/
structure Placement where
  /-- One replica of each existing holder, that of its lowest slot. -/
  live : List Replica
  /-- The other replicas: those of a holder that does not exist, or has a lower slot. -/
  broken : List Replica
  /-- The live replicas that are to leave once they are replaced. -/
  leaving : List Replica
  /-- The live replicas beyond the wanted number. -/
  excess : List Replica
  /-- The members that are to take a new replica, in turn. -/
  receivers : List MemberId

/-- What the placement of earlier items has left. -/
structure Room where
  seats : List Seat
  zoneMoves : Nat

/-- A group with its placement, if its item exists. -/
inductive Planned where
  | placed (item : Entry Item) (replicas : List Replica) (placement : Placement)
  | removed (item : String) (replicas : List Replica)

namespace Placement

/-- The first replica of each existing holder, passing over the holders already seen. -/
def liveOf : (seen : List MemberId) → List Replica → List Replica
  | _, [] => []
  | seen, r :: rs =>
    if r.orphan || seen.contains r.holder then liveOf seen rs else r :: liveOf (r.holder :: seen) rs

/-- The replicas that are not the first of an existing holder. -/
def brokenOf : (seen : List MemberId) → List Replica → List Replica
  | _, [] => []
  | seen, r :: rs =>
    if r.orphan || seen.contains r.holder then r :: brokenOf seen rs
    else brokenOf (r.holder :: seen) rs

/-- The live replicas that do not leave. -/
def staying (p : Placement) : List Replica :=
  p.live.filter fun r => !p.leaving.contains r

/-- The live replicas that remain after all planned departures. -/
def kept (p : Placement) : List Replica :=
  p.staying.filter fun r => !p.excess.contains r

end Placement

namespace Room

/-- A replica that leaves its zone, if there are moves left. -/
def zoneMove? (room : Room) (holders : List MemberId) (wanted : Nat) (staying : List Replica) :
    Option Replica :=
  if room.zoneMoves = 0 then none else Spread.zoneMove? room.seats holders wanted staying

/-- The placement of one item, and the room that it leaves. -/
def place (shedding : List String) (wanted : Nat) (replicas : List Replica) (room : Room) :
    Placement × Room :=
  let live := Placement.liveOf [] replicas
  let holders := (replicas.filter fun r => !r.orphan).map (·.holder)
  let shed := live.filter fun r => shedding.contains r.key
  let unshed := live.filter fun r => !shedding.contains r.key
  let move := room.zoneMove? holders wanted unshed
  let staying := unshed.filter fun r => !move.toList.contains r
  let taken := Spread.receivers (wanted - staying.length) (staying.map (·.zone)) holders room.seats
  ({ live
     broken := Placement.brokenOf [] replicas
     leaving := shed ++ move.toList
     excess := Spread.excess (staying.length - wanted) staying
     receivers := taken.1 },
    ⟨taken.2, room.zoneMoves - move.toList.length⟩)

/-- All groups with their placements, in turn. -/
def placeAll (shedding : List String) : Room → List Group → List Planned
  | _, [] => []
  | room, g :: gs =>
    match g.wanted with
    | none => .removed g.id g.replicas :: placeAll shedding room gs
    | some item =>
      let next := room.place shedding item.value.replication g.replicas
      .placed item g.replicas next.1 :: placeAll shedding next.2 gs

end Room

/-- The placement of every group of a roster. -/
def Roster.planned (r : Roster) (b : Bounds) : List Planned :=
  Room.placeAll r.shedding ⟨r.seats, b.repairs⟩ r.groups

end Allotment
