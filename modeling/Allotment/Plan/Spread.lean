import Allotment.Plan.Choice
import Allotment.Plan.Roster
/-!
# Spreading replicas over zones

The three choices by which a plan spreads the replicas of one item over zones. `zoneMove?` picks a
replica to leave a crowded zone for one that the item does not reach yet, `excess` picks the
replicas to drop, and `receivers` picks the members to take new ones.
-/

namespace Allotment

namespace Spread

/-- The number of replicas in a zone. -/
def inZone (rs : List Replica) (zone : String) : Nat :=
  rs.countP (·.zone == zone)

/-- The zone with the most replicas, the one of the smallest name among several. -/
def crowdedZone? (rs : List Replica) : Option String :=
  choose? (fun a b => decide (inZone rs b < inZone rs a))
    ((rs.map (·.zone)).mergeSort (· ≤ ·)).eraseReps

/-- Some member could take a replica into a zone that the item does not reach yet. -/
def hasOpenZone (seats : List Seat) (holders : List MemberId) (staying : List Replica) : Bool :=
  seats.any fun m =>
    decide (0 < m.spare) && !holders.contains m.id && inZone staying m.id.zone == 0

/-- The replica that is to leave a zone with several replicas for an open one: the one of the
highest slot. An item that is short of replicas moves none. -/
def zoneMove? (seats : List Seat) (holders : List MemberId) (wanted : Nat)
    (staying : List Replica) : Option Replica :=
  if staying.length < wanted then none
  else
    match crowdedZone? staying with
    | none => none
    | some zone =>
      if 2 ≤ inZone staying zone && hasOpenZone seats holders staying then
        (staying.filter (·.zone == zone)).getLast?
      else none

/-! ### Excess -/

/-- A replica goes before another: its zone is more crowded, or as crowded and its slot is no
lower. -/
def goesBefore (rs : List Replica) (a b : Replica) : Bool :=
  decide (inZone rs b.zone < inZone rs a.zone) ||
    (inZone rs b.zone == inZone rs a.zone && decide (b.slot ≤ a.slot))

/-- The replicas to drop, chosen one at a time: from the most crowded zone the highest slot. -/
def excess : Nat → List Replica → List Replica
  | 0, _ => []
  | n + 1, rs =>
    match choose? (goesBefore rs) rs with
    | none => []
    | some r => r :: excess n (eraseBySwap rs r)

/-! ### Receivers -/

/-- The seats after a member has taken one more replica. -/
def occupy (seats : List Seat) (m : MemberId) : List Seat :=
  seats.map fun s => if s.id == m then { s with spare := s.spare - 1 } else s

/-- A member is preferred to another as a receiver: its zone has fewer replicas, or as many and it
has more to spare, or as much and its key is smaller. -/
def preferred (zones : List String) (a b : Seat) : Bool :=
  let za := zones.count a.id.zone
  let zb := zones.count b.id.zone
  decide (za < zb) ||
    (za == zb && (decide (b.spare < a.spare) || (a.spare == b.spare && decide (a.key < b.key))))

/-- The members that take the needed replicas, chosen one at a time, and the seats after that. A
member that holds a replica already takes none, nor does one without room. -/
def receivers : (need : Nat) → (zones : List String) → (holders : List MemberId) →
    List Seat → List MemberId × List Seat
  | 0, _, _, seats => ([], seats)
  | need + 1, zones, holders, seats =>
    match choose? (preferred zones)
        (seats.filter fun m => decide (0 < m.spare) && !holders.contains m.id) with
    | none => ([], seats)
    | some m =>
      let rest := receivers need (m.id.zone :: zones) (m.id :: holders) (occupy seats m.id)
      (m.id :: rest.1, rest.2)

end Spread

end Allotment
