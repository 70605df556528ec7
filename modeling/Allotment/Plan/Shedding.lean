import Allotment.Plan.Roster
/-!
# Shedding

A member that holds more replicas of existing items than its limit sheds the excess. It sheds
replicas of over-replicated items first, since their replacement exists, then the highest slots, and
then by the name of the item, so that the choice is stable while a replacement is under way.
-/

namespace Allotment

/-- A replica that may be shed. -/
structure Candidate where
  /-- The item has more replicas than it wants. -/
  overReplicated : Bool
  replica : Replica

namespace Candidate

/-- The order in which replicas are shed. -/
def le (a b : Candidate) : Bool :=
  if a.overReplicated != b.overReplicated then a.overReplicated
  else if a.replica.slot != b.replica.slot then decide (b.replica.slot < a.replica.slot)
  else decide (a.replica.assignment.item ≤ b.replica.assignment.item)

/-- The replicas of a group that a member may shed. -/
def ofGroup (m : MemberId) (g : Group) : List Candidate :=
  match g.wanted with
  | none => []
  | some item =>
    (g.replicas.filter (·.isHeldBy m)).map
      (⟨decide (item.value.replication < g.replicas.length), ·⟩)

end Candidate

namespace Roster

/-- The replicas that one member sheds. -/
def shedBy (groups : List Group) (m : Seat) : List Replica :=
  (((groups.flatMap (Candidate.ofGroup m.id)).mergeSort Candidate.le).take
    (m.liveLoad - m.limit)).map (·.replica)

/-- The keys of all replicas that are shed. -/
def shedding (r : Roster) : List String :=
  (r.seats.flatMap (shedBy r.groups)).map (·.key)

end Roster

end Allotment
