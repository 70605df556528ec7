import Allotment.Allocator.Error
import Allotment.Plan.Work
/-!
# Proposals

The share of one member in the plan of a snapshot, as one transaction. The work of the items is
taken in the order of their names as long as it fits into the transaction, and never split; the
first work that does not fit defers everything from it on. A proposal depends on the snapshot alone,
so that members with equal snapshots propose parts of the same plan.
-/

namespace Allotment

/-- One member's share of a plan. -/
structure Proposal where
  /-- The revision of the snapshot. -/
  revision : Int
  transaction : Transaction
  tally : Tally
  /-- The member is draining and holds nothing. -/
  drained : Bool
  /-- Some work did not fit into the transaction. -/
  deferred : Bool
  deriving DecidableEq, Repr, Inhabited

namespace Proposal

/-- The proposal writes nothing. -/
def isEmpty (p : Proposal) : Bool :=
  p.transaction.writes.isEmpty

/-- The works that fit behind `batch`, with it as one, and whether some do not fit. The first work
with writes fits always. -/
def fill (maxWrites : Nat) (batch : Work) : List Work → Work × Bool
  | [] => (batch, false)
  | w :: ws =>
    if w.writes.isEmpty then fill maxWrites batch ws
    else if !batch.writes.isEmpty && maxWrites < batch.writes.length + w.writes.length then
      (batch, true)
    else fill maxWrites (batch ++ w) ws

/-- The guards of a transaction for a member whose key is `self`. Without writes there are none. -/
def guards (batch : Work) (self : Entry Member) : List Guard :=
  if batch.writes.isEmpty then batch.guards
  else batch.guards ++ [.modified self.key self.modified]

/-- What a draining member that holds nothing proposes. -/
def drainedAt (revision : Int) : Proposal :=
  ⟨revision, ⟨[], []⟩, Tally.zero, true, false⟩

/-- The shares of a member in all items of a snapshot. -/
def works (s : Snapshot) (r : Roster) (self : MemberId) (b : Bounds) : List Work :=
  let v : Viewpoint := ⟨s.layout, s.revision, self, r.caretaker?.getD self⟩
  v.works b.repairs (r.planned b)

/-- The proposal of a member, or nothing if it does not exist in the snapshot. -/
def ofSnapshot (s : Snapshot) (self : MemberId) (b : Bounds) : Option Proposal :=
  let r := Roster.ofSnapshot s
  match s.member? self, r.seat? self with
  | some entry, some seat =>
    if seat.isDraining && seat.load == 0 then some (drainedAt s.revision)
    else
      let filled := fill b.writes Work.none (works s r self b)
      some
        { revision := s.revision
          transaction := ⟨guards filled.1 entry, filled.1.writes⟩
          tally := filled.1.tally
          drained := false
          deferred := filled.2 }
  | _, _ => none

/-- The proposal of a member, which must exist. -/
def require (s : Snapshot) (self : MemberId) (b : Bounds) : Except AllocatorError Proposal :=
  match ofSnapshot s self b with
  | some p => .ok p
  | none => .error (.memberNotFound (s.layout.memberKey self))

end Proposal

end Allotment
