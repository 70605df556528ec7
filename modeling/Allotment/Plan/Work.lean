import Allotment.Convergence
import Allotment.Plan.Packing
import Allotment.Plan.Placement
import Allotment.Tally
/-!
# Shares of the plan

The writes that one member is entitled to make for one item. A member releases, flags and claims
replicas for itself only. It repairs its own duplicates and, if the item is in its care, orphans. It
renumbers slots after its own deletions, or when it holds the replica that fills the lowest gap. Each
share is guarded by the item and all its assignments being as they are in the snapshot.
-/

namespace Allotment

/-- Guarded writes for one item or several, with their tally. -/
structure Work where
  guards : List Guard
  writes : List Write
  tally : Tally
  deriving Inhabited

namespace Work

/-- Nothing to do. -/
def none : Work :=
  ⟨[], [], Tally.zero⟩

/-- The work of two items. -/
def append (a b : Work) : Work :=
  ⟨a.guards ++ b.guards, a.writes ++ b.writes, a.tally + b.tally⟩

instance : Append Work :=
  ⟨append⟩

end Work

/-- Whose share is computed, and from which snapshot. -/
structure Viewpoint where
  layout : Layout
  revision : Int
  self : MemberId
  /-- The member that tends orphans of items without a live replica. -/
  caretaker : MemberId

namespace Viewpoint

/-- The guards of an item whose key was last changed at `modified`. -/
def itemGuards (v : Viewpoint) (item : String) (modified : Int) : List Guard :=
  [.modified (v.layout.itemKey item) modified, .unchanged (v.layout.itemScope item) v.revision]

/-- The guards of deleted orphans: their holders are still absent. -/
def orphanGuards (v : Viewpoint) (deleted : List Replica) : List Guard :=
  (deleted.filter (·.orphan)).map fun r => .modified (v.layout.memberKey r.holder) 0

/-- Guarded writes for one item. Without writes there is nothing to guard. -/
def guarded (v : Viewpoint) (item : String) (modified : Int) (deleted : List Replica)
    (writes : List Write) (tally : Tally) : Work :=
  if writes.isEmpty then Work.none
  else ⟨v.orphanGuards deleted ++ v.itemGuards item modified, writes, tally⟩

/-- The share in an item that does not exist. Its assignments are deleted from the highest slot
down, each by its holder, and an orphan by the caretaker. -/
def removedWork (v : Viewpoint) (repairs : Nat) (item : String) (replicas : List Replica) : Work :=
  match replicas.getLast? with
  | none => Work.none
  | some top =>
    if 0 < repairs && (top.isHeldBy v.self || (top.orphan && v.caretaker == v.self)) then
      v.guarded item 0 [top] [.delete top.key] { Tally.zero with repaired := 1 }
    else Work.none

/-- The own live replica, if there is one. -/
def own? (v : Viewpoint) (p : Placement) : Option Replica :=
  p.live.find? (·.isHeldBy v.self)

/-- The own replica that is released: it leaves or is in excess, and enough of the others are
consistent to do without it. -/
def released (v : Viewpoint) (wanted : Nat) (p : Placement) : List Replica :=
  (v.own? p).toList.filter fun r =>
    (p.leaving.contains r || p.excess.contains r) &&
      decide (wanted ≤ (p.live.filter (· != r)).countP (·.assignment.consistent))

/-- The broken replicas that are deleted: own duplicates, and orphans of an item whose lowest live
slot is held here. -/
def repaired (v : Viewpoint) (repairs : Nat) (p : Placement) : List Replica :=
  let keeper := (p.live.head?.map (·.holder)).getD v.caretaker
  (p.broken.filter fun r => r.isHeldBy v.self || (r.orphan && keeper == v.self)).take repairs

/-- The replicas that are renumbered. After a deletion everything is packed; gaps that others have
left are closed by the holder of the replica that fills the lowest. -/
def moves (v : Viewpoint) (replicas deleted : List Replica) : List (Replica × Nat) :=
  if deleted.isEmpty then
    ((renumbering replicas).take 1).filter fun m => m.1.isHeldBy v.self
  else renumbering (replicas.filter fun r => !deleted.contains r)

/-- The writes that renumber a replica; the one in `flags` becomes consistent on the way. -/
def moveWrites (v : Viewpoint) (flags : Option Replica) (m : Replica × Nat) : List Write :=
  let r := m.1
  [.delete r.key,
    .put (v.layout.assignmentKey r.assignment.item r.holder m.2)
      (Assignment.encode (r.assignment.consistent || flags == some r))]

/-- The share in an existing item. -/
def placedWork (v : Viewpoint) (repairs : Nat) (item : Entry Item) (replicas : List Replica)
    (p : Placement) : Work :=
  let released := v.released item.value.replication p
  let repaired := v.repaired repairs p
  let deleted := released ++ repaired
  let moves := v.moves replicas deleted
  let shaped := p.broken.isEmpty &&
    item.value.isFilledBy (p.kept.map (·.assignment))
  let pending := (v.own? p).filter fun r =>
    shaped && p.kept.contains r && !r.assignment.consistent
  let movesPending := moves.any fun m => pending == some m.1
  let claims := deleted.isEmpty && moves.isEmpty && isPacked replicas &&
    p.receivers.head? == some v.self
  let claim : List Write :=
    if claims then
      [.put (v.layout.assignmentKey item.value.id v.self replicas.length) (Assignment.encode false)]
    else []
  let flag : List Write :=
    if movesPending || !areDense (replicas.map (·.assignment)) then []
    else pending.toList.map fun r => .put r.key (Assignment.encode true)
  v.guarded item.value.id item.modified deleted
    (deleted.map (.delete ·.key) ++ moves.flatMap (v.moveWrites pending) ++ claim ++ flag)
    { added := claim.length
      removed := released.length
      packed := moves.length
      flagged := (if movesPending then 1 else 0) + flag.length
      repaired := repaired.length }

/-- The share in one item. -/
def work (v : Viewpoint) (repairs : Nat) : Planned → Work
  | .placed item replicas placement => v.placedWork repairs item replicas placement
  | .removed item replicas => v.removedWork repairs item replicas

/-- The shares in all items, where each repair uses up the budget for the items after it. -/
def works (v : Viewpoint) : (repairs : Nat) → List Planned → List Work
  | _, [] => []
  | repairs, p :: ps =>
    let w := v.work repairs p
    w :: works v (repairs - w.tally.repaired) ps

end Viewpoint

end Allotment
