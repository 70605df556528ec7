import Allotment.Text.Numeral
/-!
# The key layout

All keys of one keyspace lie under a root, in three subtrees:

    <root>/members/<zone>/<id>
    <root>/items/<id>
    <root>/assignments/<item>/<zone>/<member>/<slot>

Segments are non-empty and hold no `/`. `Layout.memberKey`, `itemKey` and `assignmentKey` build the
keys, and `Layout.parse` reads the identity back from a key.
-/

namespace Allotment

/-- A member is known by its zone and its name there. -/
structure MemberId where
  zone : String
  id : String
  deriving DecidableEq, Repr, Inhabited

/-- What a key stands for. -/
inductive Identity where
  | member (id : MemberId)
  | item (id : String)
  | assignment (item : String) (holder : MemberId) (slot : Nat)
  deriving DecidableEq, Repr

/-- Why a key does not belong to a layout. -/
inductive KeyFault where
  | outsideRoot
  | emptySegment
  | badSlot (fault : Numeral.Fault)
  | unexpectedShape
  deriving DecidableEq, Repr

/-- The wording of a key fault. -/
def KeyFault.message : KeyFault → String
  | .outsideRoot => "outside of keyspace root"
  | .emptySegment => "empty path segment"
  | .badSlot fault => "bad slot: " ++ fault.message
  | .unexpectedShape => "unexpected key shape"

/-- The root that all keys of a keyspace start with. -/
structure Layout where
  root : String
  deriving DecidableEq, Repr, Inhabited

namespace Layout

/-- The layout under a root; slashes at the end of the root do not count. -/
def ofRoot (root : String) : Layout :=
  ⟨String.ofList (root.toList.reverse.dropWhile (· == '/')).reverse⟩

/-! ### Building keys -/

/-- What every key of the keyspace starts with. -/
def scope (l : Layout) : String :=
  l.root ++ "/"

/-- What every member key starts with. -/
def membersScope (l : Layout) : String :=
  l.root ++ "/members/"

/-- What every item key starts with. -/
def itemsScope (l : Layout) : String :=
  l.root ++ "/items/"

/-- What every assignment key starts with. -/
def assignmentsScope (l : Layout) : String :=
  l.root ++ "/assignments/"

/-- What every assignment key of one item starts with. -/
def itemScope (l : Layout) (item : String) : String :=
  l.root ++ "/assignments/" ++ item ++ "/"

/-- The key of a member. -/
def memberKey (l : Layout) (m : MemberId) : String :=
  l.root ++ "/members/" ++ m.zone ++ "/" ++ m.id

/-- The key of an item. -/
def itemKey (l : Layout) (item : String) : String :=
  l.root ++ "/items/" ++ item

/-- The key of an assignment. -/
def assignmentKey (l : Layout) (item : String) (holder : MemberId) (slot : Nat) : String :=
  l.root ++ "/assignments/" ++ item ++ "/" ++ holder.zone ++ "/" ++ holder.id ++ "/" ++
    Numeral.text slot

/-! ### Reading keys -/

/-- Slots are 32-bit numbers. -/
def slotLimit : Nat :=
  UInt32.size

/-- The segments of a key after the root, or nothing if the key lies elsewhere. -/
def segments? (l : Layout) (key : String) : Option (List String) :=
  if key.startsWith l.scope then
    some (((key.toList.drop l.scope.length).splitOn '/').map String.ofList)
  else none

/-- The identity that segments stand for. -/
def identify : List String → Except KeyFault Identity
  | ["members", zone, id] => .ok (.member ⟨zone, id⟩)
  | ["items", id] => .ok (.item id)
  | ["assignments", item, zone, member, slot] =>
    match Numeral.read slotLimit slot.toList with
    | .ok n => .ok (.assignment item ⟨zone, member⟩ n)
    | .error fault => .error (.badSlot fault)
  | _ => .error .unexpectedShape

/-- The identity of a key. -/
def parse (l : Layout) (key : String) : Except KeyFault Identity :=
  match l.segments? key with
  | none => .error .outsideRoot
  | some segments =>
    if segments.any String.isEmpty then .error .emptySegment else identify segments

end Layout

end Allotment
