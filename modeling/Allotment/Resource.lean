import Allotment.Entry
import Allotment.Json.Attribute
import Allotment.Layout
import Allotment.Text.Quoted
/-!
# Members, items and assignments

A member announces how many items it may hold, an item asks for a number of replicas, and an
assignment binds one replica slot of an item to a member. `Resource.decode` reads one of them from a
stored entry: the key gives the identity and the value the attributes. The key is read first.
-/

namespace Allotment

/-- A worker that announces capacity. A limit of zero means that it is draining. -/
structure Member where
  id : MemberId
  limit : Nat
  deriving DecidableEq, Repr, Inhabited

/-- A member that may hold no item is draining. -/
def Member.isDraining (m : Member) : Bool :=
  m.limit == 0

/-- A unit of work, wanted on `replication` distinct members. -/
structure Item where
  id : String
  replication : Nat
  deriving DecidableEq, Repr, Inhabited

/-- One replica slot of an item, bound to a member. The holder sets `consistent` once it has
reached a steady state. -/
structure Assignment where
  item : String
  holder : MemberId
  slot : Nat
  consistent : Bool
  deriving DecidableEq, Repr, Inhabited

/-- What a stored entry stands for. -/
inductive Resource where
  | member (m : Member)
  | item (i : Item)
  | assignment (a : Assignment)
  deriving DecidableEq, Repr, Inhabited

namespace Resource

/-- The member, if it is one. -/
def member? : Resource → Option Member
  | .member m => some m
  | _ => none

/-- The item, if it is one. -/
def item? : Resource → Option Item
  | .item i => some i
  | _ => none

/-- The assignment, if it is one. -/
def assignment? : Resource → Option Assignment
  | .assignment a => some a
  | _ => none

end Resource

/-! ### Values -/

/-- The value of a member. -/
def Member.encode (limit : Nat) : Bytes :=
  Attribute.write limit

/-- The value of an item. -/
def Item.encode (replication : Nat) : Bytes :=
  Attribute.write replication

/-- The value of an assignment whose holder is consistent; the value of one that is not is empty. -/
def Assignment.consistentValue : Bytes :=
  "consistent".toList.map Json.byte

/-- The value of an assignment. -/
def Assignment.encode (consistent : Bool) : Bytes :=
  if consistent then consistentValue else []

/-- Why a value cannot be read. -/
inductive ValueFault where
  | malformed
  | unknownAssignment
  | outOfRange
  deriving DecidableEq, Repr

/-- The wording of a value fault. -/
def ValueFault.message : ValueFault → String
  | .malformed => "<json>"
  | .unknownAssignment => "unknown assignment value"
  | .outOfRange => "R out of range"

/-- Why an entry does not stand for a resource. -/
inductive DecodeError where
  | key (key : String) (fault : KeyFault)
  | value (key : String) (fault : ValueFault)
  | negative (key : String) (value : Int)
  deriving DecidableEq, Repr

/-- The wording of a decoding error. -/
def DecodeError.message : DecodeError → String
  | .key k fault => "invalid key " ++ Quoted.encode k ++ ": " ++ fault.message
  | .value k fault => "invalid value at " ++ Quoted.encode k ++ ": " ++ fault.message
  | .negative k n => "negative R (" ++ Numeral.signed n ++ ") at " ++ Quoted.encode k

/-- Limits and replications are 32-bit numbers. -/
def attributeLimit : Nat :=
  UInt32.size

/-- The limit or replication that a value carries. -/
def decodeAttribute (key : String) (value : Bytes) : Except DecodeError Nat :=
  match Attribute.read value with
  | none => .error (.value key .malformed)
  | some (.negSucc n) => .error (.negative key (.negSucc n))
  | some (.ofNat n) => if n < attributeLimit then .ok n else .error (.value key .outOfRange)

/-- Whether the holder is consistent. -/
def decodeConsistent (key : String) (value : Bytes) : Except DecodeError Bool :=
  if value = Assignment.consistentValue then .ok true
  else if value = [] then .ok false
  else .error (.value key .unknownAssignment)

/-! ### Entries -/

namespace Resource

/-- The resource of an identity with the attributes of a value. -/
def ofIdentity (key : String) (value : Bytes) : Identity → Except DecodeError Resource
  | .member id => (decodeAttribute key value).map fun n => .member ⟨id, n⟩
  | .item id => (decodeAttribute key value).map fun n => .item ⟨id, n⟩
  | .assignment wanted holder slot =>
    (decodeConsistent key value).map fun c => .assignment ⟨wanted, holder, slot, c⟩

/-- The resource that a stored entry stands for. -/
def decode (l : Layout) (e : Entry Bytes) : Except DecodeError (Entry Resource) :=
  match l.parse e.key with
  | .error fault => .error (.key e.key fault)
  | .ok identity => (ofIdentity e.key e.value identity).map e.withValue

end Resource

end Allotment
