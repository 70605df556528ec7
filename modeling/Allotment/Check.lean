import Allotment.Convergence
import Allotment.Snapshot
/-!
# Checks of a snapshot

What a settled keyspace must satisfy: no member holds more than its limit (`Check.capacity`), the
slots of every item are dense (`Check.density`), every item has exactly the wanted consistent
replicas on distinct, existing members (`Check.replication`), and these lie in as many zones as
there are to choose from (`Check.spread`). A failed check reports its first violation.
-/

namespace Allotment

/-- Members are ordered by zone, and by name within a zone. -/
def MemberId.le (a b : MemberId) : Bool :=
  decide (a.zone < b.zone) || (a.zone == b.zone && decide (a.id ≤ b.id))

/-- What a snapshot fails to satisfy. -/
inductive Violation where
  | overLimit (member : String) (load limit : Nat)
  /-- A member has taken more than its limit allows. -/
  | pastLimit (member : String) (load limit : Nat)
  | sparse (item : String) (slots : List Nat)
  | count (item : String) (held wanted : Nat)
  | inconsistent (assignment : Assignment)
  | heldTwice (item : String)
  | missingHolder (item : String) (holder : MemberId)
  | removedItem (item : String)
  | span (item : String) (zones wanted : Nat)
  deriving DecidableEq, Repr

/-- The text of a list of numbers. -/
def numberList (ns : List Nat) : String :=
  "[" ++ String.intercalate ", " (ns.map Numeral.text) ++ "]"

/-- The wording of a violation. -/
def Violation.message : Violation → String
  | .overLimit member load limit =>
    member ++ " holds " ++ Numeral.text load ++ " assignments over limit " ++ Numeral.text limit
  | .pastLimit member load limit =>
    member ++ " added past its limit: " ++ Numeral.text load ++ " > " ++ Numeral.text limit
  | .sparse item slots => "item " ++ item ++ " has sparse slots " ++ numberList slots
  | .count item held wanted =>
    "item " ++ item ++ " has " ++ Numeral.text held ++ " assignments, wants " ++
      Numeral.text wanted
  | .inconsistent a =>
    "item " ++ a.item ++ " slot " ++ Numeral.text a.slot ++ " on " ++ a.holder.zone ++ "/" ++
      a.holder.id ++ " is not consistent"
  | .heldTwice item => "item " ++ item ++ " is held twice by one member"
  | .missingHolder item holder =>
    "item " ++ item ++ " is held by missing member " ++ holder.zone ++ "/" ++ holder.id
  | .removedItem item => "assignments remain for removed item " ++ item
  | .span item zones wanted =>
    "item " ++ item ++ " spans " ++ Numeral.text zones ++ " zones, wants " ++ Numeral.text wanted

namespace Snapshot

/-- The assignments of an item among all assignments, in key order. -/
def held (s : Snapshot) (item : String) : List Assignment :=
  (s.assignments.map (·.value)).filter (·.item == item)

/-- The names of the items that have an assignment, in order. -/
def heldItems (s : Snapshot) : List String :=
  ((s.assignments.map (·.value.item)).mergeSort (· ≤ ·)).eraseReps

/-- The number of assignments of each member by its key. A member without any counts zero, and a
holder that does not exist is counted under the key it would have. -/
def loads (s : Snapshot) : KeyMap Nat :=
  (s.assignments.map fun a => s.layout.memberKey a.value.holder).foldl
    (fun m k => m.insert k ((m.get? k).getD 0 + 1))
    (KeyMap.ofList (s.members.map fun m => (m.key, 0)))

/-- The zones of the members that are not draining. -/
def openZones (s : Snapshot) : List String :=
  ((s.members.map (·.value)).filter fun m => !m.isDraining).map (·.id.zone) |>.eraseDups

end Snapshot

/-! ### The checks -/

namespace Check

/-- No member holds more assignments than its limit. -/
def capacity (s : Snapshot) : Except Violation Unit :=
  let loads := s.loads
  s.members.forM fun m =>
    let load := (loads.get? m.key).getD 0
    if load ≤ m.value.limit then .ok () else .error (.overLimit m.key load m.value.limit)

/-- The slots of every item are dense. -/
def density (s : Snapshot) : Except Violation Unit :=
  s.heldItems.forM fun item =>
    let held := s.held item
    if areDense held then .ok () else .error (.sparse item (held.map (·.slot)))

/-- One item has exactly the wanted replicas, consistent and on distinct, existing members. -/
def item (s : Snapshot) (i : Item) : Except Violation Unit :=
  let held := s.held i.id
  if held.length ≠ i.replication then .error (.count i.id held.length i.replication)
  else
    match held.find? fun a => !a.consistent with
    | some a => .error (.inconsistent a)
    | none =>
      if !distinctHolders held then .error (.heldTwice i.id)
      else
        let missing := (held.map (·.holder)).filter fun m => (s.member? m).isNone
        match missing.mergeSort MemberId.le with
        | m :: _ => .error (.missingHolder i.id m)
        | [] => .ok ()

/-- Every item has its replicas, and no assignment outlives its item. -/
def replication (s : Snapshot) : Except Violation Unit := do
  s.items.forM fun i => item s i.value
  match s.heldItems.find? fun i => (s.item? i).isNone with
  | some i => throw (.removedItem i)
  | none => return ()

/-- Every item spans as many zones as its replicas and the members with capacity allow. -/
def spread (s : Snapshot) : Except Violation Unit :=
  let zones := s.openZones.length
  s.items.forM fun i =>
    let spanned := ((s.held i.value.id).map (·.holder.zone)).eraseDups.length
    let wanted := min zones i.value.replication
    if wanted ≤ spanned then .ok () else .error (.span i.value.id spanned wanted)

/-- Capacity, density and replication hold. -/
def convergence (s : Snapshot) : Except Violation Unit := do
  capacity s
  density s
  replication s

end Check

end Allotment
