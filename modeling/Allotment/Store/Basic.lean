import Allotment.Entry
import Allotment.Json.Grammar
import Allotment.KeyMap
import Allotment.Text.Numeral
/-!
# Reads, writes and changes of a store

A store maps keys to stamped values and counts revisions. A transaction is a list of guards and a
list of writes; each write that has an effect is one change, and the changes of one committed
transaction share a revision. `Write.changes` says which changes a list of writes causes, and
`Change.apply` what a change does to the contents.
-/

namespace Allotment

/-- Why a store does not answer. -/
inductive StoreError where
  | unavailable (reason : String)
  | compacted (requested through : Int)
  | closed
  deriving DecidableEq, Repr

/-- The wording of a store error. -/
def StoreError.message : StoreError → String
  | .unavailable reason => "store unavailable: " ++ reason
  | .compacted requested through =>
    "revision " ++ Numeral.signed requested ++ " has been compacted (compacted through " ++
      Numeral.signed through ++ ")"
  | .closed => "watch stream closed"

/-- The live keys of a store. -/
abbrev Contents := KeyMap (Stamped Bytes)

/-- One change of one key. -/
inductive Change where
  | put (entry : Entry Bytes)
  | delete (key : String) (revision : Int)
  deriving DecidableEq, Repr

namespace Change

/-- The key that changes. -/
def key : Change → String
  | .put e => e.key
  | .delete k _ => k

/-- The revision of the change. -/
def revision : Change → Int
  | .put e => e.modified
  | .delete _ r => r

/-- The contents after the change. -/
def apply (c : Contents) : Change → Contents
  | .put e => c.insert e.key e.toStamped
  | .delete k _ => c.erase k

/-- The deleted keys after the change, each with the revision of its deletion. -/
def bury (tombstones : KeyMap Int) : Change → KeyMap Int
  | .put e => tombstones.erase e.key
  | .delete k r => tombstones.insert k r

end Change

/-- The contents after some changes, made in turn. -/
def Contents.replay (c : Contents) (changes : List Change) : Contents :=
  changes.foldl Change.apply c

/-- The entries under a scope, in key order. -/
def Contents.entriesUnder (c : Contents) (scope : String) : List (Entry Bytes) :=
  (c.under scope).map Entry.ofBinding

/-- Changes of one revision. -/
structure Response where
  revision : Int
  changes : List Change
  deriving DecidableEq, Repr

/-- The changes under a scope, if there are any. -/
def Response.restrict? (scope : String) (r : Response) : Option Response :=
  match r.changes.filter fun e => e.key.startsWith scope with
  | [] => none
  | changes => some ⟨r.revision, changes⟩

/-- The answer to a ranged read: the revision it was served at and the entries in key order. -/
structure Reading where
  revision : Int
  entries : List (Entry Bytes)
  deriving Repr

/-- A guard of a transaction. -/
inductive Guard where
  /-- The key was last changed at `revision`, where zero means that it is absent. -/
  | modified (key : String) (revision : Int)
  /-- No key under `scope` was created, changed or deleted after `revision`. -/
  | unchanged (scope : String) (revision : Int)
  deriving DecidableEq, Repr, Inhabited

/-- A write of a transaction. -/
inductive Write where
  | put (key : String) (value : Bytes)
  | delete (key : String)
  deriving DecidableEq, Repr, Inhabited

/-- Writes that apply together, and only if every guard holds. -/
structure Transaction where
  guards : List Guard
  writes : List Write
  deriving DecidableEq, Repr, Inhabited

/-- The answer to a transaction: whether it was applied, and the store's revision after it. -/
structure Reply where
  succeeded : Bool
  revision : Int
  deriving DecidableEq, Repr

namespace Write

/-- The key that is written. -/
def key : Write → String
  | .put k _ => k
  | .delete k => k

/-- The change that a write at `revision` makes to the contents. A put keeps the creation revision
of a live key, and deleting an absent key changes nothing. -/
def change? (write : Write) (revision : Int) (c : Contents) : Option Change :=
  match write with
  | .put k v => some (.put ⟨⟨v, ((c.get? k).map (·.created)).getD revision, revision⟩, k⟩)
  | .delete k => if c.contains k then some (.delete k revision) else none

/-- The changes that some writes make, one after another. -/
def changes (revision : Int) : List Write → Contents → List Change
  | [], _ => []
  | write :: writes, c =>
    match write.change? revision c with
    | none => changes revision writes c
    | some e => e :: changes revision writes (Change.apply c e)

end Write

end Allotment
