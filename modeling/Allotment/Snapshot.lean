import Allotment.Cache.Error
/-!
# Snapshots

A snapshot holds the decoded entries of a keyspace as of one revision, in key order.
`Snapshot.ofEntries` decodes the answer to a ranged read, and `Snapshot.apply` the changes of one
later revision. Members, items and assignments are views of the three subtrees of the keyspace.
-/

namespace Allotment

/-- The decoded entries of a keyspace as of a revision. -/
structure Snapshot where
  layout : Layout
  revision : Int
  entries : KeyMap (Stamped Resource)

namespace Snapshot

/-- The snapshot without entries, at revision zero. -/
def empty (l : Layout) : Snapshot :=
  ⟨l, 0, KeyMap.empty⟩

instance : Inhabited Snapshot :=
  ⟨empty default⟩

/-! ### Building -/

/-- Some decoded entries with one more. -/
def addEntry (l : Layout) (entries : KeyMap (Stamped Resource)) (e : Entry Bytes) :
    Except DecodeError (KeyMap (Stamped Resource)) :=
  (Resource.decode l e).map fun d => entries.insert d.key d.toStamped

/-- The snapshot of stored entries. The first entry that cannot be read fails the whole. -/
def ofEntries (l : Layout) (revision : Int) (es : List (Entry Bytes)) :
    Except DecodeError Snapshot :=
  (es.foldlM (addEntry l) KeyMap.empty).map (⟨l, revision, ·⟩)

/-- The decoded entries after one change of the revision `expected`. -/
def applyChange (s : Snapshot) (expected : Int) (entries : KeyMap (Stamped Resource)) (e : Change) :
    Except CacheError (KeyMap (Stamped Resource)) :=
  if e.revision ≠ expected then .error (.gap s.revision e.revision)
  else
    match e with
    | .put stored => (addEntry s.layout entries stored).mapError .decode
    | .delete k _ => .ok (entries.erase k)

/-- The snapshot after the changes of one revision. Revisions must increase, and every change must
be of the revision of its response. -/
def apply (s : Snapshot) (r : Response) : Except CacheError Snapshot :=
  if r.revision ≤ s.revision then .error (.gap s.revision r.revision)
  else
    (r.changes.foldlM (s.applyChange r.revision) s.entries).map fun entries =>
      { s with revision := r.revision, entries }

/-! ### Views -/

/-- The number of entries. -/
def size (s : Snapshot) : Nat :=
  s.entries.size

/-- The entry of a key. -/
def get? (s : Snapshot) (key : String) : Option (Entry Resource) :=
  (s.entries.get? key).map fun v => ⟨v, key⟩

/-- All entries, in key order. -/
def toList (s : Snapshot) : List (Entry Resource) :=
  s.entries.bindings.map Entry.ofBinding

/-- An entry seen as one kind of resource. -/
def pick? {α : Type} (kind : Resource → Option α) (e : Entry Resource) : Option (Entry α) :=
  (kind e.value).map e.withValue

/-- The entries of one kind under a scope, in key order. -/
def view {α : Type} (s : Snapshot) (scope : String) (kind : Resource → Option α) : List (Entry α) :=
  ((s.entries.under scope).map Entry.ofBinding).filterMap (pick? kind)

/-- The members, in key order. -/
def members (s : Snapshot) : List (Entry Member) :=
  s.view s.layout.membersScope Resource.member?

/-- The items, in key order. -/
def items (s : Snapshot) : List (Entry Item) :=
  s.view s.layout.itemsScope Resource.item?

/-- The assignments, in key order. -/
def assignments (s : Snapshot) : List (Entry Assignment) :=
  s.view s.layout.assignmentsScope Resource.assignment?

/-- The assignments of one item, in key order. -/
def itemAssignments (s : Snapshot) (item : String) : List (Entry Assignment) :=
  s.view (s.layout.itemScope item) Resource.assignment?

/-- The member of an identity. -/
def member? (s : Snapshot) (id : MemberId) : Option (Entry Member) :=
  (s.get? (s.layout.memberKey id)).bind (pick? Resource.member?)

/-- The item of a name. -/
def item? (s : Snapshot) (id : String) : Option (Entry Item) :=
  (s.get? (s.layout.itemKey id)).bind (pick? Resource.item?)

end Snapshot

end Allotment
