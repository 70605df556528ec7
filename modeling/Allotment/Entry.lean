/-!
# Stamped values

A stored value carries the revision that created its key and the revision that last changed it. A
`Stamped` value has both, and an `Entry` also has the key.
-/

namespace Allotment

/-- A value with the revisions of its creation and of its last change. -/
structure Stamped (α : Type) where
  value : α
  created : Int
  modified : Int
  deriving DecidableEq, Repr, Inhabited

/-- A stamped value under its key. -/
structure Entry (α : Type) extends Stamped α where
  key : String
  deriving DecidableEq, Repr, Inhabited

namespace Entry

variable {α β : Type}

/-- The entry of a binding. -/
def ofBinding (b : String × Stamped α) : Entry α :=
  ⟨b.2, b.1⟩

/-- The binding of an entry. -/
def toBinding (e : Entry α) : String × Stamped α :=
  (e.key, e.toStamped)

/-- The entry of another value under the same key and stamps. -/
def withValue (e : Entry α) (v : β) : Entry β :=
  ⟨⟨v, e.created, e.modified⟩, e.key⟩

end Entry

end Allotment
