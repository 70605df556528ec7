import Allotment.Store.Hub
/-!
# Edits

Plain writes from outside the allocators: `Hub.insert` creates keys, `Hub.update` overwrites
existing ones, and `Hub.remove` deletes keys unconditionally. Each is one transaction.
-/

namespace Allotment

/-- Why an edit is not made. -/
inductive EditError where
  | store (e : StoreError)
  /-- Some of the keys exist already, or have changed. -/
  | rejected (keys : List String)
  | missing (key : String)
  deriving DecidableEq, Repr

/-- The wording of an edit's error. -/
def EditError.message : EditError → String
  | .store e => "store error: " ++ e.message
  | .rejected ks => "fixture rejected: " ++ String.intercalate ", " ks
  | .missing k => "key not found: " ++ k

/-- A list in pieces of `size` elements, the last of which may be shorter. Nothing can be cut into
pieces of no element. -/
def pieces {α : Type} (size : Nat) (l : List α) : List (List α) :=
  if h : l = [] ∨ size = 0 then []
  else
    have : (l.drop size).length < l.length := by
      have hl : 0 < l.length := List.length_pos_iff.2 fun hl => h (.inl hl)
      have hs : size ≠ 0 := fun hs => h (.inr hs)
      rw [List.length_drop]
      omega
    l.take size :: pieces size (l.drop size)
termination_by l.length

namespace Hub

/-- Commits writes that must not be refused, and answers the revision. -/
def write (h : Hub) (guards : List Guard) (kvs : List (String × Bytes)) :
    Except EditError (Hub × Int) :=
  match h.commit ⟨guards, kvs.map fun kv => .put kv.1 kv.2⟩ with
  | .error e => .error (.store e)
  | .ok (h, reply) =>
    if reply.succeeded then .ok (h, reply.revision) else .error (.rejected (kvs.map (·.1)))

/-- Creates keys that must not exist. -/
def insert (h : Hub) (kvs : List (String × Bytes)) : Except EditError (Hub × Int) :=
  h.write (kvs.map fun kv => .modified kv.1 0) kvs

/-- Creates keys in several transactions, up to the first that is refused. -/
def insertAll (h : Hub) : List (List (String × Bytes)) → Hub × Option EditError
  | [] => (h, none)
  | kvs :: rest =>
    match h.insert kvs with
    | .error e => (h, some e)
    | .ok (h, _) => h.insertAll rest

/-- The guard that a key exists and stays as it is. -/
def currentGuard (h : Hub) (key : String) : Except EditError Guard :=
  match h.store.guardAvailable with
  | .error e => .error (.store e)
  | .ok () =>
    match h.store.get? key with
    | none => .error (.missing key)
    | some e => .ok (.modified key e.modified)

/-- Overwrites keys that must exist. -/
def update (h : Hub) (kvs : List (String × Bytes)) : Except EditError (Hub × Int) := do
  h.write (← kvs.mapM fun kv => h.currentGuard kv.1) kvs

/-- Deletes keys. -/
def remove (h : Hub) (keys : List String) : Except EditError (Hub × Int) :=
  match h.commit ⟨[], keys.map .delete⟩ with
  | .error e => .error (.store e)
  | .ok (h, reply) => .ok (h, reply.revision)

end Hub

end Allotment
