import Allotment.Store.Versioned
/-!
# Watches

A hub is a store with its watches. A watch has a scope; it is first given the responses from a
revision on that the store still remembers, and then every response that is committed, each
restricted to the scope and left out if nothing remains of it. Responses wait in the watch until
they are taken.
-/

namespace Allotment

/-- A stream of the changes under a scope. -/
structure Watch where
  scope : String
  /-- The responses that have not been taken, oldest first. -/
  pending : List Response
  /-- The store adds no more responses. -/
  closed : Bool
  deriving Repr

/-- The watch after a response has been committed. -/
def Watch.publish (r : Response) (w : Watch) : Watch :=
  if w.closed then w else { w with pending := w.pending ++ (r.restrict? w.scope).toList }

/-- Watches are told apart by numbers. -/
abbrev WatchId := Nat

/-- A store with its watches. -/
structure Hub where
  store : Store
  watches : List (WatchId × Watch)
  /-- The number of the next watch. -/
  next : WatchId
  deriving Inhabited

namespace Hub

/-- The empty store without watches. -/
def empty : Hub :=
  ⟨Store.empty, [], 0⟩

/-- All watches changed alike. -/
def mapWatches (h : Hub) (f : Watch → Watch) : Hub :=
  { h with watches := h.watches.map fun w => (w.1, f w.2) }

/-- The hub after a transaction, and the answer to it. A committed response goes to every watch. -/
def commit (h : Hub) (transaction : Transaction) : Except StoreError (Hub × Reply) := do
  let (store, reply) ← h.store.commit transaction
  let published := match h.store.response? transaction with
    | some r => h.mapWatches (·.publish r)
    | none => h
  return ({ published with store }, reply)

/-! ### Watching -/

/-- The hub after a watch has been opened, and its number. The watch is refused if responses from
the revision on may be forgotten. -/
def watch (h : Hub) (scope : String) (revision : Int) : Except StoreError (Hub × WatchId) := do
  h.store.guardAvailable
  if 0 < h.store.compacted ∧ revision ≤ h.store.compacted then
    throw (.compacted revision h.store.compacted)
  let opened : Watch := ⟨scope, h.store.since scope revision, false⟩
  return ({ h with watches := h.watches ++ [(h.next, opened)], next := h.next + 1 }, h.next)

/-- The watch of a number. -/
def watch? (h : Hub) (id : WatchId) : Option Watch :=
  h.watches.lookup id

/-- The hub after everything that waits in a watch has been taken. -/
def take (h : Hub) (id : WatchId) : Hub :=
  { h with
    watches := h.watches.map fun w => if w.1 == id then (w.1, { w.2 with pending := [] }) else w }

/-- The hub without a watch. -/
def drop (h : Hub) (id : WatchId) : Hub :=
  { h with watches := h.watches.filter (·.1 != id) }

/-- The hub after all its watches have been closed. What waits in them can still be taken. -/
def closeWatches (h : Hub) : Hub :=
  h.mapWatches fun w => { w with closed := true }

/-! ### Upkeep -/

/-- The hub after the responses up to a revision have been forgotten. -/
def compact (h : Hub) (revision : Int) : Hub :=
  { h with store := h.store.compact revision }

/-- The hub after its store has been marked available or not. -/
def setAvailable (h : Hub) (available : Bool) : Hub :=
  { h with store := h.store.setAvailable available }

end Hub

end Allotment
