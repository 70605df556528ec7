import Allotment.Store.Basic
/-!
# The versioned store

A store keeps its live keys, the contents as of the compaction point, and every response committed
since. `Store.read` serves the contents of any revision that has not been compacted, `Store.commit`
applies a transaction whose guards hold, and `Store.compact` forgets the responses up to a revision.
-/

namespace Allotment

/-- A key-value store with its recent history. -/
structure Store where
  /-- The revision of the last commit. -/
  revision : Int
  /-- Responses up to this revision are forgotten. -/
  compacted : Int
  live : Contents
  /-- Deleted keys with the revision of their deletion, unless it is forgotten. -/
  tombstones : KeyMap Int
  /-- The contents as of the compaction point. -/
  base : Contents
  /-- The responses after the compaction point, oldest first. -/
  history : List Response
  available : Bool

namespace Store

/-- The store without keys, at revision zero. -/
def empty : Store :=
  ⟨0, 0, KeyMap.empty, KeyMap.empty, KeyMap.empty, [], true⟩

instance : Inhabited Store :=
  ⟨empty⟩

/-- A store that has been marked unavailable answers no request. -/
def guardAvailable (s : Store) : Except StoreError Unit :=
  if s.available then .ok () else .error (.unavailable "store marked unavailable")

/-! ### Reading -/

/-- The contents as of a revision after the compaction point. -/
def contentsAt (s : Store) (revision : Int) : Contents :=
  (s.history.takeWhile fun r => decide (r.revision ≤ revision)).foldl
    (fun c r => c.replay r.changes) s.base

/-- The entries under a scope as of a revision. Zero and every revision from the current one on ask
for the current contents, which are stamped with the current revision. -/
def read (s : Store) (scope : String) (revision : Int) : Except StoreError Reading := do
  s.guardAvailable
  if revision = 0 ∨ s.revision ≤ revision then
    return ⟨s.revision, s.live.entriesUnder scope⟩
  else if revision < s.compacted then
    throw (.compacted revision s.compacted)
  else
    return ⟨revision, (s.contentsAt revision).entriesUnder scope⟩

/-- The entry of a key. -/
def get? (s : Store) (key : String) : Option (Entry Bytes) :=
  (s.live.get? key).map fun v => ⟨v, key⟩

/-- The number of keys under a scope. -/
def countUnder (s : Store) (scope : String) : Nat :=
  (s.live.under scope).length

/-- The responses from a revision on, restricted to a scope. -/
def since (s : Store) (scope : String) (revision : Int) : List Response :=
  (s.history.filter fun r => decide (revision ≤ r.revision)).filterMap (·.restrict? scope)

/-! ### Writing -/

/-- A guard holds. -/
def holds (s : Store) : Guard → Bool
  | .modified key revision => ((s.live.get? key).map (·.modified)).getD 0 == revision
  | .unchanged scope revision =>
    decide (s.compacted ≤ revision) &&
      (s.live.under scope).all (fun b => decide (b.2.modified ≤ revision)) &&
      (s.tombstones.under scope).all (fun b => decide (b.2 ≤ revision))

/-- The store after a response has been committed at the next revision. -/
def record (s : Store) (r : Response) : Store :=
  { s with
    revision := r.revision
    live := s.live.replay r.changes
    tombstones := r.changes.foldl Change.bury s.tombstones
    history := s.history ++ [r] }

/-- The response that a transaction would commit, if its guards hold and it changes something. -/
def response? (s : Store) (transaction : Transaction) : Option Response :=
  if transaction.guards.all s.holds then
    match Write.changes (s.revision + 1) transaction.writes s.live with
    | [] => none
    | changes => some ⟨s.revision + 1, changes⟩
  else none

/-- The store after a transaction, and the answer to it. Nothing is applied if a guard fails, and
the revision advances only if some write has an effect. -/
def commit (s : Store) (transaction : Transaction) : Except StoreError (Store × Reply) := do
  s.guardAvailable
  match s.response? transaction with
  | some r => return (s.record r, ⟨true, r.revision⟩)
  | none => return (s, ⟨transaction.guards.all s.holds, s.revision⟩)

/-! ### Upkeep -/

/-- The store after the responses up to a revision have been forgotten. -/
def compact (s : Store) (revision : Int) : Store :=
  let revision := min revision s.revision
  if revision ≤ s.compacted then s
  else
    { s with
      compacted := revision
      base := s.contentsAt revision
      tombstones := s.tombstones.filter fun _ r => decide (revision < r)
      history := s.history.dropWhile fun r => decide (r.revision ≤ revision) }

/-- The store after it has been marked available or not. -/
def setAvailable (s : Store) (available : Bool) : Store :=
  { s with available }

end Store

end Allotment
