import Allotment.Store.Edit
/-!
# Requests to a store

The reads, writes and upkeep of a hub as data, so that they can stand in a script. `Hub.perform`
makes one of them and answers it; a request that fails leaves the hub as it is.
-/

namespace Allotment

/-- A request to a store. -/
inductive Request where
  | transaction (transaction : Transaction)
  | range (scope : String) (revision : Int)
  | get (key : String)
  | count (scope : String)
  | revision
  | compact (revision : Int)
  | setAvailable (available : Bool)
  | closeWatches
  | insert (kvs : List (String × Bytes))
  | update (kvs : List (String × Bytes))
  | remove (keys : List String)

/-- The answer to a request. -/
inductive Answer where
  | done
  | reply (r : Reply)
  | reading (r : Reading)
  | entry (e : Option (Entry Bytes))
  | count (n : Nat)
  | revision (r : Int)
  | written (r : Int)
  | refused (e : StoreError)
  | failed (e : EditError)

namespace Hub

/-- The answer to an edit. -/
def answerWrite (h : Hub) : Except EditError (Hub × Int) → Hub × Answer
  | .ok (h, r) => (h, .written r)
  | .error e => (h, .failed e)

/-- The hub after a request, and the answer to it. -/
def perform (h : Hub) : Request → Hub × Answer
  | .transaction transaction =>
    match h.commit transaction with
    | .ok (h, r) => (h, .reply r)
    | .error e => (h, .refused e)
  | .range scope revision =>
    match h.store.read scope revision with
    | .ok r => (h, .reading r)
    | .error e => (h, .refused e)
  | .get key => (h, .entry (h.store.get? key))
  | .count scope => (h, .count (h.store.countUnder scope))
  | .revision => (h, .revision h.store.revision)
  | .compact revision =>
    let h := h.compact revision
    (h, .revision h.store.revision)
  | .setAvailable available => (h.setAvailable available, .done)
  | .closeWatches => (h.closeWatches, .done)
  | .insert kvs => h.answerWrite (h.insert kvs)
  | .update kvs => h.answerWrite (h.update kvs)
  | .remove keys => h.answerWrite (h.remove keys)

/-- The hub after some requests, made one after another, and the answers to them. -/
def performAll (h : Hub) : List Request → Hub × List Answer
  | [] => (h, [])
  | r :: rs =>
    let next := h.perform r
    let rest := next.1.performAll rs
    (rest.1, next.2 :: rest.2)

end Hub

end Allotment
