import Allotment.Cache.Wait
import Allotment.Store.Hub
/-!
# A cache with its watch

An observer is a cache and the task that keeps it current from a hub. The task runs only when it is
let: `Observer.run` lets it run until it has to wait for the store, so that all responses that have
gathered in its watch become one publication.
-/

namespace Allotment

/-- The task that keeps a cache current. -/
inductive Follower where
  | none
  /-- The task has not run yet. -/
  | starting (cancelled : Bool)
  | following (watch : WatchId) (cancelled : Bool)
  /-- The task has ended, and nobody has asked for its result. -/
  | ended (fault : Option CacheError)

/-- A cache with the task that keeps it current. -/
structure Observer where
  cache : Cache
  follower : Follower

namespace Observer

/-- The observer of a keyspace that has not been loaded. -/
def empty (l : Layout) : Observer :=
  ⟨Cache.empty l, .none⟩

instance : Inhabited Observer :=
  ⟨empty default⟩

/-- The cache loaded from the contents as of a revision. -/
def load (o : Observer) (h : Hub) (revision : Int) : Except CacheError Observer :=
  (o.cache.load (h.store.read o.cache.layout.scope revision)).map fun c => { o with cache := c }

/-- The hub without the watch of the task. -/
def abandon (o : Observer) (h : Hub) : Hub :=
  match o.follower with
  | .following id _ => h.drop id
  | _ => h

/-- A new task in the place of an earlier one. -/
def spawn (o : Observer) (h : Hub) (cancelled : Bool) : Observer × Hub :=
  ({ o with follower := .starting cancelled }, o.abandon h)

/-- The task is told to end; it notices when it runs. -/
def cancel (o : Observer) : Observer :=
  match o.follower with
  | .starting _ => { o with follower := .starting true }
  | .following id _ => { o with follower := .following id true }
  | _ => o

/-- The observer after its task has ended. -/
def finish (c : Cache) (fault : Option CacheError) : Observer :=
  ⟨c.stop fault, .ended fault⟩

/-- What waits in a watch, as signals. -/
def signals (w : Watch) : List Signal :=
  w.pending.map (fun r => .handed (.response r)) ++
    if w.closed then [.handed (.failure .closed)] else [.pause]

/-- The open watch is followed until nothing more is ready. -/
def advance (o : Observer) (h : Hub) (id : WatchId) (cancelled : Bool) : Observer × Hub :=
  if cancelled then (finish o.cache none, h.drop id)
  else
    match h.watch? id with
    | none => (o, h)
    | some w =>
      let followed := o.cache.follow (signals w)
      match followed.fault with
      | some e => (⟨followed.cache, .ended (some e)⟩, h.drop id)
      | none => (⟨followed.cache, .following id cancelled⟩, h.take id)

/-- Lets the task run until it has to wait. -/
def run (o : Observer) (h : Hub) : Observer × Hub :=
  match o.follower with
  | .starting cancelled =>
    match o.cache.from? with
    | .error e => ({ o with follower := .ended (some e) }, h)
    | .ok revision =>
      match h.watch o.cache.layout.scope revision with
      | .error e => (finish o.cache (some (.store e)), h)
      | .ok (h, id) => advance o h id cancelled
  | .following id cancelled => advance o h id cancelled
  | _ => (o, h)

/-- Waits for a revision for as long as anything else can happen. The task runs only if the wait
does not end as things stand. -/
def attempt (o : Observer) (h : Hub) (w : Wait) : Option Outcome × Observer × Hub :=
  match w.ready? o.cache with
  | some outcome => (some outcome, o, h)
  | none =>
    let ran := o.run h
    (w.ready? ran.1.cache, ran)

end Observer

end Allotment
