import Allotment.Cache.Observer
import Allotment.Check
import Allotment.Plan.Proposal
import Allotment.Store.Request
/-!
# Sessions

A session is one hub with one observed keyspace, named watches of its own and remembered proposals.
Commands are performed one after another; the task that keeps the cache current runs only when a
command lets it.
-/

namespace Allotment

/-- A command of a session. -/
inductive Session.Command where
  | store (r : Request)
  /-- Opens a watch under a name; an earlier watch of that name is dropped. -/
  | openWatch (name scope : String) (revision : Int)
  | dropWatch (name : String)
  /-- Takes what waits in a named watch. -/
  | poll (name : String)
  | load (revision : Int)
  /-- Starts to keep the cache current. -/
  | follow (cancelled : Bool)
  /-- Lets the cache catch up. -/
  | settle
  /-- Lets the cache catch up, and then ends its watch. -/
  | shutdown
  /-- Waits for the cache, perhaps no longer than some milliseconds. -/
  | wait (w : Wait) (timeout : Option Nat)
  | snapshot
  | status
  /-- Computes a proposal and remembers it under a name. -/
  | propose (name : String) (member : MemberId) (bounds : Bounds)
  /-- Commits a remembered proposal. -/
  | submit (name : String)

/-- How the watch of a cache stands. -/
inductive Session.WatchState where
  | none
  | running
  | ended (fault : Option CacheError)

/-- The answer to a command of a session. -/
inductive Session.Report where
  | answer (a : Answer)
  | existed (b : Bool)
  /-- What waited in a named watch, and whether it is closed, if it exists. -/
  | polled (w : Option (List Response × Bool))
  | loaded (revision : Int)
  | cacheFailed (e : CacheError)
  | spawned
  | settled (revision : Int) (published : Bool) (watch : Session.WatchState)
  | stopped (revision : Int) (watch : Session.WatchState)
  /-- How a wait has ended, unless nothing will end it. -/
  | waited (o : Option Outcome)
  | snapshot (s : Snapshot)
  | status (items : List (String × Status))
  | proposed (p : Proposal)
  | proposalFailed (e : AllocatorError)
  | nothing

/-- A hub with an observed keyspace. -/
structure Session where
  hub : Hub
  observer : Observer
  watches : List (String × WatchId)
  proposals : List (String × Proposal)
  /-- The publications of the cache that have been reported. -/
  reported : Nat

namespace Session

/-- The session of an empty store. -/
def start (l : Layout) : Session :=
  ⟨Hub.empty, Observer.empty l, [], [], 0⟩

/-- The published snapshot. -/
def published (s : Session) : Snapshot :=
  s.observer.cache.snapshot

/-! ### Named watches -/

/-- Drops a named watch, if it exists. -/
def dropWatch (s : Session) (name : String) : Session :=
  match s.watches.lookup name with
  | none => s
  | some id => { s with hub := s.hub.drop id, watches := s.watches.filter (·.1 != name) }

/-- Opens a named watch. -/
def openWatch (s : Session) (name scope : String) (revision : Int) : Session × Report :=
  match s.hub.watch scope revision with
  | .error e => (s, .answer (.refused e))
  | .ok (hub, id) =>
    let s := { s with hub }.dropWatch name
    ({ s with watches := (name, id) :: s.watches }, .answer .done)

/-- Takes what waits in a named watch. -/
def poll (s : Session) (name : String) : Session × Report :=
  match (s.watches.lookup name).bind fun id => (s.hub.watch? id).map (id, ·) with
  | none => (s, .polled none)
  | some (id, w) => ({ s with hub := s.hub.take id }, .polled (some (w.pending, w.closed)))

/-! ### The cache -/

/-- Lets the task of the cache run until it has to wait. -/
def run (s : Session) : Session :=
  let ran := s.observer.run s.hub
  { s with observer := ran.1, hub := ran.2 }

/-- How the watch of the cache stands. That it has ended is reported once. -/
def watchState (s : Session) : Session × WatchState :=
  match s.observer.follower with
  | .none => (s, .none)
  | .ended fault => ({ s with observer := { s.observer with follower := .none } }, .ended fault)
  | _ => (s, .running)

/-- Lets the cache catch up. -/
def settle (s : Session) : Session × Report :=
  let (s, state) := s.run.watchState
  let c := s.observer.cache
  ({ s with reported := c.publications },
    .settled c.revision (decide (s.reported < c.publications)) state)

/-- Lets the cache catch up, and then ends its watch. -/
def shutdown (s : Session) : Session × Report :=
  let s := s.run
  let (s, state) := { s with observer := s.observer.cancel }.run.watchState
  (s, .stopped s.observer.cache.revision state)

/-- Waits for the cache. A wait of no time at all does not let it catch up. -/
def wait (s : Session) (w : Wait) (timeout : Option Nat) : Session × Report :=
  if timeout = some 0 then (s, .waited (some (w.limited s.observer.cache)))
  else
    let (outcome, observer, hub) := s.observer.attempt s.hub w
    ({ s with observer, hub },
      .waited (if timeout.isSome then some (w.limited observer.cache) else outcome))

/-! ### Commands -/

/-- The session after a command, and the answer to it. -/
def perform (s : Session) : Command → Session × Report
  | .store r =>
    let (hub, a) := s.hub.perform r
    ({ s with hub }, .answer a)
  | .openWatch name scope revision => s.openWatch name scope revision
  | .dropWatch name => (s.dropWatch name, .existed (s.watches.lookup name).isSome)
  | .poll name => s.poll name
  | .load revision =>
    match s.observer.load s.hub revision with
    | .ok observer => ({ s with observer }, .loaded observer.cache.revision)
    | .error e => (s, .cacheFailed e)
  | .follow cancelled =>
    let (observer, hub) := s.observer.spawn s.hub cancelled
    ({ s with observer, hub }, .spawned)
  | .settle => s.settle
  | .shutdown => s.shutdown
  | .wait w timeout => s.wait w timeout
  | .snapshot => (s, .snapshot s.published)
  | .status =>
    (s, .status (s.published.items.map fun i =>
      (i.value.id,
        Status.ofItem i.value ((s.published.itemAssignments i.value.id).map (·.value)))))
  | .propose name member bounds =>
    match Proposal.require s.published member bounds with
    | .ok p => ({ s with proposals := (name, p) :: s.proposals }, .proposed p)
    | .error e => (s, .proposalFailed e)
  | .submit name =>
    match s.proposals.lookup name with
    | none => (s, .nothing)
    | some p =>
      let (hub, a) := s.hub.perform (.transaction p.transaction)
      ({ s with hub }, .answer a)

/-- The answers to some commands, made one after another. -/
def answers (s : Session) : List Command → List Report
  | [] => []
  | c :: cs =>
    let next := s.perform c
    next.2 :: next.1.answers cs

end Session

end Allotment
