import Allotment.Allocator.Basic
import Allotment.Cache.Observer
import Allotment.Simulation.Options
import Allotment.Store.Request
/-!
# Clusters

A cluster is a number of workers on one hub, each an allocator with a cache of its own. Workers run
only while the cluster settles: they take turns until none has anything to do, and the cluster is
settled if the last round of each was idle at the store's revision. A worker whose allocator has
halted leaves the cluster, and a fault of it fails the settling.
-/

namespace Allotment

/-- Why a step of a cluster fails. -/
inductive ClusterError where
  | seeding (e : StoreError)
  | updating (e : StoreError)
  | loading (id : String) (e : CacheError)
  | failed (id : String) (e : AllocatorError)
  | unsettled (seconds : Nat) (revision : Int)

/-- A duration of whole seconds. -/
def secondsText (seconds : Nat) : String :=
  if seconds = 0 then "0ns" else Numeral.text seconds ++ "s"

/-- The wording of a cluster's error. -/
def ClusterError.message : ClusterError → String
  | .seeding _ => "seeding keyspace"
  | .updating _ => "updating member limit"
  | .loading id _ => "loading keyspace for " ++ id
  | .failed id _ => "allocator for " ++ id ++ " failed"
  | .unsettled seconds revision =>
    "fleet did not settle within " ++ secondsText seconds ++ " at revision " ++
      Numeral.signed revision

/-- Where a worker stands. -/
inductive WorkerState where
  | running
  /-- The allocator has halted, and the cluster has not noticed yet. -/
  | halted (fault : Option AllocatorError)
  | left

/-- An allocator with a cache of its own. -/
structure Worker where
  observer : Observer
  allocator : Allocator
  state : WorkerState
  /-- The revision at which its last round was idle, if it was. -/
  idleAt : Option Int

namespace Worker

/-- The worker after a round of its allocator. -/
def finishRound (w : Worker) (idle : Bool) : Worker :=
  { w with idleAt := if idle then some w.observer.cache.revision else none }

/-- The worker after its allocator has halted, which ends its watch too. -/
def halt (w : Worker) (h : Hub) (fault : Option AllocatorError) : Worker × Hub × Bool :=
  ({ w with state := .halted fault, observer := { w.observer with follower := .none } },
    w.observer.abandon h, true)

/-- One round of a worker, unless it has to wait. Tells whether it took one. -/
def turn (w : Worker) (h : Hub) : Worker × Hub × Bool :=
  match w.state with
  | .running =>
    let (outcome, observer, h) := w.observer.attempt h ⟨w.allocator.awaited, false⟩
    let w := { w with observer }
    match outcome with
    | none => (w, h, false)
    | some o =>
      let (allocator, step) := w.allocator.resume o
      let w := { w with allocator }
      match step with
      | .halted fault => w.halt h fault
      | .idle => (w.finishRound true, h, true)
      | .submits p =>
        match h.commit p.transaction with
        | .error e => w.halt h (some (.store e))
        | .ok (h, reply) =>
          ({ w with allocator := w.allocator.settle p reply }.finishRound false, h, true)
  | _ => (w, h, false)

/-- The worker has not left, and its last round was not idle at a revision. -/
def isBusyAt (w : Worker) (revision : Int) : Bool :=
  match w.state with
  | .left => false
  | _ => w.idleAt != some revision

/-- The worker has left the cluster. -/
def hasLeft (w : Worker) : Bool :=
  match w.state with
  | .left => true
  | _ => false

end Worker

/-- Workers on one hub. -/
structure Cluster where
  hub : Hub
  options : Options
  workers : List Worker

namespace Cluster

/-- A cluster without workers. -/
def start (h : Hub) (o : Options) : Cluster :=
  ⟨h, o, []⟩

/-- The layout of the keyspace. -/
def layout (c : Cluster) : Layout :=
  Layout.ofRoot c.options.root

/-- The bounds of all allocators. -/
def bounds (c : Cluster) : Bounds :=
  ⟨c.options.maxWrites, c.options.repairs⟩

/-! ### Writes from outside -/

/-- How many keys are written in one transaction. -/
def seedBatch : Nat :=
  512

/-- The name of an item, by its number with at least six digits. -/
def itemName (n : Nat) : String :=
  "item-" ++ Numeral.padded 6 n

/-- The hub after some transactions, up to the first that fails. -/
def commitAll (h : Hub) : List (List Write) → Hub × Option StoreError
  | [] => (h, none)
  | writes :: rest =>
    match h.commit ⟨[], writes⟩ with
    | .error e => (h, some e)
    | .ok (h, _) => commitAll h rest

/-- Writes members and items, in batches. -/
def populate (c : Cluster) (members : List Member) (items replication : Nat) :
    Cluster × Except ClusterError Unit :=
  let writes : List Write :=
    members.map (fun m => .put (c.layout.memberKey m.id) (Member.encode m.limit)) ++
      (List.range items).map fun n =>
        .put (c.layout.itemKey (itemName n)) (Item.encode replication)
  let (hub, fault) := commitAll c.hub (pieces seedBatch writes)
  ({ c with hub },
    match fault with
    | none => .ok ()
    | some e => .error (.seeding e))

/-- Sets the limit of the member of a worker. -/
def limitMember (c : Cluster) (index limit : Nat) : Cluster × Except ClusterError Unit :=
  match c.workers[index]? with
  | none => (c, .ok ())
  | some w =>
    let write : Write := .put (c.layout.memberKey w.allocator.member) (Member.encode limit)
    match c.hub.commit ⟨[], [write]⟩ with
    | .error e => (c, .error (.updating e))
    | .ok (hub, _) => ({ c with hub }, .ok ())

/-- A worker for a member, and its number. -/
def addWorker (c : Cluster) (m : MemberId) : Cluster × Except ClusterError Nat :=
  match (Observer.empty c.layout).load c.hub 0 with
  | .error e => (c, .error (.loading m.id e))
  | .ok o =>
    let (observer, hub) := o.spawn c.hub false
    let w : Worker :=
      ⟨observer, Allocator.start m c.bounds observer.cache.revision, .running, none⟩
    ({ c with hub, workers := c.workers ++ [w] }, .ok c.workers.length)

/-! ### Settling -/

/-- One turn of each of some workers. Tells whether any took a round. -/
def turns (h : Hub) : List Worker → List Worker × Hub × Bool
  | [] => ([], h, false)
  | w :: ws =>
    let (w, h, busy) := w.turn h
    let (ws, h, busy') := turns h ws
    (w :: ws, h, busy || busy')

/-- Turns of all workers, until none takes a round. -/
def work : (turns : Nat) → Cluster → Cluster
  | 0, c => c
  | n + 1, c =>
    let (workers, hub, busy) := turns c.hub c.workers
    let c := { c with workers, hub }
    if busy then work n c else c

/-- Workers whose allocators have halted leave, up to the first that has a fault. -/
def dismissAll : List Worker → List Worker × Except ClusterError Unit
  | [] => ([], .ok ())
  | w :: ws =>
    match w.state with
    | .halted (some e) =>
      ({ w with state := .left } :: ws, .error (.failed w.allocator.member.id e))
    | .halted none =>
      let (ws, result) := dismissAll ws
      ({ w with state := .left } :: ws, result)
    | _ =>
      let (ws, result) := dismissAll ws
      (w :: ws, result)

/-- Workers whose allocators have halted leave. -/
def dismiss (c : Cluster) : Cluster × Except ClusterError Unit :=
  let (workers, result) := dismissAll c.workers
  ({ c with workers }, result)

/-- Every worker has left or was last idle at the store's revision. -/
def isSettled (c : Cluster) : Bool :=
  c.workers.all fun w => !w.isBusyAt c.hub.store.revision

/-- How many turns the workers may take in one second of patience. -/
def turnsPerSecond : Nat :=
  10000

/-- Lets the workers run until they are settled. A cluster without patience is only looked at. -/
def settle (c : Cluster) : Cluster × Except ClusterError Unit :=
  match c.dismiss with
  | (c, .error e) => (c, .error e)
  | (c, .ok ()) =>
    if c.isSettled then (c, .ok ())
    else
      match (work (c.options.settleTimeout * turnsPerSecond) c).dismiss with
      | (c, .error e) => (c, .error e)
      | (c, .ok ()) =>
        if c.isSettled then (c, .ok ())
        else (c, .error (.unsettled c.options.settleTimeout c.hub.store.revision))

/-- The worker of a number has left. -/
def hasLeft (c : Cluster) (index : Nat) : Bool :=
  (c.workers[index]?).any (·.hasLeft)

/-- Ends the cluster, and sums the counters of all workers. -/
def totals (c : Cluster) : Except ClusterError Counters :=
  match c.dismiss with
  | (_, .error e) => .error e
  | (c, .ok ()) => .ok ((c.workers.map (·.allocator.counters)).foldl (· + ·) Counters.zero)

/-! ### Commands -/

/-- A command of a cluster. -/
inductive Command where
  | store (r : Request)
  | populate (members : List Member) (items replication : Nat)
  | addWorker (m : MemberId)
  | limitMember (index limit : Nat)
  | settle
  | left (index : Nat)

/-- The answer to a command of a cluster. -/
inductive Result where
  | answer (a : Answer)
  | index (n : Nat)
  | left (b : Bool)
  | failed (e : ClusterError)

/-- The answer to a step: the store's revision, unless it has failed. -/
def revisionResult (step : Cluster × Except ClusterError Unit) : Cluster × Result :=
  (step.1,
    match step.2 with
    | .ok () => .answer (.revision step.1.hub.store.revision)
    | .error e => .failed e)

/-- The cluster after a command, and the answer to it. -/
def perform (c : Cluster) : Command → Cluster × Result
  | .store r =>
    let (hub, a) := c.hub.perform r
    ({ c with hub }, .answer a)
  | .populate members items replication => revisionResult (c.populate members items replication)
  | .addWorker m =>
    match c.addWorker m with
    | (c, .ok n) => (c, .index n)
    | (c, .error e) => (c, .failed e)
  | .limitMember index limit => revisionResult (c.limitMember index limit)
  | .settle => revisionResult c.settle
  | .left index => (c, .left (c.hasLeft index))

/-- The cluster after some commands, made one after another, and the answers to them. -/
def performAll (c : Cluster) : List Command → Cluster × List Result
  | [] => (c, [])
  | q :: qs =>
    let next := c.perform q
    let rest := next.1.performAll qs
    (rest.1, next.2 :: rest.2)

end Cluster

end Allotment
