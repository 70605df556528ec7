import Allotment.Allocator.Basic
import Allotment.Cache.Observer
import Allotment.Store.Request
/-!
# Rehearsals

A rehearsal runs one allocator against a hub of its own, with prescribed requests before it starts,
around each of its transactions and after each of its rounds, and keeps a log. The wait for a
revision times out when nothing else can happen any more, and the allocator is cancelled after a
number of rounds.
-/

namespace Allotment

/-- What happens around a transaction. -/
inductive Rehearsal.Action where
  | request (r : Request)
  /-- The cache catches up. -/
  | settle

/-- What is prescribed for a rehearsal. -/
structure Rehearsal.Script where
  layout : Layout
  member : MemberId
  bounds : Bounds
  seed : List Request
  /-- The cache is loaded. -/
  load : Bool
  afterLoad : List Request
  /-- The cache is kept current. -/
  follow : Bool
  maxRounds : Nat
  /-- Requests after the rounds of these numbers. -/
  hooks : List (Nat × List Request)
  /-- What happens just before the transactions of these numbers. -/
  before : List (Nat × List Rehearsal.Action)
  /-- What happens just after the transactions of these numbers. -/
  after : List (Nat × List Rehearsal.Action)

/-- An entry in the log of a rehearsal. -/
inductive Rehearsal.Entry where
  | seed (a : Answer)
  | afterLoad (a : Answer)
  | before (transaction : Nat) (a : Answer)
  | transaction (number : Nat) (writes : List Write) (reply : Except StoreError Reply)
  | after (transaction : Nat) (a : Answer)
  /-- A round has ended, with the cache at `revision` and after so many waits that timed out. -/
  | round (number : Nat) (idle : Bool) (revision : Int) (timeouts : Nat)
  | hook (round : Nat) (a : Answer)

/-- A running rehearsal. -/
structure Rehearsal where
  hub : Hub
  observer : Observer
  allocator : Allocator
  /-- The transactions so far. -/
  transactions : Nat
  /-- The waits that timed out so far. -/
  timeouts : Nat
  log : List Rehearsal.Entry

namespace Rehearsal

/-- The rehearsal with one more entry in its log. -/
def record (r : Rehearsal) (e : Entry) : Rehearsal :=
  { r with log := r.log ++ [e] }

/-- The rehearsal after some requests, with their answers in the log. -/
def requests (r : Rehearsal) (entry : Answer → Entry) (rs : List Request) : Rehearsal :=
  let (hub, answers) := r.hub.performAll rs
  { r with hub, log := r.log ++ answers.map entry }

/-- The rehearsal after one action. -/
def act (r : Rehearsal) (entry : Answer → Entry) : Action → Rehearsal
  | .request q => r.requests entry [q]
  | .settle =>
    let (observer, hub) := r.observer.run r.hub
    { r with observer, hub }

/-- The rehearsal after the actions that stand under a number. -/
def actAll (r : Rehearsal) (entry : Answer → Entry) (number : Nat)
    (actions : List (Nat × List Action)) : Rehearsal :=
  ((actions.filter (·.1 == number)).flatMap (·.2)).foldl (fun r a => r.act entry a) r

/-- The rehearsal after a wait of the allocator. -/
def wait (r : Rehearsal) : Rehearsal × Outcome :=
  let w : Wait := ⟨r.allocator.awaited, false⟩
  let (outcome, observer, hub) := r.observer.attempt r.hub w
  match outcome with
  | some o => ({ r with observer, hub }, o)
  | none =>
    ({ r with observer, hub, timeouts := r.timeouts + 1 }, .timedOut observer.cache.snapshot)

/-- The rehearsal after a transaction of the allocator, and the store's answer. -/
def commit (r : Rehearsal) (s : Script) (p : Proposal) : Rehearsal × Except StoreError Reply :=
  let n := r.transactions + 1
  let r := { r with transactions := n }.actAll (.before n) n s.before
  let (hub, reply) : Hub × Except StoreError Reply :=
    match r.hub.commit p.transaction with
    | .ok (hub, reply) => (hub, .ok reply)
    | .error e => (r.hub, .error e)
  let r := { r with hub }.record (.transaction n p.transaction.writes reply)
  (r.actAll (.after n) n s.after, reply)

/-- The rehearsal after a round has ended. -/
def finishRound (r : Rehearsal) (s : Script) (idle : Bool) : Rehearsal :=
  let n := r.allocator.round
  let r := r.record (.round n idle r.observer.cache.revision r.timeouts)
  r.requests (.hook n) ((s.hooks.filter (·.1 == n)).flatMap (·.2))

/-- One round. Tells how the allocator has halted, if it has. -/
def round (r : Rehearsal) (s : Script) : Rehearsal × Option (Option AllocatorError) :=
  let (r, outcome) := r.wait
  let (allocator, step) := r.allocator.resume outcome
  let r := { r with allocator }
  match step with
  | .halted fault => (r, some fault)
  | .idle => (r.finishRound s true, none)
  | .submits p =>
    match r.commit s p with
    | (r, .error e) => (r, some (some (.store e)))
    | (r, .ok reply) =>
      ({ r with allocator := r.allocator.settle p reply }.finishRound s false, none)

/-- A round and at most `more` others. Tells why the allocator has halted, unless its member was
drained. -/
def rounds (s : Script) : (more : Nat) → Rehearsal → Rehearsal × Option AllocatorError
  | more, r =>
    match r.round s with
    | (r, some fault) => (r, fault)
    | (r, none) =>
      match more with
      | 0 => (r, some .cancelled)
      | more + 1 => rounds s more r

/-- How a rehearsal has ended. -/
inductive Ending where
  | loadFailed (e : CacheError)
  /-- The allocator has halted: its member is drained, unless there is a fault. -/
  | halted (fault : Option AllocatorError)

/-- Plays a rehearsal to its end. The cache has caught up when the allocator starts. -/
def play (s : Script) : Rehearsal × Ending :=
  let seeded : Rehearsal :=
    (⟨Hub.empty, Observer.empty s.layout, Allocator.start s.member s.bounds 0, 0, 0, []⟩ :
      Rehearsal).requests .seed s.seed
  match if s.load then seeded.observer.load seeded.hub 0 else .ok seeded.observer with
  | .error e => (seeded, .loadFailed e)
  | .ok observer =>
    let loaded := { seeded with observer }.requests .afterLoad s.afterLoad
    let (observer, hub) :=
      if s.follow then
        let spawned := loaded.observer.spawn loaded.hub false
        spawned.1.run spawned.2
      else (loaded.observer, loaded.hub)
    let started := { loaded with
      observer
      hub
      allocator := Allocator.start s.member s.bounds observer.cache.revision }
    let (r, fault) := started.rounds s (s.maxRounds - 1)
    (r, .halted fault)

/-- All that the store holds in the end. -/
def contents (r : Rehearsal) : Reading :=
  ⟨r.hub.store.revision, r.hub.store.live.entriesUnder ""⟩

end Rehearsal

end Allotment
