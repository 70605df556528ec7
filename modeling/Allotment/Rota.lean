import Allotment.Cache.Observer
import Allotment.Check
import Allotment.Plan.Proposal
import Allotment.Store.Request
/-!
# Rotas

A rota lets all members of one keyspace take their rounds in turn instead of at the same time. Each
round plans on the latest contents, commits its proposal at once and checks what has become of
the keyspace. `Rota.run` gives every member a round until nobody has anything to do.
-/

namespace Allotment

/-- Why a command of a rota fails. -/
inductive RotaError where
  | store (e : StoreError)
  | edit (e : EditError)
  | cache (e : CacheError)
  | allocator (e : AllocatorError)
  /-- The cache does not catch up with the store. -/
  | stalled (reached latest : Int)
  | notConverged (passes : Nat)
  | invariant (v : Violation)
  deriving DecidableEq, Repr

/-- The wording of a rota's error. -/
def RotaError.message : RotaError → String
  | .store e => "store error: " ++ e.message
  | .edit e => e.message
  | .cache e => "keyspace error: " ++ e.message
  | .allocator e => "allocator error: " ++ e.message
  | .stalled reached latest =>
    "mirror stalled at revision " ++ Numeral.signed reached ++ ", store at " ++
      Numeral.signed latest
  | .notConverged passes => "fleet did not converge within " ++ Numeral.text passes ++ " passes"
  | .invariant v => "invariant violated: " ++ v.message

/-- What a rota has done. -/
structure RotaReport where
  passes : Nat
  rounds : Nat
  commits : Nat
  conflicts : Nat
  changes : Tally
  deriving DecidableEq, Repr

namespace RotaReport

/-- Nothing done yet. -/
def zero : RotaReport :=
  ⟨0, 0, 0, 0, Tally.zero⟩

/-- What has been done since an earlier report. -/
def sub (a b : RotaReport) : RotaReport :=
  ⟨a.passes - b.passes, a.rounds - b.rounds, a.commits - b.commits, a.conflicts - b.conflicts,
    a.changes - b.changes⟩

instance : Sub RotaReport :=
  ⟨sub⟩

end RotaReport

/-- The members of one keyspace, taking rounds in turn. -/
structure Rota where
  hub : Hub
  observer : Observer
  bounds : Bounds
  report : RotaReport

namespace Rota

/-- The rota of the keyspace that a hub holds. -/
def start (h : Hub) (l : Layout) (b : Bounds) : Except RotaError Rota :=
  match (Observer.empty l).load h 0 with
  | .error e => .error (.cache e)
  | .ok o =>
    let spawned := o.spawn h false
    .ok ⟨spawned.2, spawned.1, b, RotaReport.zero⟩

/-- The layout of the keyspace. -/
def layout (r : Rota) : Layout :=
  r.observer.cache.layout

/-! ### Writes from outside -/

/-- The bindings of members with one limit. -/
def memberBindings (l : Layout) (ms : List MemberId) (limit : Nat) : List (String × Bytes) :=
  ms.map fun m => (l.memberKey m, Member.encode limit)

/-- The bindings of items with one replication. -/
def itemBindings (l : Layout) (ids : List String) (replication : Nat) : List (String × Bytes) :=
  ids.map fun id => (l.itemKey id, Item.encode replication)

/-- The rota after a write to its hub, which may have failed. -/
def written (r : Rota) : Except EditError (Hub × Int) → Rota × Except RotaError Unit
  | .ok (hub, _) => ({ r with hub }, .ok ())
  | .error e => (r, .error (.edit e))

/-- Creates members. -/
def createMembers (r : Rota) (ms : List MemberId) (limit : Nat) : Rota × Except RotaError Unit :=
  r.written (r.hub.insert (memberBindings r.layout ms limit))

/-- Changes the limit of members. -/
def limitMembers (r : Rota) (ms : List MemberId) (limit : Nat) : Rota × Except RotaError Unit :=
  r.written (r.hub.update (memberBindings r.layout ms limit))

/-- How many items are created in one transaction. -/
def itemBatch : Nat :=
  256

/-- Creates items, in batches. -/
def createItems (r : Rota) (ids : List String) (replication : Nat) :
    Rota × Except RotaError Unit :=
  let (hub, fault) := r.hub.insertAll (pieces itemBatch (itemBindings r.layout ids replication))
  ({ r with hub },
    match fault with
    | none => .ok ()
    | some e => .error (.edit e))

/-- Changes the replication of items. -/
def replicateItems (r : Rota) (ids : List String) (replication : Nat) :
    Rota × Except RotaError Unit :=
  r.written (r.hub.update (itemBindings r.layout ids replication))

/-! ### Rounds -/

/-- The snapshot of the latest revision, once the cache has caught up. -/
def latest (r : Rota) : Rota × Except RotaError Snapshot :=
  let target := r.hub.store.revision
  let (outcome, observer, hub) := r.observer.attempt r.hub ⟨target, false⟩
  ({ r with observer, hub },
    match outcome with
    | some (.reached s) => .ok s
    | some (.failed e) => .error (.cache e)
    | _ => .error (.stalled observer.cache.revision target))

/-- What must hold after a member has committed a proposal. -/
def checkCommit (s : Snapshot) (m : MemberId) (p : Proposal) : Except Violation Unit := do
  Check.density s
  let memberKey := s.layout.memberKey m
  let load := (s.loads.get? memberKey).getD 0
  let limit := ((s.member? m).map (·.value.limit)).getD 0
  if 0 < p.tally.added && limit < load then throw (.pastLimit memberKey load limit)

/-- Commits a proposal and checks what it has made of the keyspace. -/
def submit (r : Rota) (m : MemberId) (p : Proposal) : Rota × Except RotaError Proposal :=
  match r.hub.commit p.transaction with
  | .error e => (r, .error (.store e))
  | .ok (hub, reply) =>
    if reply.succeeded then
      let r := { r with
        hub
        report := { r.report with
          commits := r.report.commits + 1
          changes := r.report.changes + p.tally } }
      match r.latest with
      | (r, .error e) => (r, .error e)
      | (r, .ok after) =>
        (r,
          match checkCommit after m p with
          | .error v => .error (.invariant v)
          | .ok () => .ok p)
    else
      ({ r with hub, report := { r.report with conflicts := r.report.conflicts + 1 } }, .ok p)

/-- One round of a member. -/
def round (r : Rota) (m : MemberId) : Rota × Except RotaError Proposal :=
  match r.latest with
  | (r, .error e) => (r, .error e)
  | (r, .ok s) =>
    match Proposal.require s m r.bounds with
    | .error e => (r, .error (.allocator e))
    | .ok p =>
      let r := { r with report := { r.report with rounds := r.report.rounds + 1 } }
      if p.isEmpty then (r, .ok p) else r.submit m p

/-- One round of each of some members. Tells whether any of them had something to do. -/
def rounds (r : Rota) (busy : Bool) : List MemberId → Rota × Except RotaError Bool
  | [] => (r, .ok busy)
  | m :: ms =>
    match r.round m with
    | (r, .error e) => (r, .error e)
    | (r, .ok p) => r.rounds (busy || !p.isEmpty) ms

/-- One round of every member, in key order. -/
def pass (r : Rota) : Rota × Except RotaError Bool :=
  match r.latest with
  | (r, .error e) => (r, .error e)
  | (r, .ok s) =>
    match r.rounds false (s.members.map (·.value.id)) with
    | (r, .error e) => (r, .error e)
    | (r, .ok busy) =>
      ({ r with report := { r.report with passes := r.report.passes + 1 } }, .ok busy)

/-- Passes until one changes nothing. -/
def passes (r : Rota) : (limit : Nat) → Rota × Except RotaError Bool
  | 0 => (r, .ok false)
  | limit + 1 =>
    match r.pass with
    | (r, .error e) => (r, .error e)
    | (r, .ok true) => r.passes limit
    | (r, .ok false) => (r, .ok true)

/-- Passes until one changes nothing, and reports what they did. -/
def run (r : Rota) (limit : Nat) : Rota × Except RotaError RotaReport :=
  match r.passes limit with
  | (r', .error e) => (r', .error e)
  | (r', .ok true) => (r', .ok (r'.report - r.report))
  | (r', .ok false) => (r', .error (.notConverged limit))

/-! ### Commands -/

/-- A command of a rota. -/
inductive Command where
  | store (r : Request)
  | createMembers (ms : List MemberId) (limit : Nat)
  | limitMembers (ms : List MemberId) (limit : Nat)
  | createItems (ids : List String) (replication : Nat)
  | replicateItems (ids : List String) (replication : Nat)
  | round (m : MemberId)
  | pass
  | run (limit : Nat)
  | report
  | latest

/-- The answer to a command of a rota. -/
inductive Result where
  | answer (a : Answer)
  | done
  | proposal (p : Proposal)
  | busy (b : Bool)
  | report (r : RotaReport)
  | snapshot (s : Snapshot)
  | failed (e : RotaError)

/-- The answer to a command that may have failed. -/
def answer {α : Type} (ok : α → Result) : Rota × Except RotaError α → Rota × Result
  | (r, .ok a) => (r, ok a)
  | (r, .error e) => (r, .failed e)

/-- The rota after a command, and the answer to it. -/
def perform (r : Rota) : Command → Rota × Result
  | .store q =>
    let (hub, a) := r.hub.perform q
    ({ r with hub }, .answer a)
  | .createMembers ms limit => answer (fun _ => .done) (r.createMembers ms limit)
  | .limitMembers ms limit => answer (fun _ => .done) (r.limitMembers ms limit)
  | .createItems ids n => answer (fun _ => .done) (r.createItems ids n)
  | .replicateItems ids n => answer (fun _ => .done) (r.replicateItems ids n)
  | .round m => answer .proposal (r.round m)
  | .pass => answer .busy r.pass
  | .run limit => answer .report (r.run limit)
  | .report => (r, .report r.report)
  | .latest => answer .snapshot r.latest

/-- The answers to some commands, made one after another. -/
def answers (r : Rota) : List Command → List Result
  | [] => []
  | c :: cs =>
    let next := r.perform c
    next.2 :: next.1.answers cs

end Rota

end Allotment
