import Allotment.Simulation.Cluster
/-!
# The rolling deploy

What a simulation plays. A leader with room for one item and five blocks of old members hold the
items of the keyspace. Block after block, new members join and then old members drain, and each time
the cluster has to settle; in the end the leader drains. The counters of all members tell how much
moved on the way.
-/

namespace Allotment

/-- Why a rolling deploy does not come to its end. -/
inductive RolloutError where
  | notPositive
  | cluster (e : ClusterError)
  | leaderStuck

/-- The wording of a rollout's error. -/
def RolloutError.message : RolloutError → String
  | .notPositive => "--block and --zones must be positive"
  | .cluster e => e.message
  | .leaderStuck => "leader did not finish draining"

/-- What a rolling deploy has come to. -/
structure Summary where
  totals : Counters
  /-- The old members that are still draining. -/
  stuck : Nat
  deriving Repr

namespace Rollout

/-- Steps of a cluster, each of which may end the rollout. -/
abbrev Play := StateT Cluster (Except RolloutError)

/-- One step of the cluster. -/
def step {α : Type} (f : Cluster → Cluster × Except ClusterError α) : Play α := fun c =>
  match f c with
  | (c, .ok a) => .ok (a, c)
  | (_, .error e) => .error (.cluster e)

/-- How many items the leader may hold. -/
def leaderLimit : Nat := 1

/-- How many items an old member may hold. -/
def oldLimit : Nat := 1500

/-- How many items a new member may hold. -/
def newLimit : Nat := 1205

/-- The items of one block. -/
def itemsPerBlock : Nat := 2000

/-- The replicas of each item. -/
def replication : Nat := 3

/-- How many blocks of old members there are. -/
def blocks : Nat := 5

/-- The zone of a member, by its number. -/
def zone (o : Options) (n : Nat) : String :=
  "zone-" ++ Numeral.text (n % o.zones)

/-- The member that drains last. -/
def leader (o : Options) : Member :=
  ⟨⟨zone o 0, "leader"⟩, leaderLimit⟩

/-- An old member, by its number. -/
def oldMember (o : Options) (n : Nat) : Member :=
  ⟨⟨zone o n, "old-" ++ Numeral.padded 4 n⟩, oldLimit⟩

/-- A new member, by its number. -/
def newMember (o : Options) (n : Nat) : Member :=
  ⟨⟨zone o n, "new-" ++ Numeral.padded 4 n⟩, newLimit⟩

/-- The numbers of one block. -/
def blockNumbers (o : Options) (k : Nat) : List Nat :=
  (List.range o.block).map (k * o.block + ·)

/-- One block joins and one drains. The old member of number `n` is the worker of number `n + 1`. -/
def replaceBlock (o : Options) (k : Nat) : Play Unit := do
  let joining := (blockNumbers o k).map (newMember o)
  step (·.populate joining 0 replication)
  for m in joining do
    let _ ← step (·.addWorker m.id)
  step (·.settle)
  for n in blockNumbers o k do
    step (·.limitMember (n + 1) 0)
  step (·.settle)

/-- The rollout from the first allocation until the leader has drained. -/
def play (o : Options) : Play Unit := do
  let old := (List.range (blocks * o.block)).map (oldMember o)
  let first := leader o :: old
  step (·.populate first (itemsPerBlock * o.block) replication)
  for m in first do
    let _ ← step (·.addWorker m.id)
  step (·.settle)
  for k in List.range blocks do
    replaceBlock o k
  step (·.limitMember 0 0)
  step (·.settle)

/-- What the rollout with some options comes to. -/
def run (o : Options) : Except RolloutError Summary :=
  if o.block = 0 ∨ o.zones = 0 then .error .notPositive
  else do
    let (_, c) ← (play o).run (Cluster.start Hub.empty o)
    if !c.hasLeft 0 then throw .leaderStuck
    let stuck := (List.range (blocks * o.block)).countP fun n => !c.hasLeft (n + 1)
    let totals ← c.totals.mapError .cluster
    return ⟨totals, stuck⟩

end Rollout

end Allotment
