import Allotment.Snapshot
/-!
# The cache of a keyspace

A cache publishes snapshots of a keyspace. It is loaded from one ranged read and then kept current
by a stream of responses, which it applies to a draft. When nothing more is ready, the draft is
published as a whole; when something fails, the draft is dropped, the cache keeps what it has
published, and it has to be loaded again before it can go on.
-/

namespace Allotment

/-- What a stream of changes hands over. -/
inductive Delivery where
  | response (r : Response)
  | failure (e : StoreError)

/-- What happens on a stream of changes. -/
inductive Signal where
  | handed (d : Delivery)
  /-- Nothing is ready for now. -/
  | pause

/-- A cache of a keyspace. -/
structure Cache where
  /-- The published snapshot. -/
  snapshot : Snapshot
  /-- The snapshot that the deliveries since the last pause lead to, if there are any. -/
  draft : Option Snapshot
  /-- The cache may be kept current from its snapshot on. -/
  loaded : Bool
  /-- Why the cache will not advance until it is loaded again. -/
  failure : Option CacheError
  /-- How often a snapshot has been published. -/
  publications : Nat

namespace Cache

/-- The cache of a keyspace that has not been loaded. -/
def empty (l : Layout) : Cache :=
  ⟨Snapshot.empty l, none, false, none, 0⟩

instance : Inhabited Cache :=
  ⟨empty default⟩

/-- The layout of the keyspace. -/
def layout (c : Cache) : Layout :=
  c.snapshot.layout

/-- The revision of the published snapshot. -/
def revision (c : Cache) : Int :=
  c.snapshot.revision

/-- The cache after a snapshot has been published. -/
def publish (c : Cache) (s : Snapshot) : Cache :=
  { c with snapshot := s, publications := c.publications + 1 }

/-- The cache after it has been loaded from a ranged read. -/
def load (c : Cache) (reading : Except StoreError Reading) : Except CacheError Cache := do
  let r ← reading.mapError .store
  let s ← (Snapshot.ofEntries c.layout r.revision r.entries).mapError .decode
  return { c.publish s with loaded := true, failure := none }

/-! ### Following a stream -/

/-- The revision that the stream of changes must start from. -/
def from? (c : Cache) : Except CacheError Int :=
  if c.loaded then .ok (c.revision + 1) else .error .notLoaded

/-- The cache after it has been handed a delivery. -/
def deliver (c : Cache) : Delivery → Except CacheError Cache
  | .response r => ((c.draft.getD c.snapshot).apply r).map fun s => { c with draft := some s }
  | .failure e => .error (.store e)

/-- The cache after its draft, if there is one, has been published. -/
def flush (c : Cache) : Cache :=
  match c.draft with
  | none => c
  | some s => { c.publish s with draft := none }

/-- The cache after its stream has ended, perhaps by an error. -/
def stop (c : Cache) (fault : Option CacheError) : Cache :=
  { c with draft := none, loaded := false, failure := fault.orElse fun _ => c.failure }

/-- How far a cache has followed a stream. -/
structure Followed where
  cache : Cache
  /-- The error that has ended the stream, if one has. -/
  fault : Option CacheError
  /-- The published revision at each delivery that was handed over. -/
  handedAt : List Int

/-- Follows a stream to the end of some signals, without a pause after the last. -/
def follow (c : Cache) : List Signal → Followed
  | [] => ⟨c, none, []⟩
  | .pause :: rest => c.flush.follow rest
  | .handed d :: rest =>
    match c.deliver d with
    | .error e => ⟨c.stop (some e), some e, [c.revision]⟩
    | .ok next =>
      let f := next.follow rest
      { f with handedAt := c.revision :: f.handedAt }

end Cache

end Allotment
