import Allotment.Cache.Wait
/-!
# Scripted streams

A script prescribes what a store answers to one load and one watch, and when the stream pauses.
`Script.play` lets a cache follow it, and records what the cache asks for and which revision it has
published whenever it is handed a delivery.
-/

namespace Allotment

/-- How the stream of a script goes on behind its signals. -/
inductive Ending where
  /-- Nothing more comes. -/
  | opened
  /-- The stream is closed. -/
  | closed
  /-- The stream is refused from the start. -/
  | refused (e : StoreError)

/-- What a store answers. -/
structure Script where
  reading : Except StoreError Reading
  signals : List Signal
  ending : Ending

/-- What a cache does with a script. -/
inductive Note where
  | range (scope : String) (revision : Int)
  | watch (scope : String) (revision : Int)
  | deliver (revision : Int)

/-- How a cache has fared with a script. -/
structure Playback where
  /-- Why the load failed, if it did. -/
  loadFault : Option CacheError
  /-- The cache still follows the stream. -/
  running : Bool
  /-- Why the watch failed, if it did. -/
  watchFault : Option CacheError
  cache : Cache
  log : List Note

namespace Script

/-- A cache follows the stream of a script. -/
def follow (s : Script) (c : Cache) (log : List Note) (loadFault : Option CacheError) :
    Playback :=
  match c.from? with
  | .error e => ⟨loadFault, false, some e, c, log⟩
  | .ok revision =>
    let log := log ++ [.watch c.layout.scope revision]
    match s.ending with
    | .refused e => ⟨loadFault, false, some (.store e), c.stop (some (.store e)), log⟩
    | ending =>
      let followed := c.follow s.signals
      let log := log ++ followed.handedAt.map .deliver
      match followed.fault, ending with
      | some e, _ => ⟨loadFault, false, some e, followed.cache, log⟩
      | none, .closed =>
        let e : CacheError := .store .closed
        ⟨loadFault, false, some e, followed.cache.stop (some e), log⟩
      | none, _ => ⟨loadFault, true, none, followed.cache.flush, log⟩

/-- A cache is loaded as of a revision and then follows the stream. -/
def play (s : Script) (l : Layout) (revision : Int) : Playback :=
  let c := Cache.empty l
  let log := [.range l.scope revision]
  match c.load s.reading with
  | .error e => s.follow c log (some e)
  | .ok c => s.follow c log none

end Script

end Allotment
