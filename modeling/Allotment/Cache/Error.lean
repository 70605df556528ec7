import Allotment.Resource
import Allotment.Store.Basic
/-!
# Errors of a cache

A cache of a keyspace fails because the store does not answer, because a stored entry cannot be
read, because changes arrive out of order, or because it has not been loaded yet.
-/

namespace Allotment

/-- Why a cache cannot be loaded or kept current. -/
inductive CacheError where
  | store (e : StoreError)
  | decode (e : DecodeError)
  /-- The cache stands at `revision` and cannot go on with changes of `received`. -/
  | gap (revision received : Int)
  | notLoaded
  deriving DecidableEq, Repr

namespace CacheError

/-- The wording of a cache's error. -/
def message : CacheError → String
  | .store e => "store error: " ++ e.message
  | .decode e => "decode error: " ++ e.message
  | .gap revision received =>
    "watch gap: mirror at revision " ++ Numeral.signed revision ++ ", received revision " ++
      Numeral.signed received
  | .notLoaded => "keyspace has not been loaded"

/-- The changes that the cache needs are lost, so that it must be loaded again. -/
def needsReload : CacheError → Bool
  | .gap _ _ => true
  | .store (.compacted _ _) => true
  | _ => false

end CacheError

end Allotment
