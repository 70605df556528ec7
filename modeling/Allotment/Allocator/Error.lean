import Allotment.Cache.Error
/-!
# Errors of an allocator

An allocator stops because its cache fails, because the store does not answer, because its member
does not exist, or because it is told to. A refused transaction is no error.
-/

namespace Allotment

/-- Why an allocator stops before its member has been drained. -/
inductive AllocatorError where
  | cache (e : CacheError)
  | store (e : StoreError)
  /-- The member of this key does not exist. -/
  | memberNotFound (key : String)
  | cancelled
  deriving DecidableEq, Repr

/-- The wording of an allocator's error. -/
def AllocatorError.message : AllocatorError → String
  | .cache e => "keyspace error: " ++ e.message
  | .store e => "store error: " ++ e.message
  | .memberNotFound k => "local member " ++ k ++ " not found in keyspace"
  | .cancelled => "allocator cancelled"

end Allotment
