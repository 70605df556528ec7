import Allotment.Cache.Basic
/-!
# Waiting for a revision

A wait for a cache to reach a revision ends when it has, when the cache fails or when the wait is
cancelled; a wait with a limit also ends when its time is up. `Wait.ready?` says how a wait ends as
things stand, and `Wait.limited` how one with a limit ends if nothing else happens before that.
-/

namespace Allotment

/-- How a wait for a revision ends. -/
inductive Outcome where
  | reached (s : Snapshot)
  | timedOut (s : Snapshot)
  | cancelled
  | failed (e : CacheError)

/-- A wait for a cache to reach a revision. -/
structure Wait where
  revision : Int
  cancelled : Bool

namespace Wait

/-- How the wait ends as things stand, if it does. -/
def ready? (w : Wait) (c : Cache) : Option Outcome :=
  if w.revision ≤ c.revision then some (.reached c.snapshot)
  else
    match c.failure with
    | some e => some (.failed e)
    | none => if w.cancelled then some .cancelled else none

/-- How a wait with a limit ends if nothing else happens. -/
def limited (w : Wait) (c : Cache) : Outcome :=
  (w.ready? c).getD (.timedOut c.snapshot)

end Wait

end Allotment
