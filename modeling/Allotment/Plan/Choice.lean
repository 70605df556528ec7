/-!
# Choosing one of a list

`choose?` lets each element of a list challenge the one chosen before it. With a strict order it
picks the first of the best elements, and with its reflexive closure the last of them.
-/

namespace Allotment

variable {α : Type}

/-- The element that is left when each in turn replaces the one before it if it beats that. -/
def choose? (beats : α → α → Bool) : List α → Option α
  | [] => none
  | a :: l => some (l.foldl (fun m x => if beats x m then x else m) a)

/-- A list without one element, whose place the last one takes. -/
def eraseBySwap [BEq α] (l : List α) (a : α) : List α :=
  match l.getLast? with
  | none => []
  | some z => l.dropLast.replace a z

end Allotment
