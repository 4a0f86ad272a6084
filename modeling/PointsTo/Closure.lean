/-! Breadth-first closure. Starting from one value, the search expands the values found in the order
in which they were found and adds, each once, the successors that are new. -/

namespace PointsTo

namespace Closure

variable {α : Type} [DecidableEq α]

/-- What `successors` adds to the values found, each once, in order. -/
def fresh (found successors : List α) : List α := (successors.filter (· ∉ found)).eraseDups

/-- Expands at most `fuel` values of the queue. -/
def expand (next : α → List α) : Nat → List α → List α → List α
  | 0, _, found => found
  | _ + 1, [], found => found
  | fuel + 1, a :: queue, found =>
    let new := fresh found (next a)
    expand next fuel (queue ++ new) (found ++ new)

end Closure

/-- Everything reached from `start` in steps of `next`, nearest first; `bound` is at least the number
of values that can be reached. -/
def closure {α : Type} [DecidableEq α] (next : α → List α) (bound : Nat) (start : α) : List α :=
  Closure.expand next bound [start] [start]

end PointsTo
