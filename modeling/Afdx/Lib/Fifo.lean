import Mathlib.Data.List.Basic

/-!
# Bounded first-in first-out queues

A queue of at most `cap` different items, as a partial step function on the list of its items. A call carries
what it returns, so that a run says what the callers see.
-/

namespace Fifo

variable {α : Type*}

/-- The calls, each with its result. -/
inductive Call (α : Type*)
  /-- A new item is put in, or none because the queue is full. -/
  | put (item : Option α)
  /-- The oldest item is looked at. -/
  | peek (item : Option α)
  /-- The oldest item is taken out, if there is one. -/
  | drop (dropped : Bool)

/-- One call. -/
def step [DecidableEq α] (cap : ℕ) (items : List α) : Call α → Option (List α)
  | .put (some x) => if items.length < cap ∧ x ∉ items then some (items ++ [x]) else none
  | .put none => if items.length = cap then some items else none
  | .peek item => if item = items.head? then some items else none
  | .drop dropped => if dropped = !items.isEmpty then some items.tail else none

end Fifo
