import Afdx.Lib.Fifo
import Afdx.Lib.Lts
import Afdx.Queue

/-!
# Calls of the queue in any order

The functions of `queue.c` called one after the other, in any order. A call carries what it returns, and
`dispose_last_nqnode` whether it moves `out_ptr`.
-/

namespace Afdx

inductive QueueCall
  | nextNqnodeIn (node : Option ℕ)
  | nextNqnodeOut (node : Option ℕ)
  | disposeLastNqnode (moved : Bool)
  deriving DecidableEq

/-- One call; `n` is `SIZE_QUEUE`. It is not enabled if its `sem_wait` blocks. -/
def Queue.call (n : ℕ) (q : Queue) : QueueCall → Option Queue
  | .nextNqnodeIn node => if (nextNqnodeIn n q).1 = node then some (nextNqnodeIn n q).2 else none
  | .nextNqnodeOut node => (semWait q).bind fun q => if nextNqnodeOut q = node then some q else none
  | .disposeLastNqnode moved =>
    if decide (q.outPtr ≠ q.inPtr) = moved then some (disposeLastNqnode n q) else none

/-- The call reserves a slot. -/
def QueueCall.reserves : QueueCall → Bool
  | nextNqnodeIn node => node.isSome
  | _ => false

/-- The call disposes of a slot. -/
def QueueCall.disposes : QueueCall → Bool
  | disposeLastNqnode moved => moved
  | _ => false

/-- The number of successful reservations. -/
def reserved (calls : List QueueCall) : ℕ := calls.countP QueueCall.reserves

/-- The number of disposals that had an effect. -/
def disposed (calls : List QueueCall) : ℕ := calls.countP QueueCall.disposes

/-- What the call means for the slots in use. -/
def QueueCall.fifoCall : QueueCall → Fifo.Call ℕ
  | nextNqnodeIn node => .put node
  | nextNqnodeOut node => .peek node
  | disposeLastNqnode moved => .drop moved

end Afdx
