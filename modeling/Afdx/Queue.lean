import Afdx.NetworkProtocol
import Mathlib.Data.PNat.Defs
import Mathlib.Data.Int.Notation
import Mathlib.Data.Nat.Notation
import Mathlib.Logic.Function.Basic

/-!
# The circular queue of received packets

`queue.c`: the two indices, the nodes and the semaphore that counts nodes. `SIZE_QUEUE` is a parameter
`n` of the functions; the header sets it to 100 unless the build overrides it. Each function below is
one critical section under `queue_mutex`; `sem_wait` blocks before the section of `next_nqnode_out`
and is an operation of its own. The count of the semaphore has no bound here: that of the system stays at
`SEM_VALUE_MAX`, where `sem_post` fails and nobody looks at its result.
-/

namespace Afdx

/-- The default `SIZE_QUEUE`. -/
def sizeQueue : ℕ+ := 100

/-- `nqnode_t`. The field `source` is written by `recvfrom` and never read. -/
structure Nqnode where
  packet : AfdxPacket
  lastUpdate : ℤ

/-- The static variables of `queue.c`. -/
structure Queue where
  inPtr : ℕ
  outPtr : ℕ
  nodes : ℕ → Nqnode
  nrNodesQueue : ℕ

/-- The static variables as the program starts, after `init_queue`. -/
def initQueue : Queue where
  inPtr := 0
  outPtr := 0
  nodes _ := ⟨fun _ => 0, 0⟩
  nrNodesQueue := 0

/-- The slot handed out for input, or `none` (`NULL`) if the queue is full. The semaphore is raised in
    both cases. -/
def nextNqnodeIn (n : ℕ) (q : Queue) : Option ℕ × Queue :=
  let nptr := (q.inPtr + 1) % n
  if nptr = q.outPtr then
    (none, { q with nrNodesQueue := q.nrNodesQueue + 1 })
  else
    (some q.inPtr, { q with inPtr := nptr, nrNodesQueue := q.nrNodesQueue + 1 })

/-- `sem_wait(nr_nodes_queue)`: blocks (`none`) while the count is zero. -/
def semWait (q : Queue) : Option Queue :=
  if q.nrNodesQueue = 0 then none else some { q with nrNodesQueue := q.nrNodesQueue - 1 }

/-- The slot that `next_nqnode_out` returns once its `sem_wait` is through, `none` for `NULL`. -/
def nextNqnodeOut (q : Queue) : Option ℕ :=
  if q.outPtr ≠ q.inPtr then some q.outPtr else none

def disposeLastNqnode (n : ℕ) (q : Queue) : Queue :=
  if q.outPtr ≠ q.inPtr then { q with outPtr := (q.outPtr + 1) % n } else q

/-- A store into one node of the queue. -/
def Queue.modifyNode (q : Queue) (slot : ℕ) (f : Nqnode → Nqnode) : Queue :=
  { q with nodes := Function.update q.nodes slot (f (q.nodes slot)) }

end Afdx
