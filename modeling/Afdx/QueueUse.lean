import Afdx.Lib.Lts
import Afdx.Queue

/-!
# The queue in use

Any number of calls of `next_nqnode_in` together with one consumer that calls `next_nqnode_out` and
`dispose_last_nqnode` in turn, as a transition system. A call is one critical section, except that
`next_nqnode_out` waits for the semaphore before it takes `queue_mutex`.
-/

namespace Afdx

/-- Where the consumer stands. -/
inductive ConsumerPc
  /-- About to call `next_nqnode_out`, at its `sem_wait`. -/
  | semWait
  /-- In `next_nqnode_out`, after `sem_wait`. -/
  | nextNqnodeOut
  /-- About to call `dispose_last_nqnode`. -/
  | dispose
  deriving DecidableEq

/-- History of a run: it is written by the steps and read by none. -/
structure QueueUseHist where
  /-- Slots handed out by `next_nqnode_in`. -/
  handedOut : ℕ
  /-- Calls of `next_nqnode_in` that returned `NULL`. -/
  failed : ℕ
  /-- Slots returned by `next_nqnode_out`. -/
  returned : ℕ
  /-- Calls of `next_nqnode_out` that returned `NULL`. -/
  nulls : ℕ

structure QueueUse where
  queue : Queue
  consumer : ConsumerPc
  hist : QueueUseHist

inductive QueueUseLabel
  | nextNqnodeIn
  | semWait
  | nextNqnodeOut
  | dispose
  deriving DecidableEq

namespace QueueUse

def init : QueueUse where
  queue := initQueue
  consumer := .semWait
  hist := ⟨0, 0, 0, 0⟩

/-- One call of `next_nqnode_in`, or one step of the consumer; `n` is `SIZE_QUEUE`. -/
def step (n : ℕ) (s : QueueUse) : QueueUseLabel → Option QueueUse
  | .nextNqnodeIn =>
    match nextNqnodeIn n s.queue with
    | (some _, queue) =>
      some { s with queue := queue, hist := { s.hist with handedOut := s.hist.handedOut + 1 } }
    | (none, queue) =>
      some { s with queue := queue, hist := { s.hist with failed := s.hist.failed + 1 } }
  | .semWait =>
    match s.consumer with
    | .semWait =>
      (semWait s.queue).map fun queue => { s with queue := queue, consumer := .nextNqnodeOut }
    | _ => none
  | .nextNqnodeOut =>
    match s.consumer with
    | .nextNqnodeOut =>
      match nextNqnodeOut s.queue with
      | some _ =>
        some { s with
          consumer := .dispose
          hist := { s.hist with returned := s.hist.returned + 1 } }
      | none =>
        some { s with
          consumer := .dispose
          hist := { s.hist with nulls := s.hist.nulls + 1 } }
    | _ => none
  | .dispose =>
    match s.consumer with
    | .dispose => some { s with queue := disposeLastNqnode n s.queue, consumer := .semWait }
    | _ => none

/-- No thread is in one of the calls. -/
def betweenCalls (s : QueueUse) : Bool := s.consumer ≠ .nextNqnodeOut

/-- `SIZE_QUEUE - 1` slots are in use: `next_nqnode_in` finds no free one. -/
def full (n : ℕ) (s : QueueUse) : Bool := (s.queue.inPtr + 1) % n = s.queue.outPtr

/-- `next_nqnode_in` is not called while the queue is full. -/
def spares (n : ℕ) (s : QueueUse) (l : QueueUseLabel) : Bool := l ≠ .nextNqnodeIn || !s.full n

end QueueUse

end Afdx
