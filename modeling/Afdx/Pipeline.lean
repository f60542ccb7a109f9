import Afdx.ElaborationThread
import Afdx.Lib.Lts

/-!
# The packet pipeline: `network_thread` and `elaboration_thread` over the queue

The two threads as a transition system. A step is one critical section, one blocking call that
returns, or one assignment. `pthread_cond_signal` with no waiter is lost, and `pthread_cond_wait`
returns only because of a signal issued while waiting. `sync_elab_net_mutex` is never taken by
another thread, so waiting for it never blocks.
-/

namespace Afdx

/-- Where `network_thread` stands in its loop. -/
inductive NetPc
  /-- About to call `next_nqnode_in`. -/
  | nextNqnodeIn
  /-- Blocked in `recvfrom` on a slot, no datagram yet. -/
  | recvfrom (slot : ℕ)
  /-- `recvfrom` copies the datagram `dg` into the slot; `off` bytes are written. -/
  | copying (slot : ℕ) (dg : List UInt8) (off : ℕ)
  /-- `recvfrom` has returned; about to store `last_update`. -/
  | setLastUpdate (slot : ℕ) (dg : List UInt8)
  /-- About to call `wakeup_elaboration_thread`. -/
  | wakeup
  /-- `recvfrom` failed and `exit(1)` ended the process. -/
  | exit

/-- Where `elaboration_thread` stands in its loop. -/
inductive ElabPc
  /-- About to call `pthread_cond_wait`. -/
  | condWait
  /-- Blocked in `pthread_cond_wait`, not signalled. -/
  | waiting
  /-- Woken; about to call `next_nqnode_out`, at its `sem_wait`. -/
  | semWait
  /-- In `next_nqnode_out`, after `sem_wait`. -/
  | nextNqnodeOut
  /-- `node` is assigned; about to load `node->packet.identifier`. -/
  | loadIdentifier (node : Option ℕ)
  /-- In the ENGINE case; about to load `engine_id`. -/
  | loadEngineId (node : ℕ)
  /-- In the `switch`, with the assignments `todo` still to make. -/
  | assign (node : ℕ) (todo : List Assignment)
  /-- About to call `dispose_last_nqnode`. -/
  | dispose
  /-- `node` was `NULL` and the load of `node->packet` faulted. -/
  | fault

/-- A datagram together with the node it was received into, as `network_thread` left it. -/
structure Reception where
  datagram : List UInt8
  node : Nqnode

/-- History of a run: it is written by the steps and read by none. -/
structure PipelineHist where
  /-- Slots handed out by `next_nqnode_in`. -/
  reserved : ℕ
  /-- Datagrams received, each with its node when `last_update` was stored. -/
  received : List Reception
  /-- Nodes whose processing has begun, as they were at the load of the identifier. -/
  processed : List Nqnode
  /-- Nodes given back by `dispose_last_nqnode`. -/
  disposed : ℕ
  /-- Signals issued while the elaboration thread was not waiting. -/
  lost : ℕ
  /-- Assignments made, each with the contents of the node it read. -/
  executed : List (Nqnode × Assignment)

structure Pipeline where
  queue : Queue
  network : NetPc
  elaboration : ElabPc
  intdata : Intdata
  hist : PipelineHist

/-- The steps of `network_thread`, with what the environment answers. -/
inductive NetLabel
  | nextNqnodeIn
  | recvfrom (dg : List UInt8)
  | recvError
  | copyByte
  | recvReturn
  | setLastUpdate (time : ℤ)
  | wakeup

/-- The steps of `elaboration_thread`. An assignment carries what it leaves in `intdata` if its index
    is out of range. -/
inductive ElabLabel
  | condWait
  | semWait
  | nextNqnodeOut
  | loadIdentifier
  | loadEngineId
  | assign (beyond : Intdata)
  | dispose

inductive PipelineLabel
  | network (l : NetLabel)
  | elaboration (l : ElabLabel)

/-- The steps of the pipeline where `pthread_cond_wait` may also return without a signal. -/
inductive SpuriousLabel
  | pipeline (l : PipelineLabel)
  /-- `pthread_cond_wait` returns without a signal. -/
  | spurious

namespace Pipeline

/-- The state as `init_all` starts the two threads. -/
def init : Pipeline where
  queue := initQueue
  network := .nextNqnodeIn
  elaboration := .condWait
  intdata := .init
  hist := ⟨0, [], [], 0, 0, []⟩

/-- `pthread_cond_signal(&wakeup_elab)`: wakes the elaboration thread if it waits, else is lost. -/
def signal (s : Pipeline) : Pipeline :=
  match s.elaboration with
  | .waiting => { s with elaboration := .semWait }
  | _ => { s with hist := { s.hist with lost := s.hist.lost + 1 } }

/-- Byte `off` of the packet receives byte `off` of the datagram. -/
def writeByte (dg : List UInt8) (off : Fin sizeofPacket) (node : Nqnode) : Nqnode :=
  { node with packet := Function.update node.packet off (dg.getD off 0) }

/-- One step of `network_thread`; `n` is `SIZE_QUEUE`. A datagram longer than a packet is cut off. -/
def netStep (n : ℕ) (s : Pipeline) : NetLabel → Option Pipeline
  | .nextNqnodeIn =>
    match s.network with
    | .nextNqnodeIn =>
      match nextNqnodeIn n s.queue with
      | (some slot, queue) => some { s with
          queue := queue
          network := .recvfrom slot
          hist := { s.hist with reserved := s.hist.reserved + 1 } }
      | (none, queue) => some { s with queue := queue }
    | _ => none
  | .recvfrom dg =>
    match s.network with
    | .recvfrom slot => some { s with network := .copying slot dg 0 }
    | _ => none
  | .recvError =>
    match s.network with
    | .recvfrom _ => some { s with network := .exit }
    | _ => none
  | .copyByte =>
    match s.network with
    | .copying slot dg off =>
      if h : off < sizeofPacket ∧ off < dg.length then
        some { s with
          queue := s.queue.modifyNode slot (writeByte dg ⟨off, h.1⟩)
          network := .copying slot dg (off + 1) }
      else none
    | _ => none
  | .recvReturn =>
    match s.network with
    | .copying slot dg off =>
      if off < sizeofPacket ∧ off < dg.length then none
      else some { s with network := .setLastUpdate slot dg }
    | _ => none
  | .setLastUpdate time =>
    match s.network with
    | .setLastUpdate slot dg =>
      let queue := s.queue.modifyNode slot fun node => { node with lastUpdate := time }
      some { s with
        queue := queue
        network := .wakeup
        hist := { s.hist with received := s.hist.received ++ [⟨dg, queue.nodes slot⟩] } }
    | _ => none
  | .wakeup =>
    match s.network with
    | .wakeup => some { s.signal with network := .nextNqnodeIn }
    | _ => none

/-- One step of `elaboration_thread`. -/
def elabStep (n : ℕ) (s : Pipeline) : ElabLabel → Option Pipeline
  | .condWait =>
    match s.elaboration with
    | .condWait => some { s with elaboration := .waiting }
    | _ => none
  | .semWait =>
    match s.elaboration with
    | .semWait =>
      (semWait s.queue).map fun queue => { s with queue := queue, elaboration := .nextNqnodeOut }
    | _ => none
  | .nextNqnodeOut =>
    match s.elaboration with
    | .nextNqnodeOut => some { s with elaboration := .loadIdentifier (nextNqnodeOut s.queue) }
    | _ => none
  | .loadIdentifier =>
    match s.elaboration with
    | .loadIdentifier none => some { s with elaboration := .fault }
    | .loadIdentifier (some slot) =>
      let node := s.queue.nodes slot
      some { s with
        elaboration :=
          if node.packet.identifier = packetTypeAdiru then .assign slot (adiruFields.map .adiru)
          else if node.packet.identifier = packetTypeEngine then .loadEngineId slot
          else .assign slot []
        hist := { s.hist with processed := s.hist.processed ++ [node] } }
    | _ => none
  | .loadEngineId =>
    match s.elaboration with
    | .loadEngineId slot =>
      let idEngine := (s.queue.nodes slot).packet.engineId
      some { s with elaboration := .assign slot (engineFields.map (.engine idEngine)) }
    | _ => none
  | .assign beyond =>
    match s.elaboration with
    | .assign slot (a :: todo) =>
      let node := s.queue.nodes slot
      some { s with
        intdata := a.exec node beyond s.intdata
        elaboration := .assign slot todo
        hist := { s.hist with executed := s.hist.executed ++ [(node, a)] } }
    | .assign _ [] => some { s with elaboration := .dispose }
    | _ => none
  | .dispose =>
    match s.elaboration with
    | .dispose => some { s with
        queue := disposeLastNqnode n s.queue
        elaboration := .condWait
        hist := { s.hist with disposed := s.hist.disposed + 1 } }
    | _ => none

/-- One step of the pipeline. After `exit(1)` there is none. -/
def step (n : ℕ) (s : Pipeline) (l : PipelineLabel) : Option Pipeline :=
  match s.network with
  | .exit => none
  | _ =>
    match l with
    | .network l => netStep n s l
    | .elaboration l => elabStep n s l

/-- One step of the pipeline where `pthread_cond_wait` may also return without a signal. -/
def spuriousStep (n : ℕ) (s : Pipeline) : SpuriousLabel → Option Pipeline
  | .pipeline l => step n s l
  | .spurious =>
    match s.network, s.elaboration with
    | .exit, _ => none
    | _, .waiting => some { s with elaboration := .semWait }
    | _, _ => none

/-- What the next assignment leaves in `intdata` if its index is out of range. -/
def beyond (stray : Stray) (s : Pipeline) : Intdata :=
  match s.elaboration with
  | .assign slot (a :: _) => a.beyond stray (s.queue.nodes slot) s.intdata
  | _ => s.intdata

/-- One step of the pipeline with the memory past the engine records laid out as `stray` says. -/
def strayStep (stray : Stray) (n : ℕ) (s : Pipeline) (l : PipelineLabel) : Option Pipeline :=
  match l with
  | .elaboration (.assign _) => step n s (.elaboration (.assign (s.beyond stray)))
  | l => step n s l

end Pipeline

end Afdx
