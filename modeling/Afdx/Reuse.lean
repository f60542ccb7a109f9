import Afdx.Daemon
import Afdx.Scheduling

/-!
# Memory that is used again

In `Scheduling` and in `Server` a node that is freed keeps its contents and its name. `malloc` is free to hand out
its memory again, and a pointer that has gone stale then finds what has been stored there since. The models below
add this: to the scheduler as the addresses that `malloc` returns, since there it matters which node is found, and
to the daemon as stores of anything into nodes that have been freed.
-/

namespace Afdx

/-! ## The addresses of scheduler nodes -/

/-- The scheduler and its callers, with the addresses of the nodes. -/
structure Addressed where
  run : Scheduling
  addresses : Heap.Addresses
  /-- The nodes that `(*node->action)(node->data)` was called with, each with the clock reading of the pass. -/
  called : List (ℕ × Timespec)

/-- A step, with the address that `malloc` returns in it if it is one that calls `malloc`. -/
structure AddressedLabel where
  label : SchedulingLabel
  addr : ℕ

namespace Addressed

def init : Addressed := ⟨.init, ⟨id, id⟩, []⟩

/-- One step. `malloc` returns any address at which there is no live node. The action is called with the node that
    is found at the address of the one that was popped. -/
def step (s : Addressed) (l : AddressedLabel) : Option Addressed :=
  match l.label with
  | .newNode action data interval now =>
    if s.addresses.Unused s.run.sched.nodes l.addr then
      (s.run.step (.newNode action data interval now)).map fun run =>
        { s with run := run, addresses := s.addresses.assign s.run.sched.nodes.brk l.addr }
    else none
  | .call =>
    match s.run.scheduler with
    | .call node now =>
      (s.run.step .call).map fun run =>
        { s with run := run, called := s.called ++ [(s.addresses.found node, now)] }
    | _ => none
  | label => (s.run.step label).map fun run => { s with run := run }

/-- The clock readings of the passes in which the action of `node` was called. -/
def executions (s : Addressed) (node : ℕ) : List Timespec :=
  (s.called.filter fun e => e.1 = node).map Prod.snd

end Addressed

/-! ## The nodes of the daemon -/

/-- A node and what is stored over it. -/
inductive Overwrite
  | node (x : ℕ) (c : SchedulerNode)
  | query (q : ℕ) (c : RegQueryNode)
  | app (a : ℕ) (c : RegApp)

/-- A store into memory that belongs to no live node any more. -/
def Mem.overwrite (m : Mem) : Overwrite → Option Mem
  | .node x c =>
    if x ∈ m.sched.nodes.live then none else some { m with sched := m.sched.modify x fun _ => c }
  | .query q c =>
    if q ∈ m.queries.live then none else some { m with queries := m.queries.modify q fun _ => c }
  | .app a c => if a ∈ m.apps.live then none else some { m with apps := m.apps.modify a fun _ => c }

inductive ReuseLabel
  | daemon (l : DaemonLabel)
  | overwrite (o : Overwrite)

/-- One step of the daemon, or a store into the memory of a freed node; `n` is `SIZE_QUEUE`. -/
def Daemon.reuseStep (n am : ℕ) (d : Daemon) : ReuseLabel → Option Daemon
  | .daemon l => step n am d l
  | .overwrite o =>
    (d.server.mem.overwrite o).map fun mem => { d with server := { d.server with mem := mem } }

end Afdx
