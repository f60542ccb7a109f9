import Afdx.Lib.Chain
import Afdx.Lib.Heap
import Mathlib.Data.Int.Notation

/-!
# The scheduler's list

`scheduler.c`: the time arithmetic and the operations on the doubly linked list of scheduled nodes. The
functions below run under `scheduler_mutex`; when the threads take it is part of the model of the
threads. A function that loops over the list returns `none` if the loop does not end within the number
of nodes ever allocated, as it would on a cyclic list.
-/

namespace Afdx

open Links

/-- `timespec_t` -/
structure Timespec where
  tvSec : ℤ
  tvNsec : ℤ
  deriving DecidableEq

/-- The time in nanoseconds. -/
def Timespec.ns (t : Timespec) : ℤ := t.tvSec * 1000000000 + t.tvNsec

/-- There is less than a second of nanoseconds, as in every time that `clock_gettime` returns. -/
def Timespec.Normalised (t : Timespec) : Prop := 0 ≤ t.tvNsec ∧ t.tvNsec < 1000000000

instance (t : Timespec) : Decidable t.Normalised := inferInstanceAs (Decidable (_ ∧ _))

/-- What `clock_gettime` may return. -/
abbrev ClockTime := { t : Timespec // t.Normalised }

/-- `tm_ge(a, b)`: time `a` is greater than or equal to time `b`. -/
def tmGe (a b : Timespec) : Bool :=
  if a.tvSec > b.tvSec then true else if a.tvSec < b.tvSec then false else a.tvNsec ≥ b.tvNsec

/-- `tm_incr(v, i)`: the value of `v` afterwards. -/
def tmIncr (v i : Timespec) : Timespec :=
  let nsecs := v.tvNsec + i.tvNsec
  ⟨v.tvSec + (i.tvSec + nsecs.tdiv 1000000000), nsecs.tmod 1000000000⟩

/-- The addresses of functions that may be scheduled: the one that the program schedules, or another. -/
inductive Action
  | serveSchedulerQuery
  | other (addr : ℕ)
  deriving DecidableEq

/-- `scheduler_node_t` -/
structure SchedulerNode where
  interval : Timespec
  nextTime : Timespec
  action : Action
  data : ℕ
  prev : Option ℕ
  next : Option ℕ

/-- The static variables of `scheduler.c` and the scheduler nodes allocated so far. -/
structure Sched where
  nodes : Heap SchedulerNode
  first : Option ℕ
  last : Option ℕ

/-- The state before anything is scheduled. -/
def Sched.init : Sched where
  nodes := .empty ⟨⟨0, 0⟩, ⟨0, 0⟩, .other 0, 0, none, none⟩
  first := none
  last := none

/-- A store into one scheduler node. -/
def Sched.modify (st : Sched) (x : ℕ) (f : SchedulerNode → SchedulerNode) : Sched :=
  { st with nodes := st.nodes.modify x f }

/-- `insert_node`: the node goes before the first one whose time is later, or to the end. -/
def insertNode (st : Sched) (node : ℕ) : Option Sched :=
  let stime := (st.nodes.cell node).nextTime
  let later := fun x => !tmGe stime (st.nodes.cell x).nextTime
  match walk (fun x => (st.nodes.cell x).next) later (st.nodes.brk + 1) none st.first with
  | none => none
  | some (prevNode, some nextNode) =>
    -- the node goes before `nextNode`
    let st := st.modify node fun c => { c with prev := prevNode, next := some nextNode }
    let st := st.modify nextNode fun c => { c with prev := some node }
    match prevNode with
    | some prevNode => some (st.modify prevNode fun c => { c with next := some node })
    | none => some { st with first := some node }
  | some (_, none) =>
    -- the end of the queue is reached
    let st := st.modify node fun c => { c with prev := st.last }
    let st :=
      match st.last with
      | some last => st.modify last fun c => { c with next := some node }
      | none => st
    let st := { st with last := some node }
    let st := st.modify node fun c => { c with next := none }
    match st.first with
    | some _ => some st
    | none => some { st with first := some node }

/-- `remove_node` -/
def removeNode (st : Sched) (node : ℕ) : Sched :=
  let st :=
    match (st.nodes.cell node).prev with
    | some prev => st.modify prev fun c => { c with next := (st.nodes.cell node).next }
    | none => { st with first := (st.nodes.cell node).next }
  match (st.nodes.cell node).next with
  | some next => st.modify next fun c => { c with prev := (st.nodes.cell node).prev }
  | none => { st with last := (st.nodes.cell node).prev }

/-- `pop` -/
def pop (st : Sched) : Option ℕ × Sched :=
  match st.first with
  | none => (none, st)
  | some node =>
    match (st.nodes.cell node).next with
    | some first =>
      (some node, { st with first := some first }.modify first fun c => { c with prev := none })
    | none => (some node, { st with first := none, last := none })

/-- The part of `schedule_ts` before the lock: a new node, due one interval after `now`. -/
def newNode (st : Sched) (action : Action) (data : ℕ) (interval now : Timespec) : ℕ × Sched :=
  let (node, nodes) := st.nodes.alloc
    { interval := interval
      nextTime := tmIncr now interval
      action := action
      data := data
      prev := none
      next := none }
  (node, { st with nodes := nodes })

/-- `schedule_ts`: the handler returned, and whether `wakeup_cond` is signalled. -/
def scheduleTs (st : Sched) (action : Action) (data : ℕ) (interval now : Timespec) :
    Option (ℕ × Bool × Sched) :=
  let (node, st) := newNode st action data interval now
  let curFirst := st.first
  (insertNode st node).map fun st => (node, decide (st.first ≠ curFirst), st)

/-- The interval that `schedule` makes of a number of milliseconds. -/
def msInterval (interval : ℤ) : Timespec :=
  ⟨interval.tdiv 1000, interval.tmod 1000 * 1000000⟩

/-- `schedule` -/
def schedule (st : Sched) (action : Action) (data : ℕ) (interval : ℤ) (now : Timespec) :
    Option (ℕ × Bool × Sched) :=
  scheduleTs st action data (msInterval interval) now

/-- `unschedule`: the critical section and the `free` after it. -/
def unschedule (st : Sched) (handler : ℕ) : Sched :=
  let st := removeNode st handler
  { st with nodes := st.nodes.free handler }

/-- The time at which a node that is run at `now` runs next: one interval later, counted from `now` if
    that time is missed already. -/
def rearmedTime (now : Timespec) (c : SchedulerNode) : Timespec :=
  let nextTime := tmIncr c.nextTime c.interval
  if tmGe now nextTime then tmIncr now c.interval else nextTime

/-- The body of the inner loop of `scheduler_run` up to the unlock: if the first node is due at `now`,
    it is popped, re-armed and inserted again; `some (none, _)` if no node is due. -/
def rearmFirst (st : Sched) (now : Timespec) : Option (Option ℕ × Sched) :=
  match st.first with
  | none => some (none, st)
  | some qfirst =>
    if tmGe now (st.nodes.cell qfirst).nextTime then
      match pop st with
      | (some node, st) =>
        let st := st.modify node fun c => { c with nextTime := rearmedTime now c }
        (insertNode st node).map fun st => (some node, st)
      | (none, st) => some (none, st)
    else some (none, st)

/-- The inner loop of `scheduler_run` at `now`, if nobody else changes the list: the nodes whose actions
    are called, in order. `none` if the body is not left after `fuel` times. -/
def innerLoop (now : Timespec) : ℕ → Sched → Option (List ℕ × Sched)
  | 0, _ => none
  | fuel + 1, st =>
    match rearmFirst st now with
    | none => none
    | some (none, st) => some ([], st)
    | some (some node, st) => (innerLoop now fuel st).map fun r => (node :: r.1, r.2)

/-! ## What the pointers represent -/

/-- The contents of a scheduler node without its links. -/
structure Payload where
  interval : Timespec
  nextTime : Timespec
  action : Action
  data : ℕ

def SchedulerNode.payload (c : SchedulerNode) : Payload :=
  ⟨c.interval, c.nextTime, c.action, c.data⟩

namespace Sched

def payload (st : Sched) (x : ℕ) : Payload := (st.nodes.cell x).payload

/-- The nodes on the way from `first`. -/
def list (st : Sched) : List ℕ := collect (fun x => (st.nodes.cell x).next) (st.nodes.brk + 1) st.first

/-- When the node is to run next. -/
def nextTime (st : Sched) (x : ℕ) : Timespec := (st.payload x).nextTime

/-- The node `x` is due no later than the node `y`. -/
def NoLater (st : Sched) (x y : ℕ) : Prop := tmGe (st.nextTime y) (st.nextTime x) = true

/-- The nodes of `l` stand in the order in which they are due. -/
def Sorted (st : Sched) (l : List ℕ) : Prop := l.Pairwise st.NoLater

/-- The times and the intervals of the nodes of `l` are normalised. -/
structure Timely (st : Sched) (l : List ℕ) : Prop where
  nextTime : ∀ x ∈ l, (st.nextTime x).Normalised
  interval : ∀ x ∈ l, (st.payload x).interval.Normalised

/-- The pointers of `st` represent the list `l` of live nodes. -/
structure Repr (st : Sched) (l : List ℕ) : Prop where
  chain : DChain (fun x => (st.nodes.cell x).next) (fun x => (st.nodes.cell x).prev)
    st.first st.last l
  nodup : l.Nodup
  live : ∀ x ∈ l, x ∈ st.nodes.live

end Sched

end Afdx
