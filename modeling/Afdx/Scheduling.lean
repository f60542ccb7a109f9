import Afdx.Lib.Lts
import Afdx.Scheduler

/-!
# `scheduler_run` and the callers of the scheduler

The scheduler thread together with any number of threads that call `schedule_ts` and `unschedule`, as a
transition system. A call of `schedule_ts` is the piece before the lock (`newNode`) and the critical
section (`insert`); a call of `unschedule` is the critical section (`remove`) and the `free` after it. The
critical sections need `scheduler_mutex`, which `scheduler_run` holds but while it calls an action or
waits. `pthread_cond_signal` with no waiter is lost; the deadline of `pthread_cond_timedwait` is the time
that the first node has when the wait begins.

Callers use handlers as the interface asks: a handler is passed to `unschedule` once, after `schedule_ts`
has returned it. What the actions do is left open here. A node that is freed is not allocated again: in
`Reuse` nodes have addresses, and `malloc` may return one that a freed node had.
-/

namespace Afdx

/-- Where `scheduler_run` stands. The time is that of the last call of `clock_gettime`. -/
inductive RunPc
  /-- About to lock `scheduler_mutex`, then at the head of the outer loop. -/
  | start
  /-- At the head of the outer loop, with the lock. -/
  | top
  /-- At the head of the inner loop, with the lock. -/
  | inner (now : Timespec) (didSomething : Bool)
  /-- Unlocked; about to call the action of the node. -/
  | call (node : ℕ) (now : Timespec)
  /-- About to lock `scheduler_mutex` again after the action. -/
  | relock (now : Timespec)
  /-- In `pthread_cond_timedwait` until the deadline, or in `pthread_cond_wait` without one. -/
  | waiting (deadline : Option Timespec)
  deriving DecidableEq

/-- A call of `schedule_ts`: the new node, its interval, and what the clock showed. -/
structure Scheduled where
  node : ℕ
  interval : Timespec
  time : Timespec
  deriving DecidableEq

/-- History of a run: it is written by the steps and read by none. -/
structure SchedulingHist where
  /-- The calls of `schedule_ts`. -/
  scheduled : List Scheduled
  /-- The nodes whose actions have been called, each with the clock reading of the pass. -/
  executed : List (ℕ × Timespec)
  /-- The clock readings of `scheduler_run`. -/
  passes : List Timespec

structure Scheduling where
  sched : Sched
  scheduler : RunPc
  /-- New nodes whose `schedule_ts` has not taken the lock yet. -/
  pending : Finset ℕ
  /-- Handlers that `schedule_ts` has returned and that are not yet passed to `unschedule`. -/
  handlers : Finset ℕ
  /-- Nodes out of the list that their `unschedule` has not freed yet. -/
  removed : Finset ℕ
  hist : SchedulingHist

/-- The steps of the callers, then those of `scheduler_run`. -/
inductive SchedulingLabel
  | newNode (action : Action) (data : ℕ) (interval : Timespec) (now : ClockTime)
  | insert (node : ℕ)
  | remove (handler : ℕ)
  | free (handler : ℕ)
  | lock
  | clock (now : ClockTime)
  | inner
  | call
  /-- The wait ends without a signal. -/
  | wake

/-- `scheduler_run` holds `scheduler_mutex`. -/
def RunPc.locked : RunPc → Bool
  | top | inner _ _ => true
  | _ => false

/-- `pthread_cond_signal(&wakeup_cond)` -/
def RunPc.signal : RunPc → RunPc
  | waiting _ => start
  | pc => pc

namespace Scheduling

/-- Nothing is scheduled and the scheduler thread starts. -/
def init : Scheduling where
  sched := .init
  scheduler := .start
  pending := ∅
  handlers := ∅
  removed := ∅
  hist := ⟨[], [], []⟩

/-- The step of `scheduler_run` from the head of the inner loop. -/
def innerStep (s : Scheduling) (now : Timespec) (didSomething : Bool) : Option Scheduling :=
  match rearmFirst s.sched now with
  | none => none
  | some (some node, sched) => some { s with sched := sched, scheduler := .call node now }
  | some (none, sched) =>
    some { s with
      sched := sched
      scheduler :=
        if didSomething then .top else .waiting (s.sched.first.map s.sched.nextTime) }

/-- One step of a caller or of the scheduler thread. -/
def step (s : Scheduling) : SchedulingLabel → Option Scheduling
  | .newNode action data interval now =>
    let (node, sched) := newNode s.sched action data interval now
    some { s with
      sched := sched
      pending := insert node s.pending
      hist := { s.hist with scheduled := s.hist.scheduled ++ [⟨node, interval, now⟩] } }
  | .insert node =>
    if node ∈ s.pending ∧ s.scheduler.locked = false then
      (insertNode s.sched node).map fun sched =>
        { s with
          sched := sched
          pending := s.pending.erase node
          handlers := insert node s.handlers
          scheduler := if sched.first ≠ s.sched.first then s.scheduler.signal else s.scheduler }
    else none
  | .remove handler =>
    if handler ∈ s.handlers ∧ s.scheduler.locked = false then
      some { s with
        sched := removeNode s.sched handler
        handlers := s.handlers.erase handler
        removed := insert handler s.removed }
    else none
  | .free handler =>
    if handler ∈ s.removed then
      some { s with
        sched := { s.sched with nodes := s.sched.nodes.free handler }
        removed := s.removed.erase handler }
    else none
  | .lock =>
    match s.scheduler with
    | .start => some { s with scheduler := .top }
    | .relock now => some { s with scheduler := .inner now true }
    | _ => none
  | .clock now =>
    match s.scheduler with
    | .top =>
      some { s with
        scheduler := .inner now false
        hist := { s.hist with passes := s.hist.passes ++ [now.1] } }
    | _ => none
  | .inner =>
    match s.scheduler with
    | .inner now didSomething => s.innerStep now didSomething
    | _ => none
  | .call =>
    match s.scheduler with
    | .call node now =>
      some { s with
        scheduler := .relock now
        hist := { s.hist with executed := s.hist.executed ++ [(node, now)] } }
    | _ => none
  | .wake =>
    match s.scheduler with
    | .waiting _ => some { s with scheduler := .start }
    | _ => none

/-- The clock readings of the passes in which the action of `node` was called. -/
def executions (s : Scheduling) (node : ℕ) : List Timespec :=
  (s.hist.executed.filter fun e => e.1 = node).map Prod.snd

end Scheduling

end Afdx
