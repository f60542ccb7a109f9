import Afdx.ApplicationProtocol
import Afdx.Scheduler

/-!
# The registry

`registration.c`: the list of registered applications, each with the list of its registered queries.
Every operation is given in the pieces between which another thread can run, so that the model of the
threads can take them one at a time, and as the whole operation. Memory allocation succeeds here; what
happens when it does not is part of the model of the threads. A search loop that does not end within
the number of nodes ever allocated gives `none`, and so does the use of a handler never stored.
-/

namespace Afdx

open Links

/-- `reg_app_t` -/
structure RegApp where
  fd : ℕ
  queries : Option ℕ
  next : Option ℕ

/-- `reg_query_node_t`. The handler is unset until `schedule` has returned it. -/
structure RegQueryNode where
  query : AppQuery
  app : ℕ
  handler : Option ℕ
  next : Option ℕ

/-- The memory that `registration.c` and `scheduler.c` share. -/
structure Mem where
  apps : Heap RegApp
  queries : Heap RegQueryNode
  registeredApplications : Option ℕ
  sched : Sched

/-- Nothing is registered and nothing scheduled. -/
def Mem.init : Mem where
  apps := .empty ⟨0, none, none⟩
  queries := .empty ⟨⟨0, 0, 0⟩, 0, none, none⟩
  registeredApplications := none
  sched := .init

namespace Mem

/-- The search for the application of `fd`: the last one passed by and the one found. -/
def findApp (m : Mem) (fd : ℕ) : Option (Option ℕ × Option ℕ) :=
  walk (fun a => (m.apps.cell a).next) (fun a => (m.apps.cell a).fd = fd) (m.apps.brk + 1) none
    m.registeredApplications

/-- The search for the first query of `app` with a request id: the last node passed by and the one
    found. -/
def findQuery (m : Mem) (app : ℕ) (reqId : UInt32) : Option (Option ℕ × Option ℕ) :=
  walk (fun q => (m.queries.cell q).next) (fun q => (m.queries.cell q).query.reqId = reqId)
    (m.queries.brk + 1) none (m.apps.cell app).queries

/-! ## `register_query` -/

/-- `register_query` up to the call of `schedule`: the application, a new one if there is none for
    `fd`, and the new query node. -/
def registerNode (m : Mem) (fd : ℕ) (query : AppQuery) : Option (ℕ × ℕ × Mem) :=
  (m.findApp fd).map fun found =>
    let (app, m) :=
      match found.2 with
      | some app => (app, m)
      | none =>
        let (app, apps) := m.apps.alloc ⟨fd, none, m.registeredApplications⟩
        (app, { m with apps := apps, registeredApplications := some app })
    let (node, queries) := m.queries.alloc ⟨query, app, none, (m.apps.cell app).queries⟩
    (app, node, { m with queries := queries })

/-- `register_query` after the call of `schedule`. -/
def storeHandler (m : Mem) (app node handler : ℕ) : Mem :=
  { m with
    queries := m.queries.modify node fun c => { c with handler := some handler }
    apps := m.apps.modify app fun c => { c with queries := some node } }

/-- `register_query` -/
def registerQuery (m : Mem) (fd : ℕ) (query : AppQuery) (interval : ℤ) (now : Timespec) :
    Option Mem := do
  let (app, node, m) ← m.registerNode fd query
  let (handler, _, sched) ← schedule m.sched .serveSchedulerQuery node interval now
  some ({ m with sched := sched }.storeHandler app node handler)

/-! ## `unregister_query` -/

/-- `unregister_query` up to the call of `unschedule`: the node that is unchained, if there is one. -/
def unchainQuery (m : Mem) (fd : ℕ) (reqId : UInt32) : Option (Option ℕ × Mem) := do
  match ← m.findApp fd with
  | (_, none) => some (none, m)
  | (_, some app) =>
    match ← m.findQuery app reqId with
    | (_, none) => some (none, m)
    | (some prev, some node) =>
      let next := (m.queries.cell node).next
      some (some node, { m with queries := m.queries.modify prev fun c => { c with next := next } })
    | (none, some node) =>
      let next := (m.queries.cell node).next
      some (some node, { m with apps := m.apps.modify app fun c => { c with queries := next } })

/-- `free(node)` -/
def freeQuery (m : Mem) (node : ℕ) : Mem := { m with queries := m.queries.free node }

/-- `unregister_query` -/
def unregisterQuery (m : Mem) (fd : ℕ) (reqId : UInt32) : Option Mem := do
  match ← m.unchainQuery fd reqId with
  | (none, m) => some m
  | (some node, m) =>
    let handler ← (m.queries.cell node).handler
    some ({ m with sched := unschedule m.sched handler }.freeQuery node)

/-! ## `unregister_application` -/

/-- `unregister_application` up to the loop over the queries: the application that is unchained, if
    there is one. -/
def unchainApp (m : Mem) (fd : ℕ) : Option (Option ℕ × Mem) := do
  match ← m.findApp fd with
  | (_, none) => some (none, m)
  | (some prev, some app) =>
    let next := (m.apps.cell app).next
    some (some app, { m with apps := m.apps.modify prev fun c => { c with next := next } })
  | (none, some app) =>
    let next := (m.apps.cell app).next
    some (some app, { m with registeredApplications := next })

/-- The loop of `unregister_application` over the queries. -/
def dropQueries : ℕ → Option ℕ → Mem → Option Mem
  | 0, _, _ => none
  | _ + 1, none, m => some m
  | fuel + 1, some node, m => do
    let handler ← (m.queries.cell node).handler
    let m := { m with sched := unschedule m.sched handler }
    let next := (m.queries.cell node).next
    dropQueries fuel next (m.freeQuery node)

/-- `free(app)` -/
def freeApp (m : Mem) (app : ℕ) : Mem := { m with apps := m.apps.free app }

/-- `unregister_application` -/
def unregisterApplication (m : Mem) (fd : ℕ) : Option Mem := do
  match ← m.unchainApp fd with
  | (none, m) => some m
  | (some app, m) =>
    let m ← dropQueries (m.queries.brk + 1) (m.apps.cell app).queries m
    some (m.freeApp app)

/-! ## The operations as a transition system -/

/-- One pass of the inner loop of `scheduler_run`, the call of the action left out. -/
def rearm (m : Mem) (now : Timespec) : Option Mem :=
  (rearmFirst m.sched now).map fun r => { m with sched := r.2 }

end Mem

/-- The operations on the registry, with the time that the clock shows. -/
inductive RegistryLabel
  | registerQuery (fd : ℕ) (query : AppQuery) (interval : ℤ) (now : Timespec)
  | unregisterQuery (fd : ℕ) (reqId : UInt32)
  | unregisterApplication (fd : ℕ)
  | rearm (now : Timespec)

/-- The client that an operation is about. -/
def RegistryLabel.fd : RegistryLabel → Option ℕ
  | registerQuery fd _ _ _ | unregisterQuery fd _ | unregisterApplication fd => some fd
  | rearm _ => none

/-- The registry after one operation. -/
def Mem.step (m : Mem) : RegistryLabel → Option Mem
  | .registerQuery fd query interval now => m.registerQuery fd query interval now
  | .unregisterQuery fd reqId => m.unregisterQuery fd reqId
  | .unregisterApplication fd => m.unregisterApplication fd
  | .rearm now => m.rearm now

end Afdx
