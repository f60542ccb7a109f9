import Afdx.Registration

/-!
# What the registry is for

The registry as a map from clients to their periodic queries, and the lists that its pointers
represent. `Mem.Consistent` says how the three linked structures belong together.
-/

namespace Afdx

open Links

/-! ## The abstract registry -/

/-- For each client (by its file descriptor) its periodic queries with their intervals in
    milliseconds, the latest first; `none` if the client has never registered a query. -/
abbrev Registrations := ℕ → Option (List (AppQuery × ℤ))

namespace Registrations

def init : Registrations := fun _ => none

def registerQuery (r : Registrations) (fd : ℕ) (query : AppQuery) (interval : ℤ) : Registrations :=
  Function.update r fd (some ((query, interval) :: (r fd).getD []))

/-- The first query with the request id goes. -/
def unregisterQuery (r : Registrations) (fd : ℕ) (reqId : UInt32) : Registrations :=
  Function.update r fd ((r fd).map fun l => l.eraseP fun p => p.1.reqId = reqId)

def unregisterApplication (r : Registrations) (fd : ℕ) : Registrations :=
  Function.update r fd none

/-- Re-arming a scheduler node is not visible here. -/
def step (r : Registrations) : RegistryLabel → Registrations
  | .registerQuery fd query interval _ => r.registerQuery fd query interval
  | .unregisterQuery fd reqId => r.unregisterQuery fd reqId
  | .unregisterApplication fd => r.unregisterApplication fd
  | .rearm _ => r

end Registrations

/-- What an operation that a client asks for does to its periodic queries. -/
def Operation.update (l : List (AppQuery × ℤ)) : Operation → List (AppQuery × ℤ)
  | serveQuery _ => l
  | registerQuery query msToUpdate => (query, msToUpdate.toNat) :: l
  | unregisterQuery reqId => l.eraseP fun p => p.1.reqId = reqId

/-- The periodic queries of a client that has asked for `operations`, with their intervals in
    milliseconds, the latest first. -/
def periodicQueries (operations : List Operation) : List (AppQuery × ℤ) :=
  operations.foldl Operation.update []

namespace Mem

/-! ## The lists in memory -/

/-- The list `registered_applications`. -/
def appList (m : Mem) : List ℕ :=
  collect (fun a => (m.apps.cell a).next) (m.apps.brk + 1) m.registeredApplications

/-- The list `app->queries`. -/
def queryList (m : Mem) (app : ℕ) : List ℕ :=
  collect (fun q => (m.queries.cell q).next) (m.queries.brk + 1) (m.apps.cell app).queries

/-- The list of the scheduler. -/
def schedList (m : Mem) : List ℕ :=
  collect (fun x => (m.sched.nodes.cell x).next) (m.sched.nodes.brk + 1) m.sched.first

/-- All registered query nodes. -/
def queryNodes (m : Mem) : List ℕ := m.appList.flatMap m.queryList

/-- How often the node `q` is served: the interval of the scheduler node that is its handler. -/
def intervalOf (m : Mem) (q : ℕ) : Option Timespec :=
  (m.queries.cell q).handler.map fun x => (m.sched.payload x).interval

/-- What is registered for a client: each query with its interval. -/
def registrations (m : Mem) (fd : ℕ) : Option (List (AppQuery × Option Timespec)) :=
  (m.appList.find? fun a => (m.apps.cell a).fd = fd).map fun a =>
    (m.queryList a).map fun q => ((m.queries.cell q).query, m.intervalOf q)

/-- The periodic queries of a client: none, if it has no application. -/
def periodic (m : Mem) (fd : ℕ) : List (AppQuery × Option Timespec) := (m.registrations fd).getD []

/-- The three linked structures belong together. -/
structure Consistent (m : Mem) : Prop where
  /-- `registered_applications` ends; no two applications have the same file descriptor. -/
  apps : Chain (fun a => (m.apps.cell a).next) m.registeredApplications m.appList
  fds : (m.appList.map fun a => (m.apps.cell a).fd).Nodup
  /-- Every list of queries ends; its nodes point back to the application that holds them. -/
  queries : ∀ a ∈ m.appList,
    Chain (fun q => (m.queries.cell q).next) (m.apps.cell a).queries (m.queryList a)
  app : ∀ a ∈ m.appList, ∀ q ∈ m.queryList a, (m.queries.cell q).app = a
  /-- No list holds a node that has been freed. -/
  live : (∀ a ∈ m.appList, a ∈ m.apps.live) ∧ ∀ q ∈ m.queryNodes, q ∈ m.queries.live
  /-- The scheduler's list is doubly linked, its nodes are allocated and distinct. -/
  sched : m.sched.Repr m.schedList
  nodup : m.queryNodes.Nodup
  /-- The handlers of the query nodes are the nodes of the scheduler's list, each once. -/
  handlers : (m.queryNodes.map fun q => (m.queries.cell q).handler).Perm (m.schedList.map some)
  /-- The handler of a query node calls `serve_scheduler_query` with that node. -/
  action : ∀ q ∈ m.queryNodes, ∀ x ∈ (m.queries.cell q).handler,
    (m.sched.payload x).action = .serveSchedulerQuery ∧ (m.sched.payload x).data = q

/-! ## The other clients -/

/-- The file descriptor of the client that a scheduler node serves. -/
def ownerFd (m : Mem) (x : ℕ) : ℕ :=
  (m.apps.cell (m.queries.cell (m.sched.payload x).data).app).fd

/-- The applications of all clients but the one of `fd`, each with its query nodes, in order. -/
def othersApps (m : Mem) (fd : ℕ) : List (ℕ × ℕ × List (ℕ × AppQuery × Option ℕ)) :=
  (m.appList.filter fun a => (m.apps.cell a).fd ≠ fd).map fun a =>
    (a, (m.apps.cell a).fd,
      (m.queryList a).map fun q => (q, (m.queries.cell q).query, (m.queries.cell q).handler))

/-- The scheduler nodes of all clients but the one of `fd`, with their contents, in order. -/
def othersSched (m : Mem) (fd : ℕ) : List (ℕ × Payload) :=
  (m.schedList.filter fun x => m.ownerFd x ≠ fd).map fun x => (x, m.sched.payload x)

end Mem

end Afdx
