import Afdx.Lib.Lts
import Afdx.Registration
import Afdx.ServeQuery

/-!
# The server: `application_manager` and `scheduler_run`

The two threads that serve the clients, as a transition system. A step is one critical section, one
call that may block or fail, or one load from memory that another thread may have freed. Only
`application_manager` takes `registering_mutex`, so it never waits for it. `scheduler_mutex` is held by
`scheduler_run` while it looks at the list, and `application_manager` waits for it in `schedule_ts` and
in `unschedule`. A descriptor number is `open` for one connection at a time; connections are numbered in
the order in which they are accepted. The calls of the logger are left out, and `SIGPIPE` is ignored: a
`write` to a closed connection returns -1.

Two things are taken for granted here that the system does not promise. A descriptor set has room for
every descriptor; `FdSets` has sets of `FD_SETSIZE` bits, and the same steps as long as `accept` stays
below that. A freed node keeps its contents and its name is not used again, so that a stale pointer
still finds the values that the node held; in `Reuse` it finds anything.
-/

namespace Afdx

/-- The call sites of `unregister_application`. -/
inductive Teardown
  /-- `read` failed: the first of two calls. -/
  | readError
  /-- `read` returned 0, or failed: the call that both cases share. -/
  | closed
  /-- An exceptional condition, in the second loop. -/
  | exceptional
  deriving DecidableEq

/-- Who unschedules a query. -/
inductive Caller
  | unregisterQuery (fd : ℕ)
  | unregisterApplication (fd app : ℕ) (site : Teardown)
  deriving DecidableEq

/-- What `serve_query` finds when it reads `intdata`: the reply on its stack, `intdata`, and the memory
    behind the engine records. -/
structure Snapshot where
  stack : AppReply
  data : Intdata
  beyond : IntdataEngine

/-- The reply that `serve_query` makes of it. -/
def Snapshot.reply (snap : Snapshot) (query : AppQuery) : AppReply :=
  serveQuery snap.stack snap.data snap.beyond query

/-- Where `application_manager` stands. -/
inductive ManagerPc
  | select
  /-- About to test the listening socket for a new connection. -/
  | accept
  /-- About to test the listening socket for an error. -/
  | listenError
  /-- At the head of the first loop over the descriptors. -/
  | readLoop (fd : ℕ)
  /-- About to call `read`. -/
  | read (fd : ℕ)
  /-- At the head of the second loop over the descriptors. -/
  | exceptLoop (fd : ℕ)
  /-- In `serve_query`, about to read `intdata`. -/
  | serve (fd : ℕ) (query : AppQuery)
  /-- In `serve_query`, about to write the reply. -/
  | write (fd : ℕ) (query : AppQuery) (snap : Snapshot)
  /-- About to call `register_query`. -/
  | registerNode (fd : ℕ) (query : AppQuery) (interval : ℤ)
  /-- In `register_query`, about to call `schedule`. -/
  | schedule (fd app node : ℕ) (interval : ℤ)
  /-- In `register_query`, after the call of `schedule`. -/
  | storeHandler (fd app node handler : ℕ)
  /-- About to call `unregister_query`. -/
  | unchainQuery (fd : ℕ) (reqId : UInt32)
  /-- About to call `unregister_application`. -/
  | unchainApp (fd : ℕ) (site : Teardown)
  /-- At the head of the loop of `unregister_application`. -/
  | dropLoop (fd app : ℕ) (node : Option ℕ) (site : Teardown)
  /-- In `unschedule`, about to lock `scheduler_mutex`. -/
  | removeNode (node handler : ℕ) (caller : Caller)
  /-- In `unschedule`, after the unlock. -/
  | freeNode (node handler : ℕ) (caller : Caller)
  /-- About to free the query node. -/
  | freeQuery (node : ℕ) (caller : Caller)
  /-- In `unregister_application`, after the loop. -/
  | freeApp (fd app : ℕ) (site : Teardown)
  /-- About to call `close` and to clear the descriptor in `managed_fds`. -/
  | close (fd : ℕ) (site : Teardown)

/-- Where `application_manager` goes on after `unregister_application(fd)` and `close(fd)`. -/
def Teardown.next (fd : ℕ) : Teardown → ManagerPc
  | .readError => .unchainApp fd .closed
  | .closed => .readLoop (fd + 1)
  | .exceptional => .exceptLoop (fd + 1)

/-- Where `scheduler_run` stands. The time is that of the last call of `clock_gettime`. -/
inductive SchedulerPc
  /-- About to lock `scheduler_mutex`, then at the head of the outer loop. -/
  | start
  /-- At the head of the outer loop, with the lock. -/
  | top
  /-- At the head of the inner loop, with the lock. -/
  | inner (now : Timespec) (didSomething : Bool)
  /-- Unlocked; about to load `node->action` and `node->data`. -/
  | call (node : ℕ) (now : Timespec)
  /-- In `serve_scheduler_query`, about to load `node->app`. -/
  | loadApp (q : ℕ) (now : Timespec)
  /-- In `serve_scheduler_query`, about to load `app->fd`. -/
  | loadFd (q app : ℕ) (now : Timespec)
  /-- In `serve_query`, about to load `query->req_id`. -/
  | loadReqId (q fd : ℕ) (now : Timespec)
  /-- In `serve_query`, about to load `query->data_id`. -/
  | loadDataId (q fd : ℕ) (reqId : UInt32) (now : Timespec)
  /-- In `serve_query`, about to load `query->engine_id`. -/
  | loadEngineId (q fd : ℕ) (reqId dataId : UInt32) (now : Timespec)
  /-- In `serve_query`, about to read `intdata`. -/
  | serve (fd : ℕ) (query : AppQuery) (now : Timespec)
  /-- In `serve_query`, about to write the reply. -/
  | write (fd : ℕ) (query : AppQuery) (snap : Snapshot) (now : Timespec)
  /-- About to lock `scheduler_mutex` again after the action. -/
  | relock (now : Timespec)
  /-- In `pthread_cond_wait` or `pthread_cond_timedwait`. -/
  | waiting

/-- The descriptor sets and counters of `application_manager`. -/
structure Select where
  managedFds : Finset ℕ
  rfds : Finset ℕ
  xfds : Finset ℕ
  nfds : ℕ
  fdcnt : ℤ

/-- A reply written to a connection, with what it was made of. -/
structure Sent where
  conn : ℕ
  reply : AppReply
  snap : Snapshot

/-- History of a run: it is written by the steps and read by none. -/
structure ServerHist where
  /-- The bytes read from each connection. -/
  received : ℕ → List UInt8
  /-- The operations dispatched for each connection. -/
  dispatched : ℕ → List Operation
  /-- The replies written. -/
  sent : List Sent
  /-- The indices at which `serve_query` has read `intdata.engines`. -/
  engineReads : List ℕ

structure Server where
  mem : Mem
  manager : ManagerPc
  select : Select
  packetMsg : MsgBytes
  scheduler : SchedulerPc
  /-- The connection that a descriptor number is open for. -/
  conns : ℕ → Option ℕ
  /-- The number of connections accepted so far. -/
  accepted : ℕ
  /-- No thread has called `exit`. -/
  running : Bool
  hist : ServerHist

/-- The steps of `application_manager`, with what the environment answers. `next` is a step without a
    choice. -/
inductive ManagerLabel
  | next
  | select (rfds xfds : Finset ℕ)
  | selectError
  | accept (newfd : ℕ)
  | acceptError
  | read (chunk : List UInt8)
  | readEof
  | readError
  | serve (snap : Snapshot)
  | write
  | writeError
  | schedule (now : Timespec)
  | mallocError

/-- The steps of `scheduler_run`. -/
inductive SchedulerLabel
  | lock
  | clock (now : Timespec)
  | inner
  | load
  | serve (snap : Snapshot)
  | write
  | writeError
  /-- The wait ends without a signal. -/
  | wake

inductive ServerLabel
  | manager (l : ManagerLabel)
  | scheduler (l : SchedulerLabel)

namespace Server

/-- The state as the two threads start. `am` is the listening socket; `msg` is what the stack of
    `application_manager` holds where `packet_msg` lies. -/
def init (am : ℕ) (msg : MsgBytes) : Server where
  mem := .init
  manager := .select
  select := ⟨{am}, ∅, ∅, am + 1, 0⟩
  packetMsg := msg
  scheduler := .start
  conns := fun _ => none
  accepted := 0
  running := true
  hist := ⟨fun _ => [], fun _ => [], [], []⟩

/-- `exit(1)` -/
def exit (s : Server) : Server := { s with running := false }

/-- `scheduler_run` holds `scheduler_mutex`. -/
def schedulerLocked (s : Server) : Bool :=
  match s.scheduler with
  | .top | .inner _ _ => true
  | _ => false

/-- `pthread_cond_signal(&wakeup_cond)` -/
def signalWakeup (pc : SchedulerPc) : SchedulerPc :=
  match pc with
  | .waiting => .start
  | pc => pc

/-- The reply to `query` goes to the connection that `fd` is open for. -/
def logReply (s : Server) (conn : ℕ) (query : AppQuery) (snap : Snapshot) : ServerHist :=
  { s.hist with sent := s.hist.sent ++ [⟨conn, snap.reply query, snap⟩] }

/-- The index of an engine record that serving `query` reads. -/
def logRead (s : Server) (query : AppQuery) : ServerHist :=
  { s.hist with engineReads := s.hist.engineReads ++ query.engineIndex.toList }

/-- Where `application_manager` goes on with a message. -/
def dispatch (fd : ℕ) : Option Operation → ManagerPc
  | some (.serveQuery query) => .serve fd query
  | some (.registerQuery query msToUpdate) => .registerNode fd query msToUpdate.toNat
  | some (.unregisterQuery reqId) => .unchainQuery fd reqId
  | none => .readLoop (fd + 1)

/-- The steps of `application_manager` without a choice. -/
def managerNext (am : ℕ) (s : Server) : Option Server :=
  match s.manager with
  | .accept => if am ∈ s.select.rfds then none else some { s with manager := .listenError }
  | .listenError =>
    if am ∈ s.select.xfds then some s.exit else some { s with manager := .readLoop 0 }
  | .readLoop fd =>
    if fd < s.select.nfds ∧ 0 < s.select.fdcnt then
      if fd ∈ s.select.rfds ∧ fd ≠ am then
        some { s with
          select := { s.select with fdcnt := s.select.fdcnt - 1 }
          manager := .read fd }
      else some { s with manager := .readLoop (fd + 1) }
    else some { s with manager := .exceptLoop 0 }
  | .exceptLoop fd =>
    if fd < s.select.nfds ∧ 0 < s.select.fdcnt then
      if fd ∈ s.select.xfds ∧ fd ≠ am then
        some { s with
          select := { s.select with fdcnt := s.select.fdcnt - 1 }
          manager := .unchainApp fd .exceptional }
      else some { s with manager := .exceptLoop (fd + 1) }
    else some { s with manager := .select }
  | .registerNode fd query interval =>
    (s.mem.registerNode fd query).map fun (app, node, mem) =>
      { s with mem := mem, manager := .schedule fd app node interval }
  | .storeHandler fd app node handler =>
    some { s with mem := s.mem.storeHandler app node handler, manager := .readLoop (fd + 1) }
  | .unchainQuery fd reqId =>
    match s.mem.unchainQuery fd reqId with
    | none => none
    | some (none, mem) => some { s with mem := mem, manager := .readLoop (fd + 1) }
    | some (some node, mem) =>
      (mem.queries.cell node).handler.map fun handler =>
        { s with mem := mem, manager := .removeNode node handler (.unregisterQuery fd) }
  | .unchainApp fd site =>
    match s.mem.unchainApp fd with
    | none => none
    | some (none, mem) => some { s with mem := mem, manager := .close fd site }
    | some (some app, mem) =>
      some { s with mem := mem, manager := .dropLoop fd app (mem.apps.cell app).queries site }
  | .dropLoop fd app node site =>
    match node with
    | none => some { s with manager := .freeApp fd app site }
    | some node =>
      (s.mem.queries.cell node).handler.map fun handler =>
        { s with manager := .removeNode node handler (.unregisterApplication fd app site) }
  | .removeNode node handler caller =>
    if s.schedulerLocked then none
    else some { s with
      mem := { s.mem with sched := removeNode s.mem.sched handler }
      manager := .freeNode node handler caller }
  | .freeNode node handler caller =>
    some { s with
      mem := { s.mem with
        sched := { s.mem.sched with nodes := s.mem.sched.nodes.free handler } }
      manager := .freeQuery node caller }
  | .freeQuery node caller =>
    let next := (s.mem.queries.cell node).next
    some { s with
      mem := s.mem.freeQuery node
      manager :=
        match caller with
        | .unregisterQuery fd => .readLoop (fd + 1)
        | .unregisterApplication fd app site => .dropLoop fd app next site }
  | .freeApp fd app site => some { s with mem := s.mem.freeApp app, manager := .close fd site }
  | .close fd site =>
    some { s with
      conns := Function.update s.conns fd none
      select := { s.select with managedFds := s.select.managedFds.erase fd }
      manager := site.next fd }
  | _ => none

/-- One step of `application_manager`. -/
def managerStep (am : ℕ) (s : Server) : ManagerLabel → Option Server
  | .next => s.managerNext am
  | .select rfds xfds =>
    match s.manager with
    | .select =>
      if rfds ⊆ s.select.managedFds ∧ xfds ⊆ s.select.managedFds then
        some { s with
          select := { s.select with rfds := rfds, xfds := xfds, fdcnt := rfds.card + xfds.card }
          manager := .accept }
      else none
    | _ => none
  | .selectError =>
    match s.manager with
    | .select =>
      some { s with
        select :=
          { s.select with rfds := s.select.managedFds, xfds := s.select.managedFds, fdcnt := -1 }
        manager := .accept }
    | _ => none
  | .accept newfd =>
    match s.manager with
    | .accept =>
      if am ∈ s.select.rfds ∧ s.conns newfd = none ∧ newfd ≠ am then
        some { s with
          select := { s.select with
            managedFds := insert newfd s.select.managedFds
            fdcnt := s.select.fdcnt - 1
            nfds := if newfd ≥ s.select.nfds then newfd + 1 else s.select.nfds }
          conns := Function.update s.conns newfd (some s.accepted)
          accepted := s.accepted + 1
          manager := .listenError }
      else none
    | _ => none
  | .acceptError =>
    match s.manager with
    | .accept => if am ∈ s.select.rfds then some s.exit else none
    | _ => none
  | .read chunk =>
    match s.manager with
    | .read fd =>
      match s.conns fd with
      | some conn =>
        if 0 < chunk.length ∧ chunk.length ≤ sizeofMsg then
          let packetMsg := s.packetMsg.overlay chunk
          let operation := packetMsg.decode.operation
          some { s with
            packetMsg := packetMsg
            manager := dispatch fd operation
            hist := { s.hist with
              received := Function.update s.hist.received conn (s.hist.received conn ++ chunk)
              dispatched := Function.update s.hist.dispatched conn
                (s.hist.dispatched conn ++ operation.toList) } }
        else none
      | none => none
    | _ => none
  | .readEof =>
    match s.manager with
    | .read fd => some { s with manager := .unchainApp fd .closed }
    | _ => none
  | .readError =>
    match s.manager with
    | .read fd => some { s with manager := .unchainApp fd .readError }
    | _ => none
  | .serve snap =>
    match s.manager with
    | .serve fd query => some { s with manager := .write fd query snap, hist := s.logRead query }
    | _ => none
  | .write =>
    match s.manager with
    | .write fd query snap =>
      (s.conns fd).map fun conn =>
        { s with manager := .readLoop (fd + 1), hist := s.logReply conn query snap }
    | _ => none
  | .writeError =>
    match s.manager with
    | .write _ _ _ => some s.exit
    | _ => none
  | .schedule now =>
    match s.manager with
    | .schedule fd app node interval =>
      if s.schedulerLocked then none
      else
        (schedule s.mem.sched .serveSchedulerQuery node interval now).map
          fun (handler, signal, sched) =>
            { s with
              mem := { s.mem with sched := sched }
              manager := .storeHandler fd app node handler
              scheduler := if signal then signalWakeup s.scheduler else s.scheduler }
    | _ => none
  | .mallocError =>
    match s.manager with
    | .registerNode _ _ _ | .schedule _ _ _ _ => some s.exit
    | _ => none

/-- One load of `scheduler_run` from a node. If `data_id` names no field of an engine record,
    `engine_id` is not loaded; `serveQuery` does not look at it then. -/
def schedulerLoad (s : Server) : Option Server :=
  match s.scheduler with
  | .call node now =>
    match (s.mem.sched.nodes.cell node).action with
    | .serveSchedulerQuery =>
      some { s with scheduler := .loadApp (s.mem.sched.nodes.cell node).data now }
    | .other _ => none
  | .loadApp q now => some { s with scheduler := .loadFd q (s.mem.queries.cell q).app now }
  | .loadFd q app now => some { s with scheduler := .loadReqId q (s.mem.apps.cell app).fd now }
  | .loadReqId q fd now =>
    some { s with scheduler := .loadDataId q fd (s.mem.queries.cell q).query.reqId now }
  | .loadDataId q fd reqId now =>
    let query := { (s.mem.queries.cell q).query with reqId := reqId }
    some { s with
      scheduler :=
        if query.engineIndex.isSome then .loadEngineId q fd reqId query.dataId now
        else .serve fd query now }
  | .loadEngineId q fd reqId dataId now =>
    some { s with
      scheduler := .serve fd ⟨reqId, (s.mem.queries.cell q).query.engineId, dataId⟩ now }
  | _ => none

/-- One step of `scheduler_run`. -/
def schedulerStep (s : Server) : SchedulerLabel → Option Server
  | .lock =>
    match s.scheduler with
    | .start => some { s with scheduler := .top }
    | .relock now => some { s with scheduler := .inner now true }
    | _ => none
  | .clock now =>
    match s.scheduler with
    | .top => some { s with scheduler := .inner now false }
    | _ => none
  | .inner =>
    match s.scheduler with
    | .inner now didSomething =>
      match rearmFirst s.mem.sched now with
      | none => none
      | some (some node, sched) =>
        some { s with mem := { s.mem with sched := sched }, scheduler := .call node now }
      | some (none, sched) =>
        some { s with
          mem := { s.mem with sched := sched }
          scheduler := if didSomething then .top else .waiting }
    | _ => none
  | .load => s.schedulerLoad
  | .serve snap =>
    match s.scheduler with
    | .serve fd query now =>
      some { s with scheduler := .write fd query snap now, hist := s.logRead query }
    | _ => none
  | .write =>
    match s.scheduler with
    | .write fd query snap now =>
      (s.conns fd).map fun conn =>
        { s with scheduler := .relock now, hist := s.logReply conn query snap }
    | _ => none
  | .writeError =>
    match s.scheduler with
    | .write _ _ _ _ => some s.exit
    | _ => none
  | .wake =>
    match s.scheduler with
    | .waiting => some { s with scheduler := .start }
    | _ => none

/-- One step of the server. After `exit(1)` there is none. -/
def step (am : ℕ) (s : Server) (l : ServerLabel) : Option Server :=
  if s.running then
    match l with
    | .manager l => managerStep am s l
    | .scheduler l => schedulerStep s l
  else none

end Server

end Afdx
