import Afdx.Proofs.FramingProofs

/-!
# Who gets the replies

A descriptor number is the only identity that `scheduler_run` has of a client. `Routed` relates it to
the connection that asked for the query; `accept` breaks the relation when it hands out the number of
the action in progress.
-/

namespace Afdx

/-- The descriptor and the query that the action in progress is about to serve. -/
def SchedulerPc.target (m : Mem) : SchedulerPc → Option (ℕ × AppQuery)
  | .call x _ =>
    let node := m.queries.cell (m.sched.nodes.cell x).data
    some ((m.apps.cell node.app).fd, node.query)
  | .loadApp q _ => some ((m.apps.cell (m.queries.cell q).app).fd, (m.queries.cell q).query)
  | .loadFd q a _ => some ((m.apps.cell a).fd, (m.queries.cell q).query)
  | .loadReqId q fd _ => some (fd, (m.queries.cell q).query)
  | .loadDataId q fd reqId _ => some (fd, { (m.queries.cell q).query with reqId := reqId })
  | .loadEngineId q fd reqId dataId _ =>
    some (fd, ⟨reqId, (m.queries.cell q).query.engineId, dataId⟩)
  | .serve fd query _ => some (fd, query)
  | .write fd query _ _ => some (fd, query)
  | _ => none

/-- The descriptor and the query that `application_manager` is serving or registering. -/
def ManagerPc.target (m : Mem) : ManagerPc → Option (ℕ × AppQuery)
  | .serve fd query | .write fd query _ | .registerNode fd query _ => some (fd, query)
  | .schedule fd _ node _ => some (fd, (m.queries.cell node).query)
  | _ => none

theorem SchedulerPc.target_congr {m m' : Mem} {pc : SchedulerPc} (h : ∀ o ∈ pc.toLoad m, o.Same m m') :
    pc.target m' = pc.target m := by
  cases pc with
  | call x now =>
    have hdata : (m'.sched.nodes.cell x).data = (m.sched.nodes.cell x).data :=
      (h (.node x) (List.mem_cons_self ..)).2
    obtain ⟨hq, happ⟩ := h (.query (m.sched.nodes.cell x).data) (by simp [toLoad])
    have hfd : (m'.apps.cell _).fd = (m.apps.cell _).fd :=
      h (.app (m.queries.cell (m.sched.nodes.cell x).data).app) (by simp [toLoad])
    simp only [target, hdata, hq, happ, hfd]
  | loadApp q now =>
    obtain ⟨hq, happ⟩ := h (.query q) (by simp [toLoad])
    have hfd : (m'.apps.cell _).fd = (m.apps.cell _).fd := h (.app (m.queries.cell q).app) (by simp [toLoad])
    simp only [target, hq, happ, hfd]
  | loadFd q a now =>
    obtain ⟨hq, -⟩ := h (.query q) (by simp [toLoad])
    have hfd : (m'.apps.cell a).fd = (m.apps.cell a).fd := h (.app a) (by simp [toLoad])
    simp only [target, hq, hfd]
  | loadReqId q fd now | loadDataId q fd reqId now | loadEngineId q fd reqId dataId now =>
    obtain ⟨hq, -⟩ := h (.query q) (by simp [toLoad])
    simp only [target, hq]
  | _ => rfl

theorem SchedulerPc.target_ext {m m' : Mem} {pc : SchedulerPc} (h : m.Ext m')
    (hpc : ∀ o ∈ pc.toLoad m, o.Allocated m) : pc.target m' = pc.target m :=
  target_congr fun o ho => h.same (hpc o ho)

namespace Server

variable {am : ℕ} {s t : Server} {S S' : Shape} {msg : MsgBytes}

/-- The queries that a connection has asked for. -/
def asked (s : Server) (c : ℕ) : List AppQuery := (s.hist.dispatched c).filterMap Operation.query

/-- The client that the action in progress is for. -/
def actionFd (s : Server) : Option ℕ := (s.scheduler.target s.mem).map Prod.fst

/-- `accept` does not return the descriptor number of the action in progress. -/
def sparesFd (s : Server) : ServerLabel → Bool
  | .manager (.accept newfd) => s.actionFd ≠ some newfd
  | _ => true

/-- The node that `scheduler_run` is about to take from the list: the first one, if it is due. -/
def popped (s : Server) : Option ℕ :=
  match s.scheduler with
  | .inner now _ => s.mem.sched.first.filter fun x => tmGe now (s.mem.sched.nextTime x)
  | _ => none

/-! ## What a step does to the connections -/

theorem asked_mono {l : ServerLabel} (h : step am s l = some t) {c : ℕ} {query : AppQuery}
    (hq : query ∈ s.asked c) : query ∈ t.asked c := by
  by_cases hread : ∃ chunk, l = .manager (.read chunk)
  · obtain ⟨chunk, rfl⟩ := hread
    obtain ⟨_, c', -, -, -, -, hd⟩ := hist_of_read h
    unfold asked at hq ⊢
    rw [hd]
    by_cases hc : c = c'
    · subst hc
      rw [Function.update_self, List.filterMap_append]
      exact List.mem_append_left _ hq
    · rwa [Function.update_of_ne hc]
  · obtain ⟨-, hd⟩ := hist_of_not_read h fun chunk hl => hread ⟨chunk, hl⟩
    rwa [asked, hd]

/-- Only `accept` and `close` change the connections. -/
theorem managerStep_conns {l : ManagerLabel} (h : managerStep am s l = some t) :
    (t.conns = s.conns ∧ t.accepted = s.accepted) ∨
      (∃ newfd, l = .accept newfd ∧ s.manager = .accept ∧ s.conns newfd = none ∧
        t.conns = Function.update s.conns newfd (some s.accepted) ∧ t.accepted = s.accepted + 1) ∨
      ∃ fd site, s.manager = .close fd site ∧ t.conns = Function.update s.conns fd none ∧
        t.accepted = s.accepted := by
  cases l with
  | next =>
    cases hpc : s.manager with
    | close fd site =>
      simp only [managerStep, managerNext, hpc] at h
      cases h
      exact .inr (.inr ⟨fd, site, rfl, rfl, rfl⟩)
    | _ =>
      left
      simp only [managerStep, managerNext, hpc] at h
      (repeat' split at h) <;> first
        | (cases h; exact ⟨rfl, rfl⟩)
        | (obtain ⟨_, -, rfl⟩ := Option.map_eq_some_iff.mp h; exact ⟨rfl, rfl⟩)
        | cases h
  | accept newfd =>
    simp only [managerStep] at h
    split at h
    · rename_i hpc
      split at h
      · rename_i hacc
        cases h
        exact .inr (.inl ⟨newfd, rfl, hpc, hacc.2.1, rfl, rfl⟩)
      · cases h
    · cases h
  | _ =>
    left
    simp only [managerStep] at h
    (repeat' split at h) <;> first
      | (cases h; exact ⟨rfl, rfl⟩)
      | (obtain ⟨_, -, rfl⟩ := Option.map_eq_some_iff.mp h; exact ⟨rfl, rfl⟩)
      | cases h

theorem schedulerStep_conns {l : SchedulerLabel} (h : schedulerStep s l = some t) :
    t.conns = s.conns ∧ t.accepted = s.accepted := by
  cases l <;> simp only [schedulerStep, schedulerLoad] at h <;> (repeat' split at h) <;> first
    | (cases h; exact ⟨rfl, rfl⟩)
    | (obtain ⟨_, -, rfl⟩ := Option.map_eq_some_iff.mp h; exact ⟨rfl, rfl⟩)
    | cases h

/-- An open connection is another one after a step only if `accept` has reused its descriptor. -/
theorem conns_of_managerStep {l : ManagerLabel} (h : managerStep am s l = some t) {fd c : ℕ}
    (hc : t.conns fd = some c) : s.conns fd = some c ∨ l = .accept fd := by
  rcases managerStep_conns h with ⟨heq, -⟩ | ⟨newfd, rfl, -, -, heq, -⟩ | ⟨fd', site, -, heq, -⟩
  · exact .inl (heq ▸ hc)
  · rw [heq] at hc
    by_cases hfd : fd = newfd
    · exact .inr (by rw [hfd])
    · rw [Function.update_of_ne hfd] at hc
      exact .inl hc
  · rw [heq] at hc
    by_cases hfd : fd = fd'
    · rw [hfd, Function.update_self] at hc
      cases hc
    · rw [Function.update_of_ne hfd] at hc
      exact .inl hc

/-- A reply is written to the connection that the descriptor is open for. -/
theorem sent_step {l : ServerLabel} (h : step am s l = some t) :
    t.hist.sent = s.hist.sent ∨ ∃ fd query snap conn, s.conns fd = some conn ∧
      (s.manager = .write fd query snap ∨ ∃ now, s.scheduler = .write fd query snap now) ∧
      t.hist.sent = s.hist.sent ++ [⟨conn, snap.reply query, snap⟩] := by
  cases step_logged h with
  | write fd query snap conn _ hpc hconn hist =>
    exact .inr ⟨fd, query, snap, conn, hconn, hpc, by rw [hist]; rfl⟩
  | nothing _ hist | read _ _ _ _ _ _ _ hist | serve _ _ _ _ hist =>
    exact .inl ((congrArg ServerHist.sent hist).trans rfl)

/-! ## What a step does to the queries in progress -/

/-- A query that `application_manager` is about to serve or register comes from the last `read`. -/
theorem managerStep_target (hw : s.mem.Wf S) {l : ManagerLabel} (h : step am s (.manager l) = some t)
    {fd : ℕ} {query : AppQuery} (ht : t.manager.target t.mem = some (fd, query)) :
    s.manager.target s.mem = some (fd, query) ∨
      t.conns = s.conns ∧ ∃ c, s.conns fd = some c ∧ query ∈ t.asked c := by
  have hs := (step_manager h).2
  cases l with
  | read chunk =>
    right
    simp only [managerStep] at hs
    split at hs
    · rename_i fd' hpc
      split at hs
      · rename_i c hc
        split at hs
        · cases hs
          refine ⟨rfl, c, ?_⟩
          dsimp only at ht
          simp only [asked, Function.update_self, List.filterMap_append]
          rcases ho : (s.packetMsg.overlay chunk).decode.operation with _ | (q | q | _) <;>
            rw [ho] at ht <;> simp only [dispatch, ManagerPc.target, Option.some.injEq, Prod.mk.injEq,
              reduceCtorEq] at ht
          all_goals
            obtain ⟨rfl, rfl⟩ := ht
            exact ⟨hc, List.mem_append_right _ (by simp [Operation.query])⟩
        · cases hs
      · cases hs
    · cases hs
  | next =>
    left
    cases hpc : s.manager with
    | registerNode fd' query' interval =>
      simp only [managerStep, managerNext, hpc] at hs
      obtain ⟨⟨app, node, mem⟩, heq, rfl⟩ := Option.map_eq_some_iff.mp hs
      obtain ⟨app', node', m', S', heq', hr⟩ := hw.registerNode fd' query'
      obtain ⟨rfl, rfl, rfl⟩ : app' = app ∧ node' = node ∧ m' = mem := by
        simpa only [Option.some.injEq, Prod.mk.injEq] using heq'.symm.trans heq
      simpa only [ManagerPc.target, hr.cell] using ht
    | close fd' site =>
      simp only [managerStep, managerNext, hpc] at hs
      cases hs
      cases site <;> cases ht
    | freeQuery node caller =>
      simp only [managerStep, managerNext, hpc] at hs
      cases hs
      cases caller <;> cases ht
    | _ =>
      simp only [managerStep, managerNext, hpc] at hs
      (repeat' split at hs) <;> first
        | (cases hs; first | cases ht | (rw [exit, hpc] at ht; cases ht))
        | (obtain ⟨_, -, rfl⟩ := Option.map_eq_some_iff.mp hs; cases ht)
        | cases hs
  | serve snap =>
    left
    simp only [managerStep] at hs
    split at hs
    · rename_i hpc
      cases hs
      rw [hpc]
      exact ht
    · cases hs
  | mallocError | writeError | acceptError =>
    left
    simp only [managerStep] at hs
    (repeat' split at hs) <;> cases hs <;> exact ht
  | _ =>
    simp only [managerStep] at hs
    (repeat' split at hs) <;> first
      | (cases hs; cases ht)
      | (obtain ⟨_, -, rfl⟩ := Option.map_eq_some_iff.mp hs; cases ht)
      | cases hs

/-- At the head of the inner loop `scheduler_run` takes the first node, if it is due, and the action is then about
    the query of that node. -/
theorem inner_target (hw : s.mem.Wf S) (h : schedulerStep s .inner = some t) :
    (s.popped = none ∧ t.scheduler.target t.mem = none) ∨
      ∃ x ∈ S.sched, s.popped = some x ∧ t.scheduler.target t.mem =
        some (s.mem.ownerFd x, (s.mem.queries.cell (s.mem.sched.payload x).data).query) := by
  simp only [schedulerStep] at h
  split at h <;> [rename_i now didSomething hpc; cases h]
  rcases hw.rearmFirst now with ⟨heq, hnone⟩ | ⟨x, l, l₁, l₂, st', hl, -, heq, hdue, -, -, -, hpx, -⟩
  · rw [heq] at h
    cases h
    refine .inl ⟨?_, by dsimp only; split <;> rfl⟩
    simp only [popped, hpc, hw.schedRepr.first_eq]
    exact Option.filter_eq_none_iff.mpr fun x hx => (Bool.not_eq_true _).mpr (hnone x hx)
  · rw [heq] at h
    cases h
    have hfirst : s.mem.sched.first = some x := by rw [hw.schedRepr.first_eq, hl, List.head?_cons]
    have hdata : (st'.nodes.cell x).data = (s.mem.sched.payload x).data := congrArg Payload.data hpx
    refine .inr ⟨x, by rw [hl]; exact List.mem_cons_self .., ?_, ?_⟩
    · simp only [popped, hpc, hfirst, Option.filter_some, Sched.nextTime, hdue, if_true]
    · simp only [SchedulerPc.target, hdata, Mem.ownerFd]

/-- A load moves the action on without changing what it is about to serve; a pop begins with a node of
    the list. -/
theorem schedulerStep_target (hw : s.mem.Wf S) {l : SchedulerLabel} (h : schedulerStep s l = some t) {fd : ℕ}
    {query : AppQuery} (ht : t.scheduler.target t.mem = some (fd, query)) :
    s.scheduler.target s.mem = some (fd, query) ∨
      l = .inner ∧ ∃ x ∈ S.sched, s.popped = some x ∧ s.mem.ownerFd x = fd ∧
        (s.mem.queries.cell (s.mem.sched.payload x).data).query = query := by
  cases l with
  | inner =>
    right
    rcases inner_target hw h with ⟨-, hnone⟩ | ⟨x, hx, hpop, heq⟩
    · rw [hnone] at ht
      cases ht
    · rw [heq] at ht
      cases ht
      exact ⟨rfl, x, hx, hpop, rfl, rfl⟩
  | load =>
    left
    cases hpc : s.scheduler <;> simp only [schedulerStep, schedulerLoad, hpc] at h <;>
      (repeat' split at h) <;> cases h <;> exact ht
  | serve snap =>
    left
    simp only [schedulerStep] at h
    split at h
    · rename_i hpc
      cases h
      rw [hpc]
      exact ht
    · cases h
  | writeError =>
    left
    simp only [schedulerStep] at h
    split at h <;> cases h
    exact ht
  | write =>
    simp only [schedulerStep] at h
    split at h
    · obtain ⟨_, -, rfl⟩ := Option.map_eq_some_iff.mp h
      cases ht
    · cases h
  | lock | clock _ | wake =>
    simp only [schedulerStep] at h
    split at h <;> cases h <;> cases ht

/-! ## Runs in which `accept` spares the descriptor of the action -/

/-- Every query in use belongs to the connection that asked for it. -/
structure Routed (s : Server) (S : Shape) : Prop where
  owned : ∀ q, S.Owned q → ∃ c, s.conns (s.mem.apps.cell (s.mem.queries.cell q).app).fd = some c ∧
    (s.mem.queries.cell q).query ∈ s.asked c
  manager : ∀ fd query, s.manager.target s.mem = some (fd, query) →
    ∃ c, s.conns fd = some c ∧ query ∈ s.asked c
  action : ∀ fd query, s.scheduler.target s.mem = some (fd, query) →
    ∀ c, s.conns fd = some c → query ∈ s.asked c
  sent : ∀ r ∈ s.hist.sent, ∃ query ∈ s.asked r.conn, r.reply = r.snap.reply query

/-- The connection of a registered client stays open as long as a query of it is scheduled. -/
theorem Routed.conns_kept (hR : Routed s S) (hinv : s.manager.Inv s.mem S) (hw : s.mem.Wf S)
    {l : ManagerLabel} (h : managerStep am s l = some t) {q : ℕ} (hq : S.Owned q) :
    t.conns (s.mem.apps.cell (s.mem.queries.cell q).app).fd =
      s.conns (s.mem.apps.cell (s.mem.queries.cell q).app).fd := by
  rcases managerStep_conns h with ⟨heq, -⟩ | ⟨newfd, -, -, hnone, heq, -⟩ | ⟨fd, site, hpc, heq, -⟩
  · rw [heq]
  · obtain ⟨c, hc, -⟩ := hR.owned q hq
    rw [heq, Function.update_of_ne]
    rintro rfl
    rw [hnone] at hc
    cases hc
  · rw [heq, Function.update_of_ne]
    rw [hpc] at hinv
    obtain ⟨hl, -, hne⟩ := hinv
    rcases hq with ⟨a, ha, hqa⟩ | hql
    · rw [hw.queryApp a ha q hqa]
      exact hne a ha
    · simp [hl] at hql

/-- Where `application_manager` serves or registers a query, no connection is opened or closed. -/
theorem conns_of_target {l : ManagerLabel} (h : managerStep am s l = some t) {m : Mem} {p : ℕ × AppQuery}
    (ht : s.manager.target m = some p) : t.conns = s.conns := by
  rcases managerStep_conns h with ⟨heq, -⟩ | ⟨_, -, hpc, -⟩ | ⟨_, _, hpc, -⟩
  · exact heq
  · rw [hpc] at ht
    cases ht
  · rw [hpc] at ht
    cases ht

theorem Routed.sent_step (hR : Routed s S) {l : ServerLabel} (h : step am s l = some t) :
    ∀ r ∈ t.hist.sent, ∃ query ∈ t.asked r.conn, r.reply = r.snap.reply query := by
  intro r hr
  have hold : r ∈ s.hist.sent → ∃ query ∈ t.asked r.conn, r.reply = r.snap.reply query := fun hr => by
    obtain ⟨query, hq, he⟩ := hR.sent r hr
    exact ⟨query, asked_mono h hq, he⟩
  rcases Server.sent_step h with heq | ⟨fd, query, snap, conn, hconn, hpc, heq⟩
  · exact hold (heq ▸ hr)
  rw [heq] at hr
  rcases List.mem_append.mp hr with hr | hr
  · exact hold hr
  obtain rfl := List.mem_singleton.mp hr
  refine ⟨query, asked_mono h ?_, rfl⟩
  rcases hpc with hpc | ⟨now, hpc⟩
  · obtain ⟨c, hc, hq⟩ := hR.manager fd query (by rw [hpc]; rfl)
    obtain rfl : c = conn := Option.some.inj (hc.symm.trans hconn)
    exact hq
  · exact hR.action fd query (by rw [hpc]; rfl) conn hconn

/-- A step of `application_manager` does not change the query that the action is about. -/
theorem action_target_of_moved {l : ManagerLabel} (hs : Server.managerStep am s l = some t)
    (hm : Moved s.manager s.mem S t.manager t.mem S')
    (hpc : ∀ o ∈ s.scheduler.toLoad s.mem, o.Allocated s.mem) {x : ℕ × AppQuery}
    (ht : t.scheduler.target t.mem = some x) : s.scheduler.target s.mem = some x := by
  rcases managerStep_scheduler hs with heq | ⟨-, hst⟩
  · rwa [heq, SchedulerPc.target_ext hm.ext hpc] at ht
  · rw [hst] at ht
    cases ht

theorem Routed.managerStep (hR : Routed s S) (hw : s.mem.Wf S) (hinv : s.manager.Inv s.mem S)
    (hV : ActionValid s) {l : ManagerLabel} (hok : s.sparesFd (.manager l) = true)
    (h : step am s (.manager l) = some t)
    (hm : Moved s.manager s.mem S t.manager t.mem S') : Routed t S' := by
  have hs := (step_manager h).2
  constructor
  case owned =>
    intro q hq
    rcases hm.owned q hq with ho | ⟨fd, app, interval, hpc⟩
    · obtain ⟨c, hc, hask⟩ := hR.owned q ho
      have hqlt := s.mem.queries.live_lt q (hw.queryLive q ho)
      have halt := s.mem.apps.live_lt _ (hw.appLive_of_owned ho)
      rw [(hm.ext.query q hqlt).1, (hm.ext.query q hqlt).2, hm.ext.fd _ halt,
        hR.conns_kept hinv hw hs ho]
      exact ⟨c, hc, asked_mono h hask⟩
    · -- the query that is scheduled by this step
      have ht : s.manager.target s.mem = some (fd, (s.mem.queries.cell q).query) := by rw [hpc]; rfl
      obtain ⟨c, hc, hask⟩ := hR.manager _ _ ht
      rw [hpc] at hinv
      obtain ⟨-, -, happ, hfd, hlive, -, hna, -⟩ := hinv
      have hqlt := s.mem.queries.live_lt q hlive
      have halt := s.mem.apps.live_lt app (hw.appLive app happ)
      rw [(hm.ext.query q hqlt).1, (hm.ext.query q hqlt).2, hna, hm.ext.fd _ halt, hfd,
        conns_of_target hs ht]
      exact ⟨c, hc, asked_mono h hask⟩
  case manager =>
    intro fd query ht
    rcases managerStep_target hw h ht with hold | ⟨hconns, c, hc, hask⟩
    · obtain ⟨c, hc, hask⟩ := hR.manager fd query hold
      exact ⟨c, by rw [conns_of_target hs hold]; exact hc, asked_mono h hask⟩
    · exact ⟨c, hconns ▸ hc, hask⟩
  case action =>
    intro fd query ht c hc
    have ht' := action_target_of_moved hs hm hV.allocated ht
    rcases conns_of_managerStep hs hc with hold | rfl
    · exact asked_mono h (hR.action fd query ht' c hold)
    · -- `accept` has returned the descriptor of the action
      simp [sparesFd, actionFd, ht'] at hok
  case sent => exact hR.sent_step h

/-- Re-arming does not change the query that `application_manager` is busy with. -/
theorem target_of_rearmed (hpc : t.manager = s.manager) (hr : Rearmed s.mem S s.manager t.mem S') :
    t.manager.target t.mem = s.manager.target s.mem := by
  rw [hpc]
  cases s.manager <;> simp only [ManagerPc.target, hr.queries]

theorem Routed.schedulerStep (hR : Routed s S) (hw : s.mem.Wf S) (hinv : s.manager.Inv s.mem S)
    {l : SchedulerLabel} (h : step am s (.scheduler l) = some t)
    (hr : Rearmed s.mem S s.manager t.mem S') : Routed t S' := by
  have hs := (step_scheduler h).2
  have hconns := (schedulerStep_conns hs).1
  constructor
  case owned =>
    intro q hq
    rw [hr.registered] at hq
    obtain ⟨c, hc, hask⟩ := hR.owned q hq
    rw [hr.apps, hr.queries, hconns]
    exact ⟨c, hc, asked_mono h hask⟩
  case manager =>
    intro fd query ht
    rw [target_of_rearmed (schedulerStep_rearmed hw hinv hs).1 hr] at ht
    obtain ⟨c, hc, hask⟩ := hR.manager fd query ht
    exact ⟨c, hconns ▸ hc, asked_mono h hask⟩
  case action =>
    intro fd query ht c hc
    rw [hconns] at hc
    rcases schedulerStep_target hw hs ht with ht' | ⟨-, x, hx, -, rfl, rfl⟩
    · exact asked_mono h (hR.action fd query ht' c hc)
    · -- a node is popped: its connection is still open, and it is the only one with the descriptor
      obtain ⟨c', hc', hask⟩ := hR.owned _ (hw.schedNode x hx).2
      obtain rfl : c' = c := Option.some.inj (hc'.symm.trans hc)
      exact asked_mono h hask
  case sent => exact hR.sent_step h

/-- The queries that the messages on a connection ask for. -/
def queriesSent (s : Server) (c : ℕ) : List AppQuery :=
  (decodeStream (s.hist.received c)).filterMap Operation.query

/-- The reply is made for a query that was sent over the connection it is written to. -/
def ReplyAsked (s : Server) (r : Sent) : Prop := ∃ query ∈ s.queriesSent r.conn, r.reply = r.snap.reply query

/-- `read` returns whole messages, and `accept` spares the descriptor of the action. -/
def readsWholeSparesFd (s : Server) (l : ServerLabel) : Bool := s.readsWhole l && s.sparesFd l

theorem replyAsked_of_reachable
    (h : Lts.Reachable (Lts.restrict (step am) readsWholeSparesFd) (init am msg) s) :
    ∀ r ∈ s.hist.sent, s.ReplyAsked r := by
  obtain ⟨⟨hF, -⟩, S, -, -, hR⟩ := h.invariant
    (I := fun s => (Framed s ∧ ActionValid s) ∧ ∃ S, s.mem.Wf S ∧ s.manager.Inv s.mem S ∧ Routed s S)
    (by
      refine ⟨⟨⟨fun _ => Nat.dvd_zero _, fun _ => by simp [init, decodeStream]⟩,
        ⟨by simp [init, SchedulerPc.toLoad], by simp [init]⟩⟩, .init, Mem.wf_init, ⟨rfl, rfl⟩, ?_⟩
      constructor <;> simp [init, Shape.init, Shape.Owned, ManagerPc.target, SchedulerPc.target])
    (by
      rintro s l t ⟨⟨hF, hV⟩, S, hw, hinv, hR⟩ hs
      obtain ⟨hok, hs⟩ := Lts.restrict_eq_some.mp hs
      obtain ⟨hwhole, hfd⟩ := Bool.and_eq_true_iff.mp hok
      refine ⟨⟨hF.step hwhole hs, hV.step ⟨S, hw, hinv⟩ hs⟩, ?_⟩
      cases l with
      | manager l =>
        obtain ⟨S', hm⟩ := managerStep_moved hw hinv (step_manager hs).2
        exact ⟨S', hm.wf, hm.inv, hR.managerStep hw hinv hV hfd hs hm⟩
      | scheduler l =>
        obtain ⟨hpc, S', hr⟩ := schedulerStep_rearmed hw hinv (step_scheduler hs).2
        exact ⟨S', hr.wf, hpc ▸ hr.inv, hR.schedulerStep hw hinv hs hr⟩)
  intro r hr
  obtain ⟨query, hq, he⟩ := hR.sent r hr
  refine ⟨query, ?_, he⟩
  rwa [queriesSent, ← hF.dispatched]

/-! ## Runs in which it does not -/

/-- Nothing has been read from a connection that is not accepted yet. -/
structure FreshConns (s : Server) : Prop where
  received : ∀ c, s.accepted ≤ c → s.hist.received c = []
  lt : ∀ fd c, s.conns fd = some c → c < s.accepted

theorem FreshConns.step (hC : FreshConns s) {l : ServerLabel} (h : step am s l = some t) :
    FreshConns t := by
  have hconns : ∀ fd c, t.conns fd = some c → c < t.accepted := by
    intro fd c hc
    cases l with
    | manager l =>
      rcases managerStep_conns (step_manager h).2 with
        ⟨heq, ha⟩ | ⟨newfd, -, -, -, heq, ha⟩ | ⟨fd', site, -, heq, ha⟩ <;> rw [heq] at hc <;> rw [ha]
      · exact hC.lt fd c hc
      · by_cases hfd : fd = newfd
        · rw [hfd, Function.update_self] at hc
          cases hc
          exact Nat.lt_succ_self _
        · rw [Function.update_of_ne hfd] at hc
          exact Nat.lt_succ_of_lt (hC.lt fd c hc)
      · by_cases hfd : fd = fd'
        · rw [hfd, Function.update_self] at hc
          cases hc
        · rw [Function.update_of_ne hfd] at hc
          exact hC.lt fd c hc
    | scheduler l =>
      obtain ⟨heq, ha⟩ := schedulerStep_conns (step_scheduler h).2
      rw [heq] at hc
      rw [ha]
      exact hC.lt fd c hc
  have hle : s.accepted ≤ t.accepted := by
    cases l with
    | manager l =>
      rcases managerStep_conns (step_manager h).2 with ⟨-, ha⟩ | ⟨_, -, -, -, -, ha⟩ | ⟨_, _, -, -, ha⟩ <;> omega
    | scheduler l => exact (schedulerStep_conns (step_scheduler h).2).2.ge
  refine ⟨fun c hc => ?_, hconns⟩
  by_cases hread : ∃ chunk, l = .manager (.read chunk)
  · obtain ⟨chunk, rfl⟩ := hread
    obtain ⟨fd, c', hc', -, -, hr, -⟩ := hist_of_read h
    have hlt := hC.lt fd c' hc'
    rw [hr, Function.update_of_ne (by omega)]
    exact hC.received c (hle.trans hc)
  · rw [(hist_of_not_read h fun chunk hl => hread ⟨chunk, hl⟩).1]
    exact hC.received c (hle.trans hc)

/-- How many steps the action in progress is away from its `write`. -/
def stepsToWrite : SchedulerPc → ℕ
  | .call _ _ => 7
  | .loadApp _ _ => 6
  | .loadFd _ _ _ => 5
  | .loadReqId _ _ _ => 4
  | .loadDataId _ _ _ _ => 3
  | .loadEngineId _ _ _ _ _ => 2
  | .serve _ _ _ => 1
  | _ => 0

/-- The action in progress can always take another step towards its `write`. -/
theorem ActionValid.proceed (hV : ActionValid s) (am : ℕ) (hrun : s.running = true)
    {p : ℕ × AppQuery} (ht : s.scheduler.target s.mem = some p)
    (hpc : ∀ fd query snap now, s.scheduler ≠ .write fd query snap now) :
    ∃ l pc' hist, Server.step am s (.scheduler l) = some { s with scheduler := pc', hist := hist } ∧
      pc'.target s.mem = some p ∧ stepsToWrite pc' < stepsToWrite s.scheduler ∧
      hist.received = s.hist.received := by
  have load : ∀ pc', s.schedulerLoad = some { s with scheduler := pc' } → pc'.target s.mem = some p →
      stepsToWrite pc' < stepsToWrite s.scheduler → ∃ l pc' hist, Server.step am s (.scheduler l) =
        some { s with scheduler := pc', hist := hist } ∧ pc'.target s.mem = some p ∧
        stepsToWrite pc' < stepsToWrite s.scheduler ∧ hist.received = s.hist.received := by
    intro pc' hload ht' hlt
    refine ⟨.load, pc', s.hist, ?_, ht', hlt, rfl⟩
    rw [Server.step, if_pos hrun]
    exact hload
  cases hs : s.scheduler with
  | call x now =>
    rw [hs] at ht
    exact hs ▸ load (.loadApp _ now) (by simp only [schedulerLoad, hs, hV.action x now hs]) ht
      (by simp [hs, stepsToWrite])
  | loadApp q now =>
    rw [hs] at ht
    exact hs ▸ load (.loadFd q _ now) (by simp only [schedulerLoad, hs]) ht (by simp [hs, stepsToWrite])
  | loadFd q a now =>
    rw [hs] at ht
    exact hs ▸ load (.loadReqId q _ now) (by simp only [schedulerLoad, hs]) ht
      (by simp [hs, stepsToWrite])
  | loadReqId q fd now =>
    rw [hs] at ht
    exact hs ▸ load (.loadDataId q fd _ now) (by simp only [schedulerLoad, hs]) ht
      (by simp [hs, stepsToWrite])
  | loadDataId q fd reqId now =>
    rw [hs] at ht
    refine hs ▸ load _ (by simp only [schedulerLoad, hs]; rfl) ?_ ?_
    · split <;> exact ht
    · split <;> simp [hs, stepsToWrite]
  | loadEngineId q fd reqId dataId now =>
    rw [hs] at ht
    exact hs ▸ load (.serve fd _ now) (by simp only [schedulerLoad, hs]) ht (by simp [hs, stepsToWrite])
  | serve fd query now =>
    rw [hs] at ht
    refine ⟨.serve zeroSnapshot, .write fd query zeroSnapshot now, s.logRead query, ?_, ht,
      by simp [stepsToWrite], rfl⟩
    rw [Server.step, if_pos hrun]
    simp only [Server.schedulerStep, hs]
  | write fd query snap now => exact (hpc fd query snap now hs).elim
  | start | top | inner _ _ | relock _ | waiting =>
    rw [hs] at ht
    cases ht

/-- The action in progress reaches its `write`, whatever the connection is. -/
theorem ActionValid.reaches_write {am : ℕ} (hI : Inv s) (hV : ActionValid s) (hrun : s.running = true)
    {fd c : ℕ} {query : AppQuery} (ht : s.scheduler.target s.mem = some (fd, query))
    (hc : s.conns fd = some c) :
    ∃ t, Lts.Reachable (Server.step am) s t ∧ t.hist.received = s.hist.received ∧
      ∃ r ∈ t.hist.sent, r.conn = c := by
  obtain ⟨t, hst, ⟨hrun', -, -, ht', hc', hr'⟩, fd', query', snap, now, hpc⟩ := Lts.reaches_of_decreasing
    (Server.step am)
    (I := fun u => u.running = true ∧ Inv u ∧ ActionValid u ∧
      u.scheduler.target u.mem = some (fd, query) ∧ u.conns fd = some c ∧
      u.hist.received = s.hist.received)
    (G := fun u => ∃ fd query snap now, u.scheduler = .write fd query snap now)
    (fun u => stepsToWrite u.scheduler) (by
      rintro u ⟨hrun, hI, hV, ht, hc, hr⟩ hG
      obtain ⟨l, pc', hist, hs, ht', hlt, hr'⟩ := hV.proceed am hrun ht
        fun fd query snap now hw => hG ⟨fd, query, snap, now, hw⟩
      exact ⟨_, _, hs, ⟨hrun, hI.step hs, hV.step hI hs, ht', hc, hr'.trans hr⟩, hlt⟩)
    s ⟨hrun, hI, hV, ht, hc, rfl⟩
  have hfd : fd' = fd := by
    rw [hpc] at ht'
    exact congrArg Prod.fst (Option.some.inj ht')
  have hs : Server.step am t (.scheduler .write) = some { t with
      scheduler := .relock now, hist := t.logReply c query' snap } := by
    rw [Server.step, if_pos hrun']
    simp only [Server.schedulerStep, hpc, hfd, hc', Option.map_some]
  exact ⟨_, hst.tail hs, hr', ⟨c, snap.reply query', snap⟩, by simp [logReply], rfl⟩

/-- Replies reach only the connection that asked in the runs where `read` returns whole messages and
    `accept` does not return the descriptor number of the action in progress. If it does, some
    continuation writes a reply to the new connection, which has not asked for anything. -/
theorem replies_asked_iff (am : ℕ) (msg : MsgBytes) :
    (∀ s, Lts.Reachable (Lts.restrict (step am) readsWholeSparesFd) (init am msg) s →
      ∀ r ∈ s.hist.sent, s.ReplyAsked r) ∧
    ∀ s l t, Lts.Reachable (step am) (init am msg) s → step am s l = some t → s.sparesFd l = false →
      ∃ u, Lts.Reachable (step am) t u ∧ ∃ r ∈ u.hist.sent, ¬ u.ReplyAsked r := by
  refine ⟨fun s h => replyAsked_of_reachable h, fun s l t h hs hbad => ?_⟩
  have hI := inv_of_reachable h
  have hV := actionValid_of_reachable h
  have hC : FreshConns s := h.invariant (I := FreshConns) ⟨fun _ _ => rfl, by simp [init]⟩
    fun _ _ _ hC hs => hC.step hs
  obtain ⟨newfd, rfl⟩ : ∃ newfd, l = .manager (.accept newfd) := by
    unfold sparesFd at hbad
    split at hbad
    · exact ⟨_, rfl⟩
    · cases hbad
  have hs' := (step_manager hs).2
  obtain ⟨query, ht⟩ : ∃ query, s.scheduler.target s.mem = some (newfd, query) := by
    simp only [sparesFd, ne_eq, decide_not, Bool.not_eq_false', decide_eq_true_eq] at hbad
    obtain ⟨⟨fd, query⟩, ht, rfl⟩ := Option.map_eq_some_iff.mp hbad
    exact ⟨query, ht⟩
  obtain ⟨S, hw, hinv⟩ := id hI
  obtain ⟨S', hm⟩ := managerStep_moved hw hinv hs'
  have hspc : s.manager = .accept ∧ t.conns newfd = some s.accepted ∧ t.running = true := by
    have hrun := (step_manager hs).1
    simp only [managerStep] at hs'
    split at hs'
    · rename_i hpc
      split at hs' <;> cases hs'
      exact ⟨hpc, Function.update_self .., hrun⟩
    · cases hs'
  have ht' : t.scheduler.target t.mem = some (newfd, query) := by
    rcases managerStep_scheduler hs' with heq | ⟨hwait, -⟩
    · rw [heq, SchedulerPc.target_ext hm.ext hV.allocated, ht]
    · rw [hwait] at ht
      cases ht
  obtain ⟨u, htu, hr, r, hru, hrc⟩ := (hV.step hI hs).reaches_write (hI.step hs) hspc.2.2 ht' hspc.2.1
  refine ⟨u, htu, r, hru, ?_⟩
  rintro ⟨q, hq, -⟩
  have hnil : u.hist.received s.accepted = [] := by
    rw [hr, (hist_of_not_read hs (by simp)).1]
    exact hC.received _ le_rfl
  rw [queriesSent, hrc, hnil] at hq
  simp [decodeStream] at hq

/-- A client registers a query, and it is served. -/
def servedRun : List ServerLabel :=
  registerRun 4 ++ popRun ++ List.replicate 5 (.scheduler .load) ++
    [.scheduler (.serve zeroSnapshot), .scheduler .write]

theorem replies_asked_servedRun :
    ∃ s, Lts.run (Lts.restrict (step 3) readsWholeSparesFd) (init 3 fun _ => 0) servedRun = some s ∧
      s.hist.sent.length = 1 ∧ ∀ r ∈ s.hist.sent, s.ReplyAsked r := by
  obtain ⟨s, hrun, hp⟩ := Lts.exists_run_of_map (Lts.restrict (step 3) readsWholeSparesFd)
    (init 3 fun _ => 0) servedRun (fun s => decide (s.hist.sent.length = 1)) (by decide)
  exact ⟨s, hrun, of_decide_eq_true hp, (replies_asked_iff 3 fun _ => 0).1 s ⟨_, hrun⟩⟩

/-- The client closes its connection after `scheduler_run` has loaded the descriptor, a second client
    gets the same number, and then the reply is written. -/
def reusedFdRun : List ServerLabel :=
  registerRun 4 ++ popRun ++ List.replicate 3 (.scheduler .load) ++ eofRun 4 10 ++ acceptRun 4 ++
    [.scheduler .load, .scheduler .load, .scheduler (.serve zeroSnapshot), .scheduler .write]

/-- The second client has not sent a byte and gets the reply to request 7. -/
theorem reply_to_other_client :
    ∃ s, Lts.run (step 3) (init 3 fun _ => 0) reusedFdRun = some s ∧ s.hist.received 1 = [] ∧
      (s.hist.sent.map fun r => (r.conn, r.reply.reqId)) = [(1, 7)] ∧
      ¬ ∀ r ∈ s.hist.sent, s.ReplyAsked r := by
  obtain ⟨s, hrun, hp⟩ := Lts.exists_run_of_map (step 3) (init 3 fun _ => 0) reusedFdRun
    (fun s => decide (s.hist.received 1 = [] ∧
      (s.hist.sent.map fun r => (r.conn, r.reply.reqId)) = [(1, 7)])) (by decide)
  obtain ⟨hr, hsent⟩ := of_decide_eq_true hp
  refine ⟨s, hrun, hr, hsent, fun hall => ?_⟩
  obtain ⟨r, hr', heq⟩ : ∃ r ∈ s.hist.sent, (r.conn, r.reply.reqId) = (1, 7) :=
    List.mem_map.mp (hsent ▸ List.mem_singleton_self _)
  obtain ⟨query, hq, -⟩ := hall r hr'
  rw [queriesSent, (Prod.mk.inj heq).1, hr] at hq
  simp [decodeStream] at hq

end Server

end Afdx
