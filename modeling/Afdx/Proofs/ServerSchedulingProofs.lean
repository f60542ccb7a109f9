import Afdx.Proofs.ActionProofs
import Afdx.Proofs.SchedulingProofs

/-!
# The scheduler of the server

`application_manager` is one of the callers that `Scheduling` allows, and what `scheduler_run` does in
`serve_query` is one of the actions. So the list that the server schedules is always sorted, and its
intervals come from the messages. A pass of `scheduler_run` ends unless one of them is zero. All times of
its nodes are normalised.
-/

namespace Afdx

/-- The clock reading of the pass, while the action is called or has returned. -/
def SchedulerPc.acting : SchedulerPc → Option Timespec
  | loadApp _ now | loadFd _ _ now | loadReqId _ _ now | loadDataId _ _ _ now
  | loadEngineId _ _ _ _ now | serve _ _ now | write _ _ _ now | relock now => some now
  | _ => none

/-- Where `scheduler_run` stands, with and without the steps of the action. -/
inductive SameRun : SchedulerPc → RunPc → Prop
  | start : SameRun .start .start
  | top : SameRun .top .top
  | inner (now : Timespec) (didSomething : Bool) :
    SameRun (.inner now didSomething) (.inner now didSomething)
  | call (node : ℕ) (now : Timespec) : SameRun (.call node now) (.call node now)
  | action {pc : SchedulerPc} {now : Timespec} (h : pc.acting = some now) : SameRun pc (.relock now)
  | waiting (deadline : Option Timespec) : SameRun .waiting (.waiting deadline)

theorem SameRun.signal {pc : SchedulerPc} {pc' : RunPc} (h : SameRun pc pc') :
    SameRun (Server.signalWakeup pc) pc'.signal := by
  cases h with
  | action h =>
    rename_i now
    have hw : Server.signalWakeup pc = pc := by cases pc <;> first | rfl | cases h
    rw [hw]
    exact .action h
  | start => exact .start
  | top => exact .top
  | inner now didSomething => exact .inner now didSomething
  | call node now => exact .call node now
  | waiting deadline => exact .start

namespace Server

variable {am : ℕ} {s t : Server} {msg : MsgBytes}

theorem locked_of_sameRun {pc : RunPc} (h : SameRun s.scheduler pc) : pc.locked = s.schedulerLocked := by
  unfold schedulerLocked
  cases hpc : s.scheduler <;> rw [hpc] at h <;> cases h <;> first | rfl | (rename_i h; cases h)

/-! ## The calls of the scheduler -/

/-- What a step of `application_manager` does to the scheduler. -/
inductive SchedCall (s : Server) (l : ManagerLabel) (t : Server) : Prop
  | nothing (sched : t.mem.sched = s.mem.sched) (pc : t.scheduler = s.scheduler)
      (free : ∀ node handler caller, t.manager = .freeNode node handler caller →
        s.manager = .freeNode node handler caller)
  | schedule (fd app node : ℕ) (interval : ℤ) (now : Timespec) (handler : ℕ) (signal : Bool)
      (hl : l = .schedule now) (hpc : s.manager = .schedule fd app node interval)
      (locked : s.schedulerLocked = false)
      (sched : Afdx.schedule s.mem.sched .serveSchedulerQuery node interval now =
        some (handler, signal, t.mem.sched))
      (pc : t.scheduler = if signal then signalWakeup s.scheduler else s.scheduler)
      (next : t.manager = .storeHandler fd app node handler)
  | remove (node handler : ℕ) (caller : Caller) (hpc : s.manager = .removeNode node handler caller)
      (locked : s.schedulerLocked = false) (sched : t.mem.sched = Afdx.removeNode s.mem.sched handler)
      (pc : t.scheduler = s.scheduler) (next : t.manager = .freeNode node handler caller)
  | free (node handler : ℕ) (caller : Caller) (hpc : s.manager = .freeNode node handler caller)
      (sched : t.mem.sched = { s.mem.sched with nodes := s.mem.sched.nodes.free handler })
      (pc : t.scheduler = s.scheduler) (next : t.manager = .freeQuery node caller)

theorem Mem.sched_registerNode {m m' : Mem} {fd app node : ℕ} {query : AppQuery}
    (h : m.registerNode fd query = some (app, node, m')) : m'.sched = m.sched := by
  unfold Mem.registerNode at h
  obtain ⟨⟨prev, found⟩, -, heq⟩ := Option.map_eq_some_iff.mp h
  cases found <;> cases heq <;> rfl

theorem Mem.sched_unchainQuery {m m' : Mem} {fd : ℕ} {reqId : UInt32} {node : Option ℕ}
    (h : m.unchainQuery fd reqId = some (node, m')) : m'.sched = m.sched := by
  simp only [Mem.unchainQuery, Option.bind_eq_bind, Option.bind_eq_some_iff] at h
  obtain ⟨⟨_, app⟩, -, h⟩ := h
  cases app with
  | none =>
    cases h
    rfl
  | some app =>
    obtain ⟨⟨prev, node⟩, -, h⟩ := Option.bind_eq_some_iff.mp h
    cases node <;> cases prev <;> cases h <;> rfl

theorem Mem.sched_unchainApp {m m' : Mem} {fd : ℕ} {app : Option ℕ}
    (h : m.unchainApp fd = some (app, m')) : m'.sched = m.sched := by
  simp only [Mem.unchainApp, Option.bind_eq_bind, Option.bind_eq_some_iff] at h
  obtain ⟨⟨prev, app⟩, -, h⟩ := h
  cases app <;> cases prev <;> cases h <;> rfl

theorem managerNext_schedCall (h : s.managerNext am = some t) : SchedCall s .next t := by
  cases hpc : s.manager with
  | registerNode fd query interval =>
    simp only [managerNext, hpc] at h
    obtain ⟨⟨app, node, mem⟩, heq, rfl⟩ := Option.map_eq_some_iff.mp h
    exact .nothing (Mem.sched_registerNode heq) rfl (by simp)
  | unchainQuery fd reqId =>
    simp only [managerNext, hpc] at h
    split at h
    · cases h
    · rename_i heq
      cases h
      exact .nothing (Mem.sched_unchainQuery heq) rfl (by simp)
    · rename_i heq
      obtain ⟨_, -, rfl⟩ := Option.map_eq_some_iff.mp h
      exact .nothing (Mem.sched_unchainQuery heq) rfl (by simp)
  | unchainApp fd site =>
    simp only [managerNext, hpc] at h
    split at h
    · cases h
    · rename_i heq
      cases h
      exact .nothing (Mem.sched_unchainApp heq) rfl (by simp)
    · rename_i heq
      cases h
      exact .nothing (Mem.sched_unchainApp heq) rfl (by simp)
  | removeNode node handler caller =>
    simp only [managerNext, hpc] at h
    split at h <;> [cases h; rename_i hlock]
    cases h
    exact .remove node handler caller hpc (by simpa using hlock) rfl rfl rfl
  | freeNode node handler caller =>
    simp only [managerNext, hpc] at h
    cases h
    exact .free node handler caller hpc rfl rfl rfl
  | freeQuery node caller =>
    simp only [managerNext, hpc] at h
    cases h
    exact .nothing rfl rfl (by cases caller <;> simp)
  | close fd site =>
    simp only [managerNext, hpc] at h
    cases h
    exact .nothing rfl rfl (by cases site <;> simp [Teardown.next])
  | listenError =>
    simp only [managerNext, hpc] at h
    split at h <;> cases h
    · exact .nothing rfl rfl fun _ _ _ h => h
    · exact .nothing rfl rfl (by simp)
  | _ =>
    simp only [managerNext, hpc] at h
    (repeat' split at h) <;> first
      | (cases h; exact .nothing rfl rfl (by simp))
      | (obtain ⟨_, -, rfl⟩ := Option.map_eq_some_iff.mp h; exact .nothing rfl rfl (by simp))
      | cases h

theorem managerStep_schedCall {l : ManagerLabel} (h : managerStep am s l = some t) : SchedCall s l t := by
  cases l with
  | next => exact managerNext_schedCall h
  | schedule now =>
    simp only [managerStep] at h
    split at h <;> [rename_i fd app node interval hpc; cases h]
    split at h <;> [cases h; rename_i hlock]
    obtain ⟨⟨handler, signal, sched⟩, heq, rfl⟩ := Option.map_eq_some_iff.mp h
    exact .schedule fd app node interval now handler signal rfl hpc (by simpa using hlock) heq rfl rfl
  | read chunk =>
    simp only [managerStep] at h
    split at h <;> [rename_i fd _; cases h]
    split at h <;> [skip; cases h]
    split at h <;> cases h
    refine .nothing rfl rfl fun _ _ _ hpc => ?_
    have hq := quiet_dispatch fd (s.packetMsg.overlay chunk).decode.operation
    cases (congrArg ManagerPc.quiet hpc).symm.trans hq
  | acceptError | writeError | mallocError =>
    simp only [managerStep] at h
    (repeat' split at h) <;> cases h <;> exact .nothing rfl rfl fun _ _ _ h => h
  | _ =>
    simp only [managerStep] at h
    (repeat' split at h) <;> first
      | (cases h; exact .nothing rfl rfl (by simp))
      | (obtain ⟨_, -, rfl⟩ := Option.map_eq_some_iff.mp h; exact .nothing rfl rfl (by simp))
      | cases h

/-! ## The intervals -/

end Server

/-- The interval that `application_manager` is about to register. -/
def ManagerPc.registering : ManagerPc → Option ℤ
  | .registerNode _ _ interval | .schedule _ _ _ interval => some interval
  | _ => none

namespace Server

/-- A step of `application_manager` that does not read a `REGISTER` message goes on with the interval in
    hand, if any. -/
theorem registering_step {l : ManagerLabel} (h : managerStep am s l = some t) :
    ∀ i ∈ t.manager.registering, i ∈ s.manager.registering ∨ ∃ chunk query, ∃ ms : UInt16,
      l = .read chunk ∧ (s.packetMsg.overlay chunk).decode.operation = some (.registerQuery query ms) ∧
        i = ms.toNat := by
  intro i hi
  cases l with
  | read chunk =>
    simp only [managerStep] at h
    split at h <;> [skip; cases h]
    split at h <;> [skip; cases h]
    split at h <;> cases h
    rcases ho : (s.packetMsg.overlay chunk).decode.operation with _ | (_ | ⟨query, ms⟩ | _) <;>
      simp only [ho, dispatch] at hi <;> cases hi
    exact .inr ⟨chunk, query, ms, rfl, ho, rfl⟩
  | next =>
    left
    cases hpc : s.manager with
    | registerNode fd query interval =>
      simp only [managerStep, managerNext, hpc] at h
      obtain ⟨_, -, rfl⟩ := Option.map_eq_some_iff.mp h
      exact hi
    | close fd site =>
      simp only [managerStep, managerNext, hpc] at h
      cases h
      cases site <;> cases hi
    | freeQuery node caller =>
      simp only [managerStep, managerNext, hpc] at h
      cases h
      cases caller <;> cases hi
    | _ =>
      simp only [managerStep, managerNext, hpc] at h
      (repeat' split at h) <;> first
        | (cases h; first | cases hi | (rw [exit, hpc] at hi; exact hi))
        | (obtain ⟨_, -, rfl⟩ := Option.map_eq_some_iff.mp h; cases hi)
        | cases h
  | acceptError | writeError | mallocError =>
    simp only [managerStep] at h
    (repeat' split at h) <;> cases h <;> exact .inl hi
  | _ =>
    simp only [managerStep] at h
    (repeat' split at h) <;> first
      | (cases h; cases hi)
      | (obtain ⟨_, -, rfl⟩ := Option.map_eq_some_iff.mp h; cases hi)
      | cases h

/-! ## The simulation -/

/-- What the clock shows is normalised. -/
def clocksNormalised (_ : Server) : ServerLabel → Bool
  | .manager (.schedule now) | .scheduler (.clock now) => decide now.Normalised
  | _ => true

/-- The `REGISTER` message that the step reads, if it reads one, has an interval with the property `Q`. -/
def Registers (Q : UInt16 → Prop) (s : Server) (l : ServerLabel) : Prop :=
  ∀ chunk query ms, l = .manager (.read chunk) →
    (s.packetMsg.overlay chunk).decode.operation = some (.registerQuery query ms) → Q ms

/-- The scheduler of the server is in the state `u`; all intervals are numbers of milliseconds with the
    property `Q`. -/
structure Simulates (Q : UInt16 → Prop) (s : Server) (u : Scheduling) : Prop where
  inv : Inv s
  list : ∃ l, u.Inv l
  sched : u.sched = s.mem.sched
  pc : SameRun s.scheduler u.scheduler
  removed : ∀ node handler caller, s.manager = .freeNode node handler caller → handler ∈ u.removed
  registering : ∀ i ∈ s.manager.registering, ∃ ms : UInt16, Q ms ∧ i = ms.toNat
  intervals : ∀ c ∈ u.hist.scheduled, ∃ ms : UInt16, Q ms ∧ c.interval = msInterval ms.toNat

variable {Q : UInt16 → Prop} {u u' : Scheduling}

theorem simulates_init (Q : UInt16 → Prop) (am : ℕ) (msg : MsgBytes) : Simulates Q (init am msg) .init where
  inv := inv_init am msg
  list := ⟨[], Scheduling.inv_init⟩
  sched := rfl
  pc := .start
  removed := by simp [init]
  registering := by simp [init, ManagerPc.registering]
  intervals := by simp [Scheduling.init]

/-- The interval in hand after a step of `application_manager`. -/
theorem Simulates.registering_step (hS : Simulates Q s u) {l : ManagerLabel}
    (hQ : Registers Q s (.manager l)) (h : managerStep am s l = some t) :
    ∀ i ∈ t.manager.registering, ∃ ms : UInt16, Q ms ∧ i = ms.toNat := by
  intro i hi
  rcases Server.registering_step h i hi with hi | ⟨chunk, query, ms, rfl, ho, rfl⟩
  · exact hS.registering i hi
  · exact ⟨ms, hQ chunk query ms rfl ho, rfl⟩

/-- `schedule_ts` is a step before the lock and the critical section. -/
theorem Simulates.schedule (hS : Simulates Q s u) {node handler : ℕ} {interval : ℤ} {now : Timespec}
    {signal : Bool} {st : Sched} (hnow : now.Normalised) (hi : ∃ ms : UInt16, Q ms ∧ interval = ms.toNat)
    (hlock : s.schedulerLocked = false)
    (heq : Afdx.schedule s.mem.sched .serveSchedulerQuery node interval now = some (handler, signal, st)) :
    ∃ u', Lts.Reachable Scheduling.step u u' ∧ (∃ l, u'.Inv l) ∧ u'.sched = st ∧
      SameRun (if signal then signalWakeup s.scheduler else s.scheduler) u'.scheduler ∧
      ∀ c ∈ u'.hist.scheduled, ∃ ms : UInt16, Q ms ∧ c.interval = msInterval ms.toNat := by
  obtain ⟨l, hI⟩ := hS.list
  obtain ⟨ms, hms, rfl⟩ := hi
  simp only [Afdx.schedule, scheduleTs, ← hS.sched] at heq
  obtain ⟨st', hins, heq⟩ := Option.map_eq_some_iff.mp heq
  obtain ⟨rfl, rfl, rfl⟩ : (newNode u.sched .serveSchedulerQuery node (msInterval ms.toNat) now).1 = handler ∧
      decide (st'.first ≠ (newNode u.sched .serveSchedulerQuery node (msInterval ms.toNat) now).2.first) =
        signal ∧ st' = st := by
    simpa only [Prod.mk.injEq] using heq
  obtain ⟨u₁, h₁, hs₁, hp₁, hpc₁, hh₁⟩ : ∃ u₁,
      u.step (.newNode .serveSchedulerQuery node (msInterval ms.toNat) ⟨now, hnow⟩) = some u₁ ∧
      u₁.sched = (newNode u.sched .serveSchedulerQuery node (msInterval ms.toNat) now).2 ∧
      (newNode u.sched .serveSchedulerQuery node (msInterval ms.toNat) now).1 ∈ u₁.pending ∧
      u₁.scheduler = u.scheduler ∧
      ∀ c ∈ u₁.hist.scheduled, c ∈ u.hist.scheduled ∨ c.interval = msInterval ms.toNat :=
    ⟨_, rfl, rfl, Finset.mem_insert_self .., rfl, fun c hc =>
      (List.mem_append.mp hc).imp_right fun hc => by rw [List.mem_singleton.mp hc]⟩
  obtain ⟨u₂, h₂, hs₂, hpc₂, hh₂⟩ : ∃ u₂,
      u₁.step (.insert (newNode u.sched .serveSchedulerQuery node (msInterval ms.toNat) now).1) = some u₂ ∧
      u₂.sched = st' ∧ u₂.scheduler =
        (if st'.first ≠ (newNode u.sched .serveSchedulerQuery node (msInterval ms.toNat) now).2.first then
          u₁.scheduler.signal else u₁.scheduler) ∧ u₂.hist = u₁.hist := by
    simp only [Scheduling.step]
    rw [if_pos ⟨hp₁, by rw [hpc₁, locked_of_sameRun hS.pc, hlock]⟩, hs₁, hins]
    exact ⟨_, rfl, rfl, rfl, rfl⟩
  obtain ⟨⟨l₁, hI₁⟩, -⟩ := hI.step h₁
  refine ⟨u₂, (Lts.Reachable.single h₁).tail h₂, (hI₁.step h₂).1, hs₂, ?_, fun c hc => ?_⟩
  · rw [hpc₂, hpc₁]
    by_cases hfirst : st'.first = (newNode u.sched .serveSchedulerQuery node (msInterval ms.toNat) now).2.first
    · simpa [hfirst] using hS.pc
    · simpa [hfirst] using hS.pc.signal
  · exact (hh₁ c (hh₂ ▸ hc)).elim (hS.intervals c) fun hi => ⟨ms, hms, hi⟩

/-- A step of `application_manager`. -/
theorem Simulates.manager (hS : Simulates Q s u) {l : ManagerLabel}
    (hok : clocksNormalised s (.manager l) = true) (hQ : Registers Q s (.manager l))
    (h : step am s (.manager l) = some t) : ∃ u', Lts.Reachable Scheduling.step u u' ∧ Simulates Q t u' := by
  have hinv := hS.inv.step h
  have hs := (step_manager h).2
  have hreg := hS.registering_step hQ hs
  obtain ⟨l', hI⟩ := hS.list
  cases managerStep_schedCall hs with
  | nothing sched pc free =>
    exact ⟨u, .refl u, hinv, ⟨l', hI⟩, sched ▸ hS.sched, pc ▸ hS.pc,
      fun node handler caller hpc => hS.removed _ _ _ (free node handler caller hpc), hreg, hS.intervals⟩
  | schedule fd app node interval now handler signal hl hpc locked sched pc next =>
    subst hl
    obtain ⟨u', hu, hlist, hsched, hrun, hint⟩ := hS.schedule (of_decide_eq_true hok)
      (hS.registering interval (by rw [hpc]; rfl)) locked sched
    exact ⟨u', hu, hinv, hlist, hsched, pc ▸ hrun, by simp [next], hreg, hint⟩
  | remove node handler caller hpc locked sched pc next =>
    have hmem : handler ∈ u.handlers := by
      obtain ⟨S, hw, hpcinv⟩ := hS.inv
      rw [hpc] at hpcinv
      have hlist : l' = S.sched := by
        rw [← hI.repr.list_eq, ← hw.schedRepr.list_eq, hS.sched]
      exact (hI.handlers handler).mpr (hlist ▸ hpcinv.1)
    have hu : u.step (.remove handler) = some _ :=
      if_pos ⟨hmem, by rw [locked_of_sameRun hS.pc, locked]⟩
    refine ⟨_, .single hu, hinv, (hI.step hu).1, by rw [sched, ← hS.sched], pc ▸ hS.pc, ?_, hreg, hS.intervals⟩
    rw [next]
    rintro _ _ _ ⟨⟩
    exact Finset.mem_insert_self ..
  | free node handler caller hpc sched pc next =>
    have hu : u.step (.free handler) = some _ := if_pos (hS.removed node handler caller hpc)
    exact ⟨_, .single hu, hinv, (hI.step hu).1, by rw [sched, ← hS.sched], pc ▸ hS.pc, by simp [next], hreg,
      hS.intervals⟩

theorem Simulates.manager_eq (hS : Simulates Q s u) {l : SchedulerLabel}
    (h : step am s (.scheduler l) = some t) : t.manager = s.manager := by
  obtain ⟨S, hw, hpc⟩ := hS.inv
  exact (schedulerStep_rearmed hw hpc (step_scheduler h).2).1

/-- A step of `scheduler_run` that is one of the scheduler. -/
theorem Simulates.of_step (hS : Simulates Q s u) {l : SchedulerLabel}
    (h : step am s (.scheduler l) = some t) {k : SchedulingLabel} (hu : u.step k = some u')
    (hsched : u'.sched = t.mem.sched) (hpc : SameRun t.scheduler u'.scheduler)
    (hrem : u'.removed = u.removed) (hhist : u'.hist.scheduled = u.hist.scheduled) :
    ∃ u', Lts.Reachable Scheduling.step u u' ∧ Simulates Q t u' := by
  obtain ⟨l', hI⟩ := hS.list
  have hman := hS.manager_eq h
  exact ⟨u', .single hu, hS.inv.step h, (hI.step hu).1, hsched, hpc, by rw [hman, hrem]; exact hS.removed,
    by rw [hman]; exact hS.registering, by rw [hhist]; exact hS.intervals⟩

/-- A step of `scheduler_run` in the action. -/
theorem Simulates.of_action (hS : Simulates Q s u) {l : SchedulerLabel}
    (h : step am s (.scheduler l) = some t) {now : Timespec} (hs : s.scheduler.acting = some now)
    (ht : t.scheduler.acting = some now) (hsched : t.mem.sched = s.mem.sched) :
    ∃ u', Lts.Reachable Scheduling.step u u' ∧ Simulates Q t u' := by
  have hman := hS.manager_eq h
  refine ⟨u, .refl u, hS.inv.step h, hS.list, hsched ▸ hS.sched, ?_, by rw [hman]; exact hS.removed,
    by rw [hman]; exact hS.registering, hS.intervals⟩
  have hpc := hS.pc
  generalize s.scheduler = pc at hs hpc
  generalize u.scheduler = pc' at hpc ⊢
  cases hpc with
  | action h' =>
    obtain rfl := Option.some.inj (h'.symm.trans hs)
    exact .action ht
  | _ => cases hs

/-- A step of `scheduler_run`. -/
theorem Simulates.scheduler (hS : Simulates Q s u) {l : SchedulerLabel}
    (hok : clocksNormalised s (.scheduler l) = true) (h : step am s (.scheduler l) = some t) :
    ∃ u', Lts.Reachable Scheduling.step u u' ∧ Simulates Q t u' := by
  have hs := (step_scheduler h).2
  have hrun := hS.pc
  generalize hu : u.scheduler = pc' at hrun
  cases l with
  | lock =>
    simp only [schedulerStep] at hs
    split at hs <;> [rename_i hpc; rename_i now hpc; cases hs] <;> cases hs <;> rw [hpc] at hrun
    · cases hrun with
      | start =>
        have hstep : u.step .lock = some { u with scheduler := .top } := by simp only [Scheduling.step, hu]
        exact hS.of_step h hstep hS.sched .top rfl rfl
      | action h' => cases h'
    · cases hrun with
      | action h' =>
        obtain rfl := Option.some.inj h'
        have hstep : u.step .lock = some { u with scheduler := .inner now true } := by
          simp only [Scheduling.step, hu]
        exact hS.of_step h hstep hS.sched (.inner now true) rfl rfl
  | clock now =>
    simp only [schedulerStep] at hs
    split at hs <;> [rename_i hpc; cases hs]
    cases hs
    rw [hpc] at hrun
    cases hrun with
    | top =>
      have hstep : u.step (.clock ⟨now, of_decide_eq_true hok⟩) = some { u with
          scheduler := .inner now false, hist.passes := u.hist.passes ++ [now] } := by
        simp only [Scheduling.step, hu]
      exact hS.of_step h hstep hS.sched (.inner now false) rfl rfl
    | action h' => cases h'
  | inner =>
    simp only [schedulerStep] at hs
    split at hs <;> [rename_i now didSomething hpc; cases hs]
    rw [hpc] at hrun
    cases hrun with
    | action h' => cases h'
    | inner =>
      have hstep : u.step .inner = u.innerStep now didSomething := by simp only [Scheduling.step, hu]
      unfold Scheduling.innerStep at hstep
      rw [hS.sched] at hstep
      split at hs
      · cases hs
      · rename_i node sched heq
        cases hs
        rw [heq] at hstep
        exact hS.of_step h hstep rfl (.call node now) rfl rfl
      · rename_i sched heq
        cases hs
        rw [heq] at hstep
        refine hS.of_step h hstep rfl ?_ rfl rfl
        cases didSomething
        · exact .waiting _
        · exact .top
  | load =>
    simp only [schedulerStep] at hs
    cases hpc : s.scheduler with
    | call node now =>
      rw [hpc] at hrun
      simp only [schedulerLoad, hpc] at hs
      split at hs <;> cases hs
      cases hrun with
      | action h' => cases h'
      | call =>
        have hstep : u.step .call = some { u with
            scheduler := .relock now, hist.executed := u.hist.executed ++ [(node, now)] } := by
          simp only [Scheduling.step, hu]
        exact hS.of_step h hstep hS.sched (.action rfl) rfl rfl
    | loadDataId q fd reqId now =>
      simp only [schedulerLoad, hpc] at hs
      cases hs
      refine hS.of_action h (by rw [hpc]; rfl) ?_ rfl
      simp only
      split <;> rfl
    | _ =>
      simp only [schedulerLoad, hpc] at hs
      cases hs <;> exact hS.of_action h (by rw [hpc]; rfl) rfl rfl
  | serve snap =>
    simp only [schedulerStep] at hs
    split at hs <;> [rename_i hpc; cases hs]
    cases hs
    exact hS.of_action h (by rw [hpc]; rfl) rfl rfl
  | write =>
    simp only [schedulerStep] at hs
    split at hs <;> [rename_i hpc; cases hs]
    obtain ⟨_, -, rfl⟩ := Option.map_eq_some_iff.mp hs
    exact hS.of_action h (by rw [hpc]; rfl) rfl rfl
  | writeError =>
    simp only [schedulerStep] at hs
    split at hs <;> [rename_i fd query snap now hpc; cases hs]
    cases hs
    have hact : s.scheduler.acting = some now := by rw [hpc]; rfl
    exact hS.of_action h hact hact rfl
  | wake =>
    simp only [schedulerStep] at hs
    split at hs <;> [rename_i hpc; cases hs]
    cases hs
    rw [hpc] at hrun
    cases hrun with
    | waiting deadline =>
      have hstep : u.step .wake = some { u with scheduler := .start } := by simp only [Scheduling.step, hu]
      exact hS.of_step h hstep hS.sched .start rfl rfl
    | action h' => cases h'

/-- Whatever the server reaches, its scheduler reaches as one of the scheduler's runs with any callers. -/
theorem simulates_of_reachable {ok : Server → ServerLabel → Bool}
    (hok : ∀ s l, ok s l = true → clocksNormalised s l = true ∧ Registers Q s l)
    (h : Lts.Reachable (Lts.restrict (Server.step am) ok) (init am msg) s) :
    ∃ u, Lts.Reachable Scheduling.step .init u ∧ Simulates Q s u := by
  refine h.simulate (Simulates Q) (simulates_init Q am msg) fun s l t u hS hr => ?_
  obtain ⟨hl, hs⟩ := Lts.restrict_eq_some.mp hr
  obtain ⟨hclock, hQ⟩ := hok s l hl
  cases l with
  | manager l => exact hS.manager hclock hQ hs
  | scheduler l => exact hS.scheduler hclock hs

/-! ## The end of a pass -/

/-- The message that the step reads, if it reads one, registers no query with an interval of zero. -/
def registersPositive (s : Server) : ServerLabel → Bool
  | .manager (.read chunk) =>
    match (s.packetMsg.overlay chunk).decode.operation with
    | some (.registerQuery _ ms) => ms ≠ 0
    | _ => true
  | _ => true

/-- The inner loop of a pass at `now` ends, if `application_manager` leaves the scheduler alone. -/
def PassEnds (s : Server) (now : ClockTime) : Prop := ∃ fuel, (innerLoop now.1 fuel s.mem.sched).isSome

theorem registers_of_registersPositive {l : ServerLabel} (h : s.registersPositive l = true) :
    Registers (fun ms => ms ≠ 0) s l := by
  rintro chunk query ms rfl ho
  simpa only [registersPositive, ho, decide_eq_true_eq] using h

theorem ns_msInterval_eq_zero {ms : UInt16} : (msInterval ms.toNat).ns = 0 ↔ ms = 0 := by
  rw [ns_msInterval, ← UInt16.toNat_inj, UInt16.toNat_zero]
  omega

/-- The list of the scheduler is sorted and timely, and its intervals come from messages. -/
theorem Simulates.schedList (hS : Simulates Q s u) (hu : Lts.Reachable Scheduling.step .init u) :
    s.mem.sched.Repr s.mem.schedList ∧ s.mem.sched.Sorted s.mem.schedList ∧
      s.mem.sched.Timely s.mem.schedList ∧ ∀ x ∈ s.mem.schedList, ∃ ms : UInt16, Q ms ∧
        (s.mem.sched.payload x).interval = msInterval ms.toNat := by
  obtain ⟨l, hI⟩ := hS.list
  have hP := Scheduling.paced_of_reachable hu
  have hl : l = s.mem.schedList := by rw [← hI.repr.list_eq, hS.sched]; rfl
  rw [hl] at hI
  have hr := hI.repr
  have hs := hI.sorted
  rw [hS.sched] at hr hs
  have hbrk : ∀ x ∈ s.mem.schedList, x < u.sched.nodes.brk := fun x hx =>
    hS.sched ▸ s.mem.sched.nodes.live_lt x (hr.live x hx)
  have hint : ∀ x ∈ s.mem.schedList, ∃ ms : UInt16, Q ms ∧
      (s.mem.sched.payload x).interval = msInterval ms.toNat := by
    intro x hx
    obtain ⟨c, hc, rfl, hci⟩ := hP.scheduled x (hbrk x hx)
    obtain ⟨ms, hms, heq⟩ := hS.intervals c hc
    exact ⟨ms, hms, by rw [← hS.sched, ← hci, heq]⟩
  have hnorm : ∀ x ∈ s.mem.schedList, (s.mem.sched.payload x).interval.Normalised := fun x hx => by
    obtain ⟨ms, -, heq⟩ := hint x hx
    exact heq ▸ normalised_msInterval (Int.natCast_nonneg _)
  refine ⟨hr, hs, ⟨fun x hx => ?_, hnorm⟩, hint⟩
  have h := hP.normalised x (hbrk x hx)
  rw [hS.sched] at h
  exact h (hnorm x hx)

/-- A pass ends exactly if no node that is due has an interval of zero. -/
theorem Simulates.passEnds_iff (hS : Simulates Q s u) (hu : Lts.Reachable Scheduling.step .init u)
    (now : ClockTime) : s.PassEnds now ↔ ∀ x ∈ s.mem.schedList, s.mem.sched.due now.1 x = true →
      (s.mem.sched.payload x).interval ≠ msInterval 0 := by
  obtain ⟨hr, hs, ht, hint⟩ := hS.schedList hu
  have hzero : ∀ x ∈ s.mem.schedList, (s.mem.sched.payload x).interval.ns = 0 ↔
      (s.mem.sched.payload x).interval = msInterval 0 := by
    intro x hx
    obtain ⟨ms, -, heq⟩ := hint x hx
    refine ⟨fun h => ?_, fun h => by rw [h]; rfl⟩
    rw [heq] at h ⊢
    rw [ns_msInterval_eq_zero.mp h]
    rfl
  have hnn : ∀ x ∈ s.mem.schedList, 0 ≤ (s.mem.sched.payload x).interval.ns := by
    intro x hx
    obtain ⟨ms, -, heq⟩ := hint x hx
    rw [heq, ns_msInterval]
    omega
  refine (Sched.innerLoop_ends_iff hr hs ht hnn now.2).trans ?_
  exact forall₂_congr fun x hx => imp_congr_right fun _ => (hzero x hx).not

/-- As long as no client registers a query with an interval of zero, every pass ends, whatever the clock
    shows. Whatever the clients do, a pass ends exactly if no query with an interval of zero is due. -/
theorem pass_ends_iff (am : ℕ) (msg : MsgBytes) :
    (∀ s, Lts.Reachable (Lts.restrict (step am) fun s l => s.clocksNormalised l && s.registersPositive l)
      (init am msg) s → ∀ now : ClockTime, s.PassEnds now) ∧
    ∀ s, Lts.Reachable (Lts.restrict (step am) clocksNormalised) (init am msg) s → ∀ now : ClockTime,
      (s.PassEnds now ↔ ∀ x ∈ s.mem.schedList, s.mem.sched.due now.1 x = true →
        (s.mem.sched.payload x).interval ≠ msInterval 0) := by
  constructor
  · intro s h now
    obtain ⟨u, hu, hS⟩ := simulates_of_reachable (Q := fun ms => ms ≠ 0) (fun s l hl =>
      (Bool.and_eq_true_iff.mp hl).imp_right registers_of_registersPositive) h
    rw [hS.passEnds_iff hu]
    intro x hx _ hzero
    obtain ⟨-, -, -, hint⟩ := hS.schedList hu
    obtain ⟨ms, hms, heq⟩ := hint x hx
    exact hms (ns_msInterval_eq_zero.mp (by rw [← heq, hzero]; rfl))
  · intro s h now
    obtain ⟨u, hu, hS⟩ := simulates_of_reachable (Q := fun _ => True)
      (fun s l hl => ⟨hl, fun _ _ _ _ _ => trivial⟩) h
    exact hS.passEnds_iff hu now

/-- Two clients register a query every 100 ms, and both are due. -/
theorem pass_ends_registerRun :
    ∃ s, Lts.run (Lts.restrict (step 3) fun s l => s.clocksNormalised l && s.registersPositive l)
        (init 3 fun _ => 0) (registerRun 4 ++ registerRun 5) = some s ∧
      (s.mem.schedList.filter fun x => s.mem.sched.due ⟨1, 0⟩ x).length = 2 ∧
        s.PassEnds ⟨⟨1, 0⟩, by decide⟩ := by
  obtain ⟨s, hrun, hp⟩ := Lts.exists_run_of_map
    (Lts.restrict (step 3) fun s l => s.clocksNormalised l && s.registersPositive l) (init 3 fun _ => 0)
    (registerRun 4 ++ registerRun 5)
    (fun s => decide ((s.mem.schedList.filter fun x => s.mem.sched.due ⟨1, 0⟩ x).length = 2)) (by decide)
  exact ⟨s, hrun, of_decide_eq_true hp, (pass_ends_iff 3 fun _ => 0).1 s ⟨_, hrun⟩ _⟩

/-- A request to serve `ATTITUDE_ALTITUDE` every 0 ms. -/
def registerZeroMsg : List UInt8 := [2, 0, 0, 0, 7, 0, 0, 0, 0, 0, 0, 0, 7, 0, 0, 0]

/-- A client registers a query with an interval of zero and another one registers a query every 100 ms. -/
def registerZeroRun : List ServerLabel :=
  acceptRun 4 ++ readableRun 4 ++
    [.manager (.read registerZeroMsg), .manager .next, .manager (.schedule ⟨0, 0⟩)] ++ nexts 3 ++ registerRun 5

/-- The inner loop of the next pass does not end. -/
theorem pass_stuck_registerZeroRun :
    ∃ s, Lts.run (Lts.restrict (step 3) clocksNormalised) (init 3 fun _ => 0)
        (registerZeroRun ++ popRun.take 2) = some s ∧
      s.mem.schedList.length = 2 ∧ ∀ fuel, innerLoop ⟨1, 0⟩ fuel s.mem.sched = none := by
  obtain ⟨s, hrun, hp⟩ := Lts.exists_run_of_map (Lts.restrict (step 3) clocksNormalised) (init 3 fun _ => 0)
    (registerZeroRun ++ popRun.take 2) (fun s => decide (s.mem.schedList.length = 2 ∧
      ∃ x ∈ s.mem.schedList, s.mem.sched.due ⟨1, 0⟩ x = true ∧
        (s.mem.sched.payload x).interval = msInterval 0)) (by decide)
  obtain ⟨hlen, x, hx, hdue, hzero⟩ := of_decide_eq_true hp
  obtain ⟨u, hu, hS⟩ := simulates_of_reachable (Q := fun _ => True)
    (fun s l hl => ⟨hl, fun _ _ _ _ _ => trivial⟩) ⟨_, hrun⟩
  refine ⟨s, hrun, hlen, fun fuel => Option.not_isSome_iff_eq_none.mp fun hsome => ?_⟩
  exact (hS.passEnds_iff hu ⟨⟨1, 0⟩, by decide⟩).mp ⟨fuel, hsome⟩ x hx hdue hzero

/-! ## The times of the nodes -/

/-- The server makes all its intervals from numbers of milliseconds, so that the times of its nodes are
    normalised, also of those that are out of the list. -/
theorem normalised_nextTime_of_reachable
    (h : Lts.Reachable (Lts.restrict (step am) clocksNormalised) (init am msg) s) :
    ∀ x < s.mem.sched.nodes.brk, (s.mem.sched.nextTime x).Normalised := by
  obtain ⟨u, hu, hS⟩ := simulates_of_reachable (Q := fun _ => True)
    (fun s l hl => ⟨hl, fun _ _ _ _ _ => trivial⟩) h
  have hn : ∀ c ∈ u.hist.scheduled, c.interval.Normalised := by
    intro c hc
    obtain ⟨ms, -, hi⟩ := hS.intervals c hc
    rw [hi]
    exact normalised_msInterval (Int.natCast_nonneg _)
  have hP := Scheduling.paced_of_reachable hu
  rw [← hS.sched]
  exact hP.normalised_nextTime hn

/-- The arithmetic of the scheduler is exact. `schedule` makes normalised intervals of all numbers of
    milliseconds, `tm_incr` adds nanoseconds and keeps times normalised, and `tm_ge` compares nanoseconds.
    The nanoseconds computed in a `long` fit 32 bits; of the seconds only the sum must fit `time_t`. So the
    times of the nodes are normalised whatever the callers of the scheduler do, if they pass normalised
    intervals, and in the server they always are. -/
theorem time_arithmetic_exact :
    (∀ ms : ℤ, 0 ≤ ms → (msInterval ms).Normalised ∧ (msInterval ms).ns = ms * 1000000 ∧
      FitsLong32 (ms.tmod 1000 * 1000000)) ∧
    (∀ v i : Timespec, v.Normalised → i.Normalised → (tmIncr v i).Normalised ∧
      (tmIncr v i).ns = v.ns + i.ns ∧ FitsLong32 (v.tvNsec + i.tvNsec)) ∧
    (∀ a b : Timespec, a.Normalised → b.Normalised → (tmGe a b = true ↔ a.ns ≥ b.ns)) ∧
    (∀ u, Lts.Reachable Scheduling.step .init u → (∀ c ∈ u.hist.scheduled, c.interval.Normalised) →
      ∀ x < u.sched.nodes.brk, (u.sched.nextTime x).Normalised) ∧
    ∀ am msg s, Lts.Reachable (Lts.restrict (step am) clocksNormalised) (init am msg) s →
      ∀ x < s.mem.sched.nodes.brk, (s.mem.sched.nextTime x).Normalised := by
  refine ⟨fun ms h => ⟨normalised_msInterval h, ns_msInterval ms, fitsLong32_tmod h⟩,
    fun v i hv hi => ⟨normalised_tmIncr hv hi, ns_tmIncr v i, fitsLong32_nsecs hv hi⟩,
    fun a b ha hb => tmGe_iff_ns ha hb, fun u h hn => ?_, fun am msg s h => ?_⟩
  · exact (Scheduling.paced_of_reachable h).normalised_nextTime hn
  · exact normalised_nextTime_of_reachable h

/-- The nanoseconds carry, and the first node of the server is due 100 ms after it was scheduled. -/
theorem time_arithmetic_exact_registerRun :
    (tmIncr ⟨5, 999999999⟩ (msInterval 1999)).ns = 7998999999 ∧
      ∃ s, Lts.run (Lts.restrict (step 3) clocksNormalised) (init 3 fun _ => 0) (registerRun 4) = some s ∧
        s.mem.sched.nodes.brk = 1 ∧ s.mem.sched.nextTime 0 = ⟨0, 100000000⟩ ∧
          (s.mem.sched.nextTime 0).Normalised := by
  obtain ⟨hms, hincr, -, -, hserver⟩ := time_arithmetic_exact
  obtain ⟨hn, hns, -⟩ := hms 1999 (by decide)
  obtain ⟨-, hsum, -⟩ := hincr ⟨5, 999999999⟩ _ (by decide) hn
  obtain ⟨s, hrun, hp⟩ := Lts.exists_run_of_map (Lts.restrict (step 3) clocksNormalised) (init 3 fun _ => 0)
    (registerRun 4) (fun s => decide (s.mem.sched.nodes.brk = 1 ∧
      s.mem.sched.nextTime 0 = ⟨0, 100000000⟩)) (by decide)
  obtain ⟨hbrk, htime⟩ := of_decide_eq_true hp
  refine ⟨by rw [hsum, hns]; rfl, s, hrun, hbrk, htime, ?_⟩
  exact hserver 3 _ s ⟨_, hrun⟩ 0 (by rw [hbrk]; exact Nat.one_pos)

end Server

end Afdx
