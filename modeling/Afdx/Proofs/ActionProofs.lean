import Afdx.Proofs.ServerProofs

/-!
# The action in progress

`scheduler_run` calls the action of a node without a lock, so `application_manager` may free the nodes
that the action still has to load from. A stale load happens exactly in the runs where it does.
-/

namespace Afdx

instance (m : Mem) (o : Obj) : Decidable (o.Live m) := by
  cases o <;> unfold Obj.Live <;> infer_instance

/-- The nodes still to load from are determined by fields that never change. -/
theorem SchedulerPc.toLoad_congr {m m' : Mem} {pc : SchedulerPc} (h : ∀ o ∈ pc.toLoad m, o.Same m m') :
    pc.toLoad m' = pc.toLoad m := by
  cases pc with
  | call x now =>
    have hdata : (m'.sched.nodes.cell x).data = (m.sched.nodes.cell x).data :=
      (h (.node x) (List.mem_cons_self ..)).2
    have happ := (h (.query (m.sched.nodes.cell x).data) (by simp [toLoad])).2
    simp only [toLoad, hdata, happ]
  | loadApp q now =>
    have happ := (h (.query q) (List.mem_cons_self ..)).2
    simp only [toLoad, happ]
  | _ => rfl

theorem SchedulerPc.toLoad_ext {m m' : Mem} {pc : SchedulerPc} (h : m.Ext m')
    (hpc : ∀ o ∈ pc.toLoad m, o.Allocated m) : pc.toLoad m' = pc.toLoad m :=
  toLoad_congr fun o ho => h.same (hpc o ho)

namespace Server

variable {am : ℕ} {s t : Server} {S : Shape} {msg : MsgBytes}

/-- The node that the next step of the action in progress loads from has been freed. -/
def loadsFreed (s : Server) : Bool :=
  match s.scheduler.toLoad s.mem with
  | o :: _ => !decide (o.Live s.mem)
  | [] => false

/-- The node that a step frees. -/
def freed (s : Server) : ServerLabel → Option Obj
  | .manager .next => s.manager.freed
  | _ => none

/-- The step frees no node that the action in progress still has to load from. -/
def sparesAction (s : Server) (l : ServerLabel) : Bool :=
  match s.freed l with
  | some o => decide (o ∉ s.scheduler.toLoad s.mem)
  | none => true

/-! ## What a step does to the action in progress -/

/-- `application_manager` touches the place of `scheduler_run` only to wake it up. -/
theorem managerStep_scheduler {l : ManagerLabel} (h : managerStep am s l = some t) :
    t.scheduler = s.scheduler ∨ s.scheduler = .waiting ∧ t.scheduler = .start := by
  cases l with
  | next =>
    simp only [managerStep, managerNext] at h
    (repeat' split at h) <;> first
      | (cases h; exact .inl rfl)
      | (obtain ⟨_, -, rfl⟩ := Option.map_eq_some_iff.mp h; exact .inl rfl)
      | cases h
  | schedule now =>
    simp only [managerStep] at h
    split at h
    · split at h
      · cases h
      · obtain ⟨⟨_, signal, _⟩, -, rfl⟩ := Option.map_eq_some_iff.mp h
        cases signal with
        | false => exact .inl rfl
        | true =>
          cases hpc : s.scheduler with
          | waiting => exact .inr ⟨rfl, by simp [signalWakeup]⟩
          | _ => exact .inl (by simp [signalWakeup])
    · cases h
  | write =>
    simp only [managerStep] at h
    split at h
    · obtain ⟨_, -, rfl⟩ := Option.map_eq_some_iff.mp h
      exact .inl rfl
    · cases h
  | read _ | select _ _ | selectError | accept _ | acceptError | readEof | readError | serve _
  | writeError | mallocError =>
    simp only [managerStep] at h
    (repeat' split at h) <;> cases h <;> exact .inl rfl

theorem toLoad_managerStep {l : ManagerLabel} (h : managerStep am s l = some t) (m : Mem) :
    t.scheduler.toLoad m = s.scheduler.toLoad m := by
  rcases managerStep_scheduler h with heq | ⟨hw, hst⟩
  · rw [heq]
  · rw [hw, hst]
    rfl

/-- A node popped from the list is allocated, and so are its query and its application. -/
theorem toLoad_call_live {m : Mem} (hw : m.Wf S) {x : ℕ} (hx : x ∈ S.sched) (now : Timespec) :
    ∀ o ∈ (SchedulerPc.call x now).toLoad m, o.Live m := by
  have howned := (hw.schedNode x hx).2
  intro o ho
  simp only [SchedulerPc.toLoad, List.mem_cons, List.not_mem_nil, or_false] at ho
  rcases ho with rfl | rfl | rfl
  · exact hw.schedRepr.live x hx
  · exact hw.queryLive _ howned
  · exact hw.appLive_of_owned howned

/-- A step of `scheduler_run` either goes on with the action or pops a node, with nothing freed. -/
theorem toLoad_schedulerStep (hw : s.mem.Wf S) (hinv : s.manager.Inv s.mem S) {l : SchedulerLabel}
    (h : schedulerStep s l = some t) :
    ((∀ o ∈ t.scheduler.toLoad t.mem, o ∈ s.scheduler.toLoad s.mem) ∧
        ∀ x now, t.scheduler ≠ .call x now) ∨
      ∃ x now, t.scheduler = .call x now ∧ (∀ o ∈ t.scheduler.toLoad t.mem, o.Live t.mem) ∧
        (t.mem.sched.nodes.cell x).action = .serveSchedulerQuery := by
  cases l with
  | inner =>
    simp only [schedulerStep] at h
    split at h
    · split at h
      · cases h
      · rename_i node sched heq
        cases h
        obtain ⟨⟨S', hr⟩, hx⟩ := rearmFirst_rearmed hw hinv heq
        have hxS : node ∈ S'.sched := hr.sched.mem_iff.mpr (hx node rfl).1
        exact .inr ⟨_, _, rfl, toLoad_call_live hr.wf hxS _, (hr.wf.schedNode node hxS).1⟩
      · cases h
        refine .inl ⟨fun o ho => ?_, fun x now hx => ?_⟩
        · dsimp only at ho
          split at ho <;> cases ho
        · dsimp only at hx
          split at hx <;> cases hx
    · cases h
  | load =>
    left
    cases hpc : s.scheduler <;> simp only [schedulerStep, schedulerLoad, hpc] at h <;>
      (repeat' split at h) <;> cases h <;> simp [SchedulerPc.toLoad]
  | write =>
    simp only [schedulerStep] at h
    split at h
    · obtain ⟨conn, -, rfl⟩ := Option.map_eq_some_iff.mp h
      exact .inl ⟨fun o ho => by (cases ho), by simp⟩
    · cases h
  | writeError =>
    simp only [schedulerStep] at h
    split at h
    · rename_i hpc
      cases h
      exact .inl ⟨fun o ho => ho, by simp [exit, hpc]⟩
    · cases h
  | lock | clock _ | serve _ | wake =>
    simp only [schedulerStep] at h
    split at h <;> cases h <;> exact .inl ⟨fun o ho => by (cases ho), by simp⟩

theorem freed_of_not_next {l : ManagerLabel} (h : managerStep am s l = some t) (hl : l ≠ .next) :
    s.manager.freed = none := by
  cases l with
  | next => exact (hl rfl).elim
  | _ =>
    simp only [managerStep] at h
    cases hpc : s.manager <;> simp only [hpc] at h <;> first | rfl | cases h

/-- A step that spares the action frees nothing that it still has to load from. -/
theorem freed_not_toLoad {l : ManagerLabel} (h : managerStep am s l = some t)
    (hok : s.sparesAction (.manager l) = true) {o : Obj} (ho : o ∈ s.scheduler.toLoad s.mem) :
    s.manager.freed ≠ some o := by
  intro hf
  by_cases hl : l = .next
  · subst hl
    simp only [sparesAction, freed, hf, decide_eq_true_eq] at hok
    exact hok ho
  · rw [freed_of_not_next h hl] at hf
    cases hf

/-! ## Runs that spare the action -/

/-- All nodes that the action still has to load from are allocated. -/
def ActionLive (s : Server) : Prop := ∀ o ∈ s.scheduler.toLoad s.mem, o.Live s.mem

theorem ActionLive.step (hJ : ActionLive s) (hI : Inv s) {l : ServerLabel}
    (hok : s.sparesAction l = true) (h : step am s l = some t) : ActionLive t := by
  obtain ⟨S, hw, hinv⟩ := hI
  cases l with
  | manager l =>
    have hs := (step_manager h).2
    obtain ⟨S', hm⟩ := managerStep_moved hw hinv hs
    intro o ho
    rw [toLoad_managerStep hs, SchedulerPc.toLoad_ext hm.ext fun o ho => (hJ o ho).allocated] at ho
    exact hm.live o (hJ o ho) (freed_not_toLoad hs hok ho)
  | scheduler l =>
    have hs := (step_scheduler h).2
    obtain ⟨-, S', hr⟩ := schedulerStep_rearmed hw hinv hs
    rcases toLoad_schedulerStep hw hinv hs with ⟨hsub, -⟩ | ⟨x, now, -, hlive, -⟩
    · exact fun o ho => Moved.live_of_kept hr.live o (hJ o (hsub o ho))
    · exact hlive

theorem not_loadsFreed_of_live (hJ : ActionLive s) : s.loadsFreed = false := by
  unfold loadsFreed
  split
  · rename_i o rest heq
    simpa using hJ o (heq ▸ List.mem_cons_self ..)
  · rfl

/-! ## Runs that do not -/

/-- The nodes of the action in progress have been allocated at some time, and its function is
    `serve_scheduler_query`. -/
structure ActionValid (s : Server) : Prop where
  allocated : ∀ o ∈ s.scheduler.toLoad s.mem, o.Allocated s.mem
  action : ∀ x now, s.scheduler = .call x now →
    (s.mem.sched.nodes.cell x).action = .serveSchedulerQuery

theorem allocated_ext {m m' : Mem} (h : m.Ext m') {o : Obj} (ho : o.Allocated m) : o.Allocated m' := by
  cases o with
  | node x => exact ho.trans_le h.nodesBrk
  | query q => exact ho.trans_le h.queriesBrk
  | app a => exact ho.trans_le h.appsBrk

theorem ActionValid.step (hV : ActionValid s) (hI : Inv s) {l : ServerLabel}
    (h : step am s l = some t) : ActionValid t := by
  obtain ⟨S, hw, hinv⟩ := hI
  cases l with
  | manager l =>
    have hs := (step_manager h).2
    obtain ⟨S', hm⟩ := managerStep_moved hw hinv hs
    constructor
    · intro o ho
      rw [toLoad_managerStep hs, SchedulerPc.toLoad_ext hm.ext hV.allocated] at ho
      exact allocated_ext hm.ext (hV.allocated o ho)
    · intro x now hx
      have hx' : s.scheduler = .call x now := by
        rcases managerStep_scheduler hs with heq | ⟨-, hst⟩
        · exact heq.symm.trans hx
        · rw [hst] at hx
          cases hx
      have hlt : x < s.mem.sched.nodes.brk :=
        hV.allocated (.node x) (by rw [hx']; exact List.mem_cons_self ..)
      exact (hm.ext.node x hlt).1.trans (hV.action x now hx')
  | scheduler l =>
    have hs := (step_scheduler h).2
    obtain ⟨-, S', hr⟩ := schedulerStep_rearmed hw hinv hs
    rcases toLoad_schedulerStep hw hinv hs with
      ⟨hsub, hcall⟩ | ⟨x, now, hx, hlive, hact⟩
    · exact ⟨fun o ho => allocated_ext hr.ext (hV.allocated o (hsub o ho)),
        fun x now hx => (hcall x now hx).elim⟩
    · refine ⟨fun o ho => (hlive o ho).allocated, fun y now' hy => ?_⟩
      rw [hx] at hy
      cases hy
      exact hact

/-- What holds of every reachable state. -/
theorem actionValid_of_reachable (h : Lts.Reachable (Server.step am) (init am msg) s) : ActionValid s :=
  (h.invariant (I := fun s => Inv s ∧ ActionValid s) ⟨inv_init am msg, ⟨by simp [init, SchedulerPc.toLoad],
    by simp [init]⟩⟩ fun _ _ _ ⟨hI, hV⟩ hs => ⟨hI.step hs, hV.step hI hs⟩).2

/-- The action can always go on to its next load. -/
theorem ActionValid.load (hV : ActionValid s) (am : ℕ) (hrun : s.running = true) {o : Obj}
    {rest : List Obj} (hl : s.scheduler.toLoad s.mem = o :: rest) :
    ∃ t, Server.step am s (.scheduler .load) = some t ∧ t.running = true ∧ t.mem = s.mem ∧
      ∃ more, t.scheduler.toLoad t.mem = rest ++ more := by
  have main : ∀ pc more, s.schedulerLoad = some { s with scheduler := pc } →
      pc.toLoad s.mem = rest ++ more → ∃ t, Server.step am s (.scheduler .load) = some t ∧
        t.running = true ∧ t.mem = s.mem ∧ ∃ more, t.scheduler.toLoad t.mem = rest ++ more := by
    intro pc more hload hmore
    refine ⟨{ s with scheduler := pc }, ?_, hrun, rfl, more, hmore⟩
    rw [Server.step, if_pos hrun]
    exact hload
  cases hpc : s.scheduler with
  | call x now =>
    rw [hpc] at hl
    cases hl
    exact main (.loadApp _ now) [] (by simp only [schedulerLoad, hpc, hV.action x now hpc]) rfl
  | loadApp q now =>
    rw [hpc] at hl
    cases hl
    exact main (.loadFd q _ now) [.query q] (by simp only [schedulerLoad, hpc]) rfl
  | loadFd q a now =>
    rw [hpc] at hl
    cases hl
    exact main (.loadReqId q _ now) [] (by simp only [schedulerLoad, hpc]; rfl) rfl
  | loadReqId q fd now =>
    rw [hpc] at hl
    cases hl
    exact main (.loadDataId q fd _ now) [.query q] (by simp only [schedulerLoad, hpc]; rfl) rfl
  | loadDataId q fd reqId now =>
    rw [hpc] at hl
    cases hl
    exact main _ _ (by simp only [schedulerLoad, hpc]; rfl) rfl
  | loadEngineId q fd reqId dataId now =>
    rw [hpc] at hl
    cases hl
    exact main (.serve fd _ now) [] (by simp only [schedulerLoad, hpc]; rfl) rfl
  | start | top | inner _ _ | serve _ _ _ | write _ _ _ _ | relock _ | waiting =>
    rw [hpc] at hl
    cases hl

/-- If a node that the action still has to load from is freed, a continuation loads from it, or from
    another freed node before. -/
theorem loadsFreed_of_not_live {pre post : List Obj} {o : Obj} (hI : Inv s) (hV : ActionValid s)
    (hrun : s.running = true) (ho : s.scheduler.toLoad s.mem = pre ++ o :: post)
    (hdead : ¬ o.Live s.mem) :
    ∃ t, Lts.Reachable (Server.step am) s t ∧ t.loadsFreed = true := by
  induction pre generalizing s post with
  | nil => exact ⟨s, .refl s, by simp [loadsFreed, ho, hdead]⟩
  | cons o' pre ih =>
    obtain ⟨t, hs, hrun', hmem, more, hmore⟩ := hV.load am hrun ho
    have hnext : t.scheduler.toLoad t.mem = pre ++ o :: (post ++ more) := by rw [hmore]; simp
    obtain ⟨u, hu, hfreed⟩ := ih (hI.step hs) (hV.step hI hs) hrun' hnext (hmem ▸ hdead)
    exact ⟨u, (Lts.Reachable.single hs).trans hu, hfreed⟩

theorem freed_dead {o : Obj} (h : s.managerNext am = some t) (hf : s.manager.freed = some o) :
    ¬ o.Live t.mem ∧ t.running = s.running := by
  cases hpc : s.manager <;> rw [hpc] at hf <;> cases hf <;> simp only [managerNext, hpc] at h <;>
    cases h <;> simp [Obj.Live, Mem.freeQuery, Mem.freeApp]

/-- After a step that frees a node that the action still has to load from. -/
theorem loadsFreed_of_not_spared (hI : Inv s) (hV : ActionValid s) {l : ServerLabel}
    (hbad : s.sparesAction l = false) (h : Server.step am s l = some t) :
    ∃ u, Lts.Reachable (Server.step am) t u ∧ u.loadsFreed = true := by
  unfold sparesAction at hbad
  split at hbad
  swap
  · cases hbad
  rename_i o hf
  have ho : o ∈ s.scheduler.toLoad s.mem := by simpa using hbad
  obtain rfl : l = .manager .next := by
    unfold freed at hf
    split at hf
    · rfl
    · cases hf
  have hrun := (step_manager h).1
  have hs := (step_manager h).2
  obtain ⟨S, hw, hinv⟩ := id hI
  obtain ⟨S', hm⟩ := managerStep_moved hw hinv hs
  have hload : t.scheduler.toLoad t.mem = s.scheduler.toLoad s.mem := by
    rw [toLoad_managerStep hs, SchedulerPc.toLoad_ext hm.ext hV.allocated]
  obtain ⟨pre, post, hpre⟩ := List.append_of_mem ho
  obtain ⟨hdead, hrun'⟩ := freed_dead hs hf
  exact loadsFreed_of_not_live (hI.step h) (hV.step hI h) (hrun'.trans hrun) (hload.trans hpre) hdead

/-- `scheduler_run` never loads from a freed node in the runs where `application_manager` frees no node
    that the action in progress still has to load from. After any other step some continuation loads
    from a freed node. -/
theorem loads_live_iff (am : ℕ) (msg : MsgBytes) :
    (∀ s, Lts.Reachable (Lts.restrict (step am) sparesAction) (init am msg) s →
      s.loadsFreed = false) ∧
    ∀ s l t, Lts.Reachable (step am) (init am msg) s → step am s l = some t →
      s.sparesAction l = false → ∃ u, Lts.Reachable (step am) t u ∧ u.loadsFreed = true := by
  constructor
  · intro s h
    refine not_loadsFreed_of_live (h.invariant_restrict (I := Inv) (J := ActionLive) (inv_init am msg)
      (fun _ _ _ hI hs => hI.step hs) ?_ fun _ _ _ hI hJ hok hs => hJ.step hI hok hs)
    simp [ActionLive, init, SchedulerPc.toLoad]
  · intro s l t h hs hbad
    exact loadsFreed_of_not_spared (inv_of_reachable h) (actionValid_of_reachable h) hbad hs

/-! ## Runs of one client

The pieces of runs in which the listening socket is descriptor 3. -/

/-- A request to serve `ATTITUDE_ALTITUDE` every 100 ms. -/
def registerMsg : List UInt8 := [2, 0, 100, 0, 7, 0, 0, 0, 0, 0, 0, 0, 7, 0, 0, 0]

def nexts (n : ℕ) : List ServerLabel := List.replicate n (.manager .next)

/-- A client connects, as descriptor `fd`. -/
def acceptRun (fd : ℕ) : List ServerLabel :=
  [.manager (.select {3} ∅), .manager (.accept fd)] ++ nexts 3

/-- The descriptor `fd` is readable; `application_manager` comes to the `read`. -/
def readableRun (fd : ℕ) : List ServerLabel := .manager (.select {fd} ∅) :: nexts (fd + 3)

/-- A client connects and registers a query. -/
def registerRun (fd : ℕ) : List ServerLabel :=
  acceptRun fd ++ readableRun fd ++
    [.manager (.read registerMsg), .manager .next, .manager (.schedule ⟨0, 0⟩)] ++ nexts 3

/-- `scheduler_run` takes the node that is due and drops the lock. -/
def popRun : List ServerLabel :=
  [.scheduler .lock, .scheduler (.clock ⟨1, 0⟩), .scheduler .inner]

/-- The client closes its connection; `application_manager` makes `n` steps of the teardown. -/
def eofRun (fd n : ℕ) : List ServerLabel := readableRun fd ++ .manager .readEof :: nexts n

/-- The client closes its connection only after the action has loaded all that it needs. -/
theorem loads_live_after_loads :
    ∃ s, Lts.run (Lts.restrict (step 3) sparesAction) (init 3 fun _ => 0)
        (registerRun 4 ++ popRun ++ List.replicate 5 (.scheduler .load) ++ eofRun 4 10) = some s ∧
      s.loadsFreed = false := by
  obtain ⟨s, hrun, -⟩ := Lts.exists_run_of_map (Lts.restrict (step 3) sparesAction) (init 3 fun _ => 0)
    (registerRun 4 ++ popRun ++ List.replicate 5 (.scheduler .load) ++ eofRun 4 10) (fun _ => true)
    (by decide)
  exact ⟨s, hrun, (loads_live_iff 3 fun _ => 0).1 s ⟨_, hrun⟩⟩

/-- The client closes its connection after `scheduler_run` has dropped the lock and before it loads
    `node->action`. -/
theorem loads_freed_after_close :
    ∃ s, Lts.run (step 3) (init 3 fun _ => 0) (registerRun 4 ++ popRun ++ eofRun 4 4) = some s ∧
      s.loadsFreed = true :=
  Lts.exists_run_of_map _ _ _ loadsFreed (by decide)

end Server

end Afdx
