import Afdx.Proofs.ReplyProofs

/-!
# The failure of one client

A connection can fail in `read`, by an exceptional condition, or in a `write` of either thread. All but
the last end in `unregister_application` and `close` for that client alone; a `write` that fails ends
the daemon. `scheduler_run` may still have a reply for the client in hand when the connection is closed, and its
`write` fails then.
-/

namespace Afdx

/-- The client whose failed connection `application_manager` is taking down. -/
def ManagerPc.handling : ManagerPc → Option ℕ
  | .unchainApp fd _ | .dropLoop fd _ _ _ | .freeApp fd _ _ | .close fd _ => some fd
  | .removeNode _ _ (.unregisterApplication fd _ _) => some fd
  | .freeNode _ _ (.unregisterApplication fd _ _) => some fd
  | .freeQuery _ (.unregisterApplication fd _ _) => some fd
  | _ => none

namespace Server

variable {am : ℕ} {s t u : Server} {S S' : Shape} {msg : MsgBytes} {fd : ℕ}

/-- A step after the connection of `fd` has failed: `application_manager` takes it down, `scheduler_run` goes on,
    and no `write` fails but to that client. -/
def continues (fd : ℕ) (s : Server) : ServerLabel → Bool
  | .manager _ => s.manager.handling = some fd
  | .scheduler .writeError => s.actionFd = some fd
  | .scheduler _ => true

/-- The connection of `fd` is being taken down, or is closed. -/
def Down (fd : ℕ) (s : Server) : Prop :=
  s.manager.handling = some fd ∨ s.manager.handling = none ∧ s.conns fd = none

/-- Of the steps of `scheduler_run` only a failing `write` ends the daemon. -/
theorem running_of_schedulerStep {l : SchedulerLabel} (hl : l ≠ .writeError)
    (h : schedulerStep s l = some t) : t.running = s.running := by
  cases l <;> simp only [schedulerStep, schedulerLoad] at h <;> (repeat' split at h) <;> first
    | (cases h; rfl)
    | (obtain ⟨_, -, rfl⟩ := Option.map_eq_some_iff.mp h; rfl)
    | exact absurd rfl hl
    | cases h

/-- While a connection is taken down `application_manager` does not end the daemon. -/
theorem running_of_handling {l : ManagerLabel} (hpc : s.manager.handling = some fd)
    (h : managerStep am s l = some t) : t.running = s.running := by
  cases l with
  | next =>
    cases hman : s.manager <;> rw [hman] at hpc <;> first
      | (cases hpc; done)
      | (simp only [managerStep, managerNext, hman] at h
         (repeat' split at h) <;> first
           | (cases h; rfl)
           | (obtain ⟨_, -, rfl⟩ := Option.map_eq_some_iff.mp h; rfl)
           | cases h)
  | _ =>
    simp only [managerStep] at h
    cases hman : s.manager <;> rw [hman] at hpc <;> simp only [hman] at h <;> first
      | (cases hpc; done)
      | cases h

/-- A teardown goes on for the same client until its connection is closed. -/
theorem Down.managerStep {l : ManagerLabel} (hpc : s.manager.handling = some fd)
    (h : managerStep am s l = some t) : Down fd t := by
  cases l with
  | next =>
    cases hman : s.manager with
    | unchainApp fd' site | dropLoop fd' app p site | freeApp fd' app site =>
      rw [hman] at hpc
      cases hpc
      simp only [Server.managerStep, managerNext, hman] at h
      (repeat' split at h) <;> first
        | (cases h; exact .inl rfl)
        | (obtain ⟨_, -, rfl⟩ := Option.map_eq_some_iff.mp h; exact .inl rfl)
        | cases h
    | removeNode node handler caller | freeNode node handler caller | freeQuery node caller =>
      rw [hman] at hpc
      cases caller with
      | unregisterQuery _ => cases hpc
      | unregisterApplication fd' app site =>
        cases hpc
        simp only [Server.managerStep, managerNext, hman] at h
        (repeat' split at h) <;> first | (cases h; exact .inl rfl) | cases h
    | close fd' site =>
      rw [hman] at hpc
      cases hpc
      simp only [Server.managerStep, managerNext, hman] at h
      cases h
      cases site
      · exact .inl rfl
      · exact .inr ⟨rfl, Function.update_self ..⟩
      · exact .inr ⟨rfl, Function.update_self ..⟩
    | _ =>
      rw [hman] at hpc
      cases hpc
  | _ =>
    simp only [Server.managerStep] at h
    cases hman : s.manager <;> rw [hman] at hpc <;> simp only [hman] at h <;> first
      | (cases hpc; done)
      | cases h

theorem Down.step (hD : Down fd s) (hI : Inv s) {l : ServerLabel} (hok : s.continues fd l = true)
    (h : Server.step am s l = some t) : Down fd t := by
  cases l with
  | manager l => exact .managerStep (of_decide_eq_true hok) (step_manager h).2
  | scheduler l =>
    obtain ⟨S, hw, hinv⟩ := hI
    have hs := (step_scheduler h).2
    rw [Down, (schedulerStep_rearmed hw hinv hs).1, (schedulerStep_conns hs).1]
    exact hD

/-- Steps of `application_manager` to the end of the teardown, given the allocated query nodes. -/
def teardownSteps (k : ℕ) : ManagerPc → ℕ
  | .unchainApp _ site => siteSteps k site + 4 * k + 20
  | .dropLoop _ _ _ site => siteSteps k site + 4 * k + 10
  | .removeNode _ _ (.unregisterApplication _ _ site) => siteSteps k site + 4 * k + 9
  | .freeNode _ _ (.unregisterApplication _ _ site) => siteSteps k site + 4 * k + 8
  | .freeQuery _ (.unregisterApplication _ _ site) => siteSteps k site + 4 * k + 7
  | .freeApp _ _ site => siteSteps k site + 5
  | .close _ site => siteSteps k site + 4
  | _ => 0
where
  /-- After an error of `read` there is a second teardown. -/
  siteSteps (k : ℕ) : Teardown → ℕ
    | .readError => 4 * k + 40
    | _ => 0

/-- Steps of `scheduler_run` until it releases `scheduler_mutex`, if nothing is due. -/
def lockSteps : SchedulerPc → ℕ
  | .inner _ true => 3
  | .top => 2
  | .inner _ false => 1
  | _ => 0

/-- `scheduler_run` always gets to release `scheduler_mutex`. -/
theorem Inv.unlock (hI : Inv s) (am : ℕ) (hrun : s.running = true) (hlock : s.schedulerLocked = true) :
    ∃ l t, Server.step am s (.scheduler l) = some t ∧ l ≠ .writeError ∧ t.manager = s.manager ∧
      t.mem.queries = s.mem.queries ∧ lockSteps t.scheduler < lockSteps s.scheduler := by
  obtain ⟨S, hw, hinv⟩ := hI
  cases hpc : s.scheduler with
  | top =>
    refine ⟨.clock ⟨0, 0⟩, { s with scheduler := .inner ⟨0, 0⟩ false }, ?_, by simp, rfl, rfl,
      by simp [lockSteps]⟩
    rw [Server.step, if_pos hrun]
    simp only [Server.schedulerStep, hpc]
  | inner now didSomething =>
    have hsome : ∃ r st, rearmFirst s.mem.sched now = some (r, st) := by
      rcases hw.rearmFirst now with ⟨heq, -⟩ | ⟨_, _, _, _, _, -, -, heq, -⟩
      · exact ⟨_, _, heq⟩
      · exact ⟨_, _, heq⟩
    obtain ⟨r, st, heq⟩ := hsome
    cases r with
    | some x =>
      refine ⟨.inner, { s with mem := { s.mem with sched := st }, scheduler := .call x now }, ?_,
        by simp, rfl, rfl, by cases didSomething <;> simp [lockSteps]⟩
      rw [Server.step, if_pos hrun]
      simp only [Server.schedulerStep, hpc, heq]
    | none =>
      refine ⟨.inner, { s with
        mem := { s.mem with sched := st }
        scheduler := if didSomething then .top else .waiting }, ?_, by simp, rfl, rfl,
        by cases didSomething <;> simp [lockSteps]⟩
      rw [Server.step, if_pos hrun]
      simp only [Server.schedulerStep, hpc, heq]
  | _ => simp [schedulerLocked, hpc] at hlock

/-- `application_manager` can always take its next step of the teardown when the lock is free. -/
theorem Inv.teardown (hI : Inv s) (am : ℕ) (hpc : s.manager.handling = some fd)
    (hlock : s.schedulerLocked = false) :
    ∃ t, s.managerNext am = some t ∧ t.scheduler = s.scheduler ∧
      teardownSteps t.mem.queries.live.card t.manager <
        teardownSteps s.mem.queries.live.card s.manager := by
  obtain ⟨S, hw, hinv⟩ := hI
  cases hman : s.manager with
  | unchainApp fd' site =>
    rw [hman] at hpc hinv
    cases hpc
    rcases hw.unchainApp hinv.1 fd with ⟨heq, -⟩ | ⟨_, a, _, m', heq, hu⟩
    · exact ⟨{ s with manager := .close fd site }, by simp only [managerNext, hman, heq], rfl,
        by simp only [teardownSteps]; omega⟩
    · exact ⟨{ s with mem := m', manager := .dropLoop fd a (m'.apps.cell a).queries site },
        by simp only [managerNext, hman, heq], rfl, by simp only [teardownSteps, hu.queries]; omega⟩
  | dropLoop fd' app p site =>
    rw [hman] at hpc hinv
    cases hpc
    cases p with
    | none =>
      exact ⟨{ s with manager := .freeApp fd app site }, by simp only [managerNext, hman], rfl,
        by simp only [teardownSteps]; omega⟩
    | some node =>
      obtain ⟨x, -, hh, -⟩ := hinv.handler node (List.mem_of_head? hinv.chain.head.symm)
      exact ⟨{ s with manager := .removeNode node x (.unregisterApplication fd app site) },
        by simp only [managerNext, hman, hh, Option.map_some], rfl,
        by simp only [teardownSteps]; omega⟩
  | removeNode node handler caller =>
    rw [hman] at hpc
    cases caller with
    | unregisterQuery _ => cases hpc
    | unregisterApplication fd' app site =>
      cases hpc
      exact ⟨{ s with
        mem := { s.mem with sched := Afdx.removeNode s.mem.sched handler }
        manager := .freeNode node handler (.unregisterApplication fd app site) },
        by simp only [managerNext, hman, hlock, Bool.false_eq_true, if_false], rfl,
        by simp only [teardownSteps]; omega⟩
  | freeNode node handler caller =>
    rw [hman] at hpc
    cases caller with
    | unregisterQuery _ => cases hpc
    | unregisterApplication fd' app site =>
      cases hpc
      exact ⟨{ s with
        mem := { s.mem with sched := { s.mem.sched with nodes := s.mem.sched.nodes.free handler } }
        manager := .freeQuery node (.unregisterApplication fd app site) },
        by simp only [managerNext, hman], rfl, by simp only [teardownSteps]; omega⟩
  | freeQuery node caller =>
    rw [hman] at hpc hinv
    cases caller with
    | unregisterQuery _ => cases hpc
    | unregisterApplication fd' app site =>
      cases hpc
      refine ⟨{ s with
        mem := s.mem.freeQuery node
        manager := .dropLoop fd app (s.mem.queries.cell node).next site },
        by simp only [managerNext, hman], rfl, ?_⟩
      have hcard := Finset.card_erase_lt_of_mem hinv.1
      have hlive : (s.mem.freeQuery node).queries.live = s.mem.queries.live.erase node := rfl
      simp only [teardownSteps, hlive]
      cases site <;> simp only [teardownSteps.siteSteps] <;> omega
  | freeApp fd' app site =>
    rw [hman] at hpc
    cases hpc
    refine ⟨{ s with mem := s.mem.freeApp app, manager := .close fd site },
      by simp only [managerNext, hman], rfl, ?_⟩
    have hq : (s.mem.freeApp app).queries = s.mem.queries := rfl
    simp only [teardownSteps, hq]
    omega
  | close fd' site =>
    rw [hman] at hpc
    cases hpc
    refine ⟨{ s with
      conns := Function.update s.conns fd none
      select := { s.select with managedFds := s.select.managedFds.erase fd }
      manager := site.next fd }, by simp only [managerNext, hman], rfl, ?_⟩
    cases site <;> simp only [Teardown.next, teardownSteps, teardownSteps.siteSteps] <;> omega
  | _ =>
    rw [hman] at hpc
    cases hpc

end Server

end Afdx
