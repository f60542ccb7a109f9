import Afdx.Proofs.OwnershipProofs
import Afdx.Proofs.RoundProofs

/-!
# The length of a round of `application_manager`

The steps of a round are bounded, however the calls end and whatever `scheduler_run` does in between. Every
descriptor that one of the loops passes pays for its client, and a query node that is allocated pays in advance for
the steps that free it. How long a step takes is another matter: `accept`, `read` and `write` are made on blocking
sockets and return when they please. Everywhere else in the round `scheduler_mutex` is all that
`application_manager` waits for, and `scheduler_run` does not keep it.
-/

namespace Afdx

/-- What is left of the round after `close`, apart from the clients that come after: the second teardown, if `read`
    has failed, and the way out of the loops. -/
def Teardown.cost : Teardown → ℕ
  | .readError => 6
  | .closed => 2
  | .exceptional => 1

/-- What is left after a query node is freed, if the caller of `unschedule` has no other one. A node that the
    client has unregistered itself pays for its way out. -/
def Caller.cost : Caller → ℕ
  | .unregisterQuery _ => 0
  | .unregisterApplication _ _ site => site.cost

namespace ManagerPc

/-- The steps that neither a descriptor ahead nor an allocated query node pays for. A descriptor pays ten steps, a
    query node the four that unschedule and free it. -/
def cost : ManagerPc → ℕ
  | .select => 0
  | .accept => 4
  | .listenError | .write _ _ _ | .storeHandler _ _ _ _ | .unchainQuery _ _ => 3
  | .readLoop _ => 2
  | .exceptLoop _ => 1
  | .read _ => 11
  | .serve _ _ | .schedule _ _ _ _ => 4
  | .registerNode _ _ _ => 9
  | .unchainApp _ site => site.cost + 4
  | .dropLoop _ _ _ site => site.cost + 3
  | .removeNode _ _ caller => caller.cost + 2
  | .freeNode _ _ caller => caller.cost + 1
  | .freeQuery _ caller => caller.cost
  | .freeApp _ _ site => site.cost + 2
  | .close _ site => site.cost + 1

/-- The descriptors below `n` that the two loops have still to pass in this round. -/
def visits (n : ℕ) (pc : ManagerPc) : ℕ := pc.readsFrom.elim 0 (n - ·) + pc.exceptsFrom.elim 0 (n - ·)

theorem cost_le (pc : ManagerPc) : pc.cost ≤ 11 := by
  cases pc with
  | removeNode _ _ caller | freeNode _ _ caller | freeQuery _ caller =>
    cases caller with
    | unregisterQuery _ => simp [cost, Caller.cost]
    | unregisterApplication _ _ site => cases site <;> simp [cost, Caller.cost, Teardown.cost]
  | unchainApp _ site | dropLoop _ _ _ site | freeApp _ _ site | close _ site =>
    cases site <;> simp [cost, Teardown.cost]
  | _ => simp [cost]

theorem visits_le (n : ℕ) (pc : ManagerPc) : pc.visits n ≤ 2 * n := by
  unfold visits
  cases pc.readsFrom <;> cases pc.exceptsFrom <;> simp only [Option.elim_none, Option.elim_some] <;> omega

/-- In a call on a socket, which may block. -/
def inCall : ManagerPc → Bool
  | .select | .accept | .read _ | .write _ _ _ => true
  | _ => false

theorem visits_of_hand {n : ℕ} {pc pc' : ManagerPc} {hand : ℕ × Option Teardown} (h : pc.hand = some hand)
    (h' : pc'.hand = some hand) : pc'.visits n = pc.visits n := by
  rw [visits, visits, readsFrom_of_hand h, readsFrom_of_hand h', exceptsFrom_of_hand h, exceptsFrom_of_hand h']

end ManagerPc

namespace Server

variable {am n : ℕ} {s t u : Server} {msg : MsgBytes} {ls : List ServerLabel}

/-- Steps of `application_manager` to the end of the round, if no descriptor is `n` or above. -/
def roundCost (n : ℕ) (s : Server) : ℕ :=
  if s.running then 4 * s.mem.queries.live.card + 10 * s.manager.visits n + s.manager.cost else 0

theorem roundCost_le (n : ℕ) (s : Server) : roundCost n s ≤ 4 * s.mem.queries.live.card + 20 * n + 11 := by
  have hvisits := s.manager.visits_le n
  have hcost := s.manager.cost_le
  unfold roundCost
  split <;> omega

theorem roundCost_lt (hrun : s.running = true)
    (h : 4 * t.mem.queries.live.card + 10 * t.manager.visits n + t.manager.cost <
      4 * s.mem.queries.live.card + 10 * s.manager.visits n + s.manager.cost) :
    roundCost n t < roundCost n s := by
  unfold roundCost
  rw [if_pos hrun]
  split <;> omega

theorem roundCost_exit (hrun : s.running = true) (hpos : 0 < s.manager.cost) :
    roundCost n s.exit < roundCost n s := by
  unfold roundCost exit
  rw [if_pos hrun, if_neg Bool.false_ne_true]
  omega

/-- A step with the client in hand. -/
theorem roundCost_hold (hand : ℕ × Option Teardown) (hrun : s.running = true) (hs : s.manager.hand = some hand)
    (ht : t.manager.hand = some hand)
    (h : 4 * t.mem.queries.live.card + t.manager.cost < 4 * s.mem.queries.live.card + s.manager.cost) :
    roundCost n t < roundCost n s := by
  have hvisits := ManagerPc.visits_of_hand (n := n) hs ht
  refine roundCost_lt hrun ?_
  omega

/-- The client is put down, and the loop goes on. -/
theorem roundCost_release (fd : ℕ) (site : Option Teardown) (hrun : s.running = true)
    (hs : s.manager.hand = some (fd, site))
    (ht : t.manager = if site = some .exceptional then .exceptLoop (fd + 1) else .readLoop (fd + 1))
    (h : 4 * t.mem.queries.live.card + t.manager.cost < 4 * s.mem.queries.live.card + s.manager.cost) :
    roundCost n t < roundCost n s := by
  have hvisits : t.manager.visits n = s.manager.visits n := by
    rw [ManagerPc.visits, ManagerPc.visits, ManagerPc.readsFrom_of_hand hs, ManagerPc.exceptsFrom_of_hand hs, ht]
    split <;> rfl
  refine roundCost_lt hrun ?_
  omega

/-- A loop over the descriptors passes one of them. -/
theorem visits_pass {fd : ℕ} (hfd : fd < n) : n - fd = n - (fd + 1) + 1 := by omega

theorem managerNext_cost (hI : Inv s) (hrun : s.running = true) (hn : s.select.nfds ≤ n)
    (h : s.managerNext am = some t) : roundCost n t < roundCost n s := by
  obtain ⟨S, hw, hinv⟩ := hI
  cases hpc : s.manager <;> simp only [managerNext, hpc, reduceCtorEq] at h <;> rw [hpc] at hinv
  case accept =>
    split at h <;> cases h
    refine roundCost_lt hrun ?_
    simp [hpc, ManagerPc.visits, ManagerPc.readsFrom, ManagerPc.exceptsFrom, ManagerPc.cost]
  case listenError =>
    split at h <;> cases h
    · exact roundCost_exit hrun (by simp [hpc, ManagerPc.cost])
    · refine roundCost_lt hrun ?_
      simp [hpc, ManagerPc.visits, ManagerPc.readsFrom, ManagerPc.exceptsFrom, ManagerPc.cost]
  case readLoop fd =>
    split at h
    · rename_i hgo
      have hpass := visits_pass (hgo.1.trans_le hn)
      split at h <;> cases h <;> refine roundCost_lt hrun ?_ <;>
        simp only [hpc, ManagerPc.visits, ManagerPc.readsFrom, ManagerPc.exceptsFrom, ManagerPc.hand,
          ManagerPc.cost, Option.elim_some, Option.bind_some, Option.map_some, reduceCtorEq, if_false] <;>
        omega
    · cases h
      refine roundCost_lt hrun ?_
      simp only [hpc, ManagerPc.visits, ManagerPc.readsFrom, ManagerPc.exceptsFrom, ManagerPc.hand, ManagerPc.cost,
        Option.elim_some, Option.elim_none, Option.bind_none]
      omega
  case exceptLoop fd =>
    split at h
    · rename_i hgo
      have hpass := visits_pass (hgo.1.trans_le hn)
      split at h <;> cases h <;> refine roundCost_lt hrun ?_ <;>
        simp only [hpc, ManagerPc.visits, ManagerPc.readsFrom, ManagerPc.exceptsFrom, ManagerPc.hand,
          ManagerPc.cost, Teardown.cost, Option.elim_some, Option.elim_none, Option.bind_none, Option.bind_some,
          Option.map_some, if_true] <;>
        omega
    · cases h
      refine roundCost_lt hrun ?_
      simp only [hpc, ManagerPc.visits, ManagerPc.readsFrom, ManagerPc.exceptsFrom, ManagerPc.hand, ManagerPc.cost,
        Option.elim_some, Option.elim_none, Option.bind_none, Option.map_none]
      omega
  case registerNode fd query interval =>
    obtain ⟨⟨app, node, m'⟩, heq, rfl⟩ := Option.map_eq_some_iff.mp h
    have hcard : m'.queries.live.card ≤ s.mem.queries.live.card + 1 :=
      (Mem.registerNode_live heq).1 ▸ Finset.card_insert_le ..
    refine roundCost_hold (fd, none) hrun (by rw [hpc]; rfl) rfl ?_
    simp only [hpc, ManagerPc.cost]
    omega
  case storeHandler fd app node handler =>
    cases h
    refine roundCost_release fd none hrun (by rw [hpc]; rfl) rfl ?_
    simp [hpc, ManagerPc.cost, Mem.storeHandler]
  case unchainQuery fd reqId =>
    split at h
    · cases h
    · rename_i heq
      cases h
      have hlive := (Mem.unchainQuery_live heq).2.1
      refine roundCost_release fd none hrun (by rw [hpc]; rfl) rfl ?_
      simp [hpc, ManagerPc.cost, hlive]
    · rename_i heq
      obtain ⟨handler, -, rfl⟩ := Option.map_eq_some_iff.mp h
      have hlive := (Mem.unchainQuery_live heq).2.1
      refine roundCost_hold (fd, none) hrun (by rw [hpc]; rfl) rfl ?_
      simp [hpc, ManagerPc.cost, Caller.cost, hlive]
  case unchainApp fd site =>
    split at h <;> [cases h; rename_i heq; rename_i heq] <;> cases h <;>
      refine roundCost_hold (fd, some site) hrun (by rw [hpc]; rfl) rfl ?_ <;>
      simp [hpc, ManagerPc.cost, (Mem.unchainApp_live heq).2.1]
  case dropLoop fd app node site =>
    split at h
    · cases h
      refine roundCost_hold (fd, some site) hrun (by rw [hpc]; rfl) rfl ?_
      simp [hpc, ManagerPc.cost]
    · obtain ⟨handler, -, rfl⟩ := Option.map_eq_some_iff.mp h
      refine roundCost_hold (fd, some site) hrun (by rw [hpc]; rfl) rfl ?_
      simp [hpc, ManagerPc.cost, Caller.cost]
  case removeNode node handler caller =>
    split at h <;> cases h
    refine roundCost_hold caller.hand hrun (by rw [hpc]; rfl) rfl ?_
    simp [hpc, ManagerPc.cost]
  case freeNode node handler caller =>
    cases h
    refine roundCost_hold caller.hand hrun (by rw [hpc]; rfl) rfl ?_
    simp [hpc, ManagerPc.cost]
  case freeQuery node caller =>
    -- the node that is freed pays for what comes before the next one is
    cases h
    have hcard := Finset.card_erase_add_one hinv.1
    have hlive : (s.mem.freeQuery node).queries.live = s.mem.queries.live.erase node := rfl
    cases caller with
    | unregisterQuery fd =>
      refine roundCost_release fd none hrun (by rw [hpc]; rfl) rfl ?_
      simp only [hpc, ManagerPc.cost, Caller.cost, hlive]
      omega
    | unregisterApplication fd app site =>
      refine roundCost_hold (fd, some site) hrun (by rw [hpc]; rfl) rfl ?_
      simp only [hpc, ManagerPc.cost, Caller.cost, hlive]
      omega
  case freeApp fd app site =>
    cases h
    refine roundCost_hold (fd, some site) hrun (by rw [hpc]; rfl) rfl ?_
    simp [hpc, ManagerPc.cost, Mem.freeApp]
  case close fd site =>
    cases h
    have hhand : s.manager.hand = some (fd, some site) := by rw [hpc]; rfl
    cases site with
    | readError =>
      refine roundCost_lt hrun ?_
      simp [hpc, Teardown.next, ManagerPc.visits, ManagerPc.readsFrom, ManagerPc.exceptsFrom, ManagerPc.hand,
        ManagerPc.cost, Teardown.cost]
    | closed | exceptional =>
      refine roundCost_release _ _ hrun hhand rfl ?_
      simp [hpc, Teardown.next, ManagerPc.cost, Teardown.cost]

theorem managerStep_cost (hI : Inv s) (hrun : s.running = true) (hn : s.select.nfds ≤ n) {l : ManagerLabel}
    (hl : inRound s (.manager l) = true) (h : managerStep am s l = some t) : roundCost n t < roundCost n s := by
  cases l <;> simp only [managerStep] at h
  case next => exact managerNext_cost hI hrun hn h
  case select => cases hl
  case selectError => cases hl
  case accept newfd =>
    split at h <;> [rename_i hpc; cases h]
    split at h <;> cases h
    refine roundCost_lt hrun ?_
    simp [hpc, ManagerPc.visits, ManagerPc.readsFrom, ManagerPc.exceptsFrom, ManagerPc.cost]
  case read chunk =>
    split at h <;> [rename_i fd hpc; cases h]
    split at h <;> [skip; cases h]
    split at h <;> cases h
    have hhand : s.manager.hand = some (fd, none) := by rw [hpc]; rfl
    rcases (s.packetMsg.overlay chunk).decode.operation with _ | (_ | _ | _)
    · refine roundCost_release _ _ hrun hhand rfl ?_
      simp [hpc, dispatch, ManagerPc.cost]
    all_goals
      refine roundCost_hold _ hrun hhand rfl ?_
      simp [hpc, dispatch, ManagerPc.cost]
  case readEof =>
    split at h <;> [rename_i fd hpc; skip] <;> cases h
    refine roundCost_lt hrun ?_
    simp [hpc, ManagerPc.visits, ManagerPc.readsFrom, ManagerPc.exceptsFrom, ManagerPc.hand, ManagerPc.cost,
      Teardown.cost]
  case readError =>
    split at h <;> [rename_i fd hpc; skip] <;> cases h
    refine roundCost_lt hrun ?_
    simp [hpc, ManagerPc.visits, ManagerPc.readsFrom, ManagerPc.exceptsFrom, ManagerPc.hand, ManagerPc.cost,
      Teardown.cost]
  case serve snap =>
    split at h <;> [rename_i fd query hpc; skip] <;> cases h
    refine roundCost_hold (fd, none) hrun (by rw [hpc]; rfl) rfl ?_
    simp [hpc, ManagerPc.cost]
  case write =>
    split at h <;> [rename_i fd query snap hpc; cases h]
    obtain ⟨_, -, rfl⟩ := Option.map_eq_some_iff.mp h
    refine roundCost_release fd none hrun (by rw [hpc]; rfl) rfl ?_
    simp [hpc, ManagerPc.cost]
  case schedule now =>
    split at h <;> [rename_i fd app node interval hpc; cases h]
    split at h <;> [cases h; skip]
    obtain ⟨_, -, rfl⟩ := Option.map_eq_some_iff.mp h
    refine roundCost_hold (fd, none) hrun (by rw [hpc]; rfl) rfl ?_
    simp [hpc, ManagerPc.cost]
  case acceptError =>
    split at h <;> [rename_i hpc; cases h]
    split at h <;> cases h
    exact roundCost_exit hrun (by simp [hpc, ManagerPc.cost])
  case writeError =>
    split at h <;> [rename_i hpc; skip] <;> cases h
    exact roundCost_exit hrun (by simp [hpc, ManagerPc.cost])
  case mallocError =>
    split at h <;> [rename_i hpc; rename_i hpc; skip] <;> cases h <;>
      exact roundCost_exit hrun (by simp [hpc, ManagerPc.cost])

/-- The scheduler thread costs the round nothing. -/
theorem schedulerStep_cost (hI : Inv s) (hrun : s.running = true) {l : SchedulerLabel}
    (h : schedulerStep s l = some t) : roundCost n t ≤ roundCost n s := by
  obtain ⟨S, hw, hinv⟩ := hI
  obtain ⟨hpc, S', hr⟩ := schedulerStep_rearmed hw hinv h
  unfold roundCost
  rw [if_pos hrun, hpc, hr.queries]
  split
  · exact le_rfl
  · exact Nat.zero_le _

/-- `nfds` only grows. -/
theorem nfds_le {l : ServerLabel} (h : step am s l = some t) : s.select.nfds ≤ t.select.nfds := by
  cases l with
  | scheduler l => rw [(schedulerStep_select (step_scheduler h).2).1]
  | manager l =>
    cases managerStep_turn (step_manager h).2 with
    | accept newfd _ _ _ _ _ sel =>
      rw [sel]
      simp only
      split <;> omega
    | select _ _ _ _ _ _ _ sel | pass _ _ _ _ sel | readable _ _ _ _ _ sel | exceptional _ _ _ _ _ sel
    | hold _ _ _ _ sel | release _ _ _ sel | teardown _ _ _ _ _ sel | close _ _ _ _ sel | exit _ sel =>
      rw [sel]

/-- The steps of `application_manager`. -/
def ofManager : ServerLabel → Bool
  | .manager _ => true
  | .scheduler _ => false

theorem countP_ofManager_le (hI : Inv s) (hrun : Lts.run (Lts.restrict (step am) inRound) s ls = some t) :
    ls.countP ofManager + roundCost t.select.nfds t ≤ roundCost t.select.nfds s := by
  refine Lts.countP_add_le (I := Inv) (K := fun u => u.select.nfds ≤ t.select.nfds) ofManager
    (fun u l v hI hr => hI.step (Lts.restrict_eq_some.mp hr).2)
    (fun u l v hr hv => (nfds_le (Lts.restrict_eq_some.mp hr).2).trans hv) ?_ hI hrun le_rfl
  intro u l v hI hv hr
  obtain ⟨hok, hs⟩ := Lts.restrict_eq_some.mp hr
  cases l with
  | manager l =>
    have hlt := managerStep_cost hI (step_manager hs).1 ((nfds_le hs).trans hv) hok (step_manager hs).2
    simp only [ofManager, if_true]
    omega
  | scheduler l =>
    have hle := schedulerStep_cost (n := t.select.nfds) hI (step_scheduler hs).1 (step_scheduler hs).2
    simpa [ofManager] using hle

/-! ## Between the calls that block -/

/-- A step of the round can be taken when the lock is free. At `accept`, `read` and `write` it is the return of the
    call. -/
theorem manager_enabled (hI : Inv s) (hF : Fds am s) (hrun : s.running = true) (hlock : s.schedulerLocked = false)
    (hne : s.manager ≠ .select) :
    ∃ l t, managerStep am s l = some t ∧ inRound s (.manager l) = true := by
  cases hhand : s.manager.hand with
  | some hand =>
    obtain ⟨l, t, hs, hok, -⟩ := hI.proceed hF hrun hlock hhand
    exact ⟨l, t, hs, hok⟩
  | none =>
    cases hpc : s.manager with
    | select => exact absurd hpc hne
    | accept =>
      by_cases hr : am ∈ s.select.rfds
      · exact ⟨.acceptError, s.exit, by simp only [managerStep, hpc, if_pos hr], rfl⟩
      · exact ⟨.next, { s with manager := .listenError }, by simp only [managerStep, managerNext, hpc, if_neg hr],
          rfl⟩
    | listenError | readLoop fd | exceptLoop fd =>
      refine ⟨.next, ?_⟩
      simp only [managerStep, managerNext, hpc]
      split_ifs <;> exact ⟨_, rfl, rfl⟩
    | _ =>
      rw [hpc] at hhand
      cases hhand

theorem lockSteps_le (pc : SchedulerPc) : lockSteps pc ≤ 3 := by
  cases pc with
  | inner _ didSomething => cases didSomething <;> simp [lockSteps]
  | _ => simp [lockSteps]

/-- `scheduler_run` gets to release `scheduler_mutex` by itself. -/
theorem Inv.unlocks (hI : Inv s) (hF : Fds am s) (hrun : s.running = true) :
    ∃ (ls : List SchedulerLabel) (u : Server), ls.length ≤ lockSteps s.scheduler ∧
      Lts.run (Server.step am) s (ls.map .scheduler) = some u ∧ Inv u ∧ Fds am u ∧ u.running = true ∧
      u.manager = s.manager ∧ u.schedulerLocked = false := by
  induction hk : lockSteps s.scheduler using Nat.strong_induction_on generalizing s with
  | _ k ih =>
    cases hlock : s.schedulerLocked with
    | false => exact ⟨[], s, Nat.zero_le _, rfl, hI, hF, hrun, rfl, hlock⟩
    | true =>
      obtain ⟨l, t, hs, hl, hman, -, hlt⟩ := hI.unlock am hrun hlock
      have hrun' := (running_of_schedulerStep hl (step_scheduler hs).2).trans hrun
      obtain ⟨ls, u, hlen, hls, hIu, hFu, hru, hmu, hfree⟩ :=
        ih (lockSteps t.scheduler) (hk ▸ hlt) (hI.step hs) (hF.step hs) hrun' rfl
      refine ⟨l :: ls, u, ?_, ?_, hIu, hFu, hru, hmu.trans hman, hfree⟩
      · rw [List.length_cons]
        omega
      · rw [List.map_cons, Lts.run_cons_of_step hs]
        exact hls

/-- The steps of `application_manager` in a round are bounded, whatever the calls return and `scheduler_run` does in
    between. In a call on a socket it may be for as long as the call blocks. Outside of these calls the next step
    can be taken, after at most three of `scheduler_run`. -/
theorem round_bounded (h : Lts.Reachable (step am) (init am msg) s)
    (hrun : Lts.run (Lts.restrict (step am) inRound) s ls = some t) :
    ls.countP ofManager ≤ 4 * s.mem.queries.live.card + 20 * t.select.nfds + 11 ∧
      (t.running = true → t.manager.inCall = false → ∃ (ls' : List SchedulerLabel) (u : Server)
        (l : ManagerLabel) (v : Server), ls'.length ≤ 3 ∧ Lts.run (step am) t (ls'.map .scheduler) = some u ∧
          Lts.restrict (step am) inRound u (.manager l) = some v) := by
  obtain ⟨hI, hF, -⟩ := registeredOpen_of_reachable h
  obtain ⟨hIt, hFt, -⟩ := registeredOpen_of_reachable (h.trans (Lts.Reachable.of_restrict ⟨ls, hrun⟩))
  refine ⟨?_, fun hrunning hcall => ?_⟩
  · have hcount := countP_ofManager_le hI hrun
    have hcost := roundCost_le t.select.nfds s
    omega
  · have hne : t.manager ≠ .select := fun hsel => by rw [hsel] at hcall; cases hcall
    obtain ⟨ls', u, hlen, hls, hIu, hFu, hru, hmu, hfree⟩ := hIt.unlocks hFt hrunning
    obtain ⟨l, v, hs, hok⟩ := manager_enabled hIu hFu hru hfree (hmu ▸ hne)
    refine ⟨ls', u, l, v, hlen.trans (lockSteps_le _), hls, Lts.restrict_eq_some.mpr ⟨hok, ?_⟩⟩
    rw [step, if_pos hru]
    exact hs

/-- The client has closed its connection, and its query is about to be unscheduled while `scheduler_run` holds
    the lock. -/
def lockedRound : List ServerLabel :=
  nexts 7 ++ .manager .readEof :: nexts 2 ++ [.scheduler .lock]

theorem round_bounded_lockedRound :
    ∃ s t, Lts.run (step 3) (init 3 fun _ => 0) (registerRun 4 ++ [.manager (.select {4} ∅)]) = some s ∧
      Lts.run (Lts.restrict (step 3) inRound) s lockedRound = some t ∧ t.schedulerLocked = true ∧
      lockedRound.countP ofManager ≤ 4 * s.mem.queries.live.card + 20 * t.select.nfds + 11 ∧
      ∃ (ls' : List SchedulerLabel) (u : Server) (l : ManagerLabel) (v : Server), ls'.length ≤ 3 ∧
        Lts.run (step 3) t (ls'.map .scheduler) = some u ∧
        Lts.restrict (step 3) inRound u (.manager l) = some v := by
  obtain ⟨s, hs, hp⟩ := Lts.exists_run_of_map (step 3) (init 3 fun _ => 0)
    (registerRun 4 ++ [.manager (.select {4} ∅)])
    (fun s => (Lts.run (Lts.restrict (step 3) inRound) s lockedRound).map (fun t =>
      decide (t.schedulerLocked = true ∧ t.running = true ∧ t.manager.inCall = false)) == some true)
    (by decide)
  obtain ⟨t, hround, hp⟩ := Lts.exists_run_of_map _ _ _ _ (eq_of_beq hp)
  obtain ⟨hlock, hrunning, hcall⟩ := of_decide_eq_true hp
  obtain ⟨hcount, hnext⟩ := round_bounded ⟨_, hs⟩ hround
  exact ⟨s, t, hs, hround, hlock, hcount, hnext hrunning hcall⟩

/-! ## The listening socket in `xfds` -/

/-- The listening socket is in `xfds`, and this has still to be found. -/
def Ending (am : ℕ) (s : Server) : Prop :=
  am ∈ s.select.xfds ∧ (s.manager = .accept ∨ s.manager = .listenError)

/-- The test of the listening socket cannot be passed. -/
theorem Ending.step (hE : Ending am s) {l : ServerLabel} (h : Server.step am s l = some t) :
    Ending am t ∧ t.hist.received = s.hist.received := by
  obtain ⟨hx, hpc⟩ := hE
  have hreceived : (∀ chunk, l ≠ .manager (.read chunk)) → t.hist.received = s.hist.received :=
    fun hl => (hist_of_not_read h hl).1
  cases l with
  | scheduler l =>
    obtain ⟨hsel, hman⟩ := schedulerStep_select (step_scheduler h).2
    exact ⟨⟨by rwa [hsel], by rwa [hman]⟩, hreceived (by simp)⟩
  | manager l =>
    have hs := (step_manager h).2
    rcases hpc with hpc | hpc
    · cases l <;> simp only [managerStep, managerNext, hpc, reduceCtorEq] at hs
      case next =>
        split at hs <;> cases hs
        exact ⟨⟨hx, .inr rfl⟩, rfl⟩
      case accept newfd =>
        split at hs <;> cases hs
        exact ⟨⟨hx, .inr rfl⟩, rfl⟩
      case acceptError =>
        split at hs <;> cases hs
        exact ⟨⟨hx, .inl hpc⟩, rfl⟩
    · cases l <;> simp only [managerStep, managerNext, hpc, reduceCtorEq] at hs
      rw [if_pos hx] at hs
      cases hs
      exact ⟨⟨hx, .inr hpc⟩, rfl⟩

theorem Ending.reachable (hE : Ending am s) (h : Lts.Reachable (Server.step am) s t) :
    Ending am t ∧ t.hist.received = s.hist.received :=
  h.invariant (I := fun t => Ending am t ∧ t.hist.received = s.hist.received) ⟨hE, rfl⟩
    fun _ _ _ ⟨hE, hreceived⟩ hs => ⟨(hE.step hs).1, (hE.step hs).2.trans hreceived⟩

/-- Only before the test of the listening socket can it be in `xfds`. -/
theorem ending_of_reachable (h : Lts.Reachable (Server.step am) (init am msg) s) (hx : am ∈ s.select.xfds) :
    Ending am s := by
  refine h.invariant (I := fun s => am ∈ s.select.xfds → Ending am s) (by simp [init]) ?_ hx
  intro s l t hI hs hx
  have hselect : s.manager = .select ∨ t.select.xfds = s.select.xfds := by
    cases l with
    | scheduler l => exact .inr (by rw [(schedulerStep_select (step_scheduler hs).2).1])
    | manager l =>
      cases managerStep_turn (step_manager hs).2 with
      | select _ _ _ hpc => exact .inl hpc
      | accept _ _ _ _ _ _ sel | pass _ _ _ _ sel | readable _ _ _ _ _ sel | exceptional _ _ _ _ _ sel
      | hold _ _ _ _ sel | release _ _ _ sel | teardown _ _ _ _ _ sel | close _ _ _ _ sel | exit _ sel =>
        exact .inr (by rw [sel])
  by_cases hold : am ∈ s.select.xfds
  · exact ((hI hold).step hs).1
  · have hpc := hselect.resolve_right fun heq => hold (heq ▸ hx)
    cases l with
    | scheduler l => exact absurd ((schedulerStep_select (step_scheduler hs).2).1 ▸ hx) hold
    | manager l =>
      refine ⟨hx, .inl ?_⟩
      have hs := (step_manager hs).2
      cases l <;> simp only [managerStep, managerNext, hpc, reduceCtorEq] at hs
      case select =>
        split at hs <;> cases hs
        rfl
      case selectError =>
        cases hs
        rfl

/-- The daemon comes back to `select` exactly if the listening socket is not in `xfds`. There it is after every
    `select` that fails, so that no client is read any more. -/
theorem select_again_iff (h : Lts.Reachable (Server.step am) (init am msg) s) (hrun : s.running = true) :
    ((∃ t, Lts.Reachable (Server.step am) s t ∧ t.manager = .select) ↔ am ∉ s.select.xfds) ∧
      ∀ t u, Server.step am s (.manager .selectError) = some t → Lts.Reachable (Server.step am) t u →
        u.manager ≠ .select ∧ u.hist.received = s.hist.received := by
  obtain ⟨hI, hF, -⟩ := registeredOpen_of_reachable h
  have hnever : ∀ {t u}, Ending am t → Lts.Reachable (Server.step am) t u → u.manager ≠ .select := by
    intro t u hE hu hsel
    rcases (hE.reachable hu).1.2 with hpc | hpc <;> rw [hpc] at hsel <;> cases hsel
  constructor
  · constructor
    · rintro ⟨t, ht, hsel⟩ hx
      exact hnever (ending_of_reachable h hx) ht hsel
    · intro hx
      obtain ⟨t, ht, hsel⟩ := hI.reaches_select hF hrun hx
      exact ⟨t, Lts.Reachable.of_restrict ht, hsel⟩
  · intro t u hs hu
    have hE : Ending am t ∧ t.hist.received = s.hist.received := by
      have hs := (step_manager hs).2
      simp only [managerStep] at hs
      split at hs <;> cases hs
      exact ⟨⟨(hF.managed am).mpr (.inl rfl), .inl rfl⟩, rfl⟩
    exact ⟨hnever hE.1 hu, (hE.1.reachable hu).2.trans hE.2⟩

/-- A client has registered a query, and `select` fails. -/
theorem select_again_iff_registerRun :
    ∃ s t, Lts.run (Server.step 3) (init 3 fun _ => 0) (registerRun 4) = some s ∧
      (∃ t, Lts.Reachable (Server.step 3) s t ∧ t.manager = .select) ∧
      Server.step 3 s (.manager .selectError) = some t ∧
      ∀ u, Lts.Reachable (Server.step 3) t u → u.manager ≠ .select ∧ u.hist.received 0 = registerMsg := by
  obtain ⟨s, hrun, hp⟩ := Lts.exists_run_of_map (Server.step 3) (init 3 fun _ => 0) (registerRun 4)
    (fun s => decide (s.running = true ∧ 3 ∉ s.select.xfds ∧ s.hist.received 0 = registerMsg) &&
      (Server.step 3 s (.manager .selectError)).isSome) (by decide)
  obtain ⟨hp, hs⟩ := Bool.and_eq_true_iff.mp hp
  obtain ⟨hrunning, hx, hreceived⟩ := of_decide_eq_true hp
  obtain ⟨t, hs⟩ := Option.isSome_iff_exists.mp hs
  obtain ⟨hagain, hfailed⟩ := select_again_iff ⟨_, hrun⟩ hrunning
  refine ⟨s, t, hrun, hagain.mpr hx, hs, fun u hu => ?_⟩
  obtain ⟨hne, heq⟩ := hfailed t u hs hu
  exact ⟨hne, by rw [heq, hreceived]⟩

end Server

end Afdx
