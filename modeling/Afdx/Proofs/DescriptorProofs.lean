import Afdx.Proofs.ReplyProofs

/-!
# Descriptors

The descriptors that `application_manager` has in `managed_fds` are the listening socket and the open
connections, and only open connections have anything registered. The copies `rfds` and `xfds` become stale
as descriptors are closed: where a descriptor is closed twice, it is because the error of a `read` falls
through to the end of file, or because a descriptor closed in the first loop is still in `xfds`.
-/

namespace Afdx

/-- The client that a query is unscheduled for, and where it is torn down, if it is. -/
def Caller.hand : Caller → ℕ × Option Teardown
  | unregisterQuery fd => (fd, none)
  | unregisterApplication fd _ site => (fd, some site)

namespace ManagerPc

/-- The client in hand, and where it is torn down, if it is. -/
def hand : ManagerPc → Option (ℕ × Option Teardown)
  | .read fd | .serve fd _ | .write fd _ _ | .registerNode fd _ _ | .schedule fd _ _ _
  | .storeHandler fd _ _ _ | .unchainQuery fd _ => some (fd, none)
  | .unchainApp fd site | .dropLoop fd _ _ site | .freeApp fd _ site | .close fd site =>
    some (fd, some site)
  | .removeNode _ _ caller | .freeNode _ _ caller | .freeQuery _ caller => some caller.hand
  | _ => none

/-- The first descriptor that the first loop has still to look at in this round. -/
def readsFrom (pc : ManagerPc) : Option ℕ :=
  match pc with
  | .accept | .listenError => some 0
  | .readLoop fd => some fd
  | pc => pc.hand.bind fun h => if h.2 = some .exceptional then none else some (h.1 + 1)

/-- The first descriptor that the second loop has still to look at in this round. -/
def exceptsFrom (pc : ManagerPc) : Option ℕ :=
  match pc with
  | .accept | .listenError | .readLoop _ => some 0
  | .exceptLoop fd => some fd
  | pc => pc.hand.map fun h => if h.2 = some .exceptional then h.1 + 1 else 0

variable {pc : ManagerPc} {fd : ℕ} {site : Option Teardown}

theorem readsFrom_of_hand (h : pc.hand = some (fd, site)) :
    pc.readsFrom = if site = some .exceptional then none else some (fd + 1) := by
  have heq : pc.readsFrom =
      pc.hand.bind fun h => if h.2 = some .exceptional then none else some (h.1 + 1) := by
    cases pc <;> first | rfl | cases h
  rw [heq, h]
  rfl

theorem exceptsFrom_of_hand (h : pc.hand = some (fd, site)) :
    pc.exceptsFrom = if site = some .exceptional then some (fd + 1) else some 0 := by
  have heq : pc.exceptsFrom = pc.hand.map fun h => if h.2 = some .exceptional then h.1 + 1 else 0 := by
    cases pc <;> first | rfl | cases h
  rw [heq, h]
  exact apply_ite some ..

end ManagerPc

namespace Server

variable {am : ℕ} {s t : Server} {msg : MsgBytes}

/-- What a step of `application_manager` does in its round, and to the descriptors. -/
inductive Turn (am : ℕ) (s : Server) (l : ManagerLabel) (t : Server) : Prop
  /-- `select` returns, or fails. -/
  | select (rfds xfds : Finset ℕ) (fdcnt : ℤ) (hpc : s.manager = .select)
      (hr : rfds ⊆ s.select.managedFds) (hx : xfds ⊆ s.select.managedFds) (pc : t.manager = .accept)
      (sel : t.select = { s.select with rfds := rfds, xfds := xfds, fdcnt := fdcnt })
      (conns : t.conns = s.conns)
  | accept (newfd : ℕ) (hl : l = .accept newfd) (hpc : s.manager = .accept)
      (hnone : s.conns newfd = none) (hne : newfd ≠ am) (pc : t.manager = .listenError)
      (sel : t.select = { s.select with
        managedFds := insert newfd s.select.managedFds
        fdcnt := s.select.fdcnt - 1
        nfds := if newfd ≥ s.select.nfds then newfd + 1 else s.select.nfds })
      (conns : t.conns = Function.update s.conns newfd (some s.accepted))
  /-- On with no client in hand. -/
  | pass (hpc : s.manager.hand = none) (pc : t.manager.hand = none)
      (reads : ∀ b ∈ t.manager.readsFrom, ∃ a ∈ s.manager.readsFrom, a ≤ b)
      (excepts : ∀ b ∈ t.manager.exceptsFrom, ∃ a ∈ s.manager.exceptsFrom, a ≤ b)
      (sel : t.select = s.select) (conns : t.conns = s.conns)
  /-- A client is readable. -/
  | readable (fd : ℕ) (hpc : s.manager = .readLoop fd) (hfd : fd ∈ s.select.rfds) (hne : fd ≠ am)
      (pc : t.manager = .read fd) (sel : t.select = { s.select with fdcnt := s.select.fdcnt - 1 })
      (conns : t.conns = s.conns)
  /-- A client has an exceptional condition. -/
  | exceptional (fd : ℕ) (hpc : s.manager = .exceptLoop fd) (hfd : fd ∈ s.select.xfds) (hne : fd ≠ am)
      (pc : t.manager = .unchainApp fd .exceptional)
      (sel : t.select = { s.select with fdcnt := s.select.fdcnt - 1 }) (conns : t.conns = s.conns)
  /-- On with the client in hand. -/
  | hold (hand : ℕ × Option Teardown) (hpc : s.manager.hand = some hand) (pc : t.manager.hand = some hand)
      (hread : ∀ fd, t.manager ≠ .read fd) (sel : t.select = s.select) (conns : t.conns = s.conns)
  /-- The message of the client has been processed. -/
  | release (fd : ℕ) (hpc : s.manager.hand = some (fd, none)) (pc : t.manager = .readLoop (fd + 1))
      (sel : t.select = s.select) (conns : t.conns = s.conns)
  /-- `read` has failed, or has returned 0. -/
  | teardown (fd : ℕ) (site : Teardown) (hpc : s.manager = .read fd)
      (hl : l = .readError ∧ site = .readError ∨ l = .readEof ∧ site = .closed)
      (pc : t.manager = .unchainApp fd site) (sel : t.select = s.select) (conns : t.conns = s.conns)
  | close (fd : ℕ) (site : Teardown) (hpc : s.manager = .close fd site) (pc : t.manager = site.next fd)
      (sel : t.select = { s.select with managedFds := s.select.managedFds.erase fd })
      (conns : t.conns = Function.update s.conns fd none)
  /-- `exit(1)` -/
  | exit (pc : t.manager = s.manager) (sel : t.select = s.select) (conns : t.conns = s.conns)

theorem managerNext_turn (h : s.managerNext am = some t) : Turn am s .next t := by
  cases hpc : s.manager with
  | accept =>
    simp only [managerNext, hpc] at h
    split at h <;> cases h
    exact .pass (by rw [hpc]; rfl) rfl (by simp [hpc, ManagerPc.readsFrom])
      (by simp [hpc, ManagerPc.exceptsFrom]) rfl rfl
  | listenError =>
    simp only [managerNext, hpc] at h
    split at h <;> cases h
    · exact .exit rfl rfl rfl
    · exact .pass (by rw [hpc]; rfl) rfl (by simp [hpc, ManagerPc.readsFrom])
        (by simp [hpc, ManagerPc.exceptsFrom]) rfl rfl
  | readLoop fd =>
    simp only [managerNext, hpc] at h
    split at h
    · split at h <;> [rename_i hok; skip] <;> cases h
      · exact .readable fd hpc hok.1 hok.2 rfl rfl rfl
      · exact .pass (by rw [hpc]; rfl) rfl (by simp [hpc, ManagerPc.readsFrom])
          (by simp [hpc, ManagerPc.exceptsFrom]) rfl rfl
    · cases h
      exact .pass (by rw [hpc]; rfl) rfl (by simp [ManagerPc.readsFrom, ManagerPc.hand])
        (by simp [hpc, ManagerPc.exceptsFrom]) rfl rfl
  | exceptLoop fd =>
    simp only [managerNext, hpc] at h
    split at h
    · split at h <;> [rename_i hok; skip] <;> cases h
      · exact .exceptional fd hpc hok.1 hok.2 rfl rfl rfl
      · exact .pass (by rw [hpc]; rfl) rfl (by simp [ManagerPc.readsFrom, ManagerPc.hand])
          (by simp [hpc, ManagerPc.exceptsFrom]) rfl rfl
    · cases h
      exact .pass (by rw [hpc]; rfl) rfl (by simp [ManagerPc.readsFrom, ManagerPc.hand])
        (by simp [ManagerPc.exceptsFrom, ManagerPc.hand]) rfl rfl
  | registerNode fd query interval =>
    simp only [managerNext, hpc] at h
    obtain ⟨_, -, rfl⟩ := Option.map_eq_some_iff.mp h
    exact .hold (fd, none) (by rw [hpc]; rfl) rfl (by simp) rfl rfl
  | storeHandler fd app node handler =>
    simp only [managerNext, hpc] at h
    cases h
    exact .release fd (by rw [hpc]; rfl) rfl rfl rfl
  | unchainQuery fd reqId =>
    simp only [managerNext, hpc] at h
    split at h
    · cases h
    · cases h
      exact .release fd (by rw [hpc]; rfl) rfl rfl rfl
    · obtain ⟨_, -, rfl⟩ := Option.map_eq_some_iff.mp h
      exact .hold (fd, none) (by rw [hpc]; rfl) rfl (by simp) rfl rfl
  | unchainApp fd site =>
    simp only [managerNext, hpc] at h
    split at h <;> cases h <;> exact .hold (fd, some site) (by rw [hpc]; rfl) rfl (by simp) rfl rfl
  | dropLoop fd app node site =>
    simp only [managerNext, hpc] at h
    split at h
    · cases h
      exact .hold (fd, some site) (by rw [hpc]; rfl) rfl (by simp) rfl rfl
    · obtain ⟨_, -, rfl⟩ := Option.map_eq_some_iff.mp h
      exact .hold (fd, some site) (by rw [hpc]; rfl) rfl (by simp) rfl rfl
  | removeNode node handler caller =>
    simp only [managerNext, hpc] at h
    split at h <;> cases h
    exact .hold caller.hand (by rw [hpc]; rfl) rfl (by simp) rfl rfl
  | freeNode node handler caller =>
    simp only [managerNext, hpc] at h
    cases h
    exact .hold caller.hand (by rw [hpc]; rfl) rfl (by simp) rfl rfl
  | freeQuery node caller =>
    simp only [managerNext, hpc] at h
    cases h
    cases caller with
    | unregisterQuery fd => exact .release fd (by rw [hpc]; rfl) rfl rfl rfl
    | unregisterApplication fd app site =>
      exact .hold (fd, some site) (by rw [hpc]; rfl) rfl (by simp) rfl rfl
  | freeApp fd app site =>
    simp only [managerNext, hpc] at h
    cases h
    exact .hold (fd, some site) (by rw [hpc]; rfl) rfl (by simp) rfl rfl
  | close fd site =>
    simp only [managerNext, hpc] at h
    cases h
    exact .close fd site hpc rfl rfl rfl
  | select | read _ | serve _ _ | write _ _ _ | schedule _ _ _ _ => simp [managerNext, hpc] at h

theorem managerStep_turn {l : ManagerLabel} (h : managerStep am s l = some t) : Turn am s l t := by
  cases l with
  | next => exact managerNext_turn h
  | select rfds xfds =>
    simp only [managerStep] at h
    split at h <;> [rename_i hpc; cases h]
    split at h <;> [rename_i hsub; skip] <;> cases h
    exact .select rfds xfds _ hpc hsub.1 hsub.2 rfl rfl rfl
  | selectError =>
    simp only [managerStep] at h
    split at h <;> [rename_i hpc; skip] <;> cases h
    exact .select _ _ _ hpc subset_rfl subset_rfl rfl rfl rfl
  | accept newfd =>
    simp only [managerStep] at h
    split at h <;> [rename_i hpc; cases h]
    split at h <;> [rename_i hacc; skip] <;> cases h
    exact .accept newfd rfl hpc hacc.2.1 hacc.2.2 rfl rfl rfl
  | read chunk =>
    simp only [managerStep] at h
    split at h <;> [rename_i fd hpc; cases h]
    split at h <;> [skip; cases h]
    split at h <;> cases h
    have hhand : s.manager.hand = some (fd, none) := by rw [hpc]; rfl
    rcases (s.packetMsg.overlay chunk).decode.operation with _ | (_ | _ | _)
    · exact .release fd hhand rfl rfl rfl
    all_goals exact .hold _ hhand rfl (by simp [dispatch]) rfl rfl
  | readEof =>
    simp only [managerStep] at h
    split at h <;> [rename_i fd hpc; skip] <;> cases h
    exact .teardown fd .closed hpc (.inr ⟨rfl, rfl⟩) rfl rfl rfl
  | readError =>
    simp only [managerStep] at h
    split at h <;> [rename_i fd hpc; skip] <;> cases h
    exact .teardown fd .readError hpc (.inl ⟨rfl, rfl⟩) rfl rfl rfl
  | serve snap =>
    simp only [managerStep] at h
    split at h <;> [rename_i hpc; skip] <;> cases h
    exact .hold _ (by rw [hpc]; rfl) rfl (by simp) rfl rfl
  | write =>
    simp only [managerStep] at h
    split at h <;> [rename_i fd query snap hpc; cases h]
    obtain ⟨_, -, rfl⟩ := Option.map_eq_some_iff.mp h
    exact .release fd (by rw [hpc]; rfl) rfl rfl rfl
  | schedule now =>
    simp only [managerStep] at h
    split at h <;> [rename_i fd app node interval hpc; cases h]
    split at h <;> [cases h; skip]
    obtain ⟨_, -, rfl⟩ := Option.map_eq_some_iff.mp h
    exact .hold (fd, none) (by rw [hpc]; rfl) rfl (by simp) rfl rfl
  | acceptError | writeError | mallocError =>
    simp only [managerStep] at h
    (repeat' split at h) <;> cases h <;> exact .exit rfl rfl rfl

theorem schedulerStep_select {l : SchedulerLabel} (h : schedulerStep s l = some t) :
    t.select = s.select ∧ t.manager = s.manager := by
  cases l <;> simp only [schedulerStep, schedulerLoad] at h <;> (repeat' split at h) <;> first
    | (cases h; exact ⟨rfl, rfl⟩)
    | (obtain ⟨_, -, rfl⟩ := Option.map_eq_some_iff.mp h; exact ⟨rfl, rfl⟩)
    | cases h

/-! ## Registrations and connections -/

/-- The descriptors managed are the listening socket and the open connections. Those still to be read in
    this round are managed, and so is the client whose message is processed. -/
structure Fds (am : ℕ) (s : Server) : Prop where
  managed : ∀ fd, fd ∈ s.select.managedFds ↔ fd = am ∨ (s.conns fd).isSome
  listening : s.conns am = none
  nfds : ∀ fd ∈ s.select.managedFds, fd < s.select.nfds
  reads : ∀ b ∈ s.manager.readsFrom, ∀ fd ∈ s.select.rfds, b ≤ fd → fd ∈ s.select.managedFds
  hand : ∀ fd site, s.manager.hand = some (fd, site) →
    fd ≠ am ∧ (site = none → fd ∈ s.select.managedFds)

theorem fds_init (am : ℕ) (msg : MsgBytes) : Fds am (init am msg) where
  managed := by simp [init]
  listening := rfl
  nfds := by simp [init]
  reads := by simp [init]
  hand := by simp [init, ManagerPc.hand]

/-- A step after which the same descriptors are managed. -/
theorem Fds.of_same (hF : Fds am s) (hm : t.select.managedFds = s.select.managedFds)
    (hn : t.select.nfds = s.select.nfds) (hc : t.conns = s.conns)
    (hreads : ∀ b ∈ t.manager.readsFrom, ∀ fd ∈ t.select.rfds, b ≤ fd → fd ∈ s.select.managedFds)
    (hhand : ∀ fd site, t.manager.hand = some (fd, site) →
      fd ≠ am ∧ (site = none → fd ∈ s.select.managedFds)) : Fds am t where
  managed fd := by rw [hm, hc, hF.managed]
  listening := by rw [hc, hF.listening]
  nfds := by
    rw [hm, hn]
    exact hF.nfds
  reads := by rwa [hm]
  hand := by rwa [hm]

/-- What the first loop has still to look at after the client in hand. -/
theorem Fds.reads_of_hand (hF : Fds am s) {fd : ℕ} {site : Option Teardown}
    (h : s.manager.hand = some (fd, site)) (hsite : site ≠ some .exceptional) :
    ∀ f ∈ s.select.rfds, fd + 1 ≤ f → f ∈ s.select.managedFds :=
  hF.reads (fd + 1) (by rw [ManagerPc.readsFrom_of_hand h, if_neg hsite]; rfl)

theorem Fds.turn (hF : Fds am s) {l : ManagerLabel} (h : Turn am s l t) : Fds am t := by
  cases h with
  | select rfds xfds fdcnt hpc hr hx pc sel conns =>
    refine hF.of_same (by rw [sel]) (by rw [sel]) conns (fun b _ fd hfd _ => ?_) (by simp [pc, ManagerPc.hand])
    rw [sel] at hfd
    exact hr hfd
  | accept newfd hl hpc hnone hne pc sel conns =>
    refine ⟨fun fd => ?_, ?_, fun fd hfd => ?_, fun b _ fd hfd _ => ?_, by simp [pc, ManagerPc.hand]⟩
    · rw [sel, conns, Finset.mem_insert, hF.managed]
      by_cases hfd : fd = newfd
      · simp [hfd]
      · simp [hfd]
    · rw [conns, Function.update_of_ne hne.symm, hF.listening]
    · rw [sel] at hfd ⊢
      rcases Finset.mem_insert.mp hfd with rfl | hfd
      · simp only
        split <;> omega
      · have hlt := hF.nfds fd hfd
        simp only
        split <;> omega
    · rw [sel] at hfd ⊢
      refine Finset.mem_insert_of_mem (hF.reads 0 (by rw [hpc]; rfl) fd hfd (Nat.zero_le _))
  | pass hpc pc reads excepts sel conns =>
    refine hF.of_same (by rw [sel]) (by rw [sel]) conns (fun b hb fd hfd hle => ?_) (by simp [pc])
    obtain ⟨a, ha, hab⟩ := reads b hb
    exact hF.reads a ha fd (sel ▸ hfd) (hab.trans hle)
  | readable fd hpc hfd hne pc sel conns =>
    have hreads := hF.reads fd (by rw [hpc]; rfl)
    have hhand : t.manager.hand = some (fd, none) := by rw [pc]; rfl
    refine hF.of_same (by rw [sel]) (by rw [sel]) conns (fun b hb f hf hle => ?_) (fun f site hf => ?_)
    · rw [ManagerPc.readsFrom_of_hand hhand] at hb
      obtain rfl := Option.some.inj hb
      exact hreads f (by rwa [sel] at hf) (Nat.le_of_succ_le hle)
    · obtain ⟨rfl, -⟩ := Prod.mk.inj (Option.some.inj (hhand.symm.trans hf))
      exact ⟨hne, fun _ => hreads fd hfd le_rfl⟩
  | exceptional fd hpc hfd hne pc sel conns =>
    refine hF.of_same (by rw [sel]) (by rw [sel]) conns (by simp [pc, ManagerPc.readsFrom, ManagerPc.hand])
      (fun f site hf => ?_)
    rw [pc] at hf
    cases hf
    exact ⟨hne, fun h => by cases h⟩
  | hold hand hpc pc hread sel conns =>
    obtain ⟨fd, site⟩ := hand
    refine hF.of_same (by rw [sel]) (by rw [sel]) conns (fun b hb => ?_) (fun f site' hf => ?_)
    · rw [sel]
      refine hF.reads b ?_
      rwa [ManagerPc.readsFrom_of_hand hpc, ← ManagerPc.readsFrom_of_hand pc]
    · exact hF.hand f site' (hpc.trans (pc.symm.trans hf))
  | release fd hpc pc sel conns =>
    refine hF.of_same (by rw [sel]) (by rw [sel]) conns (fun b hb => ?_) (by simp [pc, ManagerPc.hand])
    rw [pc] at hb
    obtain rfl := Option.some.inj hb
    rw [sel]
    exact hF.reads_of_hand hpc (by simp)
  | teardown fd site hpc hl pc sel conns =>
    have hhand : s.manager.hand = some (fd, none) := by rw [hpc]; rfl
    have hhand' : t.manager.hand = some (fd, some site) := by rw [pc]; rfl
    refine hF.of_same (by rw [sel]) (by rw [sel]) conns (fun b hb => ?_) (fun f site' hf => ?_)
    · rw [ManagerPc.readsFrom_of_hand hhand'] at hb
      split at hb <;> cases hb
      rw [sel]
      exact hF.reads_of_hand hhand (by simp)
    · obtain ⟨rfl, rfl⟩ := Prod.mk.inj (Option.some.inj (hhand'.symm.trans hf))
      exact ⟨(hF.hand fd none hhand).1, fun h => by cases h⟩
  | close fd site hpc pc sel conns =>
    have hhand : s.manager.hand = some (fd, some site) := by rw [hpc]; rfl
    have hne := (hF.hand fd _ hhand).1
    refine ⟨fun f => ?_, ?_, fun f hf => ?_, fun b hb f hf hle => ?_, fun f site' hf => ?_⟩
    · rw [sel, conns, Finset.mem_erase, hF.managed]
      by_cases hf : f = fd
      · simp [hf, hne]
      · simp [hf]
    · rw [conns, Function.update_of_ne hne.symm, hF.listening]
    · rw [sel] at hf ⊢
      exact hF.nfds f (Finset.mem_of_mem_erase hf)
    · rw [sel] at hf ⊢
      have hb' : b = fd + 1 ∧ site ≠ .exceptional := by
        rw [pc] at hb
        cases site <;> cases hb <;> exact ⟨rfl, by simp⟩
      obtain ⟨rfl, hsite⟩ := hb'
      exact Finset.mem_erase.mpr ⟨by omega, hF.reads_of_hand hhand (by simpa using hsite) f hf hle⟩
    · rw [pc] at hf
      cases site <;> cases hf
      exact ⟨hne, fun h => by cases h⟩
  | exit pc sel conns =>
    refine hF.of_same (by rw [sel]) (by rw [sel]) conns ?_ ?_
    · rw [pc, sel]
      exact hF.reads
    · rw [pc]
      exact hF.hand

theorem Fds.step (hF : Fds am s) {l : ServerLabel} (h : step am s l = some t) : Fds am t := by
  cases l with
  | manager l => exact hF.turn (managerStep_turn (step_manager h).2)
  | scheduler l =>
    have hs := (step_scheduler h).2
    obtain ⟨hsel, hpc⟩ := schedulerStep_select hs
    refine hF.of_same (by rw [hsel]) (by rw [hsel]) (schedulerStep_conns hs).1 ?_ ?_
    · rw [hpc, hsel]
      exact hF.reads
    · rw [hpc]
      exact hF.hand

/-- Everything registered belongs to an open connection. -/
def RegisteredOpen (am : ℕ) (s : Server) : Prop :=
  ∀ a ∈ s.mem.appList, (s.mem.apps.cell a).fd ∈ s.select.managedFds ∧ (s.mem.apps.cell a).fd ≠ am

/-- `close` comes after `unregister_application`, and `register_query` is called for a client in hand. -/
theorem RegisteredOpen.step (hR : RegisteredOpen am s) (hF : Fds am s) (hI : Inv s) {l : ServerLabel}
    (h : step am s l = some t) : RegisteredOpen am t := by
  obtain ⟨S, hw, hinv⟩ := hI
  unfold RegisteredOpen at hR ⊢
  rw [hw.appList_eq] at hR
  cases l with
  | manager l =>
    have hs := (step_manager h).2
    obtain ⟨S', hm⟩ := managerStep_moved hw hinv hs
    have hturn := managerStep_turn hs
    rw [hm.wf.appList_eq]
    intro a ha
    -- the client was managed before the step, and its connection is not closed by it
    have hold : (t.mem.apps.cell a).fd ∈ s.select.managedFds ∧ (t.mem.apps.cell a).fd ≠ am ∧
        ∀ fd site, s.manager = .close fd site → (t.mem.apps.cell a).fd ≠ fd := by
      rcases hm.apps a ha with haS | ⟨query, interval, hpc⟩
      · rw [hm.ext.fd a (s.mem.apps.live_lt a (hw.appLive a haS))]
        refine ⟨(hR a haS).1, (hR a haS).2, fun fd site hpc => ?_⟩
        rw [hpc] at hinv
        exact hinv.2.2 a haS
      · obtain ⟨hne, hmem⟩ := hF.hand (t.mem.apps.cell a).fd none (by rw [hpc]; rfl)
        exact ⟨hmem rfl, hne, fun fd site hpc' => by rw [hpc] at hpc'; cases hpc'⟩
    refine ⟨?_, hold.2.1⟩
    cases hturn with
    | accept newfd _ _ _ _ _ sel =>
      rw [sel]
      exact Finset.mem_insert_of_mem hold.1
    | close fd site hpc _ sel =>
      rw [sel]
      exact Finset.mem_erase.mpr ⟨hold.2.2 fd site hpc, hold.1⟩
    | select _ _ _ _ _ _ _ sel | pass _ _ _ _ sel | readable _ _ _ _ _ sel | exceptional _ _ _ _ _ sel
    | hold _ _ _ _ sel | release _ _ _ sel | teardown _ _ _ _ _ sel | exit _ sel =>
      rw [sel]
      exact hold.1
  | scheduler l =>
    have hs := (step_scheduler h).2
    obtain ⟨-, S', hr⟩ := schedulerStep_rearmed hw hinv hs
    rw [hr.wf.appList_eq, hr.registered, (schedulerStep_select hs).1, hr.apps]
    exact hR

theorem registeredOpen_of_reachable (h : Lts.Reachable (Server.step am) (init am msg) s) :
    Inv s ∧ Fds am s ∧ RegisteredOpen am s :=
  h.invariant (I := fun s => Inv s ∧ Fds am s ∧ RegisteredOpen am s)
    ⟨inv_init am msg, fds_init am msg, by simp [RegisteredOpen, init, Mem.appList, Mem.init, Links.collect]⟩
    fun _ _ _ ⟨hI, hF, hR⟩ hs => ⟨hI.step hs, hF.step hs, hR.step hF hI hs⟩

/-- The step is not a return of `select`, which begins the next round. -/
def inRound (_ : Server) : ServerLabel → Bool
  | .manager (.select _ _) | .manager .selectError => false
  | _ => true

/-- `read` does not fail, and it returns 0 only for a client that has no exceptional condition in the same
    round. -/
def closesOnce (s : Server) : ServerLabel → Bool
  | .manager .readError => false
  | .manager .readEof =>
    match s.manager with
    | .read fd => fd ∉ s.select.xfds
    | _ => true
  | _ => true

/-- In the runs that close every connection once: the clients that the second loop has still to look at are
    managed, and so is the client that is torn down. -/
structure ClosesOnce (s : Server) : Prop where
  excepts : ∀ b ∈ s.manager.exceptsFrom, ∀ fd ∈ s.select.xfds, b ≤ fd → fd ∈ s.select.managedFds
  teardown : ∀ fd site, s.manager.hand = some (fd, some site) → fd ∈ s.select.managedFds ∧
    site ≠ .readError ∧ (site = .closed → fd ∉ s.select.xfds)

/-- What the second loop has still to look at after the client in hand. -/
theorem ClosesOnce.excepts_of_hand (hC : ClosesOnce s) {fd b : ℕ} {site : Option Teardown}
    (h : s.manager.hand = some (fd, site)) (hb : b = if site = some .exceptional then fd + 1 else 0) :
    ∀ f ∈ s.select.xfds, b ≤ f → f ∈ s.select.managedFds := by
  refine hC.excepts b ?_
  rw [ManagerPc.exceptsFrom_of_hand h, hb]
  split <;> rfl

theorem ClosesOnce.turn (hC : ClosesOnce s) {l : ManagerLabel} (hok : closesOnce s (.manager l) = true)
    (hF : Fds am s) (h : Turn am s l t) : ClosesOnce t := by
  cases h with
  | select rfds xfds fdcnt hpc hr hx pc sel conns =>
    refine ⟨fun b _ fd hfd _ => ?_, by simp [pc, ManagerPc.hand]⟩
    rw [sel] at hfd ⊢
    exact hx hfd
  | accept newfd hl hpc hnone hne pc sel conns =>
    refine ⟨fun b _ fd hfd _ => ?_, by simp [pc, ManagerPc.hand]⟩
    rw [sel] at hfd ⊢
    exact Finset.mem_insert_of_mem (hC.excepts 0 (by rw [hpc]; rfl) fd hfd (Nat.zero_le _))
  | pass hpc pc reads excepts sel conns =>
    refine ⟨fun b hb fd hfd hle => ?_, by simp [pc]⟩
    obtain ⟨a, ha, hab⟩ := excepts b hb
    rw [sel] at hfd ⊢
    exact hC.excepts a ha fd hfd (hab.trans hle)
  | readable fd hpc hfd hne pc sel conns =>
    refine ⟨fun b _ f hf _ => ?_, by simp [pc, ManagerPc.hand]⟩
    rw [sel] at hf ⊢
    exact hC.excepts 0 (by rw [hpc]; rfl) f hf (Nat.zero_le _)
  | exceptional fd hpc hfd hne pc sel conns =>
    have hexc := hC.excepts fd (by rw [hpc]; rfl)
    have hhand : t.manager.hand = some (fd, some .exceptional) := by rw [pc]; rfl
    refine ⟨fun b hb f hf hle => ?_, fun f site hf => ?_⟩
    · rw [ManagerPc.exceptsFrom_of_hand hhand] at hb
      obtain rfl := Option.some.inj hb
      rw [sel] at hf ⊢
      exact hexc f hf (Nat.le_of_succ_le hle)
    · rw [hhand] at hf
      cases hf
      rw [sel]
      exact ⟨hexc fd hfd le_rfl, by simp, by simp⟩
  | hold hand hpc pc hread sel conns =>
    obtain ⟨fd, site⟩ := hand
    refine ⟨fun b hb => ?_, fun f site' hf => ?_⟩
    · rw [sel]
      refine hC.excepts b ?_
      rwa [ManagerPc.exceptsFrom_of_hand hpc, ← ManagerPc.exceptsFrom_of_hand pc]
    · rw [sel]
      exact hC.teardown f site' (hpc.trans (pc.symm.trans hf))
  | release fd hpc pc sel conns =>
    refine ⟨fun b _ f hf _ => ?_, by simp [pc, ManagerPc.hand]⟩
    rw [sel] at hf ⊢
    exact hC.excepts_of_hand hpc rfl f hf (Nat.zero_le _)
  | teardown fd site hpc hl pc sel conns =>
    -- the client has been read from, and its connection is taken down for the first time
    have hhand : s.manager.hand = some (fd, none) := by rw [hpc]; rfl
    obtain ⟨rfl, rfl⟩ := hl.resolve_left (by rintro ⟨rfl, -⟩; simp [closesOnce] at hok)
    refine ⟨fun b _ f hf _ => ?_, fun f site hf => ?_⟩
    · rw [sel] at hf ⊢
      exact hC.excepts_of_hand hhand rfl f hf (Nat.zero_le _)
    · rw [pc] at hf
      cases hf
      rw [sel]
      refine ⟨(hF.hand fd none hhand).2 rfl, by simp, fun _ => ?_⟩
      simpa [closesOnce, hpc] using hok
  | close fd site hpc pc sel conns =>
    have hhand : s.manager.hand = some (fd, some site) := by rw [hpc]; rfl
    obtain ⟨-, hsite, hclosed⟩ := hC.teardown fd site hhand
    refine ⟨fun b hb f hf hle => ?_, fun f site' hf => ?_⟩
    · rw [sel] at hf ⊢
      rw [pc] at hb
      cases site with
      | readError => exact absurd rfl hsite
      | closed =>
        refine Finset.mem_erase.mpr ⟨?_, hC.excepts_of_hand hhand rfl f hf (Nat.zero_le _)⟩
        rintro rfl
        exact hclosed rfl hf
      | exceptional =>
        cases hb
        exact Finset.mem_erase.mpr ⟨by omega, hC.excepts_of_hand hhand rfl f hf hle⟩
    · rw [pc] at hf
      cases site <;> cases hf
      exact absurd rfl hsite
  | exit pc sel conns =>
    refine ⟨?_, ?_⟩
    · rw [pc, sel]
      exact hC.excepts
    · rw [pc, sel]
      exact hC.teardown

theorem ClosesOnce.step (hC : ClosesOnce s) (hF : Fds am s) {l : ServerLabel}
    (hok : closesOnce s l = true) (h : Server.step am s l = some t) : ClosesOnce t := by
  cases l with
  | manager l => exact hC.turn hok hF (managerStep_turn (step_manager h).2)
  | scheduler l =>
    obtain ⟨hsel, hpc⟩ := schedulerStep_select (step_scheduler h).2
    refine ⟨?_, ?_⟩
    · rw [hpc, hsel]
      exact hC.excepts
    · rw [hpc, hsel]
      exact hC.teardown

end Server

namespace Server

end Server

end Afdx
