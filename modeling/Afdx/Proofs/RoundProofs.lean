import Afdx.Lib.Scan
import Afdx.Proofs.DescriptorProofs
import Afdx.Proofs.FaultProofs

/-!
# A round of `application_manager`

`fdcnt` starts at the number of bits in `rfds` and `xfds`, goes down at `accept` and at every client found in
one of the two loops, and ends both loops when it reaches zero. It is always the number of descriptors
still ahead, so the loops end early only when nothing is ahead.
-/

namespace Afdx

namespace ManagerPc

/-- The descriptor that is about to be read. -/
def reading : ManagerPc → Option ℕ
  | .read fd => some fd
  | _ => none

/-- The descriptor that the second loop is about to close, at the end of its teardown. -/
def closing : ManagerPc → Option ℕ
  | .close fd .exceptional => some fd
  | _ => none

/-- The client that the second loop has in hand. -/
def inSecond (pc : ManagerPc) : Option ℕ :=
  pc.hand.bind fun h => if h.2 = some .exceptional then some h.1 else none

end ManagerPc

namespace Server

variable {am : ℕ} {s t : Server} {l : ManagerLabel}

/-- The descriptor that is read in this step. -/
def readBy (s : Server) : ServerLabel → Option ℕ
  | .manager _ => s.manager.reading
  | .scheduler _ => none

/-- The descriptor whose teardown in the second loop ends with this step. -/
def tornDownBy (s : Server) : ServerLabel → Option ℕ
  | .manager _ => s.manager.closing
  | .scheduler _ => none

/-- The new connection that is still to be accepted in this round. -/
def acceptsAhead (am : ℕ) (s : Server) : ℕ :=
  match s.manager with
  | .accept => if am ∈ s.select.rfds then 1 else 0
  | _ => 0

/-- The clients that the first loop has still to find in `rfds`. -/
def readsAhead (am : ℕ) (s : Server) : List ℕ :=
  s.manager.readsFrom.elim [] (Scan.rest (s.select.rfds.erase am))

/-- The clients that the second loop has still to find in `xfds`. -/
def exceptsAhead (am : ℕ) (s : Server) : List ℕ :=
  s.manager.exceptsFrom.elim [] (Scan.rest (s.select.xfds.erase am))

/-- The clients that have still to be read in this round. -/
def readsLeft (am : ℕ) (s : Server) : List ℕ := s.manager.reading.toList ++ s.readsAhead am

/-- The clients that the second loop has still to tear down in this round. -/
def exceptsLeft (am : ℕ) (s : Server) : List ℕ := s.manager.inSecond.toList ++ s.exceptsAhead am

/-- The invariant of a round in which the listening socket has no exceptional condition. -/
structure Round (am : ℕ) (s : Server) : Prop where
  rfds : ∀ fd ∈ s.select.rfds, fd < s.select.nfds
  xfds : ∀ fd ∈ s.select.xfds, fd < s.select.nfds
  listening : am ∉ s.select.xfds
  fdcnt : s.select.fdcnt =
    s.acceptsAhead am + (s.readsAhead am).length + (s.exceptsAhead am).length

/-- A step of a round: it reads and tears down what comes first in what is left. -/
structure RoundStep (am : ℕ) (s : Server) (l : ServerLabel) (t : Server) : Prop where
  round : Round am t
  reads : s.readsLeft am = (s.readBy l).toList ++ t.readsLeft am
  excepts : s.exceptsLeft am = (s.tornDownBy l).toList ++ t.exceptsLeft am

/-- What follows when the loops stand where they stood. -/
theorem RoundStep.of_same (hR : Round am s) {l : ServerLabel} (hr : t.select.rfds = s.select.rfds)
    (hx : t.select.xfds = s.select.xfds) (hn : s.select.nfds ≤ t.select.nfds)
    (hf : t.select.fdcnt + s.acceptsAhead am = s.select.fdcnt + t.acceptsAhead am)
    (hreads : t.manager.readsFrom = s.manager.readsFrom)
    (hexcepts : t.manager.exceptsFrom = s.manager.exceptsFrom)
    (hreading : s.manager.reading.toList = (s.readBy l).toList ++ t.manager.reading.toList)
    (hsecond : s.manager.inSecond.toList = (s.tornDownBy l).toList ++ t.manager.inSecond.toList) :
    RoundStep am s l t := by
  have hra : t.readsAhead am = s.readsAhead am := by rw [readsAhead, hreads, hr, readsAhead]
  have hxa : t.exceptsAhead am = s.exceptsAhead am := by rw [exceptsAhead, hexcepts, hx, exceptsAhead]
  refine ⟨⟨?_, ?_, ?_, ?_⟩, ?_, ?_⟩
  · rw [hr]
    exact fun fd hfd => (hR.rfds fd hfd).trans_le hn
  · rw [hx]
    exact fun fd hfd => (hR.xfds fd hfd).trans_le hn
  · rw [hx]
    exact hR.listening
  · have hcnt := hR.fdcnt
    rw [hra, hxa]
    omega
  · rw [readsLeft, readsLeft, hra, hreading, List.append_assoc]
  · rw [exceptsLeft, exceptsLeft, hxa, hsecond, List.append_assoc]

/-! ## Without a client in hand -/

theorem Round.accept (hR : Round am s) (hpc : s.manager = .accept) (h : managerStep am s l = some t) :
    RoundStep am s (.manager l) t := by
  cases l <;> simp only [managerStep, managerNext, hpc, reduceCtorEq] at h
  case next =>
    split at h <;> [cases h; rename_i hnot]
    obtain rfl := Option.some.inj h
    refine .of_same hR rfl rfl le_rfl ?_ ?_ ?_ ?_ ?_ <;>
      simp [hpc, acceptsAhead, hnot, readBy, tornDownBy, ManagerPc.readsFrom, ManagerPc.exceptsFrom,
        ManagerPc.reading, ManagerPc.closing, ManagerPc.inSecond, ManagerPc.hand]
  case accept newfd =>
    split at h <;> [rename_i hok; cases h]
    obtain rfl := Option.some.inj h
    refine .of_same hR rfl rfl ?_ ?_ ?_ ?_ ?_ ?_
    · simp only
      split <;> omega
    all_goals
      simp [hpc, acceptsAhead, hok.1, readBy, tornDownBy, ManagerPc.readsFrom, ManagerPc.exceptsFrom,
        ManagerPc.reading, ManagerPc.closing, ManagerPc.inSecond, ManagerPc.hand]
  case acceptError =>
    split at h <;> [skip; cases h]
    obtain rfl := Option.some.inj h
    refine .of_same hR rfl rfl le_rfl rfl rfl rfl ?_ ?_ <;>
      simp [hpc, exit, readBy, tornDownBy, ManagerPc.reading, ManagerPc.closing, ManagerPc.inSecond,
        ManagerPc.hand]

theorem Round.listenError (hR : Round am s) (hpc : s.manager = .listenError)
    (h : managerStep am s l = some t) : RoundStep am s (.manager l) t := by
  cases l <;> simp only [managerStep, managerNext, hpc, reduceCtorEq] at h
  rw [if_neg hR.listening] at h
  obtain rfl := Option.some.inj h
  refine .of_same hR rfl rfl le_rfl ?_ ?_ ?_ ?_ ?_ <;>
    simp [hpc, acceptsAhead, readBy, tornDownBy, ManagerPc.readsFrom, ManagerPc.exceptsFrom,
      ManagerPc.reading, ManagerPc.closing, ManagerPc.inSecond, ManagerPc.hand]

/-- The loops end early only when nothing is ahead. -/
theorem Round.nil_of_exit (hR : Round am s) {fd : ℕ} (hexit : ¬ (fd < s.select.nfds ∧ 0 < s.select.fdcnt)) :
    (s.manager = .readLoop fd → s.readsAhead am = []) ∧
      (s.manager = .exceptLoop fd → s.exceptsAhead am = []) := by
  have hcnt := hR.fdcnt
  by_cases hlt : fd < s.select.nfds
  · have hzero : (s.readsAhead am).length = 0 ∧ (s.exceptsAhead am).length = 0 := by omega
    exact ⟨fun _ => List.length_eq_zero_iff.mp hzero.1, fun _ => List.length_eq_zero_iff.mp hzero.2⟩
  · constructor
    · intro hpc
      rw [readsAhead, hpc]
      exact Scan.rest_of_le (fun x hx => hR.rfds x (Finset.mem_of_mem_erase hx)) (Nat.le_of_not_lt hlt)
    · intro hpc
      rw [exceptsAhead, hpc]
      exact Scan.rest_of_le (fun x hx => hR.xfds x (Finset.mem_of_mem_erase hx)) (Nat.le_of_not_lt hlt)

/-- What follows when the step neither reads nor ends a teardown, and the descriptor sets are as they were. -/
theorem RoundStep.of_quiet (hR : Round am s) (hpc : s.manager.reading = none ∧ s.manager.closing = none)
    (hsel : t.select = { s.select with fdcnt := t.select.fdcnt })
    (hcnt : t.select.fdcnt = t.acceptsAhead am + (t.readsAhead am).length + (t.exceptsAhead am).length)
    (hreads : s.readsLeft am = t.readsLeft am) (hexcepts : s.exceptsLeft am = t.exceptsLeft am) :
    RoundStep am s (.manager l) t := by
  refine ⟨⟨?_, ?_, ?_, hcnt⟩, ?_, ?_⟩
  · rw [hsel]
    exact hR.rfds
  · rw [hsel]
    exact hR.xfds
  · rw [hsel]
    exact hR.listening
  · rw [readBy, hpc.1]
    exact hreads
  · rw [tornDownBy, hpc.2]
    exact hexcepts

theorem Round.readLoop (hR : Round am s) {fd : ℕ} (hpc : s.manager = .readLoop fd)
    (h : managerStep am s l = some t) : RoundStep am s (.manager l) t := by
  have hcnt := hR.fdcnt
  have hquiet : s.manager.reading = none ∧ s.manager.closing = none := by rw [hpc]; exact ⟨rfl, rfl⟩
  have haa : s.acceptsAhead am = 0 := by rw [acceptsAhead, hpc]
  have hra : s.readsAhead am = Scan.rest (s.select.rfds.erase am) fd := by rw [readsAhead, hpc]; rfl
  have hrl : s.readsLeft am = Scan.rest (s.select.rfds.erase am) fd := by rw [readsLeft, hra, hpc]; rfl
  have hxa : s.exceptsAhead am = Scan.rest (s.select.xfds.erase am) 0 := by rw [exceptsAhead, hpc]; rfl
  have hxl : s.exceptsLeft am = Scan.rest (s.select.xfds.erase am) 0 := by rw [exceptsLeft, hxa, hpc]; rfl
  rw [haa, hra, hxa] at hcnt
  cases l <;> simp only [managerStep, managerNext, hpc, reduceCtorEq] at h
  split at h
  · split at h <;> [rename_i hok; rename_i hnot] <;> obtain rfl := Option.some.inj h
    · -- the client is found, and counted down
      have hmem : fd ∈ s.select.rfds.erase am := Finset.mem_erase.mpr ⟨hok.2, hok.1⟩
      rw [Scan.rest_of_mem hmem] at hcnt hrl
      refine .of_quiet hR hquiet rfl ?_ hrl hxl
      rw [List.length_cons] at hcnt
      simp only [acceptsAhead, readsAhead, exceptsAhead, ManagerPc.readsFrom, ManagerPc.exceptsFrom,
        ManagerPc.hand, Option.bind_some, Option.map_some, Option.elim_some, reduceCtorEq, if_false]
      omega
    · have hmem : fd ∉ s.select.rfds.erase am := fun hm =>
        hnot ⟨Finset.mem_of_mem_erase hm, Finset.ne_of_mem_erase hm⟩
      rw [Scan.rest_of_not_mem hmem] at hcnt hrl
      exact .of_quiet hR hquiet rfl hcnt hrl hxl
  · rename_i hexit
    have hnil : Scan.rest (s.select.rfds.erase am) fd = [] := hra ▸ (hR.nil_of_exit hexit).1 hpc
    obtain rfl := Option.some.inj h
    rw [hnil] at hcnt hrl
    exact .of_quiet hR hquiet rfl hcnt hrl hxl

theorem Round.exceptLoop (hR : Round am s) {fd : ℕ} (hpc : s.manager = .exceptLoop fd)
    (h : managerStep am s l = some t) : RoundStep am s (.manager l) t := by
  have hcnt := hR.fdcnt
  have hquiet : s.manager.reading = none ∧ s.manager.closing = none := by rw [hpc]; exact ⟨rfl, rfl⟩
  have haa : s.acceptsAhead am = 0 := by rw [acceptsAhead, hpc]
  have hra : s.readsAhead am = [] := by rw [readsAhead, hpc]; rfl
  have hrl : s.readsLeft am = [] := by rw [readsLeft, hra, hpc]; rfl
  have hxa : s.exceptsAhead am = Scan.rest (s.select.xfds.erase am) fd := by rw [exceptsAhead, hpc]; rfl
  have hxl : s.exceptsLeft am = Scan.rest (s.select.xfds.erase am) fd := by rw [exceptsLeft, hxa, hpc]; rfl
  rw [haa, hra, hxa] at hcnt
  cases l <;> simp only [managerStep, managerNext, hpc, reduceCtorEq] at h
  split at h
  · split at h <;> [rename_i hok; rename_i hnot] <;> obtain rfl := Option.some.inj h
    · have hmem : fd ∈ s.select.xfds.erase am := Finset.mem_erase.mpr ⟨hok.2, hok.1⟩
      rw [Scan.rest_of_mem hmem] at hcnt hxl
      refine .of_quiet hR hquiet rfl ?_ hrl hxl
      rw [List.length_cons] at hcnt
      simp only [acceptsAhead, readsAhead, exceptsAhead, ManagerPc.readsFrom, ManagerPc.exceptsFrom,
        ManagerPc.hand, Option.bind_some, Option.map_some, Option.elim_none, Option.elim_some, if_true]
      rw [List.length_nil] at hcnt ⊢
      omega
    · have hmem : fd ∉ s.select.xfds.erase am := fun hm =>
        hnot ⟨Finset.mem_of_mem_erase hm, Finset.ne_of_mem_erase hm⟩
      rw [Scan.rest_of_not_mem hmem] at hcnt hxl
      exact .of_quiet hR hquiet rfl hcnt hrl hxl
  · rename_i hexit
    have hnil : Scan.rest (s.select.xfds.erase am) fd = [] := hxa ▸ (hR.nil_of_exit hexit).2 hpc
    obtain rfl := Option.some.inj h
    rw [hnil] at hcnt hxl
    exact .of_quiet hR hquiet rfl hcnt hrl hxl

/-! ## With a client in hand -/

theorem close_step {fd : ℕ} {site : Teardown} (hpc : s.manager = .close fd site)
    (h : managerStep am s l = some t) : t.manager = site.next fd := by
  cases l <;> simp only [managerStep, managerNext, hpc, reduceCtorEq] at h
  obtain rfl := Option.some.inj h
  rfl

theorem read_step {fd : ℕ} (hpc : s.manager = .read fd) (h : managerStep am s l = some t) :
    t.manager.reading = none := by
  cases hr : t.manager <;> try rfl
  cases l <;> simp only [managerStep, managerNext, hpc, reduceCtorEq] at h
  case read chunk =>
    split at h <;> [skip; cases h]
    split at h <;> cases h
    revert hr
    rcases (s.packetMsg.overlay chunk).decode.operation with _ | (_ | _ | _) <;> simp [dispatch]
  all_goals
    obtain rfl := Option.some.inj h
    cases hr

theorem acceptsAhead_of_ne (h : s.manager ≠ .accept) : s.acceptsAhead am = 0 := by
  unfold acceptsAhead
  split
  · contradiction
  · rfl

/-- While a client is in hand, and when it is put down, the loops stand where they stood. -/
theorem Turn.of_hand (h : Turn am s l t) {hand : ℕ × Option Teardown} (hhand : s.manager.hand = some hand) :
    t.select = { s.select with managedFds := t.select.managedFds } ∧
      (t.manager ≠ .accept ∧ t.manager ≠ .listenError) ∧
      t.manager.readsFrom = s.manager.readsFrom ∧ t.manager.exceptsFrom = s.manager.exceptsFrom := by
  cases h with
  | select _ _ _ hpc | accept _ _ hpc | pass hpc | readable _ hpc | exceptional _ hpc =>
    rw [hpc] at hhand
    cases hhand
  | hold hand' hpc pc _ sel =>
    obtain ⟨fd, site⟩ := hand'
    refine ⟨by rw [sel], ⟨?_, ?_⟩, ?_, ?_⟩
    · intro hacc
      rw [hacc] at pc
      cases pc
    · intro hlis
      rw [hlis] at pc
      cases pc
    · rw [ManagerPc.readsFrom_of_hand pc, ManagerPc.readsFrom_of_hand hpc]
    · rw [ManagerPc.exceptsFrom_of_hand pc, ManagerPc.exceptsFrom_of_hand hpc]
  | release fd hpc pc sel =>
    refine ⟨by rw [sel], by rw [pc]; simp, ?_, ?_⟩
    · rw [pc, ManagerPc.readsFrom_of_hand hpc]
      rfl
    · rw [pc, ManagerPc.exceptsFrom_of_hand hpc]
      rfl
  | teardown fd site hpc hl pc sel =>
    refine ⟨by rw [sel], by rw [pc]; simp, ?_⟩
    rw [hpc, pc]
    rcases hl with ⟨-, rfl⟩ | ⟨-, rfl⟩ <;> exact ⟨rfl, rfl⟩
  | close fd site hpc pc sel =>
    refine ⟨by rw [sel], ?_⟩
    rw [hpc, pc]
    cases site <;> exact ⟨by simp [Teardown.next], rfl, rfl⟩
  | exit pc sel =>
    refine ⟨by rw [sel], ⟨?_, ?_⟩, by rw [pc], by rw [pc]⟩
    · intro hacc
      rw [← pc, hacc] at hhand
      cases hhand
    · intro hlis
      rw [← pc, hlis] at hhand
      cases hhand

theorem reading_eq_none_of_hand (h : managerStep am s l = some t) {hand : ℕ × Option Teardown}
    (hhand : s.manager.hand = some hand) : t.manager.reading = none := by
  cases managerStep_turn h with
  | select _ _ _ hpc | accept _ _ hpc | pass hpc | readable _ hpc | exceptional _ hpc =>
    rw [hpc] at hhand
    cases hhand
  | hold _ _ _ hread => cases hr : t.manager <;> first | rfl | exact absurd hr (hread _)
  | release _ _ pc | teardown _ _ _ _ pc =>
    rw [pc]
    rfl
  | close _ site _ pc =>
    rw [pc]
    cases site <;> rfl
  | exit pc =>
    cases hr : t.manager <;> try rfl
    rw [← hr]
    exact read_step (pc.symm.trans hr) h

/-- The client that the second loop has in hand stays there until its descriptor is closed. -/
theorem inSecond_of_hand (h : managerStep am s l = some t) {hand : ℕ × Option Teardown}
    (hhand : s.manager.hand = some hand) :
    s.manager.inSecond.toList = s.manager.closing.toList ++ t.manager.inSecond.toList := by
  by_cases hc : ∃ fd, s.manager = .close fd .exceptional
  · obtain ⟨fd, hpc⟩ := hc
    rw [close_step hpc h, hpc]
    rfl
  have hclosing : s.manager.closing = none := by
    cases hpc : s.manager <;> try rfl
    rename_i fd site
    cases site <;> first | rfl | exact absurd ⟨fd, hpc⟩ hc
  rw [hclosing]
  cases managerStep_turn h with
  | select _ _ _ hpc | accept _ _ hpc | pass hpc | readable _ hpc | exceptional _ hpc =>
    rw [hpc] at hhand
    cases hhand
  | hold _ hpc pc =>
    rw [ManagerPc.inSecond, ManagerPc.inSecond, hpc, pc]
    rfl
  | release fd hpc pc =>
    rw [ManagerPc.inSecond, hpc, pc]
    rfl
  | teardown _ _ hpc hl pc =>
    rw [hpc, pc]
    rcases hl with ⟨-, rfl⟩ | ⟨-, rfl⟩ <;> rfl
  | close fd site hpc pc =>
    rw [hpc, pc]
    cases site <;> first | rfl | exact absurd ⟨fd, hpc⟩ hc
  | exit pc =>
    rw [pc]
    rfl

theorem Round.hand (hR : Round am s) {hand : ℕ × Option Teardown} (hhand : s.manager.hand = some hand)
    (h : managerStep am s l = some t) : RoundStep am s (.manager l) t := by
  obtain ⟨hsel, ⟨hne, -⟩, hreads, hexcepts⟩ := (managerStep_turn h).of_hand hhand
  have hne' : s.manager ≠ .accept := fun hpc => by
    rw [hpc] at hhand
    cases hhand
  refine .of_same hR (by rw [hsel]) (by rw [hsel]) (by rw [hsel]) ?_ hreads hexcepts ?_
    (inSecond_of_hand h hhand)
  · rw [acceptsAhead_of_ne hne, acceptsAhead_of_ne hne', hsel]
  · rw [reading_eq_none_of_hand h hhand]
    exact (List.append_nil _).symm

/-- Every step of a round keeps the invariant, and what it does is what comes first in what is left. -/
theorem Round.step (hR : Round am s) {l : ServerLabel} (hok : inRound s l = true)
    (h : Server.step am s l = some t) : RoundStep am s l t := by
  cases l with
  | scheduler l =>
    obtain ⟨hsel, hpc⟩ := schedulerStep_select (step_scheduler h).2
    refine .of_same hR (by rw [hsel]) (by rw [hsel]) (by rw [hsel]) ?_ (by rw [hpc]) (by rw [hpc])
      (by rw [hpc]; rfl) (by rw [hpc]; rfl)
    rw [acceptsAhead, acceptsAhead, hpc, hsel]
  | manager l =>
    have hs := (step_manager h).2
    cases hhand : s.manager.hand with
    | some hand => exact hR.hand hhand hs
    | none =>
      cases hpc : s.manager with
      | select => cases l <;> simp [managerStep, managerNext, hpc, inRound] at hs hok
      | accept => exact hR.accept hpc hs
      | listenError => exact hR.listenError hpc hs
      | readLoop fd => exact hR.readLoop hpc hs
      | exceptLoop fd => exact hR.exceptLoop hpc hs
      | _ => simp [hpc, ManagerPc.hand] at hhand

/-! ## A client in hand is put down -/

/-- Steps of `application_manager` until the client in hand is put down, given the allocated query nodes. -/
def handSteps (k : ℕ) : ManagerPc → ℕ
  | .read _ => 4 * k + 21
  | .registerNode _ _ _ => 3
  | .schedule _ _ _ _ | .serve _ _ => 2
  | .storeHandler _ _ _ _ | .write _ _ _ => 1
  | .unchainQuery _ _ => 4
  | .removeNode _ _ (.unregisterQuery _) => 3
  | .freeNode _ _ (.unregisterQuery _) => 2
  | .freeQuery _ (.unregisterQuery _) => 1
  | pc => teardownSteps k pc

theorem handSteps_eq (k : ℕ) {pc : ManagerPc} (h : ∀ fd, pc.hand ≠ some (fd, none)) :
    handSteps k pc = teardownSteps k pc := by
  cases pc with
  | removeNode _ _ caller | freeNode _ _ caller | freeQuery _ caller =>
    cases caller with
    | unregisterQuery fd => exact absurd rfl (h fd)
    | unregisterApplication fd app site => rfl
  | read fd | serve fd _ | write fd _ _ | registerNode fd _ _ | schedule fd _ _ _ | storeHandler fd _ _ _
  | unchainQuery fd _ => exact absurd rfl (h fd)
  | _ => rfl

theorem handling_of_hand {pc : ManagerPc} {fd : ℕ} {site : Teardown} (h : pc.hand = some (fd, some site)) :
    pc.handling = some fd := by
  cases pc with
  | removeNode _ _ caller | freeNode _ _ caller | freeQuery _ caller =>
    cases caller <;> cases h
    rfl
  | _ => first | (cases h; done) | (cases h; rfl)

/-- A teardown is followed by a teardown, or the client is put down. -/
theorem hand_of_teardown (h : managerStep am s l = some t) {fd : ℕ} {site : Teardown}
    (hhand : s.manager.hand = some (fd, some site)) (f : ℕ) : t.manager.hand ≠ some (f, none) := by
  cases managerStep_turn h with
  | select _ _ _ hpc | accept _ _ hpc | pass hpc | readable _ hpc | exceptional _ hpc =>
    rw [hpc] at hhand
    cases hhand
  | hold _ hpc pc =>
    rw [hpc] at hhand
    rw [pc, hhand]
    simp
  | release _ _ pc | teardown _ _ _ _ pc =>
    rw [pc]
    simp [ManagerPc.hand]
  | close _ site _ pc =>
    rw [pc]
    cases site <;> simp [Teardown.next, ManagerPc.hand]
  | exit pc =>
    rw [pc, hhand]
    simp

/-- A signal wakes the scheduler thread, but does not give it the lock. -/
theorem schedulerLocked_signalWakeup (s : Server) :
    { s with scheduler := signalWakeup s.scheduler }.schedulerLocked = s.schedulerLocked := by
  unfold schedulerLocked
  cases s.scheduler <;> rfl

/-- `application_manager` can always go on with the client in hand when the lock is free. -/
theorem Inv.proceed (hI : Inv s) (hF : Fds am s) (hrun : s.running = true)
    (hlock : s.schedulerLocked = false) {hand : ℕ × Option Teardown} (hhand : s.manager.hand = some hand) :
    ∃ l t, managerStep am s l = some t ∧ inRound s (.manager l) = true ∧ t.running = true ∧
      t.schedulerLocked = false ∧
      handSteps t.mem.queries.live.card t.manager < handSteps s.mem.queries.live.card s.manager := by
  obtain ⟨fd, _ | site⟩ := hand
  · obtain ⟨S, hw, hinv⟩ := id hI
    cases hpc : s.manager with
    | read fd' =>
      refine ⟨.readEof, { s with manager := .unchainApp fd' .closed }, by simp only [managerStep, hpc], rfl,
        hrun, hlock, ?_⟩
      simp [handSteps, teardownSteps, teardownSteps.siteSteps]
    | serve fd' query =>
      exact ⟨.serve zeroSnapshot,
        { s with manager := .write fd' query zeroSnapshot, hist := s.logRead query },
        by simp only [managerStep, hpc], rfl, hrun, hlock, by simp [handSteps]⟩
    | write fd' query snap =>
      -- the client in hand is connected
      obtain ⟨hne, hmem⟩ := hF.hand fd' none (by rw [hpc]; rfl)
      obtain ⟨conn, hconn⟩ := Option.isSome_iff_exists.mp
        (((hF.managed fd').mp (hmem rfl)).resolve_left hne)
      exact ⟨.write, { s with manager := .readLoop (fd' + 1), hist := s.logReply conn query snap },
        by simp only [managerStep, hpc, hconn, Option.map_some], rfl, hrun, hlock,
        by simp [handSteps, teardownSteps]⟩
    | registerNode fd' query interval =>
      obtain ⟨app, node, m', _, heq, -⟩ := hw.registerNode fd' query
      exact ⟨.next, { s with mem := m', manager := .schedule fd' app node interval },
        by simp only [managerStep, managerNext, hpc, heq, Option.map_some], rfl, hrun, hlock,
        by simp [handSteps]⟩
    | schedule fd' app node interval =>
      rw [hpc] at hinv
      obtain ⟨-, -, happ, hfd, hlive, hno, hna, -⟩ := hinv
      obtain ⟨signal, st', _, _, heq, -⟩ := hw.schedule fd' hlive hno (hna.symm ▸ happ) (hna.symm ▸ hfd)
        interval ⟨0, 0⟩
      refine ⟨.schedule ⟨0, 0⟩, { s with
        mem := { s.mem with sched := st' }
        manager := .storeHandler fd' app node s.mem.sched.nodes.brk
        scheduler := if signal then signalWakeup s.scheduler else s.scheduler },
        by simp only [managerStep, hpc, hlock, heq, Bool.false_eq_true, if_false, Option.map_some], rfl,
        hrun, ?_, by simp [handSteps]⟩
      cases signal
      · exact hlock
      · exact (schedulerLocked_signalWakeup s).trans hlock
    | storeHandler fd' app node handler =>
      exact ⟨.next,
        { s with mem := s.mem.storeHandler app node handler, manager := .readLoop (fd' + 1) },
        by simp only [managerStep, managerNext, hpc], rfl, hrun, hlock, by simp [handSteps, teardownSteps]⟩
    | unchainQuery fd' reqId =>
      rw [hpc] at hinv
      rcases hw.unchainQuery hinv.1 fd' reqId with ⟨heq, -⟩ | ⟨a, _, q, _, m', heq, hu⟩
      · exact ⟨.next, { s with manager := .readLoop (fd' + 1) },
          by simp only [managerStep, managerNext, hpc, heq], rfl, hrun, hlock,
          by simp [handSteps, teardownSteps]⟩
      · obtain ⟨x, -, hh, -⟩ := hw.handler a hu.app_mem q (by simp [hu.queries])
        have hh' : (m'.queries.cell q).handler = some x := by rw [(hu.cell q).2.2, hh]
        exact ⟨.next, { s with mem := m', manager := .removeNode q x (.unregisterQuery fd') },
          by simp only [managerStep, managerNext, hpc, heq, hh', Option.map_some], rfl, hrun, hlock,
          by simp [handSteps]⟩
    | removeNode node handler caller =>
      rw [hpc] at hhand
      cases caller <;> cases hhand
      exact ⟨.next, { s with
        mem := { s.mem with sched := Afdx.removeNode s.mem.sched handler }
        manager := .freeNode node handler (.unregisterQuery fd) },
        by simp only [managerStep, managerNext, hpc, hlock, Bool.false_eq_true, if_false], rfl, hrun, hlock,
        by simp [handSteps]⟩
    | freeNode node handler caller =>
      rw [hpc] at hhand
      cases caller <;> cases hhand
      exact ⟨.next, { s with
        mem := { s.mem with sched := { s.mem.sched with nodes := s.mem.sched.nodes.free handler } }
        manager := .freeQuery node (.unregisterQuery fd) },
        by simp only [managerStep, managerNext, hpc], rfl, hrun, hlock, by simp [handSteps]⟩
    | freeQuery node caller =>
      rw [hpc] at hhand
      cases caller <;> cases hhand
      exact ⟨.next, { s with mem := s.mem.freeQuery node, manager := .readLoop (fd + 1) },
        by simp only [managerStep, managerNext, hpc], rfl, hrun, hlock,
        by simp [handSteps, teardownSteps]⟩
    | _ =>
      rw [hpc] at hhand
      cases hhand
  · have hh := handling_of_hand hhand
    obtain ⟨t, hs, hsched, hlt⟩ := hI.teardown am hh hlock
    have hs' : managerStep am s .next = some t := hs
    refine ⟨.next, t, hs', rfl, (running_of_handling hh hs').trans hrun, ?_, ?_⟩
    · rwa [schedulerLocked, hsched]
    · rwa [handSteps_eq _ (hand_of_teardown hs' hhand), handSteps_eq _ (by rw [hhand]; simp)]

/-- The loops of the round stand at the same descriptors in `s` and in `t`. -/
structure SamePlace (s t : Server) : Prop where
  nfds : t.select.nfds = s.select.nfds
  xfds : t.select.xfds = s.select.xfds
  readsFrom : t.manager.readsFrom = s.manager.readsFrom
  exceptsFrom : t.manager.exceptsFrom = s.manager.exceptsFrom
  inLoop : t.manager ≠ .accept ∧ t.manager ≠ .listenError

/-- The client in hand is put down, with the loops where they stood. -/
theorem Inv.puts_down (hI : Inv s) (hF : Fds am s) (hrun : s.running = true) {hand : ℕ × Option Teardown}
    (hhand : s.manager.hand = some hand) :
    ∃ t, Lts.Reachable (Lts.restrict (Server.step am) inRound) s t ∧
      (Inv t ∧ Fds am t ∧ t.running = true ∧ SamePlace s t) ∧ t.manager.hand = none := by
  have hself : SamePlace s s := by
    refine ⟨rfl, rfl, rfl, rfl, ?_, ?_⟩
    · intro hpc
      rw [hpc] at hhand
      cases hhand
    · intro hpc
      rw [hpc] at hhand
      cases hhand
  refine Lts.reaches_of_decreasing (Lts.restrict (Server.step am) inRound)
    (fun u => 4 * handSteps u.mem.queries.live.card u.manager + lockSteps u.scheduler) ?_ s
    ⟨hI, hF, hrun, hself⟩
  rintro u ⟨hI, hF, hrun, hP⟩ hne
  obtain ⟨hand, hhand⟩ := Option.ne_none_iff_exists'.mp hne
  cases hlock : u.schedulerLocked with
  | true =>
    obtain ⟨l, v, hs, hl, hman, hq, hlt⟩ := hI.unlock am hrun hlock
    have hs' := (step_scheduler hs).2
    obtain ⟨hsel, -⟩ := schedulerStep_select hs'
    refine ⟨.scheduler l, v, Lts.restrict_eq_some.mpr ⟨rfl, hs⟩,
      ⟨hI.step hs, hF.step hs, (running_of_schedulerStep hl hs').trans hrun, ?_⟩, ?_⟩
    · exact ⟨by rw [hsel, hP.nfds], by rw [hsel, hP.xfds], by rw [hman, hP.readsFrom],
        by rw [hman, hP.exceptsFrom], by rw [hman]; exact hP.inLoop⟩
    · rw [hman, hq]
      omega
  | false =>
    obtain ⟨l, v, hs, hok, hrun', hlock', hlt⟩ := hI.proceed hF hrun hlock hhand
    have hstep : Server.step am u (.manager l) = some v := by
      rw [Server.step, if_pos hrun]
      exact hs
    obtain ⟨hsel, hloop, hreads, hexcepts⟩ := (managerStep_turn hs).of_hand hhand
    refine ⟨.manager l, v, Lts.restrict_eq_some.mpr ⟨hok, hstep⟩,
      ⟨hI.step hstep, hF.step hstep, hrun', ?_⟩, ?_⟩
    · exact ⟨by rw [hsel, hP.nfds], by rw [hsel, hP.xfds], by rw [hreads, hP.readsFrom],
        by rw [hexcepts, hP.exceptsFrom], hloop⟩
    · have hzero : lockSteps v.scheduler = 0 := by
        unfold schedulerLocked at hlock'
        cases hpc : v.scheduler <;> rw [hpc] at hlock' <;> first | rfl | cases hlock'
      omega

/-! ## A round comes to its end -/

/-- Steps of a loop over the descriptors from `b` on. -/
def loopSteps (nfds : ℕ) (b : Option ℕ) : ℕ := b.elim 0 fun b => nfds - b + 1

/-- Steps to the end of the round, each client counted as one. -/
def roundSteps (s : Server) : ℕ :=
  (match s.manager with
    | .accept => 4
    | .listenError => 1
    | _ => 0) +
  loopSteps s.select.nfds s.manager.readsFrom + loopSteps s.select.nfds s.manager.exceptsFrom

/-- Without a client in hand `application_manager` can always take a step towards the end of the round. -/
theorem Fds.advance (hF : Fds am s) (hx : am ∉ s.select.xfds) (hhand : s.manager.hand = none)
    (hne : s.manager ≠ .select) :
    ∃ l t, managerStep am s l = some t ∧ inRound s (.manager l) = true ∧ t.running = s.running ∧
      t.select.xfds = s.select.xfds ∧ roundSteps t < roundSteps s := by
  cases hpc : s.manager with
  | select => exact absurd hpc hne
  | accept =>
    by_cases hr : am ∈ s.select.rfds
    · -- a descriptor number that is not in use
      have hfree : s.select.nfds ∉ s.select.managedFds := fun hm => (hF.nfds _ hm).false
      rw [hF.managed, not_or, Option.not_isSome_iff_eq_none] at hfree
      refine ⟨.accept s.select.nfds, ?_⟩
      simp only [managerStep, hpc, if_pos (And.intro hr (And.intro hfree.2 hfree.1))]
      refine ⟨_, rfl, rfl, rfl, rfl, ?_⟩
      simp [roundSteps, hpc, ManagerPc.readsFrom, ManagerPc.exceptsFrom, loopSteps]
      omega
    · refine ⟨.next, ?_⟩
      simp only [managerStep, managerNext, hpc, if_neg hr]
      refine ⟨_, rfl, rfl, rfl, rfl, ?_⟩
      simp [roundSteps, hpc, ManagerPc.readsFrom, ManagerPc.exceptsFrom]
  | listenError =>
    refine ⟨.next, ?_⟩
    simp only [managerStep, managerNext, hpc, if_neg hx]
    refine ⟨_, rfl, rfl, rfl, rfl, ?_⟩
    simp [roundSteps, hpc, ManagerPc.readsFrom, ManagerPc.exceptsFrom]
  | readLoop fd =>
    refine ⟨.next, ?_⟩
    by_cases hgo : fd < s.select.nfds ∧ 0 < s.select.fdcnt
    · by_cases hmem : fd ∈ s.select.rfds ∧ fd ≠ am
      · simp only [managerStep, managerNext, hpc, if_pos hgo, if_pos hmem]
        refine ⟨_, rfl, rfl, rfl, rfl, ?_⟩
        simp [roundSteps, hpc, ManagerPc.readsFrom, ManagerPc.exceptsFrom, ManagerPc.hand, loopSteps]
        omega
      · simp only [managerStep, managerNext, hpc, if_pos hgo, if_neg hmem]
        refine ⟨_, rfl, rfl, rfl, rfl, ?_⟩
        simp [roundSteps, hpc, ManagerPc.readsFrom, ManagerPc.exceptsFrom, loopSteps]
        omega
    · simp only [managerStep, managerNext, hpc, if_neg hgo]
      refine ⟨_, rfl, rfl, rfl, rfl, ?_⟩
      simp [roundSteps, hpc, ManagerPc.readsFrom, ManagerPc.exceptsFrom, ManagerPc.hand, loopSteps]
  | exceptLoop fd =>
    refine ⟨.next, ?_⟩
    by_cases hgo : fd < s.select.nfds ∧ 0 < s.select.fdcnt
    · by_cases hmem : fd ∈ s.select.xfds ∧ fd ≠ am
      · simp only [managerStep, managerNext, hpc, if_pos hgo, if_pos hmem]
        refine ⟨_, rfl, rfl, rfl, rfl, ?_⟩
        simp [roundSteps, hpc, ManagerPc.readsFrom, ManagerPc.exceptsFrom, ManagerPc.hand, loopSteps]
        omega
      · simp only [managerStep, managerNext, hpc, if_pos hgo, if_neg hmem]
        refine ⟨_, rfl, rfl, rfl, rfl, ?_⟩
        simp [roundSteps, hpc, ManagerPc.readsFrom, ManagerPc.exceptsFrom, ManagerPc.hand, loopSteps]
        omega
    · simp only [managerStep, managerNext, hpc, if_neg hgo]
      refine ⟨_, rfl, rfl, rfl, rfl, ?_⟩
      simp [roundSteps, hpc, ManagerPc.readsFrom, ManagerPc.exceptsFrom, ManagerPc.hand, loopSteps]
  | _ =>
    rw [hpc] at hhand
    cases hhand

/-- A round can always be brought to its end. -/
theorem Inv.reaches_select (hI : Inv s) (hF : Fds am s) (hrun : s.running = true)
    (hx : am ∉ s.select.xfds) :
    ∃ t, Lts.Reachable (Lts.restrict (Server.step am) inRound) s t ∧ t.manager = .select := by
  obtain ⟨t, hst, -, ht⟩ := Lts.reaches_of_progress (Lts.restrict (Server.step am) inRound)
    (I := fun u => Inv u ∧ Fds am u ∧ u.running = true ∧ am ∉ u.select.xfds)
    (G := fun u => u.manager = .select)
    (fun u => 2 * roundSteps u + if u.manager.hand.isSome then 1 else 0) (by
      rintro u ⟨hI, hF, hrun, hx⟩ hne
      cases hhand : u.manager.hand with
      | some hand =>
        obtain ⟨v, huv, ⟨hI', hF', hrun', hP⟩, hnone⟩ := hI.puts_down hF hrun hhand
        refine ⟨v, huv, ⟨hI', hF', hrun', by rwa [hP.xfds]⟩, ?_⟩
        have hle : roundSteps v ≤ roundSteps u := by
          unfold roundSteps
          rw [hP.nfds, hP.readsFrom, hP.exceptsFrom]
          have hloop := hP.inLoop
          split <;> first | omega | exact absurd ‹_› hloop.1 | exact absurd ‹_› hloop.2
        simp only [hnone, Option.isSome_none, Option.isSome_some, Bool.false_eq_true, if_false, if_true]
        omega
      | none =>
        obtain ⟨l, v, hs, hok, hrun', hxfds, hlt⟩ := hF.advance hx hhand hne
        have hstep : Server.step am u (.manager l) = some v := by
          rw [Server.step, if_pos hrun]
          exact hs
        refine ⟨v, .single (Lts.restrict_eq_some.mpr ⟨hok, hstep⟩),
          ⟨hI.step hstep, hF.step hstep, hrun'.trans hrun, by rwa [hxfds]⟩, ?_⟩
        simp only [Option.isSome_none, Bool.false_eq_true, if_false]
        split <;> omega)
    s ⟨hI, hF, hrun, hx⟩
  exact ⟨t, hst, ht⟩

/-! ## The round as a whole -/

end Server

end Afdx
