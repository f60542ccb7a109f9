import Afdx.Proofs.PipelineProofs

/-!
# Lost signals

`wakeup_elaboration_thread` signals without the mutex and `pthread_cond_wait` waits without a
predicate, so a signal issued while the elaboration thread is not waiting is lost, and each wakeup
disposes one node only. The backlog that this leaves behind is exactly the number of lost signals.
Once it reaches `SIZE_QUEUE - 1` the queue is full for ever.
-/

namespace Afdx

namespace Pipeline

variable {n : ℕ} {s t : Pipeline}

/-- Both threads are blocked: the elaboration thread in `pthread_cond_wait` with no signal under way,
    the network thread in `recvfrom` with no datagram. -/
def blocked (s : Pipeline) : Bool :=
  match s.elaboration, s.network with
  | .waiting, .recvfrom _ => true
  | _, _ => false

/-- A step that is not a signal, or a signal that finds the elaboration thread waiting. -/
def signalHeard (s : Pipeline) (l : PipelineLabel) : Bool :=
  match l, s.elaboration with
  | .network .wakeup, .waiting => true
  | .network .wakeup, _ => false
  | _, _ => true

/-! ## The backlog -/

/-- With both threads blocked, what is received and not processed is what was not signalled. -/
theorem Inv.backlog (hI : Inv n s) (hb : s.blocked = true) :
    s.receivedNodes.length = s.hist.processed.length + s.hist.lost := by
  have hrc := hI.received
  have hp := hI.processed
  unfold blocked at hb
  split at hb
  · rename_i hpe hpn
    simp only [hpe, hpn, ElabPc.busy, ElabPc.begun, NetPc.unsignalled] at hrc hp
    rw [receivedNodes_length]
    omega
  · cases hb

/-- A step loses a signal exactly if it is a signal that is not heard. -/
theorem lost_step {l : PipelineLabel} (h : step n s l = some t) :
    t.hist.lost = s.hist.lost + if signalHeard s l then 0 else 1 := by
  obtain ⟨-, ⟨l, rfl, hs⟩ | ⟨l, rfl, hs⟩⟩ := step_eq_some h
  · cases l with
    | wakeup =>
      simp only [netStep] at hs
      split at hs <;> cases hs
      unfold signal signalHeard
      cases s.elaboration <;> rfl
    | _ => simp only [netStep] at hs; (repeat' split at hs) <;> cases hs <;> rfl
  · cases l with
    | semWait =>
      simp only [elabStep] at hs
      split at hs <;> [skip; cases hs]
      obtain ⟨q, -, rfl⟩ := Option.map_eq_some_iff.mp hs
      rfl
    | _ => simp only [elabStep] at hs; (repeat' split at hs) <;> cases hs <;> rfl

/-- In a run whose signals are all heard, none is lost. -/
theorem lost_eq_zero (h : Lts.Reachable (Lts.restrict (step n) signalHeard) init s) :
    s.hist.lost = 0 :=
  h.invariant (I := fun s => s.hist.lost = 0) rfl fun s l t hz hs => by
    obtain ⟨hok, hs⟩ := Lts.restrict_eq_some.mp hs
    rw [lost_step hs, hz, if_pos hok]

/-- When both threads are blocked, every received packet has been processed exactly if no signal of
    the run was lost; in particular in every run whose signals all find the elaboration thread
    waiting. Otherwise the unprocessed packets are as many as the lost signals. -/
theorem blocked_processed_iff (n : ℕ+) :
    (∀ s, Lts.Reachable (Lts.restrict (step n) signalHeard) init s → s.blocked = true →
      s.hist.processed = s.receivedNodes) ∧
    (∀ s, Lts.Reachable (step n) init s → s.blocked = true →
      (s.hist.processed = s.receivedNodes ↔ s.hist.lost = 0) ∧
      s.receivedNodes.length = s.hist.processed.length + s.hist.lost) := by
  have main : ∀ s, Lts.Reachable (step n) init s → s.blocked = true →
      (s.hist.processed = s.receivedNodes ↔ s.hist.lost = 0) ∧
      s.receivedNodes.length = s.hist.processed.length + s.hist.lost := by
    intro s h hb
    have hI := inv_of_reachable n.pos h
    have hlen := hI.backlog hb
    refine ⟨⟨fun he => ?_, fun hz => ?_⟩, hlen⟩
    · rw [he] at hlen
      omega
    · exact hI.order.eq_of_length (by omega)
  refine ⟨fun s h hb => ?_, main⟩
  exact (main s h.of_restrict hb).1.mpr (lost_eq_zero h)

/-- A datagram of an unknown type arrives while the elaboration thread waits, and both threads block
    again. -/
def heardRun : List PipelineLabel :=
  [.elaboration .condWait] ++ receive [9] 7 ++
    [.elaboration .semWait, .elaboration .nextNqnodeOut, .elaboration .loadIdentifier,
      .elaboration (.assign .init), .elaboration .dispose, .elaboration .condWait,
      .network .nextNqnodeIn]

theorem blocked_processed_heardRun :
    ∃ s, Lts.run (Lts.restrict (step sizeQueue) signalHeard) init heardRun = some s ∧
      s.blocked = true ∧ s.hist.received.length = 1 ∧ s.hist.processed = s.receivedNodes := by
  obtain ⟨s, hs, hp⟩ := Lts.exists_run_of_map (Lts.restrict (step sizeQueue) signalHeard) init heardRun
    (fun s => s.blocked && s.hist.received.length == 1) (by decide)
  simp only [Bool.and_eq_true, beq_iff_eq] at hp
  exact ⟨s, hs, hp.1, hp.2, (blocked_processed_iff sizeQueue).1 s ⟨_, hs⟩ hp.1⟩

/-- The network thread receives and signals before the elaboration thread first waits. -/
def lateElaborationRun : List PipelineLabel :=
  receive [1, 20, 0, 184, 11, 0, 0, 15, 0, 5, 0, 3, 0, 1, 0] 7 ++
    [.elaboration .condWait, .network .nextNqnodeIn]

/-- A datagram received before the elaboration thread first waits stays unprocessed while both threads
    are blocked. -/
theorem blocked_with_backlog :
    ¬ ∀ s, Lts.Reachable (step sizeQueue) init s → s.blocked = true →
      s.hist.processed = s.receivedNodes := by
  intro hall
  obtain ⟨s, hs, hp⟩ := Lts.exists_run_of_map (step sizeQueue) init lateElaborationRun
    (fun s => s.blocked && s.hist.processed.length == 0 && s.hist.received.length == 1)
    (by decide)
  simp only [Bool.and_eq_true, beq_iff_eq] at hp
  have he := hall s ⟨_, hs⟩ hp.1.1
  have hlen := congrArg List.length he
  rw [receivedNodes_length] at hlen
  omega

/-! ## Progress while the queue can still drain -/

/-- Upper bound on the steps of the elaboration thread until it waits. -/
def toWaiting : ElabPc → ℕ
  | .waiting | .fault => 0
  | .condWait => 1
  | .dispose => 2
  | .assign _ todo => 3 + todo.length
  | .loadEngineId _ => 12
  | .loadIdentifier _ => 13
  | .nextNqnodeOut => 14
  | .semWait => 15

/-- Upper bound on the steps of the network thread until it reserves a slot, if it is given an empty
    datagram. -/
def toNextNqnodeIn : NetPc → ℕ
  | .nextNqnodeIn | .exit => 0
  | .wakeup => 1
  | .setLastUpdate _ _ => 2
  | .copying _ dg off => 3 + (dg.length - off)
  | .recvfrom _ => 4

theorem step_elaboration {l : ElabLabel} (hx : s.network ≠ .exit) (h : elabStep n s l = some t) :
    step n s (.elaboration l) = some t := by
  unfold step
  split
  · rename_i he; exact absurd he hx
  · exact h

theorem step_network {l : NetLabel} (h : netStep n s l = some t) :
    step n s (.network l) = some t := by
  unfold step
  split
  · rename_i he
    cases l <;> simp [netStep, he] at h
  · exact h

/-- An elaboration thread that does not wait has a step that brings it closer to waiting. -/
theorem Inv.elaboration_progress (hI : Inv n s) (hw : s.elaboration ≠ .waiting) :
    ∃ l t, elabStep n s l = some t ∧ toWaiting t.elaboration < toWaiting s.elaboration ∧
      t.network = s.network ∧ t.hist.reserved = s.hist.reserved ∧
      t.hist.received = s.hist.received ∧ t.hist.lost = s.hist.lost := by
  cases hpc : s.elaboration with
  | waiting => exact absurd hpc hw
  | fault => exact absurd hpc hI.noFault
  | condWait => exact ⟨.condWait, _, by simp only [elabStep, hpc]; rfl, by simp [toWaiting], by simp⟩
  | semWait =>
    have hlt := hI.disposed_lt (by simp [hpc, ElabPc.busy])
    have hr := hI.reserved
    have hsem := hI.semaphore
    simp only [hpc, ElabPc.pastSem] at hsem
    have hpos : 0 < s.queue.nrNodesQueue := by omega
    refine ⟨.semWait, _, by simp only [elabStep, hpc, semWait_of_pos hpos, Option.map_some]; rfl,
      by simp [toWaiting], by simp⟩
  | nextNqnodeOut =>
    exact ⟨.nextNqnodeOut, _, by simp only [elabStep, hpc]; rfl, by simp [toWaiting], by simp⟩
  | loadIdentifier node =>
    obtain rfl := hI.node node (by simp [hpc, ElabPc.node])
    refine ⟨.loadIdentifier, _, by simp only [elabStep, hpc]; rfl, ?_, by simp⟩
    simp only
    split_ifs <;> simp [toWaiting, adiruFields]
  | loadEngineId slot =>
    exact ⟨.loadEngineId, _, by simp only [elabStep, hpc]; rfl, by simp [toWaiting, engineFields], by simp⟩
  | assign slot todo =>
    cases todo with
    | nil => exact ⟨.assign .init, _, by simp only [elabStep, hpc]; rfl, by simp [toWaiting], by simp⟩
    | cons a todo =>
      exact ⟨.assign .init, _, by simp only [elabStep, hpc]; rfl, by simp [toWaiting], by simp⟩
  | dispose => exact ⟨.dispose, _, by simp only [elabStep, hpc]; rfl, by simp [toWaiting], by simp⟩

/-- The elaboration thread alone reaches its wait. -/
theorem Inv.drain (hI : Inv n s) (hx : s.network ≠ .exit) :
    ∃ t, Lts.Reachable (Pipeline.step n) s t ∧ Inv n t ∧ t.elaboration = .waiting ∧
      t.network = s.network ∧ t.hist.reserved = s.hist.reserved ∧ t.hist.lost = s.hist.lost := by
  obtain ⟨t, hst, ⟨hIt, hnet, hr, hl⟩, hw⟩ := Lts.reaches_of_decreasing (Pipeline.step n)
    (I := fun u => Inv n u ∧ u.network = s.network ∧ u.hist.reserved = s.hist.reserved ∧
      u.hist.lost = s.hist.lost)
    (G := fun u => u.elaboration = .waiting) (fun u => toWaiting u.elaboration)
    (by
      rintro u ⟨hIu, hnet, hr, hl⟩ hw
      obtain ⟨l, t, ht, hlt, hn', hr', -, hl'⟩ := hIu.elaboration_progress hw
      exact ⟨.elaboration l, t, step_elaboration (hnet ▸ hx) ht,
        ⟨hIu.step (step_elaboration (hnet ▸ hx) ht), hn'.trans hnet, hr'.trans hr, hl'.trans hl⟩, hlt⟩)
    s ⟨hI, rfl, rfl, rfl⟩
  exact ⟨t, hst, hIt, hw, hnet, hr, hl⟩

/-- While the elaboration thread waits, the network thread comes back to `next_nqnode_in` without
    losing a signal. -/
theorem Inv.complete_reception (hI : Inv n s) (hx : s.network ≠ .exit)
    (hw : s.elaboration = .waiting) :
    ∃ t, Lts.Reachable (Pipeline.step n) s t ∧ Inv n t ∧ t.network = .nextNqnodeIn ∧
      t.hist.reserved = s.hist.reserved ∧ t.hist.lost = s.hist.lost := by
  obtain ⟨t, hst, ⟨hIt, -, -, hr, hl⟩, hg⟩ := Lts.reaches_of_decreasing (Pipeline.step n)
    (I := fun u => Inv n u ∧ u.network ≠ .exit ∧
      (u.network = .nextNqnodeIn ∨ u.elaboration = .waiting) ∧
      u.hist.reserved = s.hist.reserved ∧ u.hist.lost = s.hist.lost)
    (G := fun u => u.network = .nextNqnodeIn) (fun u => toNextNqnodeIn u.network)
    (by
      rintro u ⟨hIu, hxu, hwu, hr, hl⟩ hg
      have hwait := hwu.resolve_left hg
      suffices ∃ l t, netStep n u l = some t ∧ t.network ≠ .exit ∧
          (t.network = .nextNqnodeIn ∨ t.elaboration = .waiting) ∧
          t.hist.reserved = u.hist.reserved ∧ t.hist.lost = u.hist.lost ∧
          toNextNqnodeIn t.network < toNextNqnodeIn u.network by
        obtain ⟨l, t, ht, hx', hw', hr', hl', hlt⟩ := this
        exact ⟨.network l, t, step_network ht,
          ⟨hIu.step (step_network ht), hx', hw', hr'.trans hr, hl'.trans hl⟩, hlt⟩
      cases hpc : u.network with
      | nextNqnodeIn => exact absurd hpc hg
      | exit => exact absurd hpc hxu
      | recvfrom slot =>
        exact ⟨.recvfrom [], _, by simp only [netStep, hpc]; rfl, by simp, by simp [hwait], by simp,
          by simp, by simp [toNextNqnodeIn]⟩
      | copying slot dg off =>
        by_cases hoff : off < sizeofPacket ∧ off < dg.length
        · refine ⟨.copyByte, _, by simp only [netStep, hpc, dif_pos hoff]; rfl, by simp,
            by simp [hwait], by simp, by simp, ?_⟩
          simp only [toNextNqnodeIn]
          omega
        · exact ⟨.recvReturn, _, by simp only [netStep, hpc, if_neg hoff]; rfl, by simp,
            by simp [hwait], by simp, by simp, by simp only [toNextNqnodeIn]; omega⟩
      | setLastUpdate slot dg =>
        exact ⟨.setLastUpdate 0, _, by simp only [netStep, hpc]; rfl, by simp, by simp [hwait],
          by simp, by simp, by simp [toNextNqnodeIn]⟩
      | wakeup =>
        exact ⟨.wakeup, _, by simp only [netStep, hpc]; rfl, by simp, by simp,
          by simp [signal, hwait], by simp [signal, hwait], by simp [toNextNqnodeIn]⟩)
    s ⟨hI, hx, .inr hw, rfl, rfl⟩
  exact ⟨t, hst, hIt, hg, hr, hl⟩

/-- With the elaboration thread waiting and fewer than `SIZE_QUEUE - 1` signals lost, the network thread
    reserves a slot and receives a datagram into it. -/
theorem Inv.receive_one (hI : Inv n s) (hw : s.elaboration = .waiting)
    (hnet : s.network = .nextNqnodeIn) (hl : s.hist.lost + 1 < n) :
    ∃ t, Lts.Reachable (Pipeline.step n) s t ∧ s.hist.reserved < t.hist.received.length := by
  have hr := hI.reserved
  have hrc := hI.received
  simp only [hnet, hw, NetPc.holding, NetPc.unsignalled, ElabPc.busy] at hr hrc
  have hin := nextNqnodeIn_of_lt hI.counts (by omega)
  have h₁ := step_network (n := n) (s := s) (l := .nextNqnodeIn)
    (by simp only [netStep, hnet, hin]; rfl)
  have h₂ := (Lts.Reachable.single h₁).tail
    (step_network (l := .recvfrom []) (by simp only [netStep]; rfl))
  have h₃ := h₂.tail (step_network (l := .recvReturn) (by simp [netStep]; rfl))
  have h₄ := h₃.tail (step_network (l := .setLastUpdate 0) (by simp only [netStep]; rfl))
  exact ⟨_, h₄, by simp; omega⟩

/-! ## The full queue -/

/-- The queue is full, every reserved slot is received and signalled, and the elaboration thread waits. -/
def Wedged (n : ℕ) (s : Pipeline) : Prop :=
  (s.queue.inPtr + 1) % n = s.queue.outPtr ∧ s.network = .nextNqnodeIn ∧
    s.hist.reserved = s.hist.received.length ∧ s.elaboration = .waiting

/-- Once `SIZE_QUEUE - 1` signals are lost, the two threads hold nothing and the queue is full. -/
theorem Inv.stuck (hI : Inv n s) (hl : n ≤ s.hist.lost + 1) (hx : s.network ≠ .exit) :
    s.network = .nextNqnodeIn ∧ (s.elaboration = .condWait ∨ s.elaboration = .waiting) ∧
      s.hist.reserved + 1 = s.hist.disposed + n := by
  have hr := hI.reserved
  have hrc := hI.received
  have hlt := hI.counts.lt
  have hh : s.network.holding = 0 ∧ s.network.unsignalled = 0 ∧ s.elaboration.busy = 0 := by omega
  refine ⟨?_, ?_, by omega⟩
  · cases hpc : s.network with
    | nextNqnodeIn => rfl
    | exit => exact absurd hpc hx
    | _ => simp [hpc, NetPc.holding, NetPc.unsignalled] at hh
  · cases hpc : s.elaboration <;> simp [hpc, ElabPc.busy] at hh ⊢

/-- Once `SIZE_QUEUE - 1` signals are lost, no step receives a datagram. -/
theorem Inv.stuck_step (hI : Inv n s) (hl : n ≤ s.hist.lost + 1) {l : PipelineLabel}
    (hs : Pipeline.step n s l = some t) :
    t.hist.lost = s.hist.lost ∧ t.hist.received = s.hist.received := by
  obtain ⟨hx, ⟨l, rfl, hs'⟩ | ⟨l, rfl, hs'⟩⟩ := step_eq_some hs
  · obtain ⟨hnet, -, hfull⟩ := hI.stuck hl hx
    cases l <;> simp only [netStep, hnet, reduceCtorEq] at hs'
    rw [nextNqnodeIn_of_eq hI.counts hfull] at hs'
    cases hs'
    exact ⟨rfl, rfl⟩
  · obtain ⟨-, helab | helab, -⟩ := hI.stuck hl hx <;>
      cases l <;> simp only [elabStep, helab, reduceCtorEq] at hs'
    cases hs'
    exact ⟨rfl, rfl⟩

theorem Inv.stuck_run (hI : Inv n s) (hl : n ≤ s.hist.lost + 1)
    (h : Lts.Reachable (Pipeline.step n) s t) : t.hist.received = s.hist.received := by
  refine (h.invariant (I := fun u => Inv n u ∧ u.hist.lost = s.hist.lost ∧
    u.hist.received = s.hist.received) ⟨hI, rfl, rfl⟩ ?_).2.2
  rintro u l v ⟨hIu, hlu, hru⟩ hs
  obtain ⟨hlv, hrv⟩ := hIu.stuck_step (by omega) hs
  exact ⟨hIu.step hs, hlv.trans hlu, hrv.trans hru⟩

/-- From a reachable state the network thread can reserve a slot again and receive a datagram into it
    exactly if the process is alive and fewer than `SIZE_QUEUE - 1` signals of the run were lost. -/
theorem receives_again_iff (n : ℕ+) (s : Pipeline) (h : Lts.Reachable (step n) init s) :
    (∃ t, Lts.Reachable (step n) s t ∧ s.hist.reserved < t.hist.received.length) ↔
      s.network ≠ .exit ∧ s.hist.lost + 1 < n := by
  have hI := inv_of_reachable n.pos h
  constructor
  · rintro ⟨t, hst, hlt⟩
    have hr := hI.reserved
    constructor
    · intro hx
      obtain ⟨ls, hls⟩ := hst
      cases ls with
      | nil => cases hls; omega
      | cons l ls => simp [Lts.run_cons, step, hx] at hls
    · by_contra hl
      have := hI.stuck_run (by omega) hst
      rw [this] at hlt
      omega
  · rintro ⟨hx, hl⟩
    obtain ⟨t₁, h₁, hI₁, hw₁, hn₁, hr₁, hl₁⟩ := hI.drain hx
    obtain ⟨t₂, h₂, hI₂, hn₂, hr₂, hl₂⟩ := hI₁.complete_reception (hn₁ ▸ hx) hw₁
    obtain ⟨t₃, h₃, hI₃, hw₃, hn₃, hr₃, hl₃⟩ := hI₂.drain (by simp [hn₂])
    obtain ⟨t, h₄, hlt⟩ := hI₃.receive_one hw₃ (hn₃.trans hn₂) (by omega)
    exact ⟨t, ((h₁.trans h₂).trans h₃).trans h₄, by omega⟩

theorem receives_again_lateElaborationRun :
    ∃ s, Lts.run (step sizeQueue) init lateElaborationRun = some s ∧
      ∃ t, Lts.Reachable (step sizeQueue) s t ∧ s.hist.reserved < t.hist.received.length := by
  obtain ⟨s, hs, hp⟩ := Lts.exists_run_of_map (step sizeQueue) init lateElaborationRun
    (fun s => s.blocked && s.hist.lost == 1) (by decide)
  simp only [Bool.and_eq_true, beq_iff_eq] at hp
  refine ⟨s, hs, (receives_again_iff sizeQueue s ⟨_, hs⟩).mpr ⟨?_, ?_⟩⟩
  · intro hx
    simp [blocked, hx] at hp
  · rw [hp.2]
    decide

/-- The elaboration thread waits, and the network thread is about to ask for a slot. -/
def idle (s : Pipeline) : Bool :=
  match s.elaboration, s.network with
  | .waiting, .nextNqnodeIn => true
  | _, _ => false

/-- The elaboration thread starts after `SIZE_QUEUE - 1` datagrams were received and signalled. -/
def startupBacklogRun : List PipelineLabel :=
  (List.replicate 99 (receive [] 0)).flatten ++ [.elaboration .condWait]

/-- A backlog built up before the elaboration thread first waits fills the queue for ever. -/
theorem wedged_after_startup :
    ¬ (∀ s, Lts.Reachable (step sizeQueue) init s → s.network ≠ .exit →
        ∃ t, Lts.Reachable (step sizeQueue) s t ∧ s.hist.reserved < t.hist.received.length) ∧
      ∃ s, Lts.Reachable (step sizeQueue) init s ∧ s.Wedged sizeQueue := by
  obtain ⟨s, hs, hp⟩ := Lts.exists_run_of_map (step sizeQueue) init startupBacklogRun
    (fun s => s.idle && s.hist.lost == 99) (by decide +kernel)
  simp only [Bool.and_eq_true, beq_iff_eq] at hp
  obtain ⟨hpc, hl⟩ := hp
  unfold idle at hpc
  split at hpc <;> [rename_i hw hn; cases hpc]
  have hI := inv_of_reachable sizeQueue.pos ⟨_, hs⟩
  have hle : (sizeQueue : ℕ) ≤ s.hist.lost + 1 := by rw [hl]; decide
  have hx : s.network ≠ .exit := by simp [hn]
  have hr := hI.reserved
  simp only [hn, NetPc.holding] at hr
  constructor
  · intro hall
    obtain ⟨t, ht, hlt⟩ := hall s ⟨_, hs⟩ hx
    rw [hI.stuck_run hle ht] at hlt
    omega
  · obtain ⟨-, -, hfull⟩ := hI.stuck hle hx
    refine ⟨s, ⟨_, hs⟩, ?_, hn, hr, hw⟩
    rw [hI.counts.inPtr, hI.counts.outPtr, Ring.full_iff hI.counts.le hI.counts.lt]
    exact hfull

end Pipeline

end Afdx
