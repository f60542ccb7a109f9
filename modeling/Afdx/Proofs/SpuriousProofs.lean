import Afdx.Proofs.WakeupProofs

/-!
# Spurious wakeups

The only thing that keeps the elaboration thread from a slot that is reserved and not yet received is
`pthread_cond_wait`, without a predicate. A spurious wakeup does no harm as long as it only makes up for a
signal that was lost; any other one lets the elaboration thread have a slot too early.
-/

namespace Afdx

namespace Pipeline

variable {n : ℕ} {s t : Pipeline}

/-! ## The number of lost signals does not matter to the steps -/

/-- The state with `network_thread` elsewhere and `k` signals lost. -/
def shadow (net : NetPc) (k : ℕ) (s : Pipeline) : Pipeline :=
  { s with network := net, hist := { s.hist with lost := k } }

theorem elabStep_shadow (net : NetPc) (k : ℕ) (s : Pipeline) (l : ElabLabel) :
    elabStep n (shadow net k s) l = (elabStep n s l).map (shadow net k) := by
  obtain ⟨queue, network, elaboration, intdata, hist⟩ := s
  cases l with
  | semWait => cases elaboration <;> simp [elabStep, shadow, Function.comp_def]
  | loadIdentifier => rcases elaboration with _ | _ | _ | _ | (_ | _) | _ | _ | _ | _ <;> rfl
  | assign beyond => rcases elaboration with _ | _ | _ | _ | _ | _ | ⟨_, _ | _⟩ | _ | _ <;> rfl
  | _ => cases elaboration <;> rfl

theorem netStep_shadow (k : ℕ) {l : NetLabel} (h : netStep n s l = some t) :
    ∃ k', netStep n (shadow s.network k s) l = some (shadow t.network k' t) := by
  cases l with
  | wakeup =>
    simp only [netStep] at h
    split at h <;> [rename_i hpc; cases h]
    obtain rfl := Option.some.inj h
    unfold signal
    split
    · rename_i hw
      exact ⟨k, by simp [netStep, shadow, hpc, signal, hw]⟩
    · rename_i hw
      exact ⟨k + 1, by simp [netStep, shadow, hpc, signal]⟩
  | _ =>
    refine ⟨k, ?_⟩
    simp only [netStep, shadow] at h ⊢
    (repeat' split at h) <;> cases h <;> simp_all

/-- The elaboration thread does not touch the place of `network_thread`. -/
theorem elabStep_network {l : ElabLabel} (h : elabStep n s l = some t) : t.network = s.network := by
  have hf := elabStep_shadow (n := n) s.network s.hist.lost s l
  have hs : shadow s.network s.hist.lost s = s := rfl
  rw [hs, h, Option.map_some, Option.some.injEq] at hf
  rw [hf]
  rfl

/-- A step of either thread, with another number of lost signals. -/
theorem step_shadow (k : ℕ) {l : PipelineLabel} (h : step n s l = some t) :
    ∃ k', step n (shadow s.network k s) l = some (shadow t.network k' t) := by
  obtain ⟨hx, ⟨l, rfl, hs⟩ | ⟨l, rfl, hs⟩⟩ := step_eq_some h
  · obtain ⟨k', hk⟩ := netStep_shadow k hs
    exact ⟨k', step_network hk⟩
  · have hnet : t.network = s.network := elabStep_network hs
    refine ⟨k, step_elaboration hx ?_⟩
    rw [elabStep_shadow, hs, Option.map_some, hnet]

/-! ## Runs whose spurious wakeups make up for lost signals -/

/-- A spurious wakeup happens only while a node that is received and signalled is not yet disposed. -/
def backlogged (s : Pipeline) : SpuriousLabel → Bool
  | .spurious => s.hist.disposed + s.network.unsignalled < s.hist.received.length
  | .pipeline _ => true

/-- The invariant of the pipeline but for the number of lost signals: `k` of them are not yet made up
    for by a spurious wakeup. -/
def BacklogInv (n : ℕ) (s : Pipeline) : Prop := ∃ k, Inv n (shadow s.network k s)

/-- A wakeup that makes up for a lost signal. -/
theorem Inv.spurious {k : ℕ} (hI : Inv n (shadow s.network (k + 1) s)) (hw : s.elaboration = .waiting) :
    Inv n (shadow s.network k { s with elaboration := .semWait }) := by
  have hrc := hI.received
  have hp := hI.processed
  have hsem := hI.semaphore
  simp only [shadow, hw, ElabPc.busy, ElabPc.begun, ElabPc.pastSem] at hrc hp hsem
  exact
    { hI with
      received := by simp only [shadow, ElabPc.busy]; omega
      processed := by simpa [shadow, ElabPc.begun] using hp
      semaphore := by simpa [shadow, ElabPc.pastSem] using hsem
      node := by simp [shadow, ElabPc.node]
      noFault := by simp [shadow] }

theorem spuriousStep_eq_some {l : SpuriousLabel} (h : spuriousStep n s l = some t) :
    (∃ l', l = .pipeline l' ∧ step n s l' = some t) ∨
      l = .spurious ∧ s.network ≠ .exit ∧ s.elaboration = .waiting ∧
        t = { s with elaboration := .semWait } := by
  cases l with
  | pipeline l => exact .inl ⟨l, rfl, h⟩
  | spurious =>
    simp only [spuriousStep] at h
    split at h <;> cases h
    rename_i hw hx
    exact .inr ⟨rfl, hx, hw, rfl⟩

theorem BacklogInv.step (hB : BacklogInv n s) {l : SpuriousLabel} (hok : backlogged s l = true)
    (h : spuriousStep n s l = some t) : BacklogInv n t := by
  obtain ⟨k, hI⟩ := hB
  rcases spuriousStep_eq_some h with ⟨l, rfl, hs⟩ | ⟨rfl, -, hw, rfl⟩
  · obtain ⟨k', hk⟩ := step_shadow k hs
    exact ⟨k', hI.step hk⟩
  · have hrc := hI.received
    have hlt := of_decide_eq_true hok
    simp only [shadow, hw, ElabPc.busy] at hrc
    obtain ⟨k, rfl⟩ : ∃ j, k = j + 1 := Nat.exists_eq_add_one.mpr (by omega)
    exact ⟨k, hI.spurious hw⟩

theorem backlogInv_of_reachable (hn : 0 < n)
    (h : Lts.Reachable (Lts.restrict (spuriousStep n) backlogged) init s) : BacklogInv n s :=
  h.invariant (I := BacklogInv n) ⟨0, inv_init hn⟩ fun _ _ _ hB hr =>
    have ⟨hok, hs⟩ := Lts.restrict_eq_some.mp hr
    hB.step hok hs

/-! ## What the elaboration thread gets -/

/-- The node that the elaboration thread has is a slot into which a datagram was received after the slot
    was last handed out, unaltered since; and a slot that it gives back has been received. -/
def NodesReceived (n : ℕ) (s : Pipeline) : Prop :=
  (∀ p ∈ s.elaboration.node, ∃ slot k, p = some slot ∧ slot = k % n ∧
    s.receivedNodes[k]? = some (s.queue.nodes slot) ∧ ∀ r < s.hist.reserved, r % n = slot → r ≤ k) ∧
  (s.elaboration = .dispose → s.queue.outPtr = s.hist.disposed % n ∧
    s.hist.disposed < s.hist.received.length)

theorem Inv.nodesReceived (hI : Inv n s) : NodesReceived n s := by
  refine ⟨fun p hp => ?_, fun hpc => ⟨hI.counts.outPtr, hI.disposed_lt (by simp [hpc, ElabPc.busy])⟩⟩
  have hb : s.elaboration.busy = 1 := by
    cases hpc : s.elaboration <;> simp [hpc, ElabPc.node, ElabPc.busy] at hp ⊢
  refine ⟨s.hist.disposed % n, s.hist.disposed, hI.node p hp, rfl, hI.node_contents hb, fun r hr hmod => ?_⟩
  by_contra hlt
  have hlt' := hI.counts.lt
  exact Ring.mod_ne_of_lt (n := n) (not_le.mp hlt) (by omega) hmod.symm

/-! ## Other spurious wakeups -/

theorem reachable_elaboration (hx : s.network ≠ .exit) {l : ElabLabel} (h : elabStep n s l = some t) :
    Lts.Reachable (spuriousStep n) s t :=
  .single (l := .pipeline (.elaboration l)) (step_elaboration hx h)

theorem reachable_network {l : NetLabel} (h : netStep n s l = some t) :
    Lts.Reachable (spuriousStep n) s t :=
  .single (l := .pipeline (.network l)) (step_network h)

/-- The elaboration thread is awake though everything received is disposed, and the semaphore lets it
    through: it gets a slot that is not received yet, or `NULL`. -/
theorem returns_early (hc : s.queue.Counts n s.hist.reserved s.hist.disposed)
    (hw : s.elaboration = .semWait) (hx : s.network ≠ .exit)
    (hr : s.hist.received.length ≤ s.hist.disposed) (hnr : 0 < s.queue.nrNodesQueue) :
    ∃ u, Lts.Reachable (spuriousStep n) s u ∧ ¬ NodesReceived n u := by
  have h₁ : elabStep n s .semWait = some { s with
      queue := { s.queue with nrNodesQueue := s.queue.nrNodesQueue - 1 }
      elaboration := .nextNqnodeOut } := by
    simp only [elabStep, hw, semWait_of_pos hnr, Option.map_some]
  refine ⟨_, (reachable_elaboration hx h₁).trans
    (reachable_elaboration (l := .nextNqnodeOut) hx (by simp only [elabStep]; rfl)), fun hN => ?_⟩
  obtain ⟨slot, k, heq, hslot, hk, hlast⟩ := hN.1 _ rfl
  obtain ⟨hc₁, -⟩ := hc.semWait (semWait_of_pos hnr)
  rcases hc.le.eq_or_lt with he | hlt
  · rw [← he] at hc₁
    rw [nextNqnodeOut_of_eq hc₁] at heq
    cases heq
  · -- the slot is the oldest one handed out, and that has not been received
    rw [nextNqnodeOut_of_lt hc₁ hlt] at heq
    obtain rfl := Option.some.inj heq
    obtain ⟨hkl, -⟩ := List.getElem?_eq_some_iff.mp hk
    rw [receivedNodes_length] at hkl
    exact absurd (hlast s.hist.disposed hlt rfl) (not_le.mpr (hkl.trans_le hr))

/-- With nothing handed out either, the next call of `next_nqnode_in` lets the elaboration thread
    through. -/
theorem returns_early_of_empty (hc : s.queue.Counts n s.hist.reserved s.hist.disposed)
    (hw : s.elaboration = .semWait) (hnet : s.network = .nextNqnodeIn)
    (hr : s.hist.received.length ≤ s.hist.disposed) :
    ∃ u, Lts.Reachable (spuriousStep n) s u ∧ ¬ NodesReceived n u := by
  by_cases hlt : s.hist.reserved + 1 < s.hist.disposed + n
  · have hs : netStep n s .nextNqnodeIn = some { s with
        queue := { s.queue with
          inPtr := (s.hist.reserved + 1) % n
          nrNodesQueue := s.queue.nrNodesQueue + 1 }
        network := .recvfrom (s.hist.reserved % n)
        hist := { s.hist with reserved := s.hist.reserved + 1 } } := by
      simp only [netStep, hnet, nextNqnodeIn_of_lt hc hlt]
    obtain ⟨u, hu, hN⟩ := returns_early (n := n) (s := { s with
        queue := { s.queue with
          inPtr := (s.hist.reserved + 1) % n
          nrNodesQueue := s.queue.nrNodesQueue + 1 }
        network := .recvfrom (s.hist.reserved % n)
        hist := { s.hist with reserved := s.hist.reserved + 1 } })
      ⟨rfl, hc.outPtr, Nat.le_succ_of_le hc.le, hlt⟩ hw (by simp) hr (by simp)
    exact ⟨u, (reachable_network hs).trans hu, hN⟩
  · have he : s.hist.reserved + 1 = s.hist.disposed + n := by
      have hlt' := hc.lt
      omega
    have hs : netStep n s .nextNqnodeIn = some { s with
        queue := { s.queue with nrNodesQueue := s.queue.nrNodesQueue + 1 } } := by
      simp only [netStep, hnet, nextNqnodeIn_of_eq hc he]
    obtain ⟨u, hu, hN⟩ := returns_early (n := n) (s := { s with
        queue := { s.queue with nrNodesQueue := s.queue.nrNodesQueue + 1 } })
      ⟨hc.inPtr, hc.outPtr, hc.le, hc.lt⟩ hw (by simp [hnet]) hr (by simp)
    exact ⟨u, (reachable_network hs).trans hu, hN⟩

/-- While `network_thread` has its signal still to issue, the elaboration thread may dispose the node that
    the signal is for, and wait again. -/
theorem drain_before_signal (hI : Inv n (shadow .nextNqnodeIn 0 s)) (hnet : s.network = .wakeup) :
    ∃ t, Lts.Reachable (spuriousStep n) s t ∧ Inv n (shadow .nextNqnodeIn 0 t) ∧ t.network = .wakeup ∧
      t.elaboration = .waiting := by
  obtain ⟨t, hst, ⟨hIt, hnet⟩, hw⟩ := Lts.reaches_of_decreasing (spuriousStep n)
    (I := fun u => Inv n (shadow .nextNqnodeIn 0 u) ∧ u.network = .wakeup)
    (G := fun u => u.elaboration = .waiting) (fun u => toWaiting u.elaboration)
    (by
      rintro u ⟨hIu, hnet⟩ hw
      obtain ⟨l, v, hv, hlt, -⟩ := hIu.elaboration_progress hw
      have hIv := hIu.step (step_elaboration (by simp [shadow]) hv)
      rw [elabStep_shadow] at hv
      obtain ⟨w, hw', rfl⟩ := Option.map_eq_some_iff.mp hv
      exact ⟨.pipeline (.elaboration l), w, step_elaboration (by simp [hnet]) hw',
        ⟨hIv, (elabStep_network hw').trans hnet⟩, hlt⟩)
    s ⟨hI, hnet⟩
  exact ⟨t, hst, hIt, hnet, hw⟩

/-- A spurious wakeup with no lost signal to make up for. -/
theorem BacklogInv.returns_early (hB : BacklogInv n s) {l : SpuriousLabel} (hok : backlogged s l = false)
    (h : spuriousStep n s l = some t) : ∃ u, Lts.Reachable (spuriousStep n) t u ∧ ¬ NodesReceived n u := by
  obtain ⟨k, hI⟩ := hB
  rcases spuriousStep_eq_some h with ⟨l, rfl, -⟩ | ⟨rfl, hx, hw, rfl⟩
  · cases hok
  have hnot := of_decide_eq_false hok
  have hr := hI.reserved
  have hrc := hI.received
  have hsem := hI.semaphore
  have hp := hI.processed
  simp only [shadow, hw, ElabPc.busy, ElabPc.pastSem, ElabPc.begun] at hr hrc hsem hp
  have hc : s.queue.Counts n s.hist.reserved s.hist.disposed := hI.counts
  cases hnet : s.network with
  | exit => exact absurd hnet hx
  | nextNqnodeIn =>
    simp only [hnet, NetPc.unsignalled] at hrc hnot
    exact returns_early_of_empty hc rfl rfl (by simp only; omega)
  | wakeup =>
    simp only [hnet, NetPc.unsignalled, NetPc.holding] at hrc hnot hr
    have hI' : Inv n (shadow .nextNqnodeIn 0 { s with elaboration := .semWait }) :=
      { hI with
        reserved := by simpa [shadow, NetPc.holding] using hr
        received := by simp only [shadow, NetPc.unsignalled, ElabPc.busy]; omega
        processed := by simpa [shadow, ElabPc.begun] using hp
        semaphore := by simpa [shadow, ElabPc.pastSem] using hsem
        writing := by simp [shadow, NetPc.writing]
        node := by simp [shadow, ElabPc.node]
        noFault := by simp [shadow]
        copied := by simp [shadow, NetPc.writing] }
    obtain ⟨u, hu, hIu, hnetu, hwu⟩ := drain_before_signal hI' hnet
    rw [hnet] at hu
    have hru := hIu.received
    simp only [shadow, hwu, ElabPc.busy, NetPc.unsignalled] at hru
    have hs : netStep n u .wakeup = some { u with elaboration := .semWait, network := .nextNqnodeIn } := by
      simp only [netStep, hnetu, signal, hwu]
    obtain ⟨v, hv, hN⟩ := returns_early_of_empty (n := n)
      (s := { u with elaboration := .semWait, network := .nextNqnodeIn }) hIu.counts rfl rfl
      (by simp only; omega)
    exact ⟨v, (hu.trans (reachable_network hs)).trans hv, hN⟩
  | recvfrom _ | copying _ _ _ | setLastUpdate _ _ =>
    simp only [hnet, NetPc.unsignalled, NetPc.holding] at hrc hnot hr
    exact Pipeline.returns_early hc rfl (by simp) (by simp only; omega) (by simp only; omega)

/-- The elaboration thread gets only slots whose datagram is received, and gives back only such slots, in
    the runs whose spurious wakeups happen while a node that was received and signalled is not yet
    disposed. After any other spurious wakeup it can get a slot that is still being received. -/
theorem nodes_received_iff (n : ℕ+) :
    (∀ s, Lts.Reachable (Lts.restrict (spuriousStep n) backlogged) init s → NodesReceived n s) ∧
    ∀ s l t, Lts.Reachable (Lts.restrict (spuriousStep n) backlogged) init s →
      spuriousStep n s l = some t → backlogged s l = false →
      ∃ u, Lts.Reachable (spuriousStep n) t u ∧ ¬ NodesReceived n u := by
  refine ⟨fun s h => ?_, fun s l t h hs hok => (backlogInv_of_reachable n.pos h).returns_early hok hs⟩
  obtain ⟨k, hI⟩ := backlogInv_of_reachable n.pos h
  exact hI.nodesReceived

/-- A datagram arrives before the elaboration thread first waits; a spurious wakeup makes up for the lost
    signal. -/
def madeUpRun : List SpuriousLabel :=
  (receive [9] 7 ++ [PipelineLabel.elaboration .condWait]).map .pipeline ++ .spurious ::
    [PipelineLabel.elaboration .semWait, .elaboration .nextNqnodeOut].map .pipeline

theorem nodes_received_madeUpRun :
    ∃ s, Lts.run (Lts.restrict (spuriousStep sizeQueue) backlogged) init madeUpRun = some s ∧
      s.elaboration.node = some (some 0) ∧ NodesReceived sizeQueue s := by
  obtain ⟨s, hs, hp⟩ := Lts.exists_run_of_map (Lts.restrict (spuriousStep sizeQueue) backlogged) init
    madeUpRun (fun s => decide (s.elaboration.node = some (some 0))) (by decide)
  exact ⟨s, hs, of_decide_eq_true hp, (nodes_received_iff sizeQueue).1 s ⟨_, hs⟩⟩

/-- The elaboration thread waits, and wakes up while `network_thread` is in `recvfrom`. -/
def earlyRun : List SpuriousLabel :=
  [PipelineLabel.network .nextNqnodeIn, .elaboration .condWait].map .pipeline ++ .spurious ::
    [PipelineLabel.elaboration .semWait, .elaboration .nextNqnodeOut].map .pipeline

/-- The elaboration thread has slot 0, and no datagram has been received. -/
theorem unreceived_after_earlyRun :
    ∃ s, Lts.run (spuriousStep sizeQueue) init earlyRun = some s ∧ s.elaboration.node = some (some 0) ∧
      s.network.writing = some 0 ∧ s.hist.received.length = 0 ∧ ¬ NodesReceived sizeQueue s := by
  obtain ⟨s, hs, hp⟩ := Lts.exists_run_of_map (spuriousStep sizeQueue) init earlyRun
    (fun s => decide (s.elaboration.node = some (some 0) ∧ s.network.writing = some 0 ∧
      s.hist.received.length = 0)) (by decide)
  obtain ⟨hnode, hw, hr⟩ := of_decide_eq_true hp
  refine ⟨s, hs, hnode, hw, hr, fun hN => ?_⟩
  obtain ⟨slot, k, -, -, hk, -⟩ := hN.1 _ hnode
  obtain ⟨hlt, -⟩ := List.getElem?_eq_some_iff.mp hk
  rw [receivedNodes_length, hr] at hlt
  omega

end Pipeline

end Afdx
