import Afdx.Pipeline
import Afdx.Proofs.QueueProofs

/-!
# The invariant of the packet pipeline

The counts that the source keeps nowhere: the slots reserved, received, signalled and disposed, and
how they differ at each point of the two loops. Every wakeup of the elaboration thread disposes one
slot, so `disposed + lost` follows `received`; the contents of a slot that is received and not
disposed are those `network_thread` left in it.
-/

namespace Afdx

/-- Slots reserved and not yet received. -/
def NetPc.holding : NetPc → ℕ
  | recvfrom _ | copying _ _ _ | setLastUpdate _ _ | exit => 1
  | nextNqnodeIn | wakeup => 0

/-- Slots received and not yet signalled. -/
def NetPc.unsignalled : NetPc → ℕ
  | wakeup => 1
  | _ => 0

/-- The slot `network_thread` writes. -/
def NetPc.writing : NetPc → Option ℕ
  | recvfrom slot | copying slot _ _ | setLastUpdate slot _ => some slot
  | _ => none

/-- What `recvfrom` has put into the slot so far. -/
def NetPc.copied : NetPc → List UInt8
  | copying _ dg off => dg.take off
  | setLastUpdate _ dg => dg
  | _ => []

/-- Wakeups of the elaboration thread that have not yet led to a disposal. -/
def ElabPc.busy : ElabPc → ℕ
  | condWait | waiting => 0
  | _ => 1

/-- Calls of `sem_wait` that have not yet led to a disposal. -/
def ElabPc.pastSem : ElabPc → ℕ
  | condWait | waiting | semWait => 0
  | _ => 1

/-- Nodes whose processing has begun and that are not yet disposed. -/
def ElabPc.begun : ElabPc → ℕ
  | loadEngineId _ | assign _ _ | dispose => 1
  | _ => 0

/-- The node the elaboration thread reads, `some none` being `NULL`. -/
def ElabPc.node : ElabPc → Option (Option ℕ)
  | loadIdentifier node => some node
  | loadEngineId slot | assign slot _ => some (some slot)
  | _ => none

/-- The first bytes of `p` are those of the datagram `dg`, as far as a packet reaches. -/
def Carries (dg : List UInt8) (p : AfdxPacket) : Prop :=
  ∀ i : Fin sizeofPacket, (h : i.val < dg.length) → p i = dg[i.val]

namespace Pipeline

/-- The nodes of the received datagrams, in the order of reception. -/
def receivedNodes (s : Pipeline) : List Nqnode := s.hist.received.map Reception.node

/-- The invariant of the pipeline with `SIZE_QUEUE = n`. -/
structure Inv (n : ℕ) (s : Pipeline) : Prop where
  counts : s.queue.Counts n s.hist.reserved s.hist.disposed
  reserved : s.hist.reserved = s.hist.received.length + s.network.holding
  received : s.hist.received.length =
    s.hist.disposed + s.elaboration.busy + s.hist.lost + s.network.unsignalled
  processed : s.hist.processed.length = s.hist.disposed + s.elaboration.begun
  semaphore : s.hist.reserved ≤ s.queue.nrNodesQueue + s.hist.disposed + s.elaboration.pastSem
  writing : ∀ slot ∈ s.network.writing, slot = s.hist.received.length % n
  node : ∀ p ∈ s.elaboration.node, p = some (s.hist.disposed % n)
  noFault : s.elaboration ≠ .fault
  contents : ∀ k, s.hist.disposed ≤ k → (h : k < s.receivedNodes.length) →
    s.queue.nodes (k % n) = s.receivedNodes[k]
  order : s.hist.processed <+: s.receivedNodes
  copied : ∀ slot ∈ s.network.writing, Carries s.network.copied (s.queue.nodes slot).packet
  carried : ∀ r ∈ s.hist.received, Carries r.datagram r.node.packet

theorem receivedNodes_length (s : Pipeline) : s.receivedNodes.length = s.hist.received.length := by
  rw [receivedNodes, List.length_map]

variable {n : ℕ} {s t : Pipeline}

/-- A prefix grows by the element that follows it. -/
theorem prefix_concat_of_getElem? {α : Type*} {l₁ l₂ : List α} {a : α} (h : l₁ <+: l₂)
    (ha : l₂[l₁.length]? = some a) : l₁ ++ [a] <+: l₂ := by
  obtain ⟨l, rfl⟩ := h
  cases l with
  | nil => simp at ha
  | cons b l =>
    have hb : b = a := by simpa using ha
    exact ⟨l, by rw [hb, List.append_assoc, List.singleton_append]⟩

theorem inv_init (hn : 0 < n) : Inv n init where
  counts := initQueue_counts hn
  reserved := rfl
  received := rfl
  processed := rfl
  semaphore := le_rfl
  writing := by simp [init, NetPc.writing]
  node := by simp [init, ElabPc.node]
  noFault := by simp [init]
  contents := by simp [init, receivedNodes]
  order := by simp [init, receivedNodes]
  copied := by simp [init, NetPc.writing]
  carried := by simp [init]

/-- The slot being written is not one that is received and not disposed. -/
theorem Inv.writing_ne (hI : Inv n s) {slot : ℕ} (hw : slot ∈ s.network.writing) {k : ℕ}
    (hd : s.hist.disposed ≤ k) (hk : k < s.hist.received.length) : k % n ≠ slot := by
  have hr := hI.reserved
  have hlt := hI.counts.lt
  have hh : s.network.holding = 1 := by
    cases h : s.network <;> simp [h, NetPc.writing, NetPc.holding] at hw ⊢
  rw [hI.writing slot hw]
  exact Ring.mod_ne_of_lt hk (by omega)

/-! ## The steps of `network_thread` -/

theorem Inv.nextNqnodeIn (hI : Inv n s) (hs : netStep n s .nextNqnodeIn = some t) : Inv n t := by
  simp only [netStep] at hs
  split at hs <;> [rename_i hpc; cases hs]
  have hr := hI.reserved
  have hsem := hI.semaphore
  simp only [hpc, NetPc.holding] at hr
  by_cases hlt : s.hist.reserved + 1 < s.hist.disposed + n
  · rw [nextNqnodeIn_of_lt hI.counts hlt] at hs
    obtain rfl := Option.some.inj hs
    have hle := hI.counts.le
    exact
      { hI with
        counts := ⟨rfl, hI.counts.outPtr, by simp only; omega, hlt⟩
        reserved := by simp only [NetPc.holding]; omega
        received := by simpa [hpc, NetPc.unsignalled] using hI.received
        semaphore := by simp only; omega
        writing := by simp [NetPc.writing, hr]
        copied := by simp [NetPc.writing, NetPc.copied, Carries] }
  · have he : s.hist.reserved + 1 = s.hist.disposed + n := by have := hI.counts.lt; omega
    rw [nextNqnodeIn_of_eq hI.counts he] at hs
    obtain rfl := Option.some.inj hs
    exact
      { hI with
        counts := ⟨hI.counts.inPtr, hI.counts.outPtr, hI.counts.le, hI.counts.lt⟩
        semaphore := by simp only; omega }

/-- The network thread goes on with the slot that it holds, if any. -/
theorem Inv.gotoNet (hI : Inv n s) {pc : NetPc} (hhold : pc.holding = s.network.holding)
    (hsig : pc.unsignalled = s.network.unsignalled) (hwriting : ∀ slot ∈ pc.writing, slot ∈ s.network.writing)
    (hcopied : ∀ slot ∈ pc.writing, Carries pc.copied (s.queue.nodes slot).packet) :
    Inv n { s with network := pc } :=
  { hI with
    counts := hI.counts
    reserved := by
      rw [hhold]
      exact hI.reserved
    received := by
      rw [hsig]
      exact hI.received
    writing := fun slot hw => hI.writing slot (hwriting slot hw)
    copied := hcopied }

theorem Inv.recvfrom (hI : Inv n s) {dg : List UInt8} (hs : netStep n s (.recvfrom dg) = some t) :
    Inv n t := by
  simp only [netStep] at hs
  split at hs <;> [rename_i slot hpc; cases hs]
  obtain rfl := Option.some.inj hs
  exact hI.gotoNet (by rw [hpc]; rfl) (by rw [hpc]; rfl) (by simp [hpc, NetPc.writing])
    (by simp [NetPc.writing, NetPc.copied, Carries])

theorem Inv.recvError (hI : Inv n s) (hs : netStep n s .recvError = some t) : Inv n t := by
  simp only [netStep] at hs
  split at hs <;> [rename_i slot hpc; cases hs]
  obtain rfl := Option.some.inj hs
  exact hI.gotoNet (by rw [hpc]; rfl) (by rw [hpc]; rfl) (by simp [NetPc.writing]) (by simp [NetPc.writing])

/-- A store into the slot being written leaves every received node as it was. -/
theorem Inv.contents_modify (hI : Inv n s) {slot : ℕ} (hw : slot ∈ s.network.writing)
    (f : Nqnode → Nqnode) (k : ℕ) (hd : s.hist.disposed ≤ k) (hk : k < s.receivedNodes.length) :
    (s.queue.modifyNode slot f).nodes (k % n) = s.receivedNodes[k] := by
  have hne := hI.writing_ne hw hd (s.receivedNodes_length ▸ hk)
  rw [Queue.modifyNode_of_ne hne]
  exact hI.contents k hd hk

theorem Inv.copyByte (hI : Inv n s) (hs : netStep n s .copyByte = some t) : Inv n t := by
  simp only [netStep] at hs
  split at hs <;> [rename_i slot dg off hpc; cases hs]
  split at hs <;> [rename_i hoff; cases hs]
  obtain rfl := Option.some.inj hs
  have hw : slot ∈ s.network.writing := by simp [hpc, NetPc.writing]
  exact
    { hI with
      counts := ⟨hI.counts.inPtr, hI.counts.outPtr, hI.counts.le, hI.counts.lt⟩
      reserved := by simpa [hpc, NetPc.holding] using hI.reserved
      received := by simpa [hpc, NetPc.unsignalled] using hI.received
      writing := by simpa [hpc, NetPc.writing] using hI.writing
      contents := hI.contents_modify hw _
      copied := by
        have hc := hI.copied slot hw
        simp only [hpc, NetPc.copied, Carries] at hc
        simp only [NetPc.writing, NetPc.copied, Option.mem_def, Option.some.injEq]
        rintro _ rfl i hi
        by_cases hio : i = ⟨off, hoff.1⟩
        · subst hio
          simp [writeByte, hoff.2]
        · have hne : i.val ≠ off := fun he => hio (Fin.ext he)
          have hlt : i.val < (dg.take off).length := by simp at hi ⊢; omega
          simpa [writeByte, hio] using hc i hlt }

theorem Inv.recvReturn (hI : Inv n s) (hs : netStep n s .recvReturn = some t) : Inv n t := by
  simp only [netStep] at hs
  split at hs <;> [rename_i slot dg off hpc; cases hs]
  split at hs <;> [cases hs; rename_i hoff]
  obtain rfl := Option.some.inj hs
  have hc := hI.copied slot (by simp [hpc, NetPc.writing])
  simp only [hpc, NetPc.copied, Carries] at hc
  refine hI.gotoNet (by rw [hpc]; rfl) (by rw [hpc]; rfl) (by simp [hpc, NetPc.writing]) ?_
  simp only [NetPc.writing, NetPc.copied, Option.mem_def, Option.some.injEq]
  rintro _ rfl i hi
  -- all bytes that reach the packet have been copied
  have hlt : i.val < (dg.take off).length := by simp; omega
  simpa using hc i hlt

theorem Inv.setLastUpdate (hI : Inv n s) {time : ℤ}
    (hs : netStep n s (.setLastUpdate time) = some t) : Inv n t := by
  simp only [netStep] at hs
  split at hs <;> [rename_i slot dg hpc; cases hs]
  obtain rfl := Option.some.inj hs
  have hw : slot ∈ s.network.writing := by simp [hpc, NetPc.writing]
  have hslot := hI.writing slot hw
  have hc := hI.copied slot hw
  simp only [hpc, NetPc.copied] at hc
  have hr := hI.reserved
  have hrc := hI.received
  simp only [hpc, NetPc.holding, NetPc.unsignalled] at hr hrc
  exact
    { hI with
      counts := ⟨hI.counts.inPtr, hI.counts.outPtr, hI.counts.le, hI.counts.lt⟩
      reserved := by simpa [NetPc.holding] using hr
      received := by simp [NetPc.unsignalled]; omega
      writing := by simp [NetPc.writing]
      contents := by
        intro k hd hk
        by_cases hlast : k < s.hist.received.length
        · have hk' : k < s.receivedNodes.length := by rwa [receivedNodes_length]
          have := hI.contents_modify hw (fun node => { node with lastUpdate := time }) k hd hk'
          simpa [receivedNodes, List.getElem_append, hlast] using this
        · have hke : k = s.hist.received.length := by
            simp [receivedNodes] at hk; omega
          simp [receivedNodes, hke, hslot]
      order := by
        rw [receivedNodes, List.map_append]
        exact hI.order.trans (List.prefix_append _ _)
      copied := by simp [NetPc.writing]
      carried := by
        intro r hm
        rcases List.mem_append.mp hm with hm | hm
        · exact hI.carried r hm
        · rw [List.mem_singleton.mp hm]
          simpa using hc }

/-- `wakeup_elaboration_thread`: either the signal starts one more disposal or it is lost. -/
theorem Inv.wakeup (hI : Inv n s) (hs : netStep n s .wakeup = some t) : Inv n t := by
  simp only [netStep] at hs
  split at hs <;> [rename_i hpc; cases hs]
  obtain rfl := Option.some.inj hs
  have hr := hI.reserved
  have hrc := hI.received
  simp only [hpc, NetPc.holding, NetPc.unsignalled] at hr hrc
  simp only [signal]
  split
  · rename_i hw
    have hp := hI.processed
    have hsem := hI.semaphore
    simp only [hw, ElabPc.busy, ElabPc.begun, ElabPc.pastSem] at hrc hp hsem
    exact
      { hI with
        reserved := by simpa [NetPc.holding] using hr
        received := by simp only [NetPc.unsignalled, ElabPc.busy]; omega
        processed := by simpa [ElabPc.begun] using hp
        semaphore := by simpa [ElabPc.pastSem] using hsem
        writing := by simp [NetPc.writing]
        node := by simp [ElabPc.node]
        noFault := by simp
        copied := by simp [NetPc.writing] }
  · exact
      { hI with
        reserved := by simpa [NetPc.holding] using hr
        received := by simp only [NetPc.unsignalled]; omega
        writing := by simp [NetPc.writing]
        copied := by simp [NetPc.writing] }

/-! ## The steps of `elaboration_thread` -/

/-- The elaboration thread goes on with as many nodes as before in its hands. -/
theorem Inv.goto (hI : Inv n s) {pc : ElabPc} (data : Intdata) (log : List (Nqnode × Assignment))
    (hbusy : pc.busy = s.elaboration.busy) (hsem : pc.pastSem = s.elaboration.pastSem)
    (hbegun : pc.begun = s.elaboration.begun) (hnode : ∀ p ∈ pc.node, p = some (s.hist.disposed % n))
    (hfault : pc ≠ .fault) :
    Inv n { s with elaboration := pc, intdata := data, hist := { s.hist with executed := log } } :=
  { hI with
    counts := hI.counts
    received := by
      rw [hbusy]
      exact hI.received
    processed := by
      rw [hbegun]
      exact hI.processed
    semaphore := by
      rw [hsem]
      exact hI.semaphore
    node := hnode
    noFault := hfault }

theorem Inv.condWait (hI : Inv n s) (hs : elabStep n s .condWait = some t) : Inv n t := by
  simp only [elabStep] at hs
  split at hs <;> [rename_i hpc; cases hs]
  obtain rfl := Option.some.inj hs
  exact hI.goto s.intdata s.hist.executed (by rw [hpc]; rfl) (by rw [hpc]; rfl) (by rw [hpc]; rfl)
    (by simp [ElabPc.node]) (by simp)

theorem Inv.semWait (hI : Inv n s) (hs : elabStep n s .semWait = some t) : Inv n t := by
  simp only [elabStep] at hs
  split at hs <;> [rename_i hpc; cases hs]
  obtain ⟨q, hq, rfl⟩ := Option.map_eq_some_iff.mp hs
  obtain ⟨hcounts, -⟩ := hI.counts.semWait hq
  obtain ⟨hpos, rfl⟩ := semWait_eq_some hq
  have hsem := hI.semaphore
  simp only [hpc, ElabPc.pastSem] at hsem
  exact
    { hI with
      counts := hcounts
      received := by simpa [hpc, ElabPc.busy] using hI.received
      processed := by simpa [hpc, ElabPc.begun] using hI.processed
      semaphore := by simp only [ElabPc.pastSem]; omega
      node := by simp [ElabPc.node]
      noFault := by simp }

/-- While the elaboration thread is busy, the oldest slot that is out has been received. -/
theorem Inv.disposed_lt (hI : Inv n s) (hb : s.elaboration.busy = 1) :
    s.hist.disposed < s.hist.received.length := by
  have := hI.received
  omega

theorem Inv.nextNqnodeOut (hI : Inv n s) (hs : elabStep n s .nextNqnodeOut = some t) :
    Inv n t := by
  simp only [elabStep] at hs
  split at hs <;> [rename_i hpc; cases hs]
  have hlt := hI.disposed_lt (by simp [hpc, ElabPc.busy])
  have hr := hI.reserved
  rw [nextNqnodeOut_of_lt hI.counts (by omega)] at hs
  obtain rfl := Option.some.inj hs
  exact hI.goto s.intdata s.hist.executed (by rw [hpc]; rfl) (by rw [hpc]; rfl) (by rw [hpc]; rfl)
    (by simp [ElabPc.node]) (by simp)

/-- The oldest slot that is out holds the next packet to be processed. -/
theorem Inv.node_contents (hI : Inv n s) (hb : s.elaboration.busy = 1) :
    s.receivedNodes[s.hist.disposed]? = some (s.queue.nodes (s.hist.disposed % n)) := by
  have hlt : s.hist.disposed < s.receivedNodes.length := by
    rw [receivedNodes_length]; exact hI.disposed_lt hb
  rw [hI.contents _ le_rfl hlt, List.getElem?_eq_getElem hlt]

theorem Inv.loadIdentifier (hI : Inv n s) (hs : elabStep n s .loadIdentifier = some t) :
    Inv n t := by
  simp only [elabStep] at hs
  split at hs <;> rename_i hpc
  · have := hI.node none (by simp [hpc, ElabPc.node])
    cases this
  · rename_i slot
    obtain rfl := Option.some.inj hs
    have hslot : some slot = some (s.hist.disposed % n) :=
      hI.node _ (by simp [hpc, ElabPc.node])
    rw [Option.some.injEq] at hslot
    have hb : s.elaboration.busy = 1 := by simp [hpc, ElabPc.busy]
    have hp : s.hist.processed.length = s.hist.disposed := by
      simpa [hpc, ElabPc.begun] using hI.processed
    have hrc := hI.received
    have hsem := hI.semaphore
    simp only [hpc, ElabPc.busy, ElabPc.pastSem] at hrc hsem
    exact
      { hI with
        received := by simp only; split_ifs <;> exact hrc
        processed := by
          rw [List.length_append, hp]
          simp only; split_ifs <;> rfl
        semaphore := by simp only; split_ifs <;> exact hsem
        node := by simp only; split_ifs <;> simp [ElabPc.node, hslot]
        noFault := by simp only; split_ifs <;> simp
        order := by
          have hnext := hI.node_contents hb
          rw [← hslot, ← hp] at hnext
          exact prefix_concat_of_getElem? hI.order hnext }
  · cases hs

theorem Inv.loadEngineId (hI : Inv n s) (hs : elabStep n s .loadEngineId = some t) : Inv n t := by
  simp only [elabStep] at hs
  split at hs <;> [rename_i slot hpc; cases hs]
  obtain rfl := Option.some.inj hs
  have hnode := hI.node
  rw [hpc] at hnode
  exact hI.goto s.intdata s.hist.executed (by rw [hpc]; rfl) (by rw [hpc]; rfl) (by rw [hpc]; rfl) hnode
    (by simp)

theorem Inv.assign (hI : Inv n s) {beyond : Intdata}
    (hs : elabStep n s (.assign beyond) = some t) : Inv n t := by
  simp only [elabStep] at hs
  split at hs <;> [rename_i slot a todo hpc; rename_i slot hpc; cases hs] <;>
    obtain rfl := Option.some.inj hs
  · have hnode := hI.node
    rw [hpc] at hnode
    exact hI.goto _ _ (by rw [hpc]; rfl) (by rw [hpc]; rfl) (by rw [hpc]; rfl) hnode (by simp)
  · exact hI.goto s.intdata s.hist.executed (by rw [hpc]; rfl) (by rw [hpc]; rfl) (by rw [hpc]; rfl)
      (by simp [ElabPc.node]) (by simp)

theorem Inv.dispose (hI : Inv n s) (hs : elabStep n s .dispose = some t) : Inv n t := by
  simp only [elabStep] at hs
  split at hs <;> [rename_i hpc; cases hs]
  obtain rfl := Option.some.inj hs
  have hlt := hI.disposed_lt (by simp [hpc, ElabPc.busy])
  have hr := hI.reserved
  have hrc := hI.received
  have hp := hI.processed
  have hsem := hI.semaphore
  simp only [hpc, ElabPc.busy, ElabPc.begun, ElabPc.pastSem] at hrc hp hsem
  rw [disposeLastNqnode_of_lt hI.counts (by omega)]
  have hlt' := hI.counts.lt
  exact
    { hI with
      counts := ⟨hI.counts.inPtr, rfl, by simp only; omega, by simp only; omega⟩
      received := by simp only [ElabPc.busy]; omega
      processed := by simpa [ElabPc.begun] using hp
      semaphore := by simp only [ElabPc.pastSem]; omega
      node := by simp [ElabPc.node]
      noFault := by simp
      contents := fun k hd hk => hI.contents k (Nat.le_of_succ_le hd) hk }

/-! ## Runs -/

theorem step_eq_some {l : PipelineLabel} (h : step n s l = some t) :
    s.network ≠ .exit ∧ ((∃ nl, l = .network nl ∧ netStep n s nl = some t) ∨
      ∃ el, l = .elaboration el ∧ elabStep n s el = some t) := by
  simp only [step] at h
  split at h
  · cases h
  · rename_i hne
    refine ⟨hne, ?_⟩
    cases l with
    | network l => exact .inl ⟨l, rfl, h⟩
    | elaboration l => exact .inr ⟨l, rfl, h⟩

/-- Every step of either thread keeps the invariant. -/
theorem Inv.step (hI : Inv n s) {l : PipelineLabel} (hs : step n s l = some t) : Inv n t := by
  obtain ⟨-, ⟨l, -, hs⟩ | ⟨l, -, hs⟩⟩ := step_eq_some hs
  · cases l with
    | nextNqnodeIn => exact hI.nextNqnodeIn hs
    | recvfrom dg => exact hI.recvfrom hs
    | recvError => exact hI.recvError hs
    | copyByte => exact hI.copyByte hs
    | recvReturn => exact hI.recvReturn hs
    | setLastUpdate time => exact hI.setLastUpdate hs
    | wakeup => exact hI.wakeup hs
  · cases l with
    | condWait => exact hI.condWait hs
    | semWait => exact hI.semWait hs
    | nextNqnodeOut => exact hI.nextNqnodeOut hs
    | loadIdentifier => exact hI.loadIdentifier hs
    | loadEngineId => exact hI.loadEngineId hs
    | assign beyond => exact hI.assign hs
    | dispose => exact hI.dispose hs

theorem inv_of_reachable (hn : 0 < n) (h : Lts.Reachable (Pipeline.step n) init s) : Inv n s :=
  h.invariant (inv_init hn) fun _ _ _ hI hs => hI.step hs

/-! ## Delivery -/

/-- While a packet is processed, its slot keeps the contents with which the processing began. -/
theorem Inv.last_processed (hI : Inv n s) (hb : s.elaboration.begun = 1) :
    s.hist.processed.getLast? = some (s.queue.nodes (s.hist.disposed % n)) := by
  have hbusy : s.elaboration.busy = 1 := by
    cases h : s.elaboration <;> simp [h, ElabPc.begun, ElabPc.busy] at hb ⊢
  have hlen := hI.processed
  have hnext := hI.node_contents hbusy
  obtain ⟨l, hl⟩ := hI.order
  rw [← hl, List.getElem?_append_left (by omega)] at hnext
  rw [List.getLast?_eq_getElem?, hlen, hb, Nat.add_sub_cancel, hnext]

/-- Delivery, for every interleaving and every sequence of datagrams: the packets processed are a
    prefix of the packets received, each received packet carries its datagram, the node being
    processed is unaltered since its processing began, `next_nqnode_out` never returns `NULL`, and
    `recvfrom` never writes the slot being processed. -/
theorem processed_prefix_received (n : ℕ+) (s : Pipeline)
    (h : Lts.Reachable (Pipeline.step n) init s) :
    s.hist.processed <+: s.receivedNodes ∧
    (∀ r ∈ s.hist.received, Carries r.datagram r.node.packet) ∧
    (∀ slot, s.elaboration.begun = 1 → s.elaboration.node = some (some slot) →
      s.hist.processed.getLast? = some (s.queue.nodes slot)) ∧
    s.elaboration ≠ .loadIdentifier none ∧ s.elaboration ≠ .fault ∧
    (∀ i j, s.network.writing = some i → s.elaboration.node = some (some j) → i ≠ j) := by
  have hI := inv_of_reachable n.pos h
  refine ⟨hI.order, hI.carried, ?_, ?_, hI.noFault, ?_⟩
  · intro slot hb hnode
    have hslot := Option.some.inj (hI.node _ hnode)
    rw [hslot]
    exact hI.last_processed hb
  · intro hpc
    have := hI.node none (by simp [hpc, ElabPc.node])
    cases this
  · intro i j hi hj hij
    have hb : s.elaboration.busy = 1 := by
      cases hpc : s.elaboration <;> simp [hpc, ElabPc.node, ElabPc.busy] at hj ⊢
    have hslot := Option.some.inj (hI.node _ hj)
    exact hI.writing_ne hi le_rfl (hI.disposed_lt hb) (hslot.symm.trans hij.symm)

/-- The steps of `network_thread` that receive one datagram into a free slot and signal. -/
def receive (dg : List UInt8) (time : ℤ) : List PipelineLabel :=
  [.network .nextNqnodeIn, .network (.recvfrom dg)] ++
    List.replicate (min dg.length sizeofPacket) (.network .copyByte) ++
    [.network .recvReturn, .network (.setLastUpdate time), .network .wakeup]

/-- An ADIRU packet that arrives while the elaboration thread waits is processed, and the next one is
    being received meanwhile. -/
def adiruRun : List PipelineLabel :=
  [.elaboration .condWait] ++ receive [1, 20, 0, 184, 11, 0, 0, 15, 0, 5, 0, 3, 0, 1, 0] 7 ++
    [.elaboration .semWait, .elaboration .nextNqnodeOut, .elaboration .loadIdentifier,
      .network .nextNqnodeIn, .network (.recvfrom [2]), .network .copyByte]

theorem processed_prefix_adiruRun :
    ∃ s, Lts.run (Pipeline.step sizeQueue) init adiruRun = some s ∧
      s.hist.processed.length = 1 ∧ s.hist.processed <+: s.receivedNodes := by
  obtain ⟨s, hs, hlen⟩ := Lts.exists_run_of_map (Pipeline.step sizeQueue) init adiruRun
    (fun s => s.hist.processed.length == 1) (by decide)
  exact ⟨s, hs, by simpa using hlen, (processed_prefix_received sizeQueue s ⟨_, hs⟩).1⟩

end Pipeline

end Afdx
