import Afdx.Proofs.IntdataProofs
import Afdx.Proofs.WakeupProofs
import Mathlib.Data.List.Basic

/-!
# What the processing of a datagram depends on

A slot of the queue is reused without being cleared, and the length that `recvfrom` returns is not looked
at. So the bytes of a packet past the end of its datagram are those that an earlier packet left in the slot.
The processing reads none of them exactly if the datagram holds its identifier and the whole payload that
the identifier announces.
-/

namespace Afdx

/-- The size of the payload that the identifier announces: `afdx_adiru_t`, `afdx_engine_t` or none. -/
def payloadSize (identifier : UInt8) : ℕ :=
  if identifier = packetTypeAdiru then 14 else if identifier = packetTypeEngine then 10 else 0

/-- The datagram holds an identifier and the payload that it announces. -/
def Complete (dg : List UInt8) : Prop := ∃ identifier ∈ dg.head?, payloadSize identifier < dg.length

/-- The node after the reception of a datagram at `time`. -/
def Nqnode.overlay (node : Nqnode) (dg : List UInt8) (time : ℤ) : Nqnode :=
  ⟨fun i => dg[i.val]?.getD (node.packet i), time⟩

variable {p q : Nqnode} {dg : List UInt8} {stray : Stray}

/-! ## Complete datagrams -/

theorem Carries.agree (hp : Carries dg p.packet) (hq : Carries dg q.packet) (i : Fin sizeofPacket)
    (hi : i.val < dg.length) : p.packet i = q.packet i := (hp i hi).trans (hq i hi).symm

/-- An ENGINE assignment reads the first eleven bytes of the packet only. -/
theorem EngineField.assign_congr (f : EngineField) (ht : p.lastUpdate = q.lastUpdate)
    (hb : ∀ i : Fin sizeofPacket, i.val < 11 → p.packet i = q.packet i) (e : IntdataEngine) :
    f.assign p e = f.assign q e := by
  have h₂ := hb 2 (by decide)
  have h₃ := hb 3 (by decide)
  have h₄ := hb 4 (by decide)
  have h₅ := hb 5 (by decide)
  have h₆ := hb 6 (by decide)
  have h₇ := hb 7 (by decide)
  have h₈ := hb 8 (by decide)
  have h₉ := hb 9 (by decide)
  have h₁₀ := hb 10 (by decide)
  cases f <;> simp only [assign, AfdxPacket.engineThrottle, AfdxPacket.engineRealThrust,
    AfdxPacket.engineOilTemp, AfdxPacket.engineOilPress, AfdxPacket.engineFuelPress,
    AfdxPacket.engineFlagStatus, AfdxPacket.engineFlagReverse, AfdxPacket.engineFlagFire,
    AfdxPacket.engineFlagMaintainance, ht, h₂, h₃, h₄, h₅, h₆, h₇, h₈, h₉, h₁₀]

/-- What the processing makes of two packets that carry the same complete datagram is the same. -/
theorem process_congr (hc : Complete dg) (hp : Carries dg p.packet) (hq : Carries dg q.packet)
    (ht : p.lastUpdate = q.lastUpdate) (data : Intdata) : p.process stray data = q.process stray data := by
  obtain ⟨identifier, hhead, hlen⟩ := hc
  have hagree := hp.agree hq
  have hid : p.packet.identifier = identifier ∧ q.packet.identifier = identifier := by
    have hpos : 0 < dg.length := by omega
    have hb : dg[0] = identifier := by
      rw [List.head?_eq_getElem?, List.getElem?_eq_getElem hpos] at hhead
      exact Option.some.inj hhead
    exact ⟨(hp 0 hpos).trans hb, (hq 0 hpos).trans hb⟩
  unfold payloadSize at hlen
  split_ifs at hlen with hA hE
  · -- all bytes are those of the datagram
    have heq : p = q := by
      obtain ⟨packet, time⟩ := p
      obtain ⟨packet', time'⟩ := q
      obtain rfl : packet = packet' := funext fun i => hagree i (i.isLt.trans_le hlen)
      obtain rfl : time = time' := ht
      rfl
    rw [heq]
  · have hid' : p.packet.engineId = q.packet.engineId := hagree 1 (by simp; omega)
    have hassign : p.assignments = q.assignments := by
      simp only [Nqnode.assignments, hid.1, hid.2, hid']
    unfold Nqnode.process
    rw [hassign]
    refine List.foldl_ext _ _ data fun data a ha => ?_
    obtain ⟨e, f, rfl⟩ : ∃ e f, a = .engine e f := by
      rcases Pipeline.mem_assignments ha with ⟨h, -⟩ | ⟨-, f, hf⟩
      · exact absurd (hid.2.symm.trans h) hA
      · exact ⟨_, f, hf⟩
    have hf := f.assign_congr ht fun i hi => hagree i (by omega)
    simp only [Assignment.store, Assignment.exec, Assignment.beyond, hf]
  · have hnil : p.assignments = [] ∧ q.assignments = [] := by
      simp only [Nqnode.assignments, hid.1, hid.2, if_neg hA, if_neg hE, and_self]
    simp only [Nqnode.process, hnil.1, hnil.2, List.foldl_nil]

/-! ## Short datagrams -/

/-- If the datagram holds the index of an engine record, it is in range. -/
def NamesRecord (dg : List UInt8) : Prop :=
  dg.head? = some packetTypeEngine → (dg.getD 1 0).toNat < nrEngines

/-- A slot that no datagram has been received into. -/
def emptyNode : Nqnode := initQueue.nodes 0

theorem process_of_unknown {node : Nqnode} (hA : node.packet.identifier ≠ packetTypeAdiru)
    (hE : node.packet.identifier ≠ packetTypeEngine) (stray : Stray) (data : Intdata) :
    node.process stray data = data := by
  simp only [Nqnode.process, Nqnode.assignments, if_neg hA, if_neg hE, List.foldl_nil]

/-- The yaw angle is stored from the last two bytes of an ADIRU packet. -/
theorem yaw_process {node : Nqnode} (h : node.packet.identifier = packetTypeAdiru) (stray : Stray)
    (data : Intdata) : (node.process stray data).attitude.yaw = node.packet.adiruYaw ∧
      (node.process stray data).attitude.lastUpdate = node.lastUpdate := by
  simp [Nqnode.process, Nqnode.assignments, h, adiruFields, Assignment.store, Assignment.exec,
    AdiruField.assign]

/-- A store out of range overwrites all engine records. -/
def strayRecord : Stray := fun _ _ e data => { data with engines := fun _ => e }

/-- The engine flags are stored from the last byte of an ENGINE packet, into a record that depends on the
    index only. -/
theorem exists_engineFlags_process (idEngine : UInt8) (stray : Stray)
    (hid : idEngine.toNat < nrEngines ∨ stray = strayRecord) :
    ∃ e : Fin nrEngines, ∀ node : Nqnode, node.packet.identifier = packetTypeEngine →
      node.packet.engineId = idEngine → ∀ data, ((node.process stray data).engines e).engineFlags =
        node.packet.engineFlagReverse * engineFReverse + node.packet.engineFlagFire * engineFOnFire +
          node.packet.engineFlagMaintainance * engineFMaint := by
  have hne : packetTypeEngine ≠ packetTypeAdiru := by decide
  by_cases hr : idEngine.toNat < nrEngines
  · refine ⟨⟨_, hr⟩, fun node h hn data => ?_⟩
    simp [Nqnode.process, Nqnode.assignments, h, hn, hne, engineFields, Assignment.store, Assignment.exec, hr,
      EngineField.assign]
  · refine ⟨0, fun node h hn data => ?_⟩
    rw [hid.resolve_left hr]
    simp [Nqnode.process, Nqnode.assignments, h, hn, hne, engineFields, Assignment.store, Assignment.exec, hr,
      EngineField.assign, Assignment.beyond, strayRecord]

/-- The datagram `old` leaves bytes in an empty slot that a later datagram `dg` does not replace and that
    its processing reads. -/
structure Stale (old dg : List UInt8) (stray : Stray) : Prop where
  harmless : (emptyNode.overlay old 0).process stray .init = .init
  read : ((emptyNode.overlay old 0).overlay dg 1).process stray .init ≠
    (emptyNode.overlay dg 1).process stray .init

theorem stale_nil (stray : Stray) : Stale [1] [] stray := by
  have hid : (emptyNode.overlay [1] 0).packet.identifier = packetTypeAdiru := rfl
  constructor
  · simp only [Nqnode.process, Nqnode.assignments, hid, if_true, adiruFields]
    rfl
  · intro h
    have hA : ((emptyNode.overlay [1] 0).overlay [] 1).packet.identifier = packetTypeAdiru := rfl
    have h' : (1 : ℤ) = 0 := (yaw_process hA stray .init).2.symm.trans
      (congrArg (fun data : Intdata => data.attitude.lastUpdate) h)
    cases h'

/-- Past the end of the datagram a byte is that of the older one. -/
theorem overlay_packet_of_le (dg : List UInt8) (i : Fin sizeofPacket) (hi : dg.length ≤ i.val) (node : Nqnode)
    (time : ℤ) : (node.overlay dg time).packet i = node.packet i := by
  simp [Nqnode.overlay, hi]

/-- The last byte of an ADIRU payload. -/
theorem stale_adiru {rest : List UInt8} (hlen : rest.length < 14) (stray : Stray) :
    Stale (List.replicate 14 0 ++ [1]) (packetTypeAdiru :: rest) stray := by
  constructor
  · exact process_of_unknown (by decide) (by decide) ..
  · intro h
    have h' := congrArg (fun data : Intdata => data.attitude.yaw) h
    have hold (node : Nqnode) := overlay_packet_of_le (packetTypeAdiru :: rest) 14 hlen node 1
    rw [(yaw_process rfl ..).1, (yaw_process rfl ..).1, AfdxPacket.adiruYaw, AfdxPacket.adiruYaw, hold,
      hold] at h'
    exact absurd (LittleEndian.i16_injective _ h') (by decide)

/-- The last byte of an ENGINE payload. -/
theorem stale_engine {rest : List UInt8} (hlen : rest.length < 10) (stray : Stray)
    (hid : (rest.getD 0 0).toNat < nrEngines ∨ stray = strayRecord) :
    Stale (List.replicate 10 0 ++ [4]) (packetTypeEngine :: rest) stray := by
  constructor
  · exact process_of_unknown (by decide) (by decide) ..
  · intro h
    have hold (node : Nqnode) := overlay_packet_of_le (packetTypeEngine :: rest) 10 hlen node 1
    have hide (node : Nqnode) (hn : node.packet 1 = 0) :
        (node.overlay (packetTypeEngine :: rest) 1).packet.engineId = rest.getD 0 0 := by
      simp [AfdxPacket.engineId, Nqnode.overlay, hn]
    obtain ⟨e, hflags⟩ := exists_engineFlags_process (rest.getD 0 0) stray hid
    have h' := congrArg (fun data : Intdata => (data.engines e).engineFlags) h
    have hA := hflags _ rfl (hide (emptyNode.overlay (List.replicate 10 0 ++ [4]) 0) rfl) .init
    have hB := hflags _ rfl (hide emptyNode rfl) .init
    rw [AfdxPacket.engineFlagReverse, AfdxPacket.engineFlagFire, AfdxPacket.engineFlagMaintainance,
      hold] at hA hB
    exact absurd (hA.symm.trans (h'.trans hB)) (by decide)

/-- For every datagram that is not complete there is such an older one. -/
theorem exists_stale (hc : ¬ Complete dg) (hstray : NamesRecord dg ∨ stray = strayRecord) :
    ∃ old, Stale old dg stray := by
  cases dg with
  | nil => exact ⟨_, stale_nil stray⟩
  | cons identifier rest =>
    have hlen : rest.length < payloadSize identifier := by
      by_contra hlen
      exact hc ⟨identifier, rfl, Nat.lt_succ_of_le (not_lt.mp hlen)⟩
    unfold payloadSize at hlen
    split_ifs at hlen with hA hE
    · subst hA
      exact ⟨_, stale_adiru hlen stray⟩
    · subst hE
      exact ⟨_, stale_engine hlen stray (hstray.imp_left fun h => h rfl)⟩
    · cases hlen

/-! ## The processing of a packet -/

/-- A packet is being processed. -/
def ElabPc.processing : ElabPc → Bool
  | loadIdentifier (some _) | loadEngineId _ | assign _ _ | dispose => true
  | _ => false

namespace Pipeline

variable {n : ℕ} {s t : Pipeline}

/-- The assignments to be made before the packet in processing is disposed. -/
def pending (s : Pipeline) : List (Nqnode × Assignment) :=
  match s.elaboration with
  | .loadIdentifier (some slot) => (s.queue.nodes slot).writes
  | _ => s.remaining

/-- What `intdata` will be when the packet in processing is disposed. -/
def outcome (stray : Stray) (s : Pipeline) : Intdata :=
  s.pending.foldl (fun data w => w.2.store stray w.1 data) s.intdata

/-- The packet in processing is not disposed by this step. -/
def beforeDispose (_ : Pipeline) : PipelineLabel → Bool
  | .elaboration .dispose => false
  | _ => true

theorem step_of_strayStep {l : PipelineLabel} (h : strayStep stray n s l = some t) :
    ∃ l', step n s l' = some t := by
  unfold strayStep at h
  split at h <;> exact ⟨_, h⟩

theorem inv_of_strayStep (hn : 0 < n) (h : Lts.Reachable (strayStep stray n) init s) : Inv n s :=
  h.invariant (inv_init hn) fun _ _ _ hI hs => by
    obtain ⟨l, hs⟩ := step_of_strayStep hs
    exact hI.step hs

/-- A step of either thread, with what an assignment out of range leaves. -/
theorem strayStep_eq_some {l : PipelineLabel} (h : strayStep stray n s l = some t) :
    (∃ nl, l = .network nl ∧ netStep n s nl = some t) ∨
      (∃ data, l = .elaboration (.assign data) ∧ elabStep n s (.assign (s.beyond stray)) = some t) ∨
      ∃ el, l = .elaboration el ∧ (∀ data, el ≠ .assign data) ∧ elabStep n s el = some t := by
  unfold strayStep at h
  split at h
  · obtain ⟨-, ⟨_, hl, -⟩ | ⟨_, hl, hs⟩⟩ := step_eq_some h <;> cases hl
    exact .inr (.inl ⟨_, rfl, hs⟩)
  · rename_i hne
    obtain ⟨-, ⟨nl, rfl, hs⟩ | ⟨el, rfl, hs⟩⟩ := step_eq_some h
    · exact .inl ⟨nl, rfl, hs⟩
    · exact .inr (.inr ⟨el, rfl, fun data he => hne data (by rw [he]), hs⟩)

theorem Inv.pending_netStep (hI : Inv n s) {l : NetLabel} (hs : netStep n s l = some t)
    (hpc : t.elaboration = s.elaboration) : t.pending = s.pending := by
  unfold pending
  rw [hpc]
  split
  · rename_i slot h
    rw [hI.node_netStep hs (by rw [h]; rfl)]
  · exact hI.remaining_netStep hs

/-- No step before the disposal changes what `intdata` will be. -/
theorem Inv.outcome_step (hI : Inv n s) (hp : s.elaboration.processing = true) {l : PipelineLabel}
    (hok : beforeDispose s l = true) (h : strayStep stray n s l = some t) :
    t.elaboration.processing = true ∧ t.outcome stray = s.outcome stray := by
  rcases strayStep_eq_some h with ⟨l, rfl, hs⟩ | ⟨data, rfl, hs⟩ | ⟨l, rfl, hl, hs⟩
  · obtain ⟨hdata, -, -, -, hpc | ⟨hpc, -⟩⟩ := netStep_frame hs
    · rw [outcome, outcome, hI.pending_netStep hs hpc, hdata, hpc]
      exact ⟨hp, rfl⟩
    · rw [hpc] at hp
      cases hp
  · simp only [elabStep] at hs
    split at hs <;> rename_i hpc <;> cases hs
    · refine ⟨rfl, ?_⟩
      simp only [outcome, pending, remaining, beyond, hpc, List.map_cons, List.foldl_cons]
      rfl
    · exact ⟨rfl, by simp only [outcome, pending, remaining, hpc, List.map_nil]⟩
  · cases l with
    | assign data => exact absurd rfl (hl data)
    | dispose => cases hok
    | loadIdentifier =>
      simp only [elabStep] at hs
      split at hs <;> rename_i hpc <;> [(rw [hpc] at hp; cases hp); skip; cases hs]
      cases hs
      refine ⟨by simp only; split_ifs <;> rfl, ?_⟩
      simp only [outcome, pending, hpc, Nqnode.writes, Nqnode.assignments]
      split_ifs <;> rfl
    | loadEngineId =>
      simp only [elabStep] at hs
      split at hs <;> rename_i hpc <;> cases hs
      exact ⟨rfl, by simp only [outcome, pending, remaining, hpc]⟩
    | condWait | semWait | nextNqnodeOut =>
      simp only [elabStep] at hs
      split at hs <;> rename_i hpc <;> [(rw [hpc] at hp; cases hp); cases hs]

theorem Inv.outcome_run (hI : Inv n s) (hp : s.elaboration.processing = true)
    (h : Lts.Reachable (Lts.restrict (strayStep stray n) beforeDispose) s t) :
    t.outcome stray = s.outcome stray := by
  refine (h.invariant (I := fun u => Inv n u ∧ u.elaboration.processing = true ∧
    u.outcome stray = s.outcome stray) ⟨hI, hp, rfl⟩ ?_).2.2
  rintro u l v ⟨hIu, hpu, hout⟩ hs
  obtain ⟨hok, hs⟩ := Lts.restrict_eq_some.mp hs
  obtain ⟨hpv, hout'⟩ := hIu.outcome_step hpu hok hs
  obtain ⟨_, hs⟩ := step_of_strayStep hs
  exact ⟨hIu.step hs, hpv, hout'.trans hout⟩

theorem outcome_loadIdentifier {slot : ℕ} (h : s.elaboration = .loadIdentifier (some slot)) :
    s.outcome stray = (s.queue.nodes slot).process stray s.intdata := by
  simp only [outcome, pending, h, Nqnode.writes, List.foldl_map, Nqnode.process]

/-- In some run the datagram is received at `time`, and its processing begins with `data` in `intdata` and
    ends with `result`. -/
def Processes (stray : Stray) (n : ℕ) (dg : List UInt8) (time : ℤ) (data result : Intdata) : Prop :=
  ∃ s t slot r, Lts.Reachable (strayStep stray n) init s ∧
    s.hist.received[s.hist.disposed]? = some r ∧ r.datagram = dg ∧ r.node.lastUpdate = time ∧
    s.elaboration = .loadIdentifier (some slot) ∧ s.queue.nodes slot = r.node ∧ s.intdata = data ∧
    Lts.Reachable (Lts.restrict (strayStep stray n) beforeDispose) s t ∧
    t.elaboration = .dispose ∧ t.intdata = result

/-- What the processing of the datagram makes of `intdata` is the same in all runs, whatever the slot held
    before. -/
def Independent (stray : Stray) (n : ℕ) (dg : List UInt8) : Prop :=
  ∀ time data result result', Processes stray n dg time data result →
    Processes stray n dg time data result' → result = result'

theorem outcome_dispose (h : s.elaboration = .dispose) : s.outcome stray = s.intdata := by
  simp only [outcome, pending, remaining, h, List.foldl_nil]

/-- The processing of a datagram is that of a node that carries it. -/
theorem Processes.eq_process (hn : 0 < n) {time : ℤ} {data result : Intdata}
    (h : Processes stray n dg time data result) :
    ∃ node : Nqnode, Carries dg node.packet ∧ node.lastUpdate = time ∧ result = node.process stray data := by
  obtain ⟨s, t, slot, r, hreach, hr, rfl, rfl, hpc, hnode, rfl, hrun, ht, rfl⟩ := h
  have hI := inv_of_strayStep hn hreach
  have hout := hI.outcome_run (by rw [hpc]; rfl) hrun
  rw [outcome_loadIdentifier hpc, hnode] at hout
  exact ⟨r.node, hI.carried r (List.mem_of_getElem? hr), rfl, (outcome_dispose ht).symm.trans hout⟩

theorem independent_of_complete (hn : 0 < n) (hc : Complete dg) : Independent stray n dg := by
  intro time data result result' h h'
  obtain ⟨p, hp, rfl, rfl⟩ := h.eq_process hn
  obtain ⟨q, hq, ht, rfl⟩ := h'.eq_process hn
  exact process_congr hc hp hq ht.symm data

/-- With a queue of one slot nothing is ever received. -/
theorem independent_of_one_slot : Independent stray 1 dg := by
  rintro time data result result' ⟨s, _, _, _, hreach, -, -, -, hpc, -⟩ -
  have hI := inv_of_strayStep Nat.one_pos hreach
  have hlt := hI.disposed_lt (by rw [hpc]; rfl)
  have hr := hI.reserved
  have hlt' := hI.counts.lt
  omega

/-! ## One packet at a time -/

/-- Both threads wait; `k` packets have been received and disposed. -/
structure Quiet (k : ℕ) (s : Pipeline) : Prop where
  network : s.network = .nextNqnodeIn
  elaboration : s.elaboration = .waiting
  reserved : s.hist.reserved = k
  disposed : s.hist.disposed = k

/-- `recvfrom` has copied the first `off` bytes of the datagram into the slot. -/
def copied (s : Pipeline) (slot : ℕ) (dg : List UInt8) (off : ℕ) : Pipeline :=
  { s with
    queue := s.queue.modifyNode slot fun node =>
      { node with packet := fun i => (dg.take off)[i.val]?.getD (node.packet i) }
    network := .copying slot dg off }

theorem strayStep_network (stray : Stray) {l : NetLabel} (h : netStep n s l = some t) :
    strayStep stray n s (.network l) = some t := step_network h

theorem strayStep_elaboration (stray : Stray) (hx : s.network = .nextNqnodeIn) {l : ElabLabel}
    (hl : ∀ data, l ≠ .assign data) (h : elabStep n s l = some t) :
    strayStep stray n s (.elaboration l) = some t := by
  unfold strayStep
  split
  · rename_i he
    exact absurd (PipelineLabel.elaboration.inj he) (hl _)
  · exact step_elaboration (by simp [hx]) h

theorem strayStep_assign (stray : Stray) (hx : s.network = .nextNqnodeIn) {data : Intdata}
    (h : elabStep n s (.assign (s.beyond stray)) = some t) :
    strayStep stray n s (.elaboration (.assign data)) = some t := step_elaboration (by simp [hx]) h

theorem copied_zero (s : Pipeline) (slot : ℕ) (dg : List UInt8) :
    s.copied slot dg 0 = { s with network := .copying slot dg 0 } := by
  simp [copied, Queue.modifyNode]

/-- One more byte of the datagram is in the slot. -/
theorem writeByte_take (node : Nqnode) {off : ℕ} (h : off < sizeofPacket ∧ off < dg.length) :
    writeByte dg ⟨off, h.1⟩ { node with packet := fun i => (dg.take off)[i.val]?.getD (node.packet i) } =
      { node with packet := fun i => (dg.take (off + 1))[i.val]?.getD (node.packet i) } := by
  simp only [writeByte, Nqnode.mk.injEq, and_true]
  funext i
  by_cases hi : i = ⟨off, h.1⟩
  · subst hi
    simp [h.2]
  · have hne : i.val ≠ off := fun he => hi (Fin.ext he)
    have hiff : i.val < off + 1 ↔ i.val < off := by omega
    rw [Function.update_of_ne hi, List.getElem?_take, List.getElem?_take]
    simp only [hiff]

theorem copyByte_copied (s : Pipeline) (slot : ℕ) {off : ℕ} (h : off < sizeofPacket ∧ off < dg.length) :
    netStep n (s.copied slot dg off) .copyByte = some (s.copied slot dg (off + 1)) := by
  simp only [netStep, copied, dif_pos h, Queue.modifyNode, Function.update_idem, Function.update_self]
  rw [writeByte_take _ h]

theorem copy_runs (stray : Stray) (s : Pipeline) (slot off : ℕ) (h : off ≤ sizeofPacket ∧ off ≤ dg.length) :
    Lts.Reachable (strayStep stray n) { s with network := .copying slot dg 0 } (s.copied slot dg off) := by
  induction off with
  | zero => exact copied_zero s slot dg ▸ .refl _
  | succ off ih => exact (ih (by omega)).tail (strayStep_network stray (copyByte_copied s slot h))

/-- The whole datagram is in the slot, and `last_update` is stored. -/
theorem overlay_of_take (node : Nqnode) {off : ℕ} (h : ¬ (off < sizeofPacket ∧ off < dg.length)) (time : ℤ) :
    ⟨fun i => (dg.take off)[i.val]?.getD (node.packet i), time⟩ = node.overlay dg time := by
  simp only [Nqnode.overlay, Nqnode.mk.injEq, and_true]
  funext i
  by_cases hi : i.val < off
  · rw [List.getElem?_take_of_lt hi]
  · have hlen : dg.length ≤ off := by
      by_contra hlen
      exact h ⟨(not_lt.mp hi).trans_lt i.isLt, not_le.mp hlen⟩
    rw [List.take_of_length_le hlen]

/-- A datagram is received while both threads wait, and the processing of its packet begins. -/
theorem Quiet.receive {k : ℕ} (hq : s.Quiet k) (hI : Inv n s) (hn : 2 ≤ n) (stray : Stray) (dg : List UInt8)
    (time : ℤ) :
    ∃ t, Lts.Reachable (strayStep stray n) s t ∧ t.network = .nextNqnodeIn ∧
      t.elaboration = .loadIdentifier (some (k % n)) ∧ t.intdata = s.intdata ∧
      t.queue.nodes = Function.update s.queue.nodes (k % n) ((s.queue.nodes (k % n)).overlay dg time) ∧
      t.hist.reserved = k + 1 ∧ t.hist.disposed = k ∧
      t.hist.received[k]? = some ⟨dg, (s.queue.nodes (k % n)).overlay dg time⟩ := by
  have hr := hI.reserved
  simp only [hq.network, NetPc.holding, hq.reserved] at hr
  have hc := hI.counts
  rw [hq.reserved, hq.disposed] at hc
  have hin := nextNqnodeIn_of_lt hc (by omega)
  have h₁ := strayStep_network stray (n := n) (s := s) (l := .nextNqnodeIn)
    (by simp only [netStep, hq.network, hin]; rfl)
  have h₂ := (Lts.Reachable.single h₁).tail (strayStep_network stray (l := .recvfrom dg) rfl)
  have h₃ := h₂.trans (copy_runs stray _ (k % n) (min sizeofPacket dg.length) (by omega))
  have hoff : ¬ (min sizeofPacket dg.length < sizeofPacket ∧ min sizeofPacket dg.length < dg.length) := by
    omega
  have h₄ := h₃.tail (strayStep_network stray (l := .recvReturn)
    (by simp only [netStep, copied, if_neg hoff]; rfl))
  have h₅ := h₄.tail (strayStep_network stray (l := .setLastUpdate time) (by simp only [netStep]; rfl))
  have h₆ := h₅.tail (strayStep_network stray (l := .wakeup)
    (by simp only [netStep, signal, hq.elaboration]; rfl))
  have h₇ := h₆.tail (strayStep_elaboration stray (l := .semWait) rfl (by simp) (by
    simp only [elabStep, Queue.modifyNode, semWait_of_pos, Nat.succ_pos, Option.map_some]
    rfl))
  have h₈ := h₇.tail (strayStep_elaboration stray (l := .nextNqnodeOut) rfl (by simp) rfl)
  have hc' : Queue.Counts n { s.queue with inPtr := (k + 1) % n } (k + 1) k :=
    ⟨rfl, hc.outPtr, by omega, by omega⟩
  have hout := nextNqnodeOut_of_lt hc' (Nat.lt_succ_self k)
  refine ⟨_, h₈, rfl, congrArg _ hout, rfl, ?_, congrArg _ hq.reserved, hq.disposed, ?_⟩
  · rw [← overlay_of_take _ hoff]
    simp only [Function.update_idem, Function.update_self]
  · have hk : k = s.hist.received.length := by omega
    rw [← overlay_of_take _ hoff]
    simp only [Function.update_self]
    rw [hk, List.getElem?_concat_length]

/-- A step of the elaboration thread towards the disposal. -/
theorem processing_progress (stray : Stray) (n : ℕ) (hx : s.network = .nextNqnodeIn)
    (hp : s.elaboration.processing = true) (hne : s.elaboration ≠ .dispose) :
    ∃ l t, Lts.restrict (strayStep stray n) beforeDispose s (.elaboration l) = some t ∧
      toWaiting t.elaboration < toWaiting s.elaboration ∧ t.elaboration.processing = true ∧
      t.network = s.network ∧ t.queue = s.queue ∧ t.hist.reserved = s.hist.reserved ∧
      t.hist.disposed = s.hist.disposed := by
  have hstep {l : ElabLabel} (hl : beforeDispose s (.elaboration l) = true) (hl' : ∀ data, l ≠ .assign data)
      {t : Pipeline} (h : elabStep n s l = some t) :
      Lts.restrict (strayStep stray n) beforeDispose s (.elaboration l) = some t :=
    Lts.restrict_eq_some.mpr ⟨hl, strayStep_elaboration stray hx hl' h⟩
  cases hpc : s.elaboration with
  | dispose => exact absurd hpc hne
  | loadIdentifier node =>
    cases node with
    | none =>
      rw [hpc] at hp
      cases hp
    | some slot =>
      refine ⟨.loadIdentifier, _, hstep rfl (by simp) (by simp only [elabStep, hpc]; rfl), ?_, ?_, by simp⟩
      · simp only
        split_ifs <;> simp [toWaiting, adiruFields]
      · simp only
        split_ifs <;> rfl
  | loadEngineId slot =>
    exact ⟨.loadEngineId, _, hstep rfl (by simp) (by simp only [elabStep, hpc]; rfl),
      by simp [toWaiting, engineFields], rfl, by simp⟩
  | assign slot todo =>
    have hassign {t : Pipeline} (h : elabStep n s (.assign (s.beyond stray)) = some t) :
        Lts.restrict (strayStep stray n) beforeDispose s (.elaboration (.assign .init)) = some t :=
      Lts.restrict_eq_some.mpr ⟨rfl, strayStep_assign stray hx h⟩
    cases todo with
    | nil =>
      exact ⟨.assign .init, _, hassign (by simp only [elabStep, hpc]; rfl), by simp [toWaiting], rfl, by simp⟩
    | cons a todo =>
      exact ⟨.assign .init, _, hassign (by simp only [elabStep, hpc]; rfl), by simp [toWaiting], rfl, by simp⟩
  | _ =>
    rw [hpc] at hp
    cases hp

/-- The elaboration thread alone processes the packet up to the disposal. -/
theorem process_runs (stray : Stray) (n : ℕ) (hx : s.network = .nextNqnodeIn)
    (hp : s.elaboration.processing = true) :
    ∃ t, Lts.Reachable (Lts.restrict (strayStep stray n) beforeDispose) s t ∧ t.elaboration = .dispose ∧
      t.network = .nextNqnodeIn ∧ t.queue = s.queue ∧ t.hist.reserved = s.hist.reserved ∧
      t.hist.disposed = s.hist.disposed := by
  obtain ⟨t, hrun, ⟨-, hframe⟩, hend⟩ := Lts.reaches_of_decreasing
    (Lts.restrict (strayStep stray n) beforeDispose)
    (I := fun u => u.elaboration.processing = true ∧ u.network = .nextNqnodeIn ∧ u.queue = s.queue ∧
      u.hist.reserved = s.hist.reserved ∧ u.hist.disposed = s.hist.disposed)
    (G := fun u => u.elaboration = .dispose) (fun u => toWaiting u.elaboration)
    (by
      rintro u ⟨hpu, hxu, hq, hr, hd⟩ hne
      obtain ⟨l, v, hstep, hlt, hpv, hxv, hqv, hrv, hdv⟩ := processing_progress stray n hxu hpu hne
      exact ⟨_, v, hstep, ⟨hpv, hxv.trans hxu, hqv.trans hq, hrv.trans hr, hdv.trans hd⟩, hlt⟩)
    s ⟨hp, hx, rfl, rfl, rfl⟩
  exact ⟨t, hrun, hend, hframe⟩

/-- A datagram is received and processed, and both threads wait again. -/
theorem Quiet.cycle {k : ℕ} (hreach : Lts.Reachable (strayStep stray n) init s) (hn : 2 ≤ n)
    (hq : s.Quiet k) (dg : List UInt8) (time : ℤ) {node : Nqnode}
    (hnode : (s.queue.nodes (k % n)).overlay dg time = node) :
    Processes stray n dg time s.intdata (node.process stray s.intdata) ∧
      ∃ t, Lts.Reachable (strayStep stray n) init t ∧ t.Quiet (k + 1) ∧
        t.queue.nodes = Function.update s.queue.nodes (k % n) node ∧
        t.intdata = node.process stray s.intdata := by
  subst hnode
  have hI := inv_of_strayStep (Nat.zero_lt_of_lt hn) hreach
  obtain ⟨u, hu, hxu, hpcu, hdatau, hnodesu, hru, hdu, hrecvu⟩ := hq.receive hI hn stray dg time
  have hIu := inv_of_strayStep (Nat.zero_lt_of_lt hn) (hreach.trans hu)
  have hpu : u.elaboration.processing = true := by rw [hpcu]; rfl
  obtain ⟨v, hv, hpcv, hxv, hqv, hrv, hdv⟩ := process_runs stray n hxu hpu
  have hdatav : v.intdata = ((s.queue.nodes (k % n)).overlay dg time).process stray s.intdata := by
    have hout := hIu.outcome_run hpu hv
    rwa [outcome_dispose hpcv, outcome_loadIdentifier hpcu, hnodesu, Function.update_self, hdatau] at hout
  rw [← hdu] at hrecvu
  refine ⟨⟨u, v, k % n, _, hreach.trans hu, hrecvu, rfl, rfl, hpcu, ?_, hdatau, hv, hpcv, hdatav⟩, ?_⟩
  · rw [hnodesu, Function.update_self, hdu]
  have h₁ := strayStep_elaboration stray (n := n) (l := .dispose) hxv (by simp)
    (by simp only [elabStep, hpcv]; rfl)
  have h₂ := (Lts.Reachable.single h₁).tail
    (strayStep_elaboration stray (l := .condWait) (by exact hxv) (by simp) rfl)
  refine ⟨_, ((hreach.trans hu).trans hv.of_restrict).trans h₂, ⟨hxv, rfl, hrv.trans hru, ?_⟩, ?_, hdatav⟩
  · exact congrArg (· + 1) (hdv.trans hdu)
  · rw [← hnodesu, ← hqv]
    exact disposeLastNqnode_nodes ..

/-- The first packet is `old`, and then a lap of the ring is completed with empty datagrams. -/
theorem lap_runs (hn : 2 ≤ n) {old : List UInt8}
    (hold : (emptyNode.overlay old 0).process stray .init = .init) {k : ℕ} (hk : k < n) :
    ∃ s, Lts.Reachable (strayStep stray n) init s ∧ s.Quiet (k + 1) ∧ s.intdata = .init ∧
      s.queue.nodes 0 = emptyNode.overlay old 0 ∧ ∀ j, k < j → s.queue.nodes j = emptyNode := by
  induction k with
  | zero =>
    have h : Lts.Reachable (strayStep stray n) init { init with elaboration := .waiting } :=
      .single (strayStep_elaboration stray (l := .condWait) rfl (by simp) rfl)
    have hq : Quiet 0 { init with elaboration := .waiting } := ⟨rfl, rfl, rfl, rfl⟩
    obtain ⟨-, s, hs, hqs, hnodes, hdata⟩ := hq.cycle h hn old 0 rfl
    have hmod : 0 % n = 0 := Nat.zero_mod n
    rw [hmod] at hnodes hdata
    refine ⟨s, hs, hqs, hdata.trans hold, ?_, fun j hj => ?_⟩
    · rw [hnodes, Function.update_self]
      rfl
    · rw [hnodes, Function.update_of_ne (Nat.ne_of_gt hj)]
      rfl
  | succ k ih =>
    obtain ⟨s, hs, hqs, hdata, hzero, hempty⟩ := ih (Nat.lt_of_succ_lt hk)
    have hmod : (k + 1) % n = k + 1 := Nat.mod_eq_of_lt hk
    have hnode : (s.queue.nodes ((k + 1) % n)).overlay [] 0 = emptyNode := by
      rw [hmod, hempty _ (Nat.lt_succ_self k)]
      rfl
    obtain ⟨-, t, ht, hqt, hnodes, hdata'⟩ := hqs.cycle hs hn [] 0 hnode
    rw [hmod] at hnodes
    refine ⟨t, ht, hqt, ?_, ?_, fun j hj => ?_⟩
    · rw [hdata', process_of_unknown (by decide) (by decide), hdata]
    · rw [hnodes, Function.update_of_ne (Nat.succ_ne_zero k).symm, hzero]
    · rw [hnodes, Function.update_of_ne (Nat.ne_of_gt hj), hempty j (Nat.lt_of_succ_lt hj)]

/-- A datagram that comes a lap after `old` is received over its bytes. -/
theorem processes_over (stray : Stray) (hn : 2 ≤ n) {old : List UInt8}
    (hold : (emptyNode.overlay old 0).process stray .init = .init) (dg : List UInt8) :
    Processes stray n dg 1 .init (((emptyNode.overlay old 0).overlay dg 1).process stray .init) := by
  obtain ⟨s, hs, hqs, hdata, hzero, -⟩ := lap_runs hn hold (Nat.sub_one_lt (Nat.ne_zero_of_lt hn))
  rw [Nat.sub_add_cancel (Nat.one_le_of_lt hn)] at hqs
  have h := (hqs.cycle hs hn dg 1 rfl).1
  rwa [Nat.mod_self, hzero, hdata] at h

/-- A datagram that comes a lap after an empty one is received into an empty slot. -/
theorem processes_empty (stray : Stray) (hn : 2 ≤ n) (dg : List UInt8) :
    Processes stray n dg 1 .init ((emptyNode.overlay dg 1).process stray .init) :=
  have hold : (emptyNode.overlay [] 0).process stray .init = .init :=
    process_of_unknown (by decide) (by decide) ..
  processes_over stray hn hold dg

theorem not_independent_of_stale (hn : 2 ≤ n) {old : List UInt8} (h : Stale old dg stray) :
    ¬ Independent stray n dg := fun hind =>
  h.read (hind 1 .init _ _ (processes_over stray hn h.harmless dg) (processes_empty stray hn dg))

/-- What the processing of a datagram makes of `intdata` never depends on what the slot held before, in
    whatever way the memory past the engine records is laid out, exactly if the datagram holds the payload
    that its identifier announces. If the index of the engine record is in range, the layout does not matter
    for this. (A queue of a single slot never receives anything.) -/
theorem independent_iff (n : ℕ+) (dg : List UInt8) :
    ((∀ stray, Independent stray n dg) ↔ Complete dg ∨ n = 1) ∧
      (NamesRecord dg → ∀ stray, Independent stray n dg ↔ Complete dg ∨ n = 1) := by
  have hif (stray : Stray) (h : Complete dg ∨ n = 1) : Independent stray n dg := by
    rcases h with hc | rfl
    · exact independent_of_complete n.pos hc
    · exact independent_of_one_slot
  have honly (stray : Stray) (hstray : NamesRecord dg ∨ stray = strayRecord)
      (h : Independent stray n dg) : Complete dg ∨ n = 1 := by
    by_contra hc
    obtain ⟨hc, hone⟩ := not_or.mp hc
    obtain ⟨old, hstale⟩ := exists_stale hc hstray
    have hn : 2 ≤ (n : ℕ) := by
      have hne : (n : ℕ) ≠ 1 := fun h => hone (PNat.coe_eq_one_iff.mp h)
      have hpos := n.pos
      omega
    exact not_independent_of_stale hn hstale h
  exact ⟨⟨fun h => honly strayRecord (.inr rfl) (h strayRecord), fun h stray => hif stray h⟩,
    fun hdg stray => ⟨honly stray (.inl hdg), hif stray⟩⟩

/-- An ENGINE packet without its payload: the engine is 1, and the flags are those of an older packet. -/
theorem processes_short_datagram : ∃ result result',
    Processes strayRecord sizeQueue [2, 1] 1 .init result ∧
      Processes strayRecord sizeQueue [2, 1] 1 .init result' ∧
      (result.engines 1).engineFlags = engineFReverse ∧ (result'.engines 1).engineFlags = 0 ∧
      ¬ Independent strayRecord sizeQueue [2, 1] := by
  have hn : 2 ≤ (sizeQueue : ℕ) := by decide
  have hstale : Stale _ [2, 1] strayRecord := stale_engine (by decide) strayRecord (.inr rfl)
  exact ⟨_, _, processes_over strayRecord hn hstale.harmless [2, 1], processes_empty strayRecord hn [2, 1],
    by decide, by decide, not_independent_of_stale hn hstale⟩

/-- A complete ADIRU packet is processed in one way only. -/
theorem independent_adiru : ∃ result,
    Processes strayRecord sizeQueue [1, 20, 0, 184, 11, 0, 0, 15, 0, 5, 0, 3, 0, 1, 0] 1 .init result ∧
      ∀ result', Processes strayRecord sizeQueue [1, 20, 0, 184, 11, 0, 0, 15, 0, 5, 0, 3, 0, 1, 0] 1 .init
        result' → result' = result := by
  have hn : 2 ≤ (sizeQueue : ℕ) := by decide
  have h := processes_empty strayRecord hn [1, 20, 0, 184, 11, 0, 0, 15, 0, 5, 0, 3, 0, 1, 0]
  have hc : Complete [1, 20, 0, 184, 11, 0, 0, 15, 0, 5, 0, 3, 0, 1, 0] := ⟨1, rfl, by decide⟩
  exact ⟨_, h, fun result' h' => (independent_iff sizeQueue _).1.mpr (.inl hc) strayRecord _ _ _ _ h' h⟩

end Pipeline

end Afdx
