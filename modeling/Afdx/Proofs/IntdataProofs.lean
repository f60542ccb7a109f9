import Afdx.Lib.LastWrite
import Afdx.Proofs.PipelineProofs
import Afdx.ServeQuery

/-!
# From packets to replies

Two hand-written field mappings meet in `intdata`: packet to record in `elaboration_thread`, record
to reply in `serve_query`. Each of the thirteen data ids is served from one assignment, and what it
serves is the field of the last packet for which that assignment was made, at every point between two
assignments.
-/

namespace Afdx

/-! ## One assignment -/

/-- The assignments made for a packet, each with the node it reads. -/
def Nqnode.writes (node : Nqnode) : List (Nqnode × Assignment) :=
  node.assignments.map (node, ·)

/-- The index of the assignment, if it has one, is that of an engine record. -/
def Assignment.inRange (a : Assignment) : Prop := ∀ i ∈ a.engineIndex, i < nrEngines

/-- The assignment that a data id is served from; `e` is the engine asked for. -/
def DataId.assignment (d : DataId) (e : UInt8) : Assignment :=
  match d with
  | engineThrottle => .engine e .throttle
  | engineRealThrust => .engine e .realThrust
  | engineOilTemp => .engine e .oilTemp
  | engineOilPress => .engine e .oilPress
  | engineFuelPress => .engine e .fuelPress
  | engineStatus => .engine e .status
  | engineFlags => .engine e .engineFlags
  | attitudeAltitude => .adiru .attitudeAltitude
  | attitudeRoll => .adiru .attitudeRoll
  | attitudePitch => .adiru .attitudePitch
  | attitudeYaw => .adiru .attitudeYaw
  | speedsAoa => .adiru .speedsAoa
  | speedsAirspeed => .adiru .speedsAirspeed

/-- The field of a packet that a data id is about. -/
def DataId.packetField (d : DataId) (p : AfdxPacket) : ℤ :=
  match d with
  | engineThrottle => p.engineThrottle.toNat
  | engineRealThrust => p.engineRealThrust.toNat
  | engineOilTemp => p.engineOilTemp.toInt
  | engineOilPress => p.engineOilPress.toInt
  | engineFuelPress => p.engineFuelPress.toInt
  | engineStatus => p.engineFlagStatus.toNat
  | engineFlags => p.engineFlagReverse.toNat + 2 * p.engineFlagFire.toNat +
      4 * p.engineFlagMaintainance.toNat
  | attitudeAltitude => p.adiruAltitude.toInt
  | attitudeRoll => p.adiruRoll.toInt
  | attitudePitch => p.adiruPitch.toInt
  | attitudeYaw => p.adiruYaw.toInt
  | speedsAoa => p.adiruAoa.toInt
  | speedsAirspeed => p.adiruAirspeed.toInt

/-- The field of the reply that `serve_query` sets for a data id. -/
def DataId.replyField (d : DataId) (r : AppReply) : ℤ :=
  match d with
  | engineThrottle | engineRealThrust | engineStatus | engineFlags => r.u8.toNat
  | engineOilTemp | engineOilPress | engineFuelPress | attitudeRoll | attitudePitch | attitudeYaw
  | speedsAoa | speedsAirspeed => r.i16.toInt
  | attitudeAltitude => r.i32.toInt

theorem and_one_toNat_le (a : UInt8) : (a &&& 1).toNat ≤ 1 := by
  rw [UInt8.toNat_and]
  exact Nat.and_le_right

/-- The three flag bits do not carry into each other. -/
theorem engineFlags_toNat (a b c : UInt8) :
    ((a &&& 1) * engineFReverse + (b &&& 1) * engineFOnFire + (c &&& 1) * engineFMaint).toNat =
      (a &&& 1).toNat + 2 * (b &&& 1).toNat + 4 * (c &&& 1).toNat := by
  have ha := and_one_toNat_le a
  have hb := and_one_toNat_le b
  have hc := and_one_toNat_le c
  have h₁ : engineFReverse.toNat = 1 := rfl
  have h₂ : engineFOnFire.toNat = 2 := rfl
  have h₄ : engineFMaint.toNat = 4 := rfl
  rw [UInt8.toNat_add, UInt8.toNat_add, UInt8.toNat_mul, UInt8.toNat_mul, UInt8.toNat_mul, h₁, h₂,
    h₄]
  omega

theorem ofFlag_toNat (b : UInt8) :
    (EngineStatus.ofFlag (b &&& 3)).toUInt8.toNat = (b &&& 3).toNat := by
  have hlt : (b &&& 3).toNat < 4 := by
    rw [UInt8.toNat_and]
    exact Nat.and_lt_two_pow _ (n := 2) (by decide)
  generalize b &&& 3 = c at hlt ⊢
  have hc : c = 0 ∨ c = 1 ∨ c = 2 ∨ c = 3 := by
    simp only [← UInt8.toNat_inj, UInt8.reduceToNat]
    omega
  rcases hc with rfl | rfl | rfl | rfl <;> rfl

/-- The field served for a data id, as an observation of `intdata`. -/
def served (d : DataId) (e : UInt8) (data : Intdata) : ℤ :=
  d.replyField (serveQuery ⟨0, 0, 0, 0⟩ data (Intdata.init.engines 0) ⟨0, e, d.toRaw⟩)

/-- Neither the stack contents nor the memory past the array matter for the field that is set. -/
theorem replyField_serveQuery (d : DataId) {e : UInt8} (he : e.toNat < nrEngines) (reqId : UInt32)
    (stack : AppReply) (beyond : IntdataEngine) (data : Intdata) :
    d.replyField (serveQuery stack data beyond ⟨reqId, e, d.toRaw⟩) = served d e data := by
  cases d <;> simp [served, serveQuery, DataId.ofRaw_toRaw, DataId.replyField, Intdata.engineAt, he]

/-- The assignment that a data id is served from sets the field served to that of the packet. -/
theorem served_exec_self (d : DataId) {e : UInt8} (he : e.toNat < nrEngines) (node : Nqnode)
    (beyond data : Intdata) :
    served d e ((d.assignment e).exec node beyond data) = d.packetField node.packet := by
  cases d
  case engineStatus =>
    simp [served, serveQuery, DataId.ofRaw_toRaw, DataId.replyField, Intdata.engineAt, he,
      DataId.assignment, Assignment.exec, EngineField.assign, DataId.packetField,
      AfdxPacket.engineFlagStatus, ofFlag_toNat]
  case engineFlags =>
    simp only [served, serveQuery, DataId.ofRaw_toRaw, DataId.replyField, Intdata.engineAt, he,
      DataId.assignment, Assignment.exec, EngineField.assign, DataId.packetField, dite_true,
      Function.update_self, AfdxPacket.engineFlagReverse, AfdxPacket.engineFlagFire,
      AfdxPacket.engineFlagMaintainance, engineFlags_toNat]
    push_cast
    rfl
  all_goals
    simp [served, serveQuery, DataId.ofRaw_toRaw, DataId.replyField, Intdata.engineAt, he,
      DataId.assignment, Assignment.exec, EngineField.assign, AdiruField.assign,
      DataId.packetField]

/-- Every other assignment within range leaves the field served as it was. -/
theorem served_exec_of_ne (d : DataId) {e : UInt8} (he : e.toNat < nrEngines) {a : Assignment}
    (ha : a.inRange) (hne : a ≠ d.assignment e) (node : Nqnode) (beyond data : Intdata) :
    served d e (a.exec node beyond data) = served d e data := by
  cases a with
  | adiru f =>
    cases d <;> cases f <;>
      simp [served, serveQuery, DataId.ofRaw_toRaw, DataId.replyField, Intdata.engineAt, he,
        Assignment.exec, AdiruField.assign, DataId.assignment] at hne ⊢
  | engine e' f =>
    have hr : e'.toNat < nrEngines := ha _ rfl
    by_cases hee : e = e'
    · subst hee
      cases d <;> cases f <;>
        simp [served, serveQuery, DataId.ofRaw_toRaw, DataId.replyField, Intdata.engineAt, he,
          Assignment.exec, EngineField.assign, DataId.assignment] at hne ⊢
    · have hee' : (⟨e.toNat, he⟩ : Fin nrEngines) ≠ ⟨e'.toNat, hr⟩ := fun h =>
        hee (UInt8.toNat_inj.mp (Fin.mk.inj h))
      cases d <;>
        simp [served, serveQuery, DataId.ofRaw_toRaw, DataId.replyField, Intdata.engineAt, he,
          Assignment.exec, hr, Function.update_of_ne hee']

/-- Within range, what an assignment does does not depend on the memory past the array. -/
theorem Assignment.exec_beyond {a : Assignment} (ha : a.inRange) (node : Nqnode)
    (beyond beyond' data : Intdata) : a.exec node beyond data = a.exec node beyond' data := by
  cases a with
  | adiru f => rfl
  | engine e f => simp only [exec, dif_pos (ha _ rfl)]

/-- An ADIRU assignment stores into the attitude and speeds records only. -/
theorem exec_adiru_engines (f : AdiruField) (node : Nqnode) (beyond data : Intdata) :
    ((Assignment.adiru f).exec node beyond data).engines = data.engines := by
  cases f <;> rfl

/-- An engine assignment stores into the record of its engine only. -/
theorem exec_engine_others {idEngine : UInt8} (h : idEngine.toNat < nrEngines) (f : EngineField)
    (node : Nqnode) (beyond data : Intdata) :
    ((Assignment.engine idEngine f).exec node beyond data).attitude = data.attitude ∧
    ((Assignment.engine idEngine f).exec node beyond data).speeds = data.speeds ∧
    ∀ e : Fin nrEngines, e.val ≠ idEngine.toNat →
      ((Assignment.engine idEngine f).exec node beyond data).engines e = data.engines e := by
  simp only [Assignment.exec, dif_pos h]
  refine ⟨trivial, trivial, fun e he => ?_⟩
  exact Function.update_of_ne (fun hf => he (congrArg Fin.val hf)) ..

/-! ## The log of assignments -/

/-- One entry of the log of assignments, executed on `intdata`. -/
def execWrite (data : Intdata) (w : Nqnode × Assignment) : Intdata := w.2.exec w.1 .init data

namespace Pipeline

variable {n : ℕ} {s t : Pipeline}

/-- The assignments still to be made for the node being processed. -/
def remaining (s : Pipeline) : List (Nqnode × Assignment) :=
  match s.elaboration with
  | .loadEngineId slot =>
    (engineFields.map (.engine (s.queue.nodes slot).packet.engineId)).map (s.queue.nodes slot, ·)
  | .assign slot todo => todo.map (s.queue.nodes slot, ·)
  | _ => []

/-- The log holds the assignments of the processed packets, in order and up to those still to be made,
    and `intdata` is the result of executing it. -/
structure LogInv (s : Pipeline) : Prop where
  log : s.hist.executed ++ s.remaining = s.hist.processed.flatMap Nqnode.writes
  store : (∀ w ∈ s.hist.executed, w.2.inRange) →
    s.intdata = s.hist.executed.foldl execWrite .init

theorem logInv_init : LogInv init := ⟨rfl, fun _ => rfl⟩

/-- What a step of `network_thread` leaves alone. -/
theorem netStep_frame {l : NetLabel} (hs : netStep n s l = some t) :
    t.intdata = s.intdata ∧ t.hist.executed = s.hist.executed ∧
    t.hist.processed = s.hist.processed ∧
    (∀ j, s.network.writing ≠ some j → t.queue.nodes j = s.queue.nodes j) ∧
    (t.elaboration = s.elaboration ∨ s.elaboration = .waiting ∧ t.elaboration = .semWait) := by
  cases l with
  | nextNqnodeIn =>
    simp only [netStep] at hs
    split at hs <;> [skip; cases hs]
    have hnodes := nextNqnodeIn_nodes n s.queue
    split at hs <;> rename_i hq <;> rw [hq] at hnodes <;> cases hs
    all_goals exact ⟨rfl, rfl, rfl, fun j _ => congrFun hnodes j, .inl rfl⟩
  | wakeup =>
    simp only [netStep] at hs
    split at hs <;> cases hs
    unfold signal
    split <;> simp [*]
  | copyByte =>
    simp only [netStep] at hs
    split at hs <;> [rename_i slot dg off hpc; cases hs]
    split at hs <;> cases hs
    refine ⟨rfl, rfl, rfl, fun j hj => ?_, .inl rfl⟩
    rw [hpc, NetPc.writing] at hj
    exact Queue.modifyNode_of_ne (fun h => hj (congrArg some h.symm)) _
  | setLastUpdate time =>
    simp only [netStep] at hs
    split at hs <;> [rename_i slot dg hpc; cases hs]
    cases hs
    refine ⟨rfl, rfl, rfl, fun j hj => ?_, .inl rfl⟩
    simp only [hpc, NetPc.writing] at hj
    have hne : j ≠ slot := fun h => hj (congrArg some h.symm)
    simp only [Queue.modifyNode_of_ne hne]
  | _ =>
    simp only [netStep] at hs
    (repeat' split at hs) <;> cases hs
    all_goals simp

/-- The network thread never touches the node being processed. -/
theorem Inv.node_netStep (hI : Inv n s) {l : NetLabel} (hs : netStep n s l = some t) {slot : ℕ}
    (hnode : s.elaboration.node = some (some slot)) : t.queue.nodes slot = s.queue.nodes slot := by
  have hb : s.elaboration.busy = 1 := by
    cases h : s.elaboration <;> simp [h, ElabPc.node, ElabPc.busy] at hnode ⊢
  refine (netStep_frame hs).2.2.2.1 slot fun hw => hI.writing_ne hw le_rfl (hI.disposed_lt hb) ?_
  exact (Option.some.inj (hI.node _ hnode)).symm

theorem Inv.remaining_netStep (hI : Inv n s) {l : NetLabel} (hs : netStep n s l = some t) :
    t.remaining = s.remaining := by
  obtain ⟨-, -, -, -, hpc⟩ := netStep_frame hs
  unfold remaining
  rcases hpc with hpc | ⟨hpc, hpc'⟩
  · rw [hpc]
    cases h : s.elaboration with
    | loadEngineId slot => simp only [hI.node_netStep hs (by rw [h]; rfl : _ = some (some slot))]
    | assign slot todo => simp only [hI.node_netStep hs (by rw [h]; rfl : _ = some (some slot))]
    | _ => rfl
  · rw [hpc, hpc']

theorem LogInv.step (hI : Inv n s) (hL : LogInv s) {l : PipelineLabel}
    (h : step n s l = some t) : LogInv t := by
  obtain ⟨-, ⟨l, rfl, hs⟩ | ⟨l, rfl, hs⟩⟩ := step_eq_some h
  · obtain ⟨hdata, hexec, hproc, -, -⟩ := netStep_frame hs
    have hrem := hI.remaining_netStep hs
    exact ⟨by rw [hexec, hrem, hproc]; exact hL.log, by rw [hexec, hdata]; exact hL.store⟩
  · have hlog := hL.log
    cases l with
    | loadIdentifier =>
      simp only [elabStep] at hs
      split at hs <;> rename_i hpc <;> cases hs
      · exact ⟨by simpa [remaining, hpc] using hlog, hL.store⟩
      · rename_i slot
        refine ⟨?_, hL.store⟩
        simp only [remaining, hpc, List.append_nil] at hlog
        rw [List.flatMap_append, ← hlog, List.flatMap_singleton]
        congr 1
        unfold remaining Nqnode.writes Nqnode.assignments
        split_ifs <;> rfl
    | assign beyond =>
      simp only [elabStep] at hs
      split at hs <;> rename_i hpc <;> cases hs
      · rename_i slot a todo
        simp only [remaining, hpc, List.map_cons] at hlog
        refine ⟨by simpa [remaining] using hlog, fun hr => ?_⟩
        have ha : a.inRange := hr (s.queue.nodes slot, a) (by simp)
        have hstore := hL.store fun w hw => hr w (List.mem_append_left _ hw)
        rw [List.foldl_append, List.foldl_cons, List.foldl_nil, ← hstore]
        exact Assignment.exec_beyond ha ..
      · exact ⟨by simpa [remaining, hpc] using hlog, hL.store⟩
    | semWait =>
      simp only [elabStep] at hs
      split at hs <;> [rename_i hpc; cases hs]
      obtain ⟨q, hq, rfl⟩ := Option.map_eq_some_iff.mp hs
      exact ⟨by simpa [remaining, hpc] using hlog, hL.store⟩
    | _ =>
      simp only [elabStep] at hs
      split at hs <;> rename_i hpc <;> cases hs
      exact ⟨by simpa [remaining, hpc] using hlog, hL.store⟩

theorem logInv_of_reachable (hn : 0 < n) (h : Lts.Reachable (Pipeline.step n) init s) :
    LogInv s :=
  (h.invariant (I := fun s => Inv n s ∧ LogInv s) ⟨inv_init hn, logInv_init⟩
    fun _ _ _ ⟨hI, hL⟩ hs => ⟨hI.step hs, hL.step hI hs⟩).2

/-! ## The last-writer law -/

/-- Every ENGINE packet received so far carries the id of an engine record. -/
def EngineIdsInRange (s : Pipeline) : Prop :=
  ∀ r ∈ s.hist.received, r.node.packet.identifier = packetTypeEngine →
    r.node.packet.engineId.toNat < nrEngines

theorem mem_writes {node : Nqnode} {w : Nqnode × Assignment} (h : w ∈ node.writes) :
    w.1 = node ∧ w.2 ∈ node.assignments := by
  obtain ⟨a, ha, rfl⟩ := List.mem_map.mp h
  exact ⟨rfl, ha⟩

theorem mem_assignments {node : Nqnode} {a : Assignment} (h : a ∈ node.assignments) :
    (node.packet.identifier = packetTypeAdiru ∧ ∃ f, a = .adiru f) ∨
    (node.packet.identifier = packetTypeEngine ∧ ∃ f, a = .engine node.packet.engineId f) := by
  unfold Nqnode.assignments at h
  split_ifs at h with hA hE
  · obtain ⟨f, -, rfl⟩ := List.mem_map.mp h
    exact .inl ⟨hA, f, rfl⟩
  · obtain ⟨f, -, rfl⟩ := List.mem_map.mp h
    exact .inr ⟨hE, f, rfl⟩
  · simp at h

/-- The assignments made for received packets with valid engine ids are within range. -/
theorem inRange_of_mem_writes (hid : s.EngineIdsInRange) {w : Nqnode × Assignment}
    (hw : w ∈ s.receivedNodes.flatMap Nqnode.writes) : w.2.inRange := by
  obtain ⟨node, hnode, hw⟩ := List.mem_flatMap.mp hw
  obtain ⟨r, hr, rfl⟩ := List.mem_map.mp hnode
  intro i hi
  rcases mem_assignments (mem_writes hw).2 with ⟨-, f, hf⟩ | ⟨hE, f, hf⟩
  · rw [hf] at hi
    cases hi
  · rw [hf] at hi
    cases hi
    exact hid r hr hE

/-- The assignments made, followed by those still to make, are those of a prefix of the packets
    received. -/
theorem Inv.log_received (hI : Inv n s) (hL : LogInv s) :
    s.hist.executed ++ s.remaining <+: s.receivedNodes.flatMap Nqnode.writes := by
  obtain ⟨rest, hrest⟩ := hI.order
  rw [hL.log, ← hrest, List.flatMap_append]
  exact List.prefix_append _ _

/-- The next assignment is one of those of the node being processed. -/
theorem Inv.assignment_of_last (hI : Inv n s) (hL : LogInv s) {slot : ℕ} {a : Assignment}
    {todo : List Assignment} (hpc : s.elaboration = .assign slot (a :: todo)) :
    s.hist.processed.getLast? = some (s.queue.nodes slot) ∧
      a ∈ (s.queue.nodes slot).assignments := by
  have hslot := Option.some.inj (hI.node (some slot) (by simp [hpc, ElabPc.node]))
  have hlast := hI.last_processed (by simp [hpc, ElabPc.begun])
  rw [← hslot] at hlast
  refine ⟨hlast, ?_⟩
  have hmem : (s.queue.nodes slot, a) ∈ s.hist.processed.flatMap Nqnode.writes := by
    rw [← hL.log]
    simp [remaining, hpc]
  obtain ⟨node, -, hw⟩ := List.mem_flatMap.mp hmem
  obtain ⟨h₁, h₂⟩ := mem_writes hw
  simp only at h₁ h₂
  exact h₁ ▸ h₂

/-- Only assignments change `intdata`. -/
theorem intdata_of_not_assign {l : PipelineLabel} (h : Pipeline.step n s l = some t)
    (hne : ∀ slot a todo, s.elaboration ≠ .assign slot (a :: todo)) : t.intdata = s.intdata := by
  obtain ⟨-, ⟨l, rfl, hs⟩ | ⟨l, rfl, hs⟩⟩ := step_eq_some h
  · exact (netStep_frame hs).1
  · cases l with
    | assign beyond =>
      simp only [elabStep] at hs
      split at hs <;> rename_i hpc <;> cases hs
      · exact absurd hpc (hne _ _ _)
      · rfl
    | semWait =>
      simp only [elabStep] at hs
      split at hs <;> [skip; cases hs]
      obtain ⟨q, hq, rfl⟩ := Option.map_eq_some_iff.mp hs
      rfl
    | _ =>
      simp only [elabStep] at hs
      (repeat' split at hs) <;> cases hs <;> rfl

/-- A step that changes a record of `intdata` processes a packet that names this record. -/
theorem Inv.changed_record_named (hI : Inv n s) (hL : LogInv s) (hid : s.EngineIdsInRange)
    {l : PipelineLabel} (h : Pipeline.step n s l = some t) :
    (t.intdata.attitude ≠ s.intdata.attitude ∨ t.intdata.speeds ≠ s.intdata.speeds →
      ∃ node, s.hist.processed.getLast? = some node ∧
        node.packet.identifier = packetTypeAdiru) ∧
    ∀ e : Fin nrEngines, t.intdata.engines e ≠ s.intdata.engines e →
      ∃ node, s.hist.processed.getLast? = some node ∧
        node.packet.identifier = packetTypeEngine ∧ node.packet.engineId.toNat = e := by
  by_cases hne : ∀ slot a todo, s.elaboration ≠ .assign slot (a :: todo)
  · rw [intdata_of_not_assign h hne]
    exact ⟨fun hc => by simp at hc, fun e hc => absurd rfl hc⟩
  · push Not at hne
    obtain ⟨slot, a, todo, hpc⟩ := hne
    obtain ⟨hlast, ha⟩ := hI.assignment_of_last hL hpc
    have hmem : (s.queue.nodes slot, a) ∈ s.receivedNodes.flatMap Nqnode.writes := by
      refine (hI.log_received hL).mem ?_
      simp [remaining, hpc]
    have hr := inRange_of_mem_writes hid hmem
    have ht : t.intdata = s.intdata ∨
        ∃ beyond, t.intdata = a.exec (s.queue.nodes slot) beyond s.intdata := by
      obtain ⟨-, ⟨l, rfl, hs⟩ | ⟨l, rfl, hs⟩⟩ := step_eq_some h
      · exact .inl (netStep_frame hs).1
      · cases l <;> simp only [elabStep, hpc, reduceCtorEq, Option.some.injEq] at hs
        subst hs
        exact .inr ⟨_, rfl⟩
    rcases ht with ht | ⟨beyond, ht⟩
    · rw [ht]
      exact ⟨fun hc => by simp at hc, fun e hc => absurd rfl hc⟩
    · rcases mem_assignments ha with ⟨hA, f, rfl⟩ | ⟨hE, f, rfl⟩
      · refine ⟨fun _ => ⟨_, hlast, hA⟩, fun e hc => absurd ?_ hc⟩
        rw [ht, exec_adiru_engines]
      · obtain ⟨h₁, h₂, h₃⟩ := exec_engine_others (hr _ rfl) f (s.queue.nodes slot) beyond s.intdata
        refine ⟨fun hc => absurd ht ?_, fun e hc => ⟨_, hlast, hE, ?_⟩⟩
        · intro ht
          rw [ht, h₁, h₂] at hc
          exact hc.elim (absurd rfl) (absurd rfl)
        · by_contra hee
          exact hc (by rw [ht, h₃ e (Ne.symm hee)])

/-- The last-writer law, at every point of every run whose ENGINE packets carry valid engine ids: the
    field that `serve_query` sets is that of the last packet for which the assignment of this field
    was made, or zero; and a packet never changes a record it does not name. -/
theorem served_last_writer (n : ℕ+) (s : Pipeline) (h : Lts.Reachable (Pipeline.step n) init s)
    (hid : s.EngineIdsInRange) :
    s.hist.executed <+: s.receivedNodes.flatMap Nqnode.writes ∧
    (∀ (d : DataId) (e : UInt8) (reqId : UInt32) (stack : AppReply) (beyond : IntdataEngine),
      e.toNat < nrEngines →
      d.replyField (serveQuery stack s.intdata beyond ⟨reqId, e, d.toRaw⟩) =
        ((LastWrite.last (fun w => w.2 = d.assignment e) s.hist.executed).map
          fun w => d.packetField w.1.packet).getD 0) ∧
    ∀ l t, Pipeline.step n s l = some t →
      (t.intdata.attitude ≠ s.intdata.attitude ∨ t.intdata.speeds ≠ s.intdata.speeds →
        ∃ node, s.hist.processed.getLast? = some node ∧
          node.packet.identifier = packetTypeAdiru) ∧
      ∀ e : Fin nrEngines, t.intdata.engines e ≠ s.intdata.engines e →
        ∃ node, s.hist.processed.getLast? = some node ∧
          node.packet.identifier = packetTypeEngine ∧ node.packet.engineId.toNat = e := by
  have hI := inv_of_reachable n.pos h
  have hL := logInv_of_reachable n.pos h
  have hpre := (List.prefix_append _ _).trans (hI.log_received hL)
  have hrange : ∀ w ∈ s.hist.executed, w.2.inRange := fun w hw =>
    inRange_of_mem_writes hid (hpre.mem hw)
  refine ⟨hpre, ?_, fun l t hs => hI.changed_record_named hL hid hs⟩
  intro d e reqId stack beyond he
  have hinit : served d e .init = 0 := by
    cases d <;>
      simp [served, serveQuery, DataId.ofRaw_toRaw, DataId.replyField, Intdata.engineAt, he,
        Intdata.init, EngineStatus.toUInt8]
  rw [replyField_serveQuery d he, hL.store hrange, ← hinit]
  refine LastWrite.get_foldl s.hist.executed (fun w _ hp data => ?_) (fun w hw hp data => ?_) _
  · rw [execWrite, of_decide_eq_true hp]
    exact served_exec_self d he ..
  · exact served_exec_of_ne d he (hrange w hw) (of_decide_eq_false hp) ..

/-- Three assignments of an ENGINE packet are made, five are still to come. -/
def engineRun : List PipelineLabel :=
  [.elaboration .condWait] ++ receive [2, 2, 55, 60, 40, 0, 20, 0, 30, 0, 21] 7 ++
    [.elaboration .semWait, .elaboration .nextNqnodeOut, .elaboration .loadIdentifier,
      .elaboration .loadEngineId, .elaboration (.assign .init), .elaboration (.assign .init),
      .elaboration (.assign .init)]

/-- A query for the throttle is answered with the value of the packet, one for the oil pressure not yet. -/
theorem served_last_writer_engineRun :
    ∃ s, Lts.run (Pipeline.step sizeQueue) init engineRun = some s ∧
      s.hist.executed.length = 3 ∧ s.hist.executed <+: s.receivedNodes.flatMap Nqnode.writes ∧
      ∀ (reqId : UInt32) (stack : AppReply) (beyond : IntdataEngine),
        DataId.engineThrottle.replyField
          (serveQuery stack s.intdata beyond ⟨reqId, 2, DataId.engineThrottle.toRaw⟩) = 55 ∧
        DataId.engineOilPress.replyField
          (serveQuery stack s.intdata beyond ⟨reqId, 2, DataId.engineOilPress.toRaw⟩) = 0 := by
  obtain ⟨s, hs, hp⟩ := Lts.exists_run_of_map (Pipeline.step sizeQueue) init engineRun
    (fun s => decide (s.hist.executed.length = 3 ∧
      (∀ r ∈ s.hist.received, r.node.packet.engineId.toNat < nrEngines) ∧
      ((LastWrite.last (fun w => w.2 = DataId.engineThrottle.assignment 2) s.hist.executed).map
        fun w => DataId.engineThrottle.packetField w.1.packet).getD 0 = 55 ∧
      ((LastWrite.last (fun w => w.2 = DataId.engineOilPress.assignment 2) s.hist.executed).map
        fun w => DataId.engineOilPress.packetField w.1.packet).getD 0 = 0)) (by decide)
  obtain ⟨hlen, hid, hthrottle, hoil⟩ := of_decide_eq_true hp
  obtain ⟨hpre, hserved, -⟩ := served_last_writer sizeQueue s ⟨_, hs⟩ fun r hr _ => hid r hr
  exact ⟨s, hs, hlen, hpre, fun reqId stack beyond =>
    ⟨(hserved .engineThrottle 2 reqId stack beyond (by decide)).trans hthrottle,
      (hserved .engineOilPress 2 reqId stack beyond (by decide)).trans hoil⟩⟩

end Pipeline

end Afdx
