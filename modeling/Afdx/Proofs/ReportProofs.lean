import Afdx.Proofs.IntdataProofs
import Afdx.Report
import Mathlib.Data.List.Nodup

/-!
# From reports to replies

What a sender stores into a packet is what the daemon stores into `intdata`, whatever the other bytes of the
packet are. So `intdata` between two packets is what the reports make of it one after the other. While the
assignments for a packet are made, a reply shows the report as a whole or not at all, since it holds one field only.
-/

namespace Afdx

open LittleEndian

/-! ## The bit-fields -/

/-- A mask picks out nothing of what another one keeps of a byte. -/
theorem and_or_of_disjoint {mask keep : UInt8} (h : keep &&& mask = 0) (old x : UInt8) :
    ((old &&& keep) ||| x) &&& mask = x &&& mask := by
  have hdistrib : ((old &&& keep) ||| x) &&& mask = (old &&& keep &&& mask) ||| (x &&& mask) :=
    UInt8.toBitVec_inj.mp BitVec.and_or_distrib_right
  rw [hdistrib, UInt8.and_assoc, h, UInt8.and_zero, UInt8.zero_or]

/-- The bit-fields are read back, whatever the other bits of the byte are. -/
theorem flagBits_fields (old : UInt8) (status : EngineStatus) (reverse fire maintainance : Bool) :
    let b := (old &&& 224) ||| flagBits status reverse fire maintainance
    b &&& 3 = status.toUInt8 ∧ (b >>> 2) &&& 1 = (if reverse then 1 else 0) ∧
      (b >>> 3) &&& 1 = (if fire then 1 else 0) ∧ (b >>> 4) &&& 1 = (if maintainance then 1 else 0) := by
  intro b
  simp only [b, UInt8.shiftRight_or, UInt8.shiftRight_and]
  rw [and_or_of_disjoint (by decide), and_or_of_disjoint (by decide), and_or_of_disjoint (by decide),
    and_or_of_disjoint (by decide)]
  cases status <;> cases reverse <;> cases fire <;> cases maintainance <;> decide

/-! ## One packet -/

variable {p : AfdxPacket} {stray : Stray}

/-- The fields of an ADIRU packet are those of the report. -/
theorem store_adiru (p : AfdxPacket) (r : AdiruReport) :
    (p.store (.adiru r)).adiruAirspeed = r.airspeed ∧ (p.store (.adiru r)).adiruAltitude = r.altitude ∧
      (p.store (.adiru r)).adiruAoa = r.aoa ∧ (p.store (.adiru r)).adiruRoll = r.roll ∧
      (p.store (.adiru r)).adiruPitch = r.pitch ∧ (p.store (.adiru r)).adiruYaw = r.yaw :=
  ⟨i16_byte _, i32_byte _, i16_byte _, i16_byte _, i16_byte _, i16_byte _⟩

/-- The values in the payload of an ENGINE packet are those of the report. -/
theorem store_engine (p : AfdxPacket) (r : EngineReport) :
    (p.store (.engine r)).engineId = UInt8.ofNat r.engineId ∧
      (p.store (.engine r)).engineThrottle = r.throttle ∧
      (p.store (.engine r)).engineRealThrust = r.realThrust ∧
      (p.store (.engine r)).engineOilTemp = r.oilTemp ∧
      (p.store (.engine r)).engineOilPress = r.oilPress ∧
      (p.store (.engine r)).engineFuelPress = r.fuelPress :=
  ⟨rfl, rfl, rfl, i16_byte _, i16_byte _, i16_byte _⟩

/-- The bit-fields of an ENGINE packet are those of the report. -/
theorem store_engine_flags (p : AfdxPacket) (r : EngineReport) :
    (p.store (.engine r)).engineFlagStatus = r.flagStatus.toUInt8 ∧
      (p.store (.engine r)).engineFlagReverse = (if r.flagReverse then 1 else 0) ∧
      (p.store (.engine r)).engineFlagFire = (if r.flagFire then 1 else 0) ∧
      (p.store (.engine r)).engineFlagMaintainance = (if r.flagMaintainance then 1 else 0) :=
  flagBits_fields (p 10) r.flagStatus r.flagReverse r.flagFire r.flagMaintainance

theorem EngineStatus.ofFlag_toUInt8 (status : EngineStatus) : ofFlag status.toUInt8 = status := by
  cases status <;> rfl

theorem EngineReport.engineFlags_eq (r : EngineReport) :
    (if r.flagReverse then (1 : UInt8) else 0) * engineFReverse + (if r.flagFire then 1 else 0) * engineFOnFire +
      (if r.flagMaintainance then 1 else 0) * engineFMaint = r.engineFlags := by
  unfold engineFlags
  cases r.flagReverse <;> cases r.flagFire <;> cases r.flagMaintainance <;> rfl

/-- What `elaboration_thread` makes of a packet is what the report says, whatever else the packet holds. -/
theorem process_store (r : Report) (p : AfdxPacket) (time : ℤ) (stray : Stray) (data : Intdata) :
    Nqnode.process stray ⟨p.store r, time⟩ data = r.apply time data := by
  cases r with
  | unknown => rfl
  | adiru r =>
    obtain ⟨hairspeed, haltitude, haoa, hroll, hpitch, hyaw⟩ := store_adiru p r
    have hid : (p.store (.adiru r)).identifier = packetTypeAdiru := rfl
    simp [Nqnode.process, Nqnode.assignments, hid, adiruFields, Assignment.store, Assignment.exec,
      AdiruField.assign, Report.apply, hairspeed, haltitude, haoa, hroll, hpitch, hyaw]
  | engine r =>
    obtain ⟨hengine, hthrottle, hthrust, htemp, hpress, hfuel⟩ := store_engine p r
    obtain ⟨hstatus, hreverse, hfire, hmaint⟩ := store_engine_flags p r
    have hid : (p.store (.engine r)).identifier = packetTypeEngine := rfl
    have hne : packetTypeEngine ≠ packetTypeAdiru := by decide
    have hlt : r.engineId.val < 4 := r.engineId.isLt
    have hnat : (UInt8.ofNat r.engineId).toNat = r.engineId := by
      rw [UInt8.toNat_ofNat']
      omega
    simp only [Nqnode.process, Nqnode.assignments, hid, hne, if_false, if_true, engineFields, hengine,
      List.map_cons, List.map_nil, List.foldl_cons, List.foldl_nil, Assignment.store, Assignment.exec, hnat, hlt, dif_pos,
      Function.update_self, Function.update_idem, EngineField.assign, hthrottle, hthrust, htemp, hpress, hfuel,
      hstatus, hreverse, hfire, hmaint, EngineStatus.ofFlag_toUInt8, r.engineFlags_eq, Report.apply]

/-- The assignments for a packet, one after the other. -/
theorem foldl_writes (r : Report) (p : AfdxPacket) (time : ℤ) (data : Intdata) :
    (Nqnode.writes ⟨p.store r, time⟩).foldl execWrite data = r.apply time data := by
  rw [← process_store r p time (fun _ _ _ _ => .init), Nqnode.writes, List.foldl_map, Nqnode.process]
  refine List.foldl_ext _ _ data fun data a _ => ?_
  cases a <;> rfl

/-- Each field of `intdata` is assigned once for a packet. -/
theorem assignments_nodup (node : Nqnode) : node.assignments.Nodup := by
  unfold Nqnode.assignments
  split_ifs
  · decide
  · exact List.Nodup.map (fun f f' h => (Assignment.engine.inj h).2) (by decide)
  · exact List.nodup_nil

/-- The assignment that sets the field of the reply to a query. -/
def AppQuery.source (query : AppQuery) : Option Assignment :=
  (DataId.ofRaw query.dataId).map fun d => d.assignment query.engineId

/-- The field of the reply is assigned at most once for a packet. -/
theorem countP_writes (node : Nqnode) (query : AppQuery) :
    node.writes.countP (fun w => query.source = some w.2) ≤ 1 := by
  rw [Nqnode.writes, List.countP_map]
  cases hs : query.source with
  | none => simp [Function.comp_def]
  | some a =>
    have hcount : node.assignments.countP ((fun w => decide (some a = some w.2)) ∘ (node, ·)) =
        node.assignments.count a := by
      refine List.countP_congr fun b _ => ?_
      simp only [Function.comp_apply, Option.some.injEq, decide_eq_true_eq, beq_iff_eq]
      exact eq_comm
    rw [hcount]
    exact List.nodup_iff_count_le_one.mp (assignments_nodup node) a

/-- No other assignment changes the reply. -/
theorem serveQuery_exec_of_ne {query : AppQuery} {a : Assignment} (ha : a.inRange) (hne : query.source ≠ some a)
    (stack : AppReply) (beyond : IntdataEngine) (node : Nqnode) (b data : Intdata) :
    serveQuery stack (a.exec node b data) beyond query = serveQuery stack data beyond query := by
  obtain ⟨reqId, e, dataId⟩ := query
  unfold AppQuery.source at hne
  unfold serveQuery
  cases hd : DataId.ofRaw dataId with
  | none => rfl
  | some d =>
    have hne : d.assignment e ≠ a := fun h => hne (by rw [hd, Option.map_some, h])
    cases a with
    | adiru f =>
      cases d <;> cases f <;>
        simp [Assignment.exec, AdiruField.assign, DataId.assignment, Intdata.engineAt] at hne ⊢
    | engine e' f =>
      have hr : e'.toNat < nrEngines := ha _ rfl
      by_cases hee : e = e'
      · subst hee
        cases d <;> cases f <;>
          simp [Assignment.exec, EngineField.assign, DataId.assignment, Intdata.engineAt, hr] at hne ⊢
      · have hee' (he : e.toNat < nrEngines) : (⟨e.toNat, he⟩ : Fin nrEngines) ≠ ⟨e'.toNat, hr⟩ := fun h =>
          hee (UInt8.toNat_inj.mp (Fin.mk.inj h))
        by_cases he : e.toNat < nrEngines
        · cases d <;> simp [Intdata.engineAt, he, Assignment.exec, hr, Function.update_of_ne (hee' he)]
        · cases d <;> simp [Intdata.engineAt, he, Assignment.exec, hr]

/-! ## The pipeline -/

/-- `intdata` after the reports, each with the time of its reception. -/
def Intdata.ofReports (reports : List (Report × ℤ)) : Intdata :=
  reports.foldl (fun data r => r.1.apply r.2 data) .init

namespace Pipeline

variable {n : ℕ} {s t : Pipeline} {reports : List (Report × ℤ)}

/-- The datagrams received are packets with these reports, received at these times. -/
def Received (s : Pipeline) (reports : List (Report × ℤ)) : Prop :=
  List.Forall₂ (fun (x : Reception) r => r.1.SentAs x.datagram ∧ x.node.lastUpdate = r.2) s.hist.received reports

/-- The node holds the report. -/
def Holds (node : Nqnode) (r : Report × ℤ) : Prop := ∃ p : AfdxPacket, node = ⟨p.store r.1, r.2⟩

/-- What has been received is in the nodes. -/
theorem Inv.holds (hI : Inv n s) (hr : s.Received reports) : List.Forall₂ Holds s.receivedNodes reports := by
  unfold receivedNodes
  rw [List.forall₂_map_left_iff]
  have hall := (List.forall₂_and_left s.hist.received reports).mpr ⟨hI.carried, hr⟩
  refine hall.imp fun x r ⟨hc, ⟨p, hdg⟩, htime⟩ => ⟨p, ?_⟩
  obtain ⟨datagram, packet, time⟩ := x
  dsimp only at hdg htime hc ⊢
  subst hdg
  obtain rfl : packet = p.store r.1 := by
    funext i
    rw [hc i (by simp [AfdxPacket.datagram])]
    simp only [AfdxPacket.datagram, List.getElem_ofFn]
  rw [htime]

/-- The ENGINE packets name engines that there are records of. -/
theorem Inv.engineIds_of_received (hI : Inv n s) (hr : s.Received reports) : s.EngineIdsInRange := by
  intro x hx hE
  have hholds : ∀ node ∈ s.receivedNodes, ∃ r, Holds node r :=
    ((List.forall₂_and_left _ reports).mp ((hI.holds hr).imp fun _ r h => ⟨⟨r, h⟩, h⟩)).1
  obtain ⟨⟨r, time⟩, p, hnode⟩ := hholds x.node (List.mem_map_of_mem hx)
  rw [hnode] at hE ⊢
  cases r with
  | unknown => exact absurd (show packetTypeUnknown = packetTypeEngine from hE) (by decide)
  | adiru r => exact absurd (show packetTypeAdiru = packetTypeEngine from hE) (by decide)
  | engine r =>
    have hlt : r.engineId.val < 4 := r.engineId.isLt
    have hid : (p.store (.engine r)).engineId = UInt8.ofNat r.engineId := rfl
    rw [hid, UInt8.toNat_ofNat']
    omega

/-- The assignments for the nodes make of `intdata` what the reports say. -/
theorem foldl_writes_of_holds {nodes : List Nqnode} (h : List.Forall₂ Holds nodes reports) :
    (nodes.flatMap Nqnode.writes).foldl execWrite .init = Intdata.ofReports reports := by
  unfold Intdata.ofReports
  generalize Intdata.init = data
  induction h generalizing data with
  | nil => rfl
  | @cons node r nodes reports hnode _ ih =>
    obtain ⟨p, rfl⟩ := hnode
    rw [List.flatMap_cons, List.foldl_append, foldl_writes, ih, List.foldl_cons]

/-! ### The packet in processing -/

/-- The assignments still to be made are the last ones for the packet in processing. -/
def RemainingInv (s : Pipeline) : Prop :=
  s.elaboration.begun = 1 → ∃ node ∈ s.hist.processed.getLast?, s.remaining <:+ node.writes

theorem remainingInv_of_eq (hR : RemainingInv s) (hpc : s.elaboration.begun = 1)
    (hp : t.hist.processed = s.hist.processed) (hrem : t.remaining <:+ s.remaining) : RemainingInv t := by
  intro _
  obtain ⟨node, hnode, hsuffix⟩ := hR hpc
  exact ⟨node, by rw [hp]; exact hnode, hrem.trans hsuffix⟩

theorem RemainingInv.step (hI : Inv n s) (hR : RemainingInv s) {l : PipelineLabel}
    (h : Pipeline.step n s l = some t) : RemainingInv t := by
  obtain ⟨-, ⟨l, rfl, hs⟩ | ⟨l, rfl, hs⟩⟩ := step_eq_some h
  · obtain ⟨-, -, hproc, -, hpc⟩ := netStep_frame hs
    have hrem := hI.remaining_netStep hs
    intro hb
    rcases hpc with hpc | ⟨-, hpc⟩
    · exact remainingInv_of_eq hR (hpc ▸ hb) hproc (hrem ▸ List.suffix_refl _) hb
    · rw [hpc] at hb
      cases hb
  · cases l with
    | loadIdentifier =>
      simp only [elabStep] at hs
      split at hs <;> rename_i hpc <;> cases hs
      · intro hb
        cases hb
      · rename_i slot
        intro _
        refine ⟨s.queue.nodes slot, by simp, ?_⟩
        -- all assignments are still to be made
        unfold remaining Nqnode.writes Nqnode.assignments
        split_ifs <;> exact List.suffix_refl _
    | loadEngineId =>
      simp only [elabStep] at hs
      split at hs <;> rename_i hpc <;> cases hs
      refine remainingInv_of_eq hR (by rw [hpc]; rfl) rfl ?_
      simp only [remaining, hpc]
      exact List.suffix_refl _
    | assign beyond =>
      simp only [elabStep] at hs
      split at hs <;> rename_i hpc <;> cases hs
      · refine remainingInv_of_eq hR (by rw [hpc]; rfl) rfl ?_
        simp only [remaining, hpc, List.map_cons]
        exact List.suffix_cons ..
      · refine remainingInv_of_eq hR (by rw [hpc]; rfl) rfl ?_
        exact List.nil_suffix
    | semWait =>
      simp only [elabStep] at hs
      split at hs <;> [skip; cases hs]
      obtain ⟨_, -, rfl⟩ := Option.map_eq_some_iff.mp hs
      intro hb
      cases hb
    | _ =>
      simp only [elabStep] at hs
      split at hs <;> rename_i hpc <;> cases hs
      intro hb
      cases hb

theorem remainingInv_of_reachable (hn : 0 < n) (h : Lts.Reachable (Pipeline.step n) init s) :
    RemainingInv s :=
  (h.invariant (I := fun s => Inv n s ∧ RemainingInv s) ⟨inv_init hn, fun hb => by cases hb⟩
    fun _ _ _ ⟨hI, hR⟩ hs => ⟨hI.step hs, hR.step hI hs⟩).2

/-! ### What a reply shows -/

theorem Inv.processed_eq_take (hI : Inv n s) :
    s.hist.processed = s.receivedNodes.take (s.hist.disposed + s.elaboration.begun) := by
  rw [← hI.processed]
  exact List.prefix_iff_eq_take.mp hI.order

/-- The assignments for the first nodes received make of `intdata` what the first reports say. -/
theorem Inv.foldl_take (hI : Inv n s) (hr : s.Received reports) (k : ℕ) :
    ((s.receivedNodes.take k).flatMap Nqnode.writes).foldl execWrite .init = .ofReports (reports.take k) :=
  foldl_writes_of_holds (List.forall₂_take k (hI.holds hr))

/-- `intdata` is the result of the assignments made so far. -/
theorem Inv.intdata_eq_foldl (hI : Inv n s) (hL : LogInv s) (hr : s.Received reports) :
    s.intdata = s.hist.executed.foldl execWrite .init :=
  hL.store fun _ hw => inRange_of_mem_writes (hI.engineIds_of_received hr)
    (((List.prefix_append _ _).trans (hI.log_received hL)).mem hw)

/-- Between two packets `intdata` is what the reports disposed so far make of it. -/
theorem Inv.intdata_of_received (hI : Inv n s) (hL : LogInv s) (hr : s.Received reports)
    (hb : s.elaboration.begun = 0) : s.intdata = .ofReports (reports.take s.hist.disposed) := by
  have hrem : s.remaining = [] := by
    unfold remaining
    split <;> rename_i hpc <;> first | rfl | (rw [hpc] at hb; cases hb)
  have hlog := hL.log
  rw [hrem, List.append_nil, hI.processed_eq_take, hb, Nat.add_zero] at hlog
  rw [hI.intdata_eq_foldl hL hr, hlog, hI.foldl_take hr]

/-- In the middle of a packet a part of its assignments has been made. -/
theorem Inv.intdata_of_begun (hI : Inv n s) (hL : LogInv s) (hR : RemainingInv s) (hr : s.Received reports)
    (hb : s.elaboration.begun = 1) : ∃ node done, node ∈ s.receivedNodes ∧ node.writes = done ++ s.remaining ∧
      s.intdata = done.foldl execWrite (.ofReports (reports.take s.hist.disposed)) ∧
      node.writes.foldl execWrite (.ofReports (reports.take s.hist.disposed)) =
        .ofReports (reports.take (s.hist.disposed + 1)) := by
  obtain ⟨node, hnode, done, hdone⟩ := hR hb
  have hproc : s.hist.processed = s.receivedNodes.take s.hist.disposed ++ [node] := by
    have htake := hI.processed_eq_take
    rw [hb, List.take_add_one] at htake
    cases hget : s.receivedNodes[s.hist.disposed]? with
    | none =>
      have hlen := congrArg List.length hI.processed_eq_take
      rw [hI.processed, hb, List.length_take] at hlen
      have := List.getElem?_eq_none_iff.mp hget
      omega
    | some node' =>
      rw [hget, Option.toList_some] at htake
      rw [htake, List.getLast?_concat] at hnode
      rw [htake, Option.some.inj hnode]
  have hlog := hL.log
  rw [hproc, List.flatMap_append, List.flatMap_singleton, ← hdone, ← List.append_assoc] at hlog
  have hexec := List.append_cancel_right hlog
  refine ⟨node, done, ?_, hdone.symm, ?_, ?_⟩
  · exact hI.order.mem (by rw [hproc]; simp)
  · rw [hI.intdata_eq_foldl hL hr, hexec, List.foldl_append, hI.foldl_take hr]
  · have hall := hI.foldl_take hr (s.hist.disposed + 1)
    rw [← hb, ← hI.processed_eq_take, hproc, List.flatMap_append, List.flatMap_singleton, List.foldl_append,
      hI.foldl_take hr, hb] at hall
    exact hall

/-- In every run that receives packets with these reports, `intdata` between two packets is what the reports
    processed so far make of it, one after the other. At every point the reply to a query is the one that it would
    be between two packets: for the report in processing, its reply is that before it or that after it. The packet
    in processing has been received as a whole because `pthread_cond_wait` returns on a signal only: the model has
    no spurious wakeups. -/
theorem replies_whole_reports (n : ℕ+) (h : Lts.Reachable (Pipeline.step n) init s) (hr : s.Received reports) :
    (s.elaboration.begun = 0 → s.intdata = .ofReports (reports.take s.hist.disposed)) ∧
    ∀ (stack : AppReply) (beyond : IntdataEngine) (query : AppQuery),
      ∃ k, (k = s.hist.disposed ∨ k = s.hist.disposed + s.elaboration.begun) ∧
        serveQuery stack s.intdata beyond query =
          serveQuery stack (.ofReports (reports.take k)) beyond query := by
  have hI := inv_of_reachable n.pos h
  have hL := logInv_of_reachable n.pos h
  have hbetween := hI.intdata_of_received hL hr
  refine ⟨hbetween, fun stack beyond query => ?_⟩
  by_cases hb : s.elaboration.begun = 0
  · exact ⟨s.hist.disposed, .inl rfl, by rw [hbetween hb]⟩
  have hb : s.elaboration.begun = 1 := by
    revert hb
    cases s.elaboration <;> simp [ElabPc.begun]
  obtain ⟨node, done, hnode, hwrites, hdata, hall⟩ :=
    hI.intdata_of_begun hL (remainingInv_of_reachable n.pos h) hr hb
  have honce : (done ++ s.remaining).countP (fun w => query.source = some w.2) ≤ 1 := hwrites ▸ countP_writes ..
  have hkeep : ∀ w ∈ done ++ s.remaining, decide (query.source = some w.2) = false → ∀ data,
      serveQuery stack (execWrite data w) beyond query = serveQuery stack data beyond query := by
    intro w hw hne data
    refine serveQuery_exec_of_ne ?_ (of_decide_eq_false hne) ..
    exact inRange_of_mem_writes (hI.engineIds_of_received hr)
      (List.mem_flatMap.mpr ⟨node, hnode, hwrites ▸ hw⟩)
  rcases LastWrite.get_before_or_after (fun data => serveQuery stack data beyond query) done s.remaining
    hkeep honce (.ofReports (reports.take s.hist.disposed)) with hbefore | hafter
  · exact ⟨s.hist.disposed, .inl rfl, by rw [hdata]; exact hbefore⟩
  · refine ⟨s.hist.disposed + 1, .inr (by rw [hb]), ?_⟩
    rw [hdata, ← hall, hwrites]
    exact hafter

/-- The example packet of the engine 2. -/
def throttleReport : EngineReport := ⟨⟨2, by decide⟩, 55, 60, 40, 20, 30, .starting, true, false, true⟩

/-- The packet arrives in full, and its first three assignments are made. -/
def reportRun : List PipelineLabel :=
  [.elaboration .condWait] ++
    receive (AfdxPacket.store (fun _ => 255) (.engine throttleReport)).datagram 7 ++
    [.elaboration .semWait, .elaboration .nextNqnodeOut, .elaboration .loadIdentifier,
      .elaboration .loadEngineId, .elaboration (.assign .init), .elaboration (.assign .init),
      .elaboration (.assign .init)]

theorem replies_whole_reports_reportRun :
    ∃ s, Lts.run (Pipeline.step sizeQueue) init reportRun = some s ∧ s.elaboration.begun = 1 ∧
      ∀ (stack : AppReply) (beyond : IntdataEngine) (query : AppQuery), ∃ k, (k = 0 ∨ k = 1) ∧
        serveQuery stack s.intdata beyond query =
          serveQuery stack (.ofReports ([(.engine throttleReport, 7)].take k)) beyond query := by
  obtain ⟨s, hs, hp⟩ := Lts.exists_run_of_map (Pipeline.step sizeQueue) init reportRun
    (fun s => decide (s.elaboration.begun = 1 ∧ s.hist.disposed = 0 ∧
      s.hist.received.map (fun x => (x.datagram, x.node.lastUpdate)) =
        [((AfdxPacket.store (fun _ => 255) (.engine throttleReport)).datagram, 7)])) (by decide)
  obtain ⟨hb, hd, hr⟩ := of_decide_eq_true hp
  refine ⟨s, hs, hb, ?_⟩
  have hreceived : s.Received [(.engine throttleReport, 7)] := by
    obtain ⟨x, hx, hdg⟩ := List.map_eq_singleton_iff.mp hr
    rw [Received, hx]
    exact .cons ⟨⟨_, (Prod.mk.inj hdg).1⟩, (Prod.mk.inj hdg).2⟩ .nil
  have hall := (replies_whole_reports sizeQueue ⟨_, hs⟩ hreceived).2
  rwa [hd, hb] at hall

end Pipeline

end Afdx
