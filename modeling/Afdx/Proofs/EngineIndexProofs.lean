import Afdx.Proofs.IntdataProofs
import Afdx.Proofs.OverwriteProofs

/-!
# The indices of the engine records

No index is checked. Each one that `elaboration_thread` uses is the `engine_id` of a received packet. Each one
that `serve_query` uses is that of a message, however long the query has been registered, unless the query is
freed while the action in progress has still to load from it.
-/

namespace Afdx

namespace Server

variable {am : ℕ} {s t : Server} {S S' : Shape} {msg : MsgBytes}

/-! ## Where the queries come from -/

/-- Every query in use has been asked for by some client, and so has every query that was served. -/
structure Provenance (s : Server) (S : Shape) : Prop where
  owned : ∀ q, S.Owned q → ∃ c, (s.mem.queries.cell q).query ∈ s.asked c
  manager : ∀ fd query, s.manager.target s.mem = some (fd, query) → ∃ c, query ∈ s.asked c
  action : ∀ fd query, s.scheduler.target s.mem = some (fd, query) → ∃ c, query ∈ s.asked c
  reads : ∀ i ∈ s.hist.engineReads, ∃ c, ∃ query ∈ s.asked c, query.engineIndex = some i

/-- `intdata.engines` is read at the index of the query that a thread is serving. -/
theorem engineReads_step {l : ServerLabel} (h : step am s l = some t) :
    t.hist.engineReads = s.hist.engineReads ∨ ∃ fd query,
      (s.manager = .serve fd query ∨ ∃ now, s.scheduler = .serve fd query now) ∧
      t.hist.engineReads = s.hist.engineReads ++ query.engineIndex.toList := by
  cases step_logged h with
  | serve fd query _ hpc hist => exact .inr ⟨fd, query, hpc, by rw [hist]; rfl⟩
  | nothing _ hist | read _ _ _ _ _ _ _ hist | write _ _ _ _ _ _ _ hist =>
    exact .inl ((congrArg ServerHist.engineReads hist).trans rfl)

theorem Provenance.reads_step (hP : Provenance s S) {l : ServerLabel} (h : Server.step am s l = some t) :
    ∀ i ∈ t.hist.engineReads, ∃ c, ∃ query ∈ t.asked c, query.engineIndex = some i := by
  intro i hi
  have hold : i ∈ s.hist.engineReads → ∃ c, ∃ query ∈ t.asked c, query.engineIndex = some i := fun hi => by
    obtain ⟨c, query, hq, hidx⟩ := hP.reads i hi
    exact ⟨c, query, asked_mono h hq, hidx⟩
  rcases engineReads_step h with heq | ⟨fd, query, hpc, heq⟩
  · exact hold (heq ▸ hi)
  rw [heq] at hi
  rcases List.mem_append.mp hi with hi | hi
  · exact hold hi
  have hask : ∃ c, query ∈ s.asked c := by
    rcases hpc with hpc | ⟨now, hpc⟩
    · exact hP.manager fd query (by rw [hpc]; rfl)
    · exact hP.action fd query (by rw [hpc]; rfl)
  obtain ⟨c, hc⟩ := hask
  exact ⟨c, query, asked_mono h hc, Option.mem_toList.mp hi⟩

theorem Provenance.managerStep (hP : Provenance s S) (hw : s.mem.Wf S) (hinv : s.manager.Inv s.mem S)
    (hL : ActionLive s) {l : ManagerLabel} (h : Server.step am s (.manager l) = some t)
    (hm : Moved s.manager s.mem S t.manager t.mem S') : Provenance t S' := by
  have hs := (step_manager h).2
  constructor
  case owned =>
    intro q hq
    rcases hm.owned q hq with ho | ⟨fd, app, interval, hpc⟩
    · rw [(hm.ext.query q (s.mem.queries.live_lt q (hw.queryLive q ho))).1]
      obtain ⟨c, hask⟩ := hP.owned q ho
      exact ⟨c, asked_mono h hask⟩
    · -- the query that is scheduled by this step
      obtain ⟨c, hask⟩ := hP.manager fd (s.mem.queries.cell q).query (by rw [hpc]; rfl)
      rw [hpc] at hinv
      rw [(hm.ext.query q (s.mem.queries.live_lt q hinv.2.2.2.2.1)).1]
      exact ⟨c, asked_mono h hask⟩
  case manager =>
    intro fd query ht
    rcases managerStep_target hw h ht with hold | ⟨-, c, -, hask⟩
    · obtain ⟨c, hask⟩ := hP.manager fd query hold
      exact ⟨c, asked_mono h hask⟩
    · exact ⟨c, hask⟩
  case action =>
    intro fd query ht
    have ht' := action_target_of_moved hs hm (fun o ho => (hL o ho).allocated) ht
    obtain ⟨c, hask⟩ := hP.action fd query ht'
    exact ⟨c, asked_mono h hask⟩
  case reads => exact hP.reads_step h

theorem Provenance.schedulerStep (hP : Provenance s S) (hw : s.mem.Wf S) (hinv : s.manager.Inv s.mem S)
    {l : SchedulerLabel} (h : Server.step am s (.scheduler l) = some t)
    (hr : Rearmed s.mem S s.manager t.mem S') : Provenance t S' := by
  have hs := (step_scheduler h).2
  constructor
  case owned =>
    intro q hq
    rw [hr.registered] at hq
    obtain ⟨c, hask⟩ := hP.owned q hq
    rw [hr.queries]
    exact ⟨c, asked_mono h hask⟩
  case manager =>
    intro fd query ht
    rw [target_of_rearmed (schedulerStep_rearmed hw hinv hs).1 hr] at ht
    obtain ⟨c, hask⟩ := hP.manager fd query ht
    exact ⟨c, asked_mono h hask⟩
  case action =>
    intro fd query ht
    rcases schedulerStep_target hw hs ht with ht' | ⟨-, x, hx, -, -, rfl⟩
    · obtain ⟨c, hask⟩ := hP.action fd query ht'
      exact ⟨c, asked_mono h hask⟩
    · -- the query of a node that this step takes from the list
      obtain ⟨c, hask⟩ := hP.owned _ (hw.schedNode x hx).2
      exact ⟨c, asked_mono h hask⟩
  case reads => exact hP.reads_step h

/-- The queries in use have been asked for, and what the action in progress has still to load from is allocated. -/
def Traced (s : Server) : Prop :=
  (∃ S, s.mem.Wf S ∧ s.manager.Inv s.mem S ∧ Provenance s S) ∧ ActionLive s

theorem Traced.step (hT : Traced s) {l : ServerLabel} (hok : s.sparesAction l = true)
    (h : Server.step am s l = some t) : Traced t := by
  obtain ⟨⟨S, hw, hinv, hP⟩, hL⟩ := hT
  refine ⟨?_, hL.step ⟨S, hw, hinv⟩ hok h⟩
  cases l with
  | manager l =>
    obtain ⟨S', hm⟩ := managerStep_moved hw hinv (step_manager h).2
    exact ⟨S', hm.wf, hm.inv, hP.managerStep hw hinv hL h hm⟩
  | scheduler l =>
    obtain ⟨hpc, S', hr⟩ := schedulerStep_rearmed hw hinv (step_scheduler h).2
    exact ⟨S', hr.wf, hpc ▸ hr.inv, hP.schedulerStep hw hinv h hr⟩

/-- What is stored over freed nodes is not used. -/
theorem Traced.sameLive (hT : Traced s) {m : Mem} (h : s.mem.SameLive m) : Traced { s with mem := m } := by
  obtain ⟨⟨S, hw, hinv, hP⟩, hL⟩ := hT
  have hsame : ∀ o ∈ s.scheduler.toLoad s.mem, o.Same s.mem m := fun o ho => (hL o ho).same h
  refine ⟨⟨S, h.wf hw, ManagerPc.inv_sameLive hinv hw h, fun q hq => ?_, ?_, ?_, hP.reads⟩, fun o ho => ?_⟩
  · rw [h.queries.cell q (hw.queryLive q hq)]
    exact hP.owned q hq
  · rw [ManagerPc.target_sameLive hinv h]
    exact hP.manager
  · rw [SchedulerPc.target_congr hsame]
    exact hP.action
  · rw [SchedulerPc.toLoad_congr hsame] at ho
    exact (hL o ho).of_sameLive h

/-- Every query asked for so far names an engine record, if it names an engine at all. -/
def QueriesInRange (s : Server) : Prop :=
  ∀ c, ∀ query ∈ s.asked c, ∀ i ∈ query.engineIndex, i < nrEngines

/-- The query of a message that a `read` completes names an engine record, if it names an engine. -/
def readsInRange (s : Server) : ServerLabel → Bool
  | .manager (.read chunk) =>
    match (s.packetMsg.overlay chunk).decode.operation.bind Operation.query with
    | some query => query.engineIndex.all fun i => decide (i < nrEngines)
    | none => true
  | _ => true

theorem readsInRange_reading (s : Server) (data : Intdata) (l : ServerLabel) :
    s.readsInRange (l.reading data) = s.readsInRange l := by
  cases l with
  | manager l => cases l <;> rfl
  | scheduler l => cases l <;> rfl

theorem sparesAction_reading (s : Server) (data : Intdata) (l : ServerLabel) :
    s.sparesAction (l.reading data) = s.sparesAction l := by
  cases l with
  | manager l => cases l <;> rfl
  | scheduler l => cases l <;> rfl

theorem QueriesInRange.step (hQ : QueriesInRange s) {l : ServerLabel} (hok : s.readsInRange l = true)
    (h : Server.step am s l = some t) : QueriesInRange t := by
  intro c query hq i hi
  by_cases hread : ∃ chunk, l = .manager (.read chunk)
  · obtain ⟨chunk, rfl⟩ := hread
    obtain ⟨_, c', -, -, -, -, hd⟩ := hist_of_read h
    rw [asked, hd] at hq
    by_cases hc : c = c'
    · subst hc
      rw [Function.update_self, List.filterMap_append] at hq
      rcases List.mem_append.mp hq with hq | hq
      · exact hQ c query hq i hi
      · obtain ⟨operation, hop, hquery⟩ := List.mem_filterMap.mp hq
        simp only [readsInRange, Option.mem_toList.mp hop, Option.bind_some, hquery] at hok
        rw [Option.mem_def.mp hi] at hok
        simpa using hok
    · rw [Function.update_of_ne hc] at hq
      exact hQ c query hq i hi
  · obtain ⟨-, hd⟩ := hist_of_not_read h fun chunk hl => hread ⟨chunk, hl⟩
    rw [asked, hd] at hq
    exact hQ c query hq i hi

end Server

namespace Pipeline

variable {n : ℕ} {s t : Pipeline}

/-- The packet that `recvfrom` has left in the slot names an engine record, if it is an ENGINE packet. -/
def receivesInRange (s : Pipeline) : PipelineLabel → Bool
  | .network (.setLastUpdate _) =>
    match s.network with
    | .setLastUpdate slot _ =>
      let packet := (s.queue.nodes slot).packet
      decide (packet.identifier = packetTypeEngine → packet.engineId.toNat < nrEngines)
    | _ => true
  | _ => true

/-- A datagram counts as received when `last_update` is stored, with the packet as it is then. -/
theorem received_step {l : PipelineLabel} (h : step n s l = some t) :
    t.hist.received = s.hist.received ∨ ∃ time slot dg r, l = .network (.setLastUpdate time) ∧
      s.network = .setLastUpdate slot dg ∧ t.hist.received = s.hist.received ++ [r] ∧
      r.node.packet = (s.queue.nodes slot).packet := by
  obtain ⟨-, ⟨l, rfl, hs⟩ | ⟨l, rfl, hs⟩⟩ := step_eq_some h
  · cases l with
    | setLastUpdate time =>
      simp only [netStep] at hs
      split at hs
      · rename_i slot dg hpc
        cases hs
        exact .inr ⟨time, slot, dg, _, rfl, hpc, rfl, by rw [Queue.modifyNode_self]⟩
      · cases hs
    | wakeup =>
      left
      simp only [netStep] at hs
      split at hs <;> cases hs
      unfold signal
      split <;> rfl
    | _ =>
      left
      simp only [netStep] at hs
      (repeat' split at hs) <;> cases hs <;> rfl
  · left
    cases l <;> simp only [elabStep] at hs <;> (repeat' split at hs) <;> first
      | (cases hs; rfl)
      | (obtain ⟨_, -, rfl⟩ := Option.map_eq_some_iff.mp hs; rfl)
      | cases hs

theorem EngineIdsInRange.step (hE : EngineIdsInRange s) {l : PipelineLabel}
    (hok : s.receivesInRange l = true) (h : Pipeline.step n s l = some t) : EngineIdsInRange t := by
  rcases received_step h with heq | ⟨time, slot, dg, r, rfl, hpc, heq, hpacket⟩
  · exact fun r hr => hE r (heq ▸ hr)
  · intro r' hr' htype
    rw [heq] at hr'
    rcases List.mem_append.mp hr' with hr' | hr'
    · exact hE r' hr' htype
    · obtain rfl := List.mem_singleton.mp hr'
      rw [hpacket] at htype ⊢
      simp only [receivesInRange, hpc, decide_eq_true_eq] at hok
      exact hok htype

end Pipeline

namespace Daemon

variable {n am : ℕ} {msg : MsgBytes} {d e : Daemon}

theorem step_pipeline {l : PipelineLabel} (h : step n am d (.pipeline l) = some e) :
    Pipeline.step n d.pipeline l = some e.pipeline ∧ e.server = d.server := by
  simp only [step] at h
  split at h
  · obtain ⟨p, hp, rfl⟩ := Option.map_eq_some_iff.mp h
    exact ⟨hp, rfl⟩
  · cases h

theorem step_server {l : ServerLabel} (h : step n am d (.server l) = some e) :
    Server.step am d.server (l.reading d.pipeline.intdata) = some e.server ∧ e.pipeline = d.pipeline := by
  simp only [step] at h
  split at h
  · cases h
  · obtain ⟨s, hs, rfl⟩ := Option.map_eq_some_iff.mp h
    exact ⟨hs, rfl⟩

/-- What holds of the server on its own holds of it in the daemon. -/
theorem reachable_server (h : Lts.Reachable (step n am) (init am msg) d) :
    Lts.Reachable (Server.step am) (.init am msg) d.server :=
  h.project Daemon.server fun s l t hs => by
    cases l with
    | pipeline l => exact .inl (step_pipeline hs).2
    | server l => exact .inr ⟨_, (step_server hs).1⟩

/-- No input names an engine that there is no record of: neither the packets received nor the messages
    read. -/
def inputsInRange (d : Daemon) : ReuseLabel → Bool
  | .daemon (.pipeline l) => d.pipeline.receivesInRange l
  | .daemon (.server l) => d.server.readsInRange l
  | .overwrite _ => true

/-- The step frees no node that the action in progress still has to load from. -/
def sparesAction (d : Daemon) : ReuseLabel → Bool
  | .daemon (.server l) => d.server.sparesAction l
  | _ => true

def inRangeSparing (d : Daemon) (l : ReuseLabel) : Bool := d.inputsInRange l && d.sparesAction l

/-- The inputs so far name engine records, and the queries in use are inputs. -/
structure InRange (d : Daemon) : Prop where
  packets : d.pipeline.EngineIdsInRange
  messages : d.server.QueriesInRange
  traced : d.server.Traced

theorem InRange.step (hR : InRange d) {l : ReuseLabel} (hok : d.inRangeSparing l = true)
    (h : reuseStep n am d l = some e) : InRange e := by
  obtain ⟨hreads, hspares⟩ := Bool.and_eq_true_iff.mp hok
  cases l with
  | daemon l =>
    have h : Daemon.step n am d l = some e := h
    cases l with
    | pipeline l =>
      obtain ⟨hp, hserver⟩ := step_pipeline h
      exact ⟨hR.packets.step hreads hp, hserver ▸ hR.messages, hserver ▸ hR.traced⟩
    | server l =>
      obtain ⟨hs, hpipeline⟩ := step_server h
      exact ⟨hpipeline ▸ hR.packets, hR.messages.step ((Server.readsInRange_reading ..).trans hreads) hs,
        hR.traced.step ((Server.sparesAction_reading ..).trans hspares) hs⟩
  | overwrite o =>
    obtain ⟨mem, hmem, rfl⟩ := Option.map_eq_some_iff.mp h
    exact ⟨hR.packets, hR.messages, hR.traced.sameLive (Mem.sameLive_overwrite hmem)⟩

/-- A client connects and registers `ENGINE_THROTTLE` of the engine `engineId`; at the next tick `scheduler_run`
    makes `n` loads from its query. -/
def throttleLoads (engineId : UInt8) (n : ℕ) : List ServerLabel :=
  Server.acceptRun 4 ++ Server.readableRun 4 ++
    [.manager (.read [2, 0, 100, 0, 7, 0, 0, 0, engineId, 0, 0, 0, 0, 0, 0, 0]), .manager .next,
      .manager (.schedule ⟨0, 0⟩)] ++ Server.nexts 3 ++ Server.popRun ++ List.replicate n (.scheduler .load)

/-- The query is served. -/
def throttleRun (engineId : UInt8) : List ServerLabel :=
  throttleLoads engineId 6 ++ [.scheduler (.serve Server.zeroSnapshot)]

/-- An ENGINE packet of the engine `engineId` arrives, and its first assignment is made. -/
def packetRun (engineId : UInt8) : List PipelineLabel :=
  [.elaboration .condWait] ++ Pipeline.receive [2, engineId, 55, 60, 40, 0, 20, 0, 30, 0, 21] 7 ++
    [.elaboration .semWait, .elaboration .nextNqnodeOut, .elaboration .loadIdentifier,
      .elaboration .loadEngineId, .elaboration (.assign .init)]

def engineRun (engineId : UInt8) : List ReuseLabel :=
  (packetRun engineId).map (.daemon <| .pipeline ·) ++ (throttleRun engineId).map (.daemon <| .server ·)

end Daemon

end Afdx
