import Afdx.Proofs.DescriptorProofs
import Afdx.Proofs.OwnershipProofs
import Afdx.Proofs.RegistryProofs

/-!
# The registry while both threads run

Whatever the two threads do, what is registered for an open connection is what its own messages say: the
queries it has registered and not unregistered, with their intervals. In the middle of an operation it is
what remains to be done of it that makes up the difference. The registry of a connection is empty when it
is accepted, and is not changed by the messages and the end of any other connection.
-/

namespace Afdx

open Links

/-- The client whose registrations are gone while its connection is still open. -/
def Caller.tornDown : Caller → Option ℕ
  | unregisterQuery _ => none
  | unregisterApplication fd _ _ => some fd

namespace ManagerPc

def tornDown : ManagerPc → Option ℕ
  | .dropLoop fd _ _ _ | .freeApp fd _ _ | .close fd _ => some fd
  | .removeNode _ _ caller | .freeNode _ _ caller | .freeQuery _ caller => caller.tornDown
  | _ => none

/-- What is registered for `fd` after the operation in progress, if `l` is registered for it now. -/
def completed (m : Mem) (fd : ℕ) (l : List (AppQuery × Option Timespec)) :
    ManagerPc → List (AppQuery × Option Timespec)
  | .registerNode fd' query interval =>
    if fd' = fd then (query, some (msInterval interval)) :: l else l
  | .schedule fd' _ node interval =>
    if fd' = fd then ((m.queries.cell node).query, some (msInterval interval)) :: l else l
  | .storeHandler fd' _ node handler =>
    if fd' = fd then ((m.queries.cell node).query, some (m.sched.payload handler).interval) :: l else l
  | .unchainQuery fd' reqId => if fd' = fd then l.eraseP fun p => p.1.reqId = reqId else l
  | _ => l

end ManagerPc

namespace Mem

variable {m m' : Mem} {S S' : Shape}

theorem Wf.periodic_eq (h : Wf m S) {a fd : ℕ} (ha : a ∈ S.apps) (hfd : (m.apps.cell a).fd = fd) :
    m.periodic fd = (S.queries a).map fun q => ((m.queries.cell q).query, m.intervalOf q) := by
  rw [periodic, h.registrations_some ha hfd, Option.getD_some]

theorem Wf.periodic_nil (h : Wf m S) {fd : ℕ} (hfd : ∀ a ∈ S.apps, (m.apps.cell a).fd ≠ fd) :
    m.periodic fd = [] := by
  rw [periodic, h.registrations_none hfd, Option.getD_none]

theorem Wf.periodic_of_others (h : Wf m S) (h' : Wf m' S') {fd fd' : ℕ} (hk : OtherClientsKept fd m m')
    (hne : fd' ≠ fd) : m'.periodic fd' = m.periodic fd' := by
  rw [periodic, periodic, h.registrations_of_others h' hk hne]

/-- Of what is registered for the client only the query of the unchained node goes. -/
theorem QueryUnchained.eraseP_periodic (hw : Wf m S) {fd : ℕ} {reqId : UInt32} {a q : ℕ} {l₁ l₂ : List ℕ}
    (h : QueryUnchained m S fd reqId m' a l₁ q l₂) :
    (m.periodic fd).eraseP (fun p => p.1.reqId = reqId) =
      (l₁ ++ l₂).map fun q => ((m.queries.cell q).query, m.intervalOf q) := by
  rw [hw.periodic_eq h.app_mem h.app_fd, h.queries, List.eraseP_map,
    List.eraseP_append_right _ (fun q' hq' => by simpa using h.before q' hq'),
    List.eraseP_cons_of_pos (by simpa using h.reqId_eq)]

/-- The interval of a registered query does not change. -/
theorem Wf.intervalOf_ext (h : Wf m S) (hext : Ext m m') {a q : ℕ} (ha : a ∈ S.apps)
    (hq : q ∈ S.queries a) (hh : (m'.queries.cell q).handler = (m.queries.cell q).handler) :
    m'.intervalOf q = m.intervalOf q := by
  obtain ⟨x, hx, hhx, -⟩ := h.handler a ha q hq
  have hlt : x < m.sched.nodes.brk := m.sched.nodes.live_lt x (h.schedRepr.live x hx)
  rw [Mem.intervalOf, Mem.intervalOf, hh, hhx, Option.map_some, Option.map_some, (hext.node x hlt).2.2]

/-- A piece of an operation that leaves all lists of queries alone. -/
theorem Wf.periodic_ext (h : Wf m S) (h' : Wf m' S') (hext : Ext m m') (happs : S'.apps = S.apps)
    (hqs : S'.queries = S.queries)
    (hh : ∀ q, S.Owned q → (m'.queries.cell q).handler = (m.queries.cell q).handler) (fd : ℕ) :
    m'.periodic fd = m.periodic fd := by
  have hfd : ∀ a ∈ S.apps, (m'.apps.cell a).fd = (m.apps.cell a).fd := fun a ha =>
    hext.fd a (m.apps.live_lt a (h.appLive a ha))
  by_cases hex : ∃ a ∈ S.apps, (m.apps.cell a).fd = fd
  · obtain ⟨a, ha, hafd⟩ := hex
    rw [h.periodic_eq ha hafd, h'.periodic_eq (happs ▸ ha) ((hfd a ha).trans hafd), hqs]
    refine List.map_congr_left fun q hq => ?_
    have ho : S.Owned q := .inl ⟨a, ha, hq⟩
    rw [(hext.query q (m.queries.live_lt q (h.queryLive q ho))).1, h.intervalOf_ext hext ha hq (hh q ho)]
  · have hnone : ∀ a ∈ S.apps, (m.apps.cell a).fd ≠ fd := fun a ha hafd => hex ⟨a, ha, hafd⟩
    rw [h.periodic_nil hnone, h'.periodic_nil]
    intro a ha
    rw [happs] at ha
    rw [hfd a ha]
    exact hnone a ha

end Mem

/-! ## One step of `application_manager` -/

/-- A step from `pc` to `pc'` does what it takes off the operation in progress. -/
def Tracked (pc : ManagerPc) (m : Mem) (pc' : ManagerPc) (m' : Mem) : Prop :=
  ∀ fd, pc'.tornDown ≠ some fd →
    pc'.completed m' fd (m'.periodic fd) = pc.completed m fd (m.periodic fd)

namespace Tracked

variable {pc pc' : ManagerPc} {m m' : Mem} {S S' : Shape} {fd : ℕ}

/-- A step that leaves the registry alone and is not part of an operation. -/
theorem of_eq (h : ∀ fd l, pc'.completed m fd l = pc.completed m fd l) : Tracked pc m pc' m :=
  fun fd _ => h fd _

theorem registerNode (hw : m.Wf S) {query : AppQuery} {interval : ℤ} {app node : ℕ}
    (h : m.registerNode fd query = some (app, node, m')) :
    Tracked (.registerNode fd query interval) m (.schedule fd app node interval) m' := by
  obtain ⟨app', node', m'', S', heq, hr⟩ := hw.registerNode fd query
  obtain ⟨rfl, rfl, rfl⟩ : app' = app ∧ node' = node ∧ m'' = m' := by
    simpa only [Option.some.injEq, Prod.mk.injEq] using heq.symm.trans h
  intro fd' _
  have hreg : m''.periodic fd' = m.periodic fd' := by
    by_cases hfd : fd' = fd
    · subst hfd
      rw [hr.wf.periodic_eq hr.app_mem hr.app_fd, Mem.periodic, hr.old]
      refine List.map_congr_left fun q hq => ?_
      have hcell := (hr.kept q (.inl ⟨app', hr.app_mem, hq⟩)).2
      rw [Mem.intervalOf, Mem.intervalOf, hcell, hr.sched]
    · exact hw.periodic_of_others hr.wf hr.others hfd
  rw [hreg]
  simp only [ManagerPc.completed, hr.cell]

theorem schedule_call (hw : m.Wf S) {app node handler : ℕ} {interval : ℤ} {now : Timespec} {signal : Bool}
    {st : Sched} (hinv : ManagerPc.Inv m S (.schedule fd app node interval))
    (h : Afdx.schedule m.sched .serveSchedulerQuery node interval now = some (handler, signal, st)) :
    Tracked (.schedule fd app node interval) m (.storeHandler fd app node handler)
      { m with sched := st } := by
  obtain ⟨hl, hd, happ, hfd, hlive, hno, hna, hnn⟩ := hinv
  obtain ⟨signal', st', l₁, l₂, heq, hls, hwf, hext, -, -, hnew, -⟩ := hw.schedule fd hlive hno
    (hna.symm ▸ happ) (hna.symm ▸ hfd) interval now
  obtain ⟨rfl, rfl, rfl⟩ : m.sched.nodes.brk = handler ∧ signal' = signal ∧ st' = st := by
    simpa only [Option.some.injEq, Prod.mk.injEq] using heq.symm.trans h
  intro fd' _
  rw [hw.periodic_ext hwf hext rfl rfl fun _ _ => rfl]
  simp only [ManagerPc.completed, hnew]

theorem storeHandler (hw : m.Wf S) {app node handler : ℕ}
    (hinv : ManagerPc.Inv m S (.storeHandler fd app node handler)) :
    Tracked (.storeHandler fd app node handler) m (.readLoop (fd + 1)) (m.storeHandler app node handler) := by
  obtain ⟨hl, hd, happ, hfd, hna, hnn, hx, hdata⟩ := hinv
  obtain ⟨hwf, ho⟩ := hw.storeHandler node handler happ hfd hl hna hnn hx hdata
  intro fd' _
  simp only [ManagerPc.completed]
  split_ifs with hne
  · subst hne
    have hfd' : ((m.storeHandler app node handler).apps.cell app).fd = fd := by
      simp only [Mem.storeHandler, Heap.modify_cell_self]
      exact hfd
    rw [hwf.periodic_eq (a := app) happ hfd', hw.periodic_eq happ hfd, Shape.setQueries_queries_self,
      List.map_cons]
    refine congrArg₂ _ ?_ (List.map_congr_left fun q hq => ?_)
    · simp [Mem.storeHandler, Mem.intervalOf]
    · have hqn : q ≠ node := by
        rintro rfl
        exact hw.not_loose happ hq (by simp [hl])
      simp only [Mem.storeHandler, Mem.intervalOf, Heap.modify_cell_of_ne _ _ _ hqn]
  · exact hw.periodic_of_others hwf ho (Ne.symm hne)

theorem unchainQuery (hw : m.Wf S) {reqId : UInt32} {node : Option ℕ}
    (hinv : ManagerPc.Inv m S (.unchainQuery fd reqId)) (h : m.unchainQuery fd reqId = some (node, m'))
    (hpc' : ∀ fd l, pc'.completed m' fd l = l) : Tracked (.unchainQuery fd reqId) m pc' m' := by
  intro fd' _
  rw [hpc']
  simp only [ManagerPc.completed]
  rcases hw.unchainQuery hinv.1 fd reqId with ⟨heq, hnone⟩ | ⟨a, l₁, q, l₂, m'', heq, hu⟩
  · obtain ⟨rfl, rfl⟩ : none = node ∧ m = m' := by
      simpa only [Option.some.injEq, Prod.mk.injEq] using heq.symm.trans h
    split_ifs with hfd
    · subst hfd
      rw [List.eraseP_of_forall_not]
      intro p hp
      by_cases hex : ∃ a ∈ S.apps, (m.apps.cell a).fd = fd
      · obtain ⟨a, ha, hafd⟩ := hex
        rw [hw.periodic_eq ha hafd] at hp
        obtain ⟨q, hq, rfl⟩ := List.mem_map.mp hp
        simpa using hnone a ha hafd q hq
      · rw [hw.periodic_nil fun a ha hafd => hex ⟨a, ha, hafd⟩] at hp
        cases hp
    · rfl
  · obtain ⟨rfl, rfl⟩ : some q = node ∧ m'' = m' := by
      simpa only [Option.some.injEq, Prod.mk.injEq] using heq.symm.trans h
    split_ifs with hfd
    · subst hfd
      rw [hu.wf.periodic_eq (a := a) hu.app_mem ((hu.fd_eq a).trans hu.app_fd), hu.eraseP_periodic hw,
        Shape.setQueries_queries_self]
      refine List.map_congr_left fun q' _ => ?_
      obtain ⟨hquery, -, hh⟩ := hu.cell q'
      rw [hquery, Mem.intervalOf, Mem.intervalOf, hh, hu.sched]
    · exact hw.periodic_of_others hu.wf hu.others (Ne.symm hfd)

theorem unchainApp (hw : m.Wf S) {site : Teardown} {app : Option ℕ}
    (hinv : ManagerPc.Inv m S (.unchainApp fd site)) (h : m.unchainApp fd = some (app, m'))
    (hpc' : pc'.tornDown = some fd) (hcomp : ∀ fd l, pc'.completed m' fd l = l) :
    Tracked (.unchainApp fd site) m pc' m' := by
  intro fd' hfd'
  have hne : fd' ≠ fd := by
    rintro rfl
    exact hfd' hpc'
  rw [hcomp]
  simp only [ManagerPc.completed]
  rcases hw.unchainApp hinv.1 fd with ⟨heq, -⟩ | ⟨l₁, a, l₂, m'', heq, hu⟩
  · obtain ⟨rfl, rfl⟩ : none = app ∧ m = m' := by
      simpa only [Option.some.injEq, Prod.mk.injEq] using heq.symm.trans h
    rfl
  · obtain ⟨rfl, rfl⟩ : some a = app ∧ m'' = m' := by
      simpa only [Option.some.injEq, Prod.mk.injEq] using heq.symm.trans h
    exact hw.periodic_of_others hu.wf hu.others hne

/-- `unschedule` takes out of the scheduler's list a node that serves no registered query. -/
theorem removeNode (hw : m.Wf S) {node handler : ℕ} {caller : Caller}
    (hinv : ManagerPc.Inv m S (.removeNode node handler caller)) :
    Tracked (.removeNode node handler caller) m (.freeNode node handler caller)
      { m with sched := Afdx.removeNode m.sched handler } := by
  obtain ⟨l₁, l₂, hs⟩ := List.append_of_mem hinv.1
  have hsame := (hs ▸ hw.schedRepr).removeNode.2
  intro fd' _
  simp only [ManagerPc.completed, Mem.periodic, Mem.registrations]
  have hi : ∀ q, Mem.intervalOf { m with sched := Afdx.removeNode m.sched handler } q = m.intervalOf q := by
    intro q
    simp only [Mem.intervalOf, hsame.payload]
  simp only [hi]
  rfl

end Tracked

namespace Server

variable {am : ℕ} {s t : Server} {S : Shape} {msg : MsgBytes}

theorem managerNext_tracked (hw : s.mem.Wf S) (hinv : s.manager.Inv s.mem S)
    (h : s.managerNext am = some t) : Tracked s.manager s.mem t.manager t.mem := by
  cases hpc : s.manager with
  | accept | listenError | readLoop _ | exceptLoop _ =>
    simp only [managerNext, hpc] at h
    (repeat' split at h) <;> cases h <;> first
      | exact .of_eq fun _ _ => rfl
      | exact .of_eq fun _ _ => by rw [exit, hpc]
  | registerNode fd query interval =>
    simp only [managerNext, hpc] at h
    obtain ⟨⟨app, node, mem⟩, heq, rfl⟩ := Option.map_eq_some_iff.mp h
    exact .registerNode hw heq
  | storeHandler fd app node handler =>
    rw [hpc] at hinv
    simp only [managerNext, hpc] at h
    cases h
    exact .storeHandler hw hinv
  | unchainQuery fd reqId =>
    rw [hpc] at hinv
    simp only [managerNext, hpc] at h
    split at h
    · cases h
    · rename_i mem heq
      cases h
      exact .unchainQuery hw hinv heq fun _ _ => rfl
    · rename_i node mem heq
      obtain ⟨handler, -, rfl⟩ := Option.map_eq_some_iff.mp h
      exact .unchainQuery hw hinv heq fun _ _ => rfl
  | unchainApp fd site =>
    rw [hpc] at hinv
    simp only [managerNext, hpc] at h
    split at h <;> cases h <;> rename_i heq <;> exact .unchainApp hw hinv heq rfl fun _ _ => rfl
  | dropLoop fd app p site =>
    cases p with
    | none =>
      simp only [managerNext, hpc] at h
      cases h
      exact .of_eq fun _ _ => rfl
    | some node =>
      simp only [managerNext, hpc] at h
      obtain ⟨handler, -, rfl⟩ := Option.map_eq_some_iff.mp h
      exact .of_eq fun _ _ => rfl
  | removeNode node handler caller =>
    rw [hpc] at hinv
    simp only [managerNext, hpc] at h
    split at h <;> cases h
    exact .removeNode hw hinv
  | freeNode node handler caller =>
    simp only [managerNext, hpc] at h
    cases h
    exact fun _ _ => rfl
  | freeQuery node caller =>
    simp only [managerNext, hpc] at h
    cases h
    intro fd _
    cases caller <;> rfl
  | freeApp fd app site =>
    simp only [managerNext, hpc] at h
    cases h
    exact fun _ _ => rfl
  | close fd site =>
    simp only [managerNext, hpc] at h
    cases h
    intro fd' _
    cases site <;> rfl
  | select | read _ | serve _ _ | write _ _ _ | schedule _ _ _ _ => simp [managerNext, hpc] at h

/-- Every step of `application_manager` but `read`, which begins an operation. -/
theorem managerStep_tracked (hw : s.mem.Wf S) (hinv : s.manager.Inv s.mem S) {l : ManagerLabel}
    (hl : ∀ chunk, l ≠ .read chunk) (h : managerStep am s l = some t) :
    Tracked s.manager s.mem t.manager t.mem := by
  cases l with
  | next => exact managerNext_tracked hw hinv h
  | read chunk => exact (hl chunk rfl).elim
  | schedule now =>
    simp only [managerStep] at h
    split at h <;> [rename_i fd app node interval hpc; cases h]
    rw [hpc] at hinv ⊢
    split at h
    · cases h
    · obtain ⟨⟨handler, signal, sched⟩, heq, rfl⟩ := Option.map_eq_some_iff.mp h
      exact .schedule_call hw hinv heq
  | write =>
    simp only [managerStep] at h
    split at h <;> [rename_i hpc; cases h]
    obtain ⟨conn, -, rfl⟩ := Option.map_eq_some_iff.mp h
    rw [hpc]
    exact .of_eq fun _ _ => rfl
  | _ =>
    simp only [managerStep] at h
    split at h <;> first
      | cases h
        done
      | rename_i hpc
        (repeat' split at h) <;> cases h <;> first
          | (rw [hpc]; exact .of_eq fun _ _ => rfl)
          | exact .of_eq fun _ _ => rfl

/-- Re-arming a node is no part of an operation. -/
theorem schedulerStep_tracked (hw : s.mem.Wf S) (hinv : s.manager.Inv s.mem S) {l : SchedulerLabel}
    (h : schedulerStep s l = some t) (fd : ℕ) :
    t.manager.completed t.mem fd (t.mem.periodic fd) =
      s.manager.completed s.mem fd (s.mem.periodic fd) := by
  obtain ⟨hpc, S', hr⟩ := schedulerStep_rearmed hw hinv h
  rw [hw.periodic_ext hr.wf hr.ext (by rw [hr.registered]) (by rw [hr.registered])
    (fun q _ => by rw [hr.queries]) fd, hpc]
  cases hm : s.manager with
  | storeHandler fd' app node handler =>
    rw [hm] at hinv
    obtain ⟨-, -, -, -, -, -, hx, -⟩ := hinv
    have hlt := s.mem.sched.nodes.live_lt handler (hw.schedRepr.live handler hx)
    simp only [ManagerPc.completed, hr.queries, (hr.ext.node handler hlt).2.2]
  | _ => simp only [ManagerPc.completed, hr.queries]

/-- The connection of a client that is torn down stays in hand until it is closed. -/
theorem managerStep_tornDown {l : ManagerLabel} (h : managerStep am s l = some t) {fd : ℕ}
    (hfd : s.manager.tornDown = some fd) :
    t.manager.tornDown = some fd ∨ t.conns fd = none := by
  cases hpc : s.manager with
  | dropLoop fd' app p site =>
    rw [hpc] at hfd
    cases l <;> simp only [managerStep, managerNext, hpc] at h <;> try cases h
    cases p with
    | none =>
      cases h
      exact .inl hfd
    | some node =>
      obtain ⟨handler, -, rfl⟩ := Option.map_eq_some_iff.mp h
      exact .inl hfd
  | removeNode node handler caller | freeNode node handler caller | freeApp fd' app site =>
    rw [hpc] at hfd
    cases l <;> simp only [managerStep, managerNext, hpc] at h <;> (try split at h) <;> cases h
    exact .inl hfd
  | freeQuery node caller =>
    rw [hpc] at hfd
    cases caller with
    | unregisterQuery fd' => cases hfd
    | unregisterApplication fd' app site =>
      cases l <;> simp only [managerStep, managerNext, hpc] at h <;> cases h
      exact .inl hfd
  | close fd' site =>
    rw [hpc] at hfd
    obtain rfl := Option.some.inj hfd
    cases l <;> simp only [managerStep, managerNext, hpc] at h <;> cases h
    exact .inr (Function.update_self ..)
  | _ => rw [hpc] at hfd; cases hfd

/-! ## What is registered for a connection -/

/-- Connections are numbered as they are accepted, and only those accepted have sent messages. -/
structure Numbered (s : Server) : Prop where
  fresh : ∀ c, s.accepted ≤ c → s.hist.dispatched c = []
  lt : ∀ fd c, s.conns fd = some c → c < s.accepted
  injective : ∀ fd fd' c, s.conns fd = some c → s.conns fd' = some c → fd = fd'

theorem numbered_init (am : ℕ) (msg : MsgBytes) : Numbered (init am msg) where
  fresh _ _ := rfl
  lt := by simp [init]
  injective := by simp [init]

theorem Numbered.of_accepted (hN : Numbered s) (hd : t.hist.dispatched = s.hist.dispatched) {newfd : ℕ}
    (hc : t.conns = Function.update s.conns newfd (some s.accepted)) (ha : t.accepted = s.accepted + 1) :
    Numbered t := by
  have hcases : ∀ fd c, t.conns fd = some c →
      (fd = newfd ∧ c = s.accepted) ∨ (fd ≠ newfd ∧ s.conns fd = some c) := by
    intro fd c hfd
    rw [hc] at hfd
    by_cases hne : fd = newfd
    · rw [hne, Function.update_self] at hfd
      exact .inl ⟨hne, (Option.some.inj hfd).symm⟩
    · rw [Function.update_of_ne hne] at hfd
      exact .inr ⟨hne, hfd⟩
  refine ⟨fun c hle => ?_, fun fd c hfd => ?_, fun fd fd' c hfd hfd' => ?_⟩
  · rw [hd]
    exact hN.fresh c (by omega)
  · rcases hcases fd c hfd with ⟨-, rfl⟩ | ⟨-, hfd⟩
    · omega
    · have hlt := hN.lt fd c hfd
      omega
  · rcases hcases fd c hfd with ⟨rfl, rfl⟩ | ⟨-, hfd⟩ <;> rcases hcases fd' _ hfd' with ⟨rfl, hc'⟩ | ⟨-, hfd'⟩
    · rfl
    · exact absurd (hN.lt fd' _ hfd') (lt_irrefl _)
    · exact absurd (hc' ▸ hN.lt fd c hfd) (lt_irrefl _)
    · exact hN.injective fd fd' c hfd hfd'

theorem Numbered.of_subset (hN : Numbered s) (hd : t.hist.dispatched = s.hist.dispatched)
    (hc : ∀ fd c, t.conns fd = some c → s.conns fd = some c) (ha : t.accepted = s.accepted) : Numbered t where
  fresh c hle := by
    rw [hd]
    exact hN.fresh c (ha ▸ hle)
  lt fd c hfd := ha ▸ hN.lt fd c (hc fd c hfd)
  injective fd fd' c hfd hfd' := hN.injective fd fd' c (hc fd c hfd) (hc fd' c hfd')

theorem Numbered.step (hN : Numbered s) {l : ServerLabel} (h : step am s l = some t) : Numbered t := by
  by_cases hread : ∃ chunk, l = .manager (.read chunk)
  · obtain ⟨chunk, rfl⟩ := hread
    obtain ⟨fd, c, hc, -, -, -, hd⟩ := hist_of_read h
    rcases managerStep_conns (step_manager h).2 with ⟨heq, ha⟩ | ⟨_, hl, -⟩ | ⟨_, site, hpc, -⟩
    · refine ⟨fun c' hle => ?_, by rw [heq, ha]; exact hN.lt, by rw [heq]; exact hN.injective⟩
      have hlt := hN.lt fd c hc
      rw [hd, Function.update_of_ne (by omega)]
      exact hN.fresh c' (ha ▸ hle)
    · cases hl
    · have hs := (step_manager h).2
      simp [managerStep, hpc] at hs
  · have hd := (hist_of_not_read h fun chunk hl => hread ⟨chunk, hl⟩).2
    cases l with
    | scheduler l =>
      obtain ⟨hc, ha⟩ := schedulerStep_conns (step_scheduler h).2
      exact hN.of_subset hd (fun fd c hfd => hc ▸ hfd) ha
    | manager l =>
      rcases managerStep_conns (step_manager h).2 with
        ⟨hc, ha⟩ | ⟨newfd, -, -, -, hc, ha⟩ | ⟨fd, site, -, hc, ha⟩
      · exact hN.of_subset hd (fun fd c hfd => hc ▸ hfd) ha
      · exact hN.of_accepted hd hc ha
      · refine hN.of_subset hd (fun fd' c hfd => ?_) ha
        rw [hc] at hfd
        by_cases hne : fd' = fd
        · rw [hne, Function.update_self] at hfd
          cases hfd
        · rwa [Function.update_of_ne hne] at hfd

/-- A query as it is registered, with the interval that its scheduler node has. -/
def asRegistered (p : AppQuery × ℤ) : AppQuery × Option Timespec := (p.1, some (msInterval p.2))

/-- What is registered for an open connection is what it has asked for, after the operation in progress. -/
def Kept (s : Server) : Prop :=
  ∀ fd c, s.conns fd = some c → s.manager.tornDown ≠ some fd →
    s.manager.completed s.mem fd (s.mem.periodic fd) =
      (periodicQueries (s.hist.dispatched c)).map asRegistered

/-- A message of the client begins the operation that it asks for. -/
theorem completed_dispatch (m : Mem) (fd : ℕ) (operation : Option Operation) (l : List (AppQuery × ℤ)) :
    (dispatch fd operation).completed m fd (l.map asRegistered) =
      (operation.toList.foldl Operation.update l).map asRegistered := by
  rcases operation with _ | (_ | _ | _)
  · rfl
  · rfl
  · simp only [dispatch, ManagerPc.completed, if_true]
    rfl
  · simp only [dispatch, ManagerPc.completed, if_true, List.eraseP_map]
    rfl

theorem completed_dispatch_of_ne (m : Mem) {fd fd' : ℕ} (h : fd' ≠ fd) (operation : Option Operation)
    (l : List (AppQuery × Option Timespec)) : (dispatch fd operation).completed m fd' l = l := by
  rcases operation with _ | (_ | _ | _)
  · rfl
  · rfl
  · exact if_neg (Ne.symm h)
  · exact if_neg (Ne.symm h)

theorem Kept.read (hK : Kept s) (hN : Numbered s) {chunk : List UInt8}
    (h : managerStep am s (.read chunk) = some t) : Kept t := by
  simp only [managerStep] at h
  split at h <;> [rename_i fd hpc; cases h]
  split at h <;> [rename_i conn hconn; cases h]
  split at h <;> cases h
  intro fd' c hc _
  have hold := hK fd' c hc (by rw [hpc]; simp [ManagerPc.tornDown])
  rw [hpc] at hold
  simp only [ManagerPc.completed] at hold
  rw [hold]
  by_cases hfd : fd' = fd
  · subst hfd
    obtain rfl := Option.some.inj (hconn.symm.trans hc)
    simp only [Function.update_self, periodicQueries, List.foldl_append]
    exact completed_dispatch ..
  · have hne : c ≠ conn := fun hcc => hfd (hN.injective fd' fd c hc (hcc ▸ hconn))
    simp only [Function.update_of_ne hne]
    exact completed_dispatch_of_ne _ hfd ..

theorem Kept.manager (hK : Kept s) (hN : Numbered s) (hF : Fds am s) (hR : RegisteredOpen am s)
    (hw : s.mem.Wf S) (hinv : s.manager.Inv s.mem S) {l : ManagerLabel}
    (h : Server.step am s (.manager l) = some t) : Kept t := by
  have hs := (step_manager h).2
  by_cases hread : ∃ chunk, l = .read chunk
  · obtain ⟨chunk, rfl⟩ := hread
    exact hK.read hN hs
  have htrack := managerStep_tracked hw hinv (fun chunk hl => hread ⟨chunk, hl⟩) hs
  have hd := (hist_of_not_read h fun chunk hl => hread ⟨chunk, ServerLabel.manager.inj hl⟩).2
  intro fd c hc htorn
  rw [htrack fd htorn, hd]
  rcases conns_of_managerStep hs hc with hc' | rfl
  · refine hK fd c hc' fun hstorn => ?_
    rcases managerStep_tornDown hs hstorn with htorn' | hnone
    · exact htorn htorn'
    · rw [hnone] at hc
      cases hc
  · -- a connection just accepted
    rcases managerStep_conns hs with ⟨heq, -⟩ | ⟨newfd, hl, hpc, hnone, heq, -⟩ | ⟨_, _, hpc, -⟩
    · simp only [managerStep] at hs
      split at hs <;> [skip; cases hs]
      split at hs <;> [rename_i hok; cases hs]
      rw [heq, hok.2.1] at hc
      cases hc
    · cases hl
      rw [heq, Function.update_self] at hc
      obtain rfl := Option.some.inj hc
      rw [hN.fresh _ le_rfl, hpc]
      refine hw.periodic_nil fun a ha hafd => ?_
      obtain ⟨hm, hne⟩ := hR a (hw.appList_eq ▸ ha)
      rw [hafd] at hm hne
      rcases (hF.managed fd).mp hm with heq' | hsome
      · exact hne heq'
      · rw [hnone] at hsome
        cases hsome
    · simp [managerStep, hpc] at hs

theorem Kept.step (hK : Kept s) (hN : Numbered s) (hF : Fds am s) (hR : RegisteredOpen am s) (hI : Inv s)
    {l : ServerLabel} (h : Server.step am s l = some t) : Kept t := by
  obtain ⟨S, hw, hinv⟩ := hI
  cases l with
  | manager l => exact hK.manager hN hF hR hw hinv h
  | scheduler l =>
    have hs := (step_scheduler h).2
    have hd := (hist_of_not_read h (by simp)).2
    intro fd c hc htorn
    rw [(schedulerStep_conns hs).1] at hc
    rw [(schedulerStep_rearmed hw hinv hs).1] at htorn
    rw [schedulerStep_tracked hw hinv hs, hd]
    exact hK fd c hc htorn

theorem kept_of_reachable (h : Lts.Reachable (Server.step am) (init am msg) s) : Numbered s ∧ Kept s := by
  obtain ⟨-, hN, hK⟩ := h.invariant
    (I := fun s => (Inv s ∧ Fds am s ∧ RegisteredOpen am s) ∧ Numbered s ∧ Kept s)
    ⟨⟨inv_init am msg, fds_init am msg, by simp [RegisteredOpen, init, Mem.appList, Mem.init, Links.collect]⟩,
      numbered_init am msg, by simp [Kept, init]⟩
    fun _ _ _ ⟨⟨hI, hF, hR⟩, hN, hK⟩ hs =>
      ⟨⟨hI.step hs, hF.step hs, hR.step hF hI hs⟩, hN.step hs, hK.step hN hF hR hI hs⟩
  exact ⟨hN, hK⟩

/-- What is registered for an open connection is decided by its own messages, whatever the other clients do
    and whenever the scheduler thread runs: the queries it has registered and not unregistered, with their
    intervals, the latest first. In the middle of an operation that is what will be registered after it. -/
theorem periodic_dispatched (h : Lts.Reachable (Server.step am) (init am msg) s) {fd c : ℕ}
    (hc : s.conns fd = some c) (htorn : s.manager.tornDown ≠ some fd) :
    s.manager.completed s.mem fd (s.mem.periodic fd) =
      (periodicQueries (s.hist.dispatched c)).map fun p => (p.1, some (msInterval p.2)) :=
  (kept_of_reachable h).2 fd c hc htorn

theorem periodic_dispatched_registerRun :
    ∃ s, Lts.run (step 3) (init 3 fun _ => 0) (registerRun 4 ++ registerRun 5) = some s ∧
      s.hist.dispatched 0 = [.registerQuery ⟨7, 0, 7⟩ 100] ∧
      s.manager.completed s.mem 4 (s.mem.periodic 4) =
        (periodicQueries (s.hist.dispatched 0)).map fun p => (p.1, some (msInterval p.2)) := by
  obtain ⟨s, hrun, hp⟩ := Lts.exists_run_of_map (step 3) (init 3 fun _ => 0)
    (registerRun 4 ++ registerRun 5) (fun s => decide (s.conns 4 = some 0 ∧ s.manager.tornDown = none ∧
      s.hist.dispatched 0 = [.registerQuery ⟨7, 0, 7⟩ 100])) (by decide)
  obtain ⟨hc, htorn, hd⟩ := of_decide_eq_true hp
  exact ⟨s, hrun, hd, periodic_dispatched ⟨_, hrun⟩ hc (by rw [htorn]; exact nofun)⟩

/-! ## What is scheduled -/

end Server

end Afdx
