import Afdx.Proofs.RegistrationProofs
import Afdx.Server

/-!
# What the steps of the server do to the registry

The invariant of `RegistrationProofs` is kept by every interleaving of the two threads. For each step
of a thread `Moved` says what it does to the registry.
-/

namespace Afdx

open Links

/-- The nodes that the two threads share. -/
inductive Obj
  | node (x : ℕ)
  | query (q : ℕ)
  | app (a : ℕ)
  deriving DecidableEq

def Obj.Live (m : Mem) : Obj → Prop
  | node x => x ∈ m.sched.nodes.live
  | query q => q ∈ m.queries.live
  | app a => a ∈ m.apps.live

/-- The node has been allocated, and perhaps freed since. -/
def Obj.Allocated (m : Mem) : Obj → Prop
  | node x => x < m.sched.nodes.brk
  | query q => q < m.queries.brk
  | app a => a < m.apps.brk

theorem Obj.Live.allocated {m : Mem} {o : Obj} (h : o.Live m) : o.Allocated m := by
  cases o with
  | node x => exact m.sched.nodes.live_lt x h
  | query q => exact m.queries.live_lt q h
  | app a => exact m.apps.live_lt a h

/-- The node holds the same in both memories, as far as it does not change while it is allocated. -/
def Obj.Same (m m' : Mem) : Obj → Prop
  | node x => (m'.sched.payload x).action = (m.sched.payload x).action ∧
      (m'.sched.payload x).data = (m.sched.payload x).data
  | query q => (m'.queries.cell q).query = (m.queries.cell q).query ∧
      (m'.queries.cell q).app = (m.queries.cell q).app
  | app a => (m'.apps.cell a).fd = (m.apps.cell a).fd

theorem Mem.Ext.same {m m' : Mem} (h : m.Ext m') {o : Obj} (ho : o.Allocated m) : o.Same m m' := by
  cases o with
  | node x => exact ⟨(h.node x ho).1, (h.node x ho).2.1⟩
  | query q => exact h.query q ho
  | app a => exact h.fd a ho

/-- The nodes that the action in progress still has to load from, the next one first. -/
def SchedulerPc.toLoad (m : Mem) : SchedulerPc → List Obj
  | .call x _ =>
    let q := (m.sched.nodes.cell x).data
    [.node x, .query q, .app (m.queries.cell q).app]
  | .loadApp q _ => [.query q, .app (m.queries.cell q).app]
  | .loadFd q a _ => [.app a, .query q]
  | .loadReqId q _ _ => [.query q]
  | .loadDataId q _ _ _ => [.query q]
  | .loadEngineId q _ _ _ _ => [.query q]
  | _ => []

namespace ManagerPc

/-- The node that the step of `application_manager` from here frees. -/
def freed : ManagerPc → Option Obj
  | .freeNode _ handler _ => some (.node handler)
  | .freeQuery node _ => some (.query node)
  | .freeApp _ app _ => some (.app app)
  | _ => none

end ManagerPc

/-- The client that a query is unscheduled for. -/
def Caller.fd : Caller → ℕ
  | unregisterQuery fd => fd
  | unregisterApplication fd _ _ => fd

/-- The client that `application_manager` is changing the registry for. -/
def ManagerPc.client : ManagerPc → Option ℕ
  | .registerNode fd _ _ | .schedule fd _ _ _ | .storeHandler fd _ _ _ => some fd
  | .unchainQuery fd _ | .unchainApp fd _ | .dropLoop fd _ _ _ => some fd
  | .removeNode _ _ caller | .freeNode _ _ caller | .freeQuery _ caller => some caller.fd
  | .freeApp fd _ _ | .close fd _ => some fd
  | _ => none

/-! ## The invariant -/

/-- `unregister_application(fd)` has unchained `app`; the list from `p` on is what is left of its
    queries. -/
structure Dropping (m : Mem) (S : Shape) (fd app : ℕ) (p : Option ℕ) : Prop where
  detached : S.detached = [app]
  chain : Chain (fun q => (m.queries.cell q).next) p S.loose
  queryApp : ∀ q ∈ S.loose, (m.queries.cell q).app = app
  appFd : (m.apps.cell app).fd = fd
  unique : ∀ a ∈ S.apps, (m.apps.cell a).fd ≠ fd
  handler : ∀ q ∈ S.loose, ∃ x ∈ S.sched,
    (m.queries.cell q).handler = some x ∧ (m.sched.payload x).data = q

/-- Who unschedules, and what is left to do for it. -/
def Caller.Inv (m : Mem) (S : Shape) (p : Option ℕ) : Caller → Prop
  | .unregisterQuery _ => S.loose = [] ∧ S.detached = []
  | .unregisterApplication fd app _ => Dropping m S fd app p

def ManagerPc.Inv (m : Mem) (S : Shape) : ManagerPc → Prop
  | .schedule fd app node _ => S.loose = [] ∧ S.detached = [] ∧ app ∈ S.apps ∧
      (m.apps.cell app).fd = fd ∧ node ∈ m.queries.live ∧ ¬ S.Owned node ∧
      (m.queries.cell node).app = app ∧ (m.queries.cell node).next = (S.queries app).head?
  | .storeHandler fd app node handler => S.loose = [node] ∧ S.detached = [] ∧ app ∈ S.apps ∧
      (m.apps.cell app).fd = fd ∧ (m.queries.cell node).app = app ∧
      (m.queries.cell node).next = (S.queries app).head? ∧ handler ∈ S.sched ∧
      (m.sched.payload handler).data = node
  | .dropLoop fd app p _ => Dropping m S fd app p
  | .removeNode node handler caller => handler ∈ S.sched ∧ (m.sched.payload handler).data = node ∧
      match caller with
      | .unregisterQuery fd => S.loose = [node] ∧ S.detached = [] ∧ m.ownerFd handler = fd
      | .unregisterApplication fd app _ => Dropping m S fd app (some node)
  | .freeNode node handler caller => handler ∉ S.sched ∧ node ∈ m.queries.live ∧ ¬ S.Owned node ∧
      caller.Inv m S (m.queries.cell node).next
  | .freeQuery node caller => node ∈ m.queries.live ∧ ¬ S.Owned node ∧
      caller.Inv m S (m.queries.cell node).next
  | .freeApp fd app _ => S.loose = [] ∧ S.detached = [app] ∧ ∀ a ∈ S.apps, (m.apps.cell a).fd ≠ fd
  | .close fd _ => S.loose = [] ∧ S.detached = [] ∧ ∀ a ∈ S.apps, (m.apps.cell a).fd ≠ fd
  | _ => S.loose = [] ∧ S.detached = []

/-- The places between two operations on the registry, and those where one begins. -/
def ManagerPc.quiet : ManagerPc → Bool
  | .schedule _ _ _ _ | .storeHandler _ _ _ _ | .dropLoop _ _ _ _ | .removeNode _ _ _
  | .freeNode _ _ _ | .freeQuery _ _ | .freeApp _ _ _ | .close _ _ => false
  | _ => true

theorem ManagerPc.inv_of_quiet {m : Mem} {S : Shape} {pc : ManagerPc} (hpc : pc.quiet = true) :
    pc.Inv m S ↔ S.loose = [] ∧ S.detached = [] := by
  cases pc <;> first | exact Iff.rfl | cases hpc

/-- What a step of `application_manager` from `pc` to `pc'` does to the registry. -/
structure Moved (pc : ManagerPc) (m : Mem) (S : Shape) (pc' : ManagerPc) (m' : Mem) (S' : Shape) :
    Prop where
  wf : m'.Wf S'
  inv : pc'.Inv m' S'
  ext : m.Ext m'
  live : ∀ o : Obj, o.Live m → pc.freed ≠ some o → o.Live m'
  others : ∀ fd ∈ pc.client, m.OtherClientsKept fd m'
  /-- Only `register_query` adds an application. -/
  apps : ∀ a ∈ S'.apps, a ∈ S.apps ∨
    ∃ query interval, pc = .registerNode (m'.apps.cell a).fd query interval
  /-- Only the call of `schedule` adds a scheduled query. -/
  owned : ∀ q, S'.Owned q → S.Owned q ∨ ∃ fd app interval, pc = .schedule fd app q interval
  schedule : ∀ fd app node interval, pc' = .schedule fd app node interval → pc = pc' ∨
    m.queries.brk ≤ node ∧ ∃ query, pc = .registerNode fd query interval

namespace Moved

variable {pc pc' : ManagerPc} {m m' : Mem} {S S' : Shape} {fd : ℕ}

/-- A step that leaves the registry alone. -/
theorem of_eq (hw : m.Wf S) (hinv : pc'.Inv m S)
    (hpc' : ∀ fd app node interval, pc' = .schedule fd app node interval → pc = pc') :
    Moved pc m S pc' m S where
  wf := hw
  inv := hinv
  ext := .refl m
  live _ ho _ := ho
  others _ _ := .refl _ m
  apps _ := .inl
  owned _ := .inl
  schedule _ _ _ _ h := .inl (hpc' _ _ _ _ h)

theorem quiet (hw : m.Wf S) (hinv : pc.Inv m S) (hpc : pc.quiet = true) (hpc' : pc'.quiet = true) :
    Moved pc m S pc' m S := by
  refine of_eq hw ((ManagerPc.inv_of_quiet hpc').mpr ((ManagerPc.inv_of_quiet hpc).mp hinv)) ?_
  rintro _ _ _ _ rfl
  cases hpc'

theorem live_of_kept (h : m.LiveKept m') (o : Obj) (ho : o.Live m) : o.Live m' := by
  cases o with
  | node x => exact h.nodes ho
  | query q => exact h.queries ho
  | app a => exact h.apps ho

theorem registerNode (hw : m.Wf S) {query : AppQuery} {interval : ℤ} {app node : ℕ}
    (hinv : ManagerPc.Inv m S (.registerNode fd query interval))
    (h : m.registerNode fd query = some (app, node, m')) :
    ∃ S', Moved (.registerNode fd query interval) m S (.schedule fd app node interval) m' S' := by
  obtain ⟨app', node', m'', S', heq, hr⟩ := hw.registerNode fd query
  obtain ⟨rfl, rfl, rfl⟩ : app' = app ∧ node' = node ∧ m'' = m' := by
    simpa only [Option.some.injEq, Prod.mk.injEq] using heq.symm.trans h
  obtain ⟨hl, hd⟩ := hinv
  exact ⟨S', {
    wf := hr.wf
    inv := ⟨hr.loose.trans hl, hr.detached.trans hd, hr.app_mem, hr.app_fd, hr.node_live, hr.not_owned,
      by rw [hr.cell], by rw [hr.cell]⟩
    ext := hr.ext
    live := fun o ho _ => live_of_kept hr.live o ho
    others := by
      rintro fd' ⟨⟩
      exact hr.others
    apps := fun a ha => (hr.apps a ha).imp_right fun hfd => ⟨query, interval, by rw [hfd]⟩
    owned := fun q hq => .inl (hr.kept q hq).1
    schedule := by
      rintro fd' app'' node'' interval' ⟨⟩
      exact .inr ⟨hr.node_eq.ge, query, rfl⟩ }⟩

theorem schedule_call (hw : m.Wf S) {app node handler : ℕ} {interval : ℤ} {now : Timespec} {signal : Bool}
    {st : Sched} (hinv : ManagerPc.Inv m S (.schedule fd app node interval))
    (h : Afdx.schedule m.sched .serveSchedulerQuery node interval now = some (handler, signal, st)) :
    ∃ S', Moved (.schedule fd app node interval) m S (.storeHandler fd app node handler)
      { m with sched := st } S' := by
  obtain ⟨hl, hd, happ, hfd, hlive, hno, hna, hnn⟩ := hinv
  obtain ⟨signal', st', l₁, l₂, heq, hls, hwf, hext, hk, ho, hnew, -⟩ := hw.schedule fd hlive hno
    (hna.symm ▸ happ) (hna.symm ▸ hfd) interval now
  obtain ⟨rfl, rfl, rfl⟩ : m.sched.nodes.brk = handler ∧ signal' = signal ∧ st' = st := by
    simpa only [Option.some.injEq, Prod.mk.injEq] using heq.symm.trans h
  exact ⟨_, {
    wf := hwf
    inv := ⟨by rw [hl], hd, happ, hfd, hna, hnn, by simp, by rw [hnew]⟩
    ext := hext
    live := fun o ho _ => live_of_kept hk o ho
    others := by
      rintro fd' ⟨⟩
      exact ho
    apps := fun _ => .inl
    owned := by
      rintro q (hq | hq)
      · exact .inl (.inl hq)
      · rcases List.mem_cons.mp hq with rfl | hq
        · exact .inr ⟨fd, app, interval, rfl⟩
        · exact .inl (.inr hq)
    schedule := by rintro _ _ _ _ ⟨⟩ }⟩

theorem storeHandler (hw : m.Wf S) {app node handler : ℕ}
    (hinv : ManagerPc.Inv m S (.storeHandler fd app node handler)) :
    ∃ S', Moved (.storeHandler fd app node handler) m S (.readLoop (fd + 1))
      (m.storeHandler app node handler) S' := by
  obtain ⟨hl, hd, happ, hfd, hna, hnn, hx, hdata⟩ := hinv
  obtain ⟨hwf, ho⟩ := hw.storeHandler node handler happ hfd hl hna hnn hx hdata
  obtain ⟨hext, hk⟩ := Mem.ext_storeHandler m app node handler
  exact ⟨_, {
    wf := hwf
    inv := ⟨rfl, hd⟩
    ext := hext
    live := fun o ho _ => live_of_kept hk o ho
    others := by
      rintro fd' ⟨⟩
      exact ho
    apps := fun _ => .inl
    owned := by
      intro q hq
      refine .inl ((Shape.owned_setQueries happ fun q => ?_).mp hq)
      simp [hl, or_comm]
    schedule := by rintro _ _ _ _ ⟨⟩ }⟩

theorem unchainQuery (hw : m.Wf S) {reqId : UInt32} {node : Option ℕ}
    (hinv : ManagerPc.Inv m S (.unchainQuery fd reqId)) (h : m.unchainQuery fd reqId = some (node, m')) :
    (node = none → m' = m) ∧ ∀ q ∈ node, ∃ handler S', (m'.queries.cell q).handler = some handler ∧
      Moved (.unchainQuery fd reqId) m S (.removeNode q handler (.unregisterQuery fd)) m' S' := by
  obtain ⟨hl, hd⟩ := hinv
  rcases hw.unchainQuery hl fd reqId with
    ⟨heq, -⟩ | ⟨a, l₁, q, l₂, m'', heq, hu⟩
  · obtain ⟨rfl, rfl⟩ : none = node ∧ m = m' := by
      simpa only [Option.some.injEq, Prod.mk.injEq] using heq.symm.trans h
    exact ⟨fun _ => rfl, by simp⟩
  obtain ⟨rfl, rfl⟩ : some q = node ∧ m'' = m' := by
    simpa only [Option.some.injEq, Prod.mk.injEq] using heq.symm.trans h
  refine ⟨by simp, ?_⟩
  rintro _ ⟨⟩
  have ha := hu.app_mem
  have hqa : q ∈ S.queries a := by simp [hu.queries]
  obtain ⟨x, hx, hh, hdata⟩ := hw.handler a ha q hqa
  have howner : m''.ownerFd x = fd := by
    rw [Mem.ownerFd, hu.sched, hdata, (hu.cell q).2.1, hu.fd_eq, hw.queryApp a ha q hqa, hu.app_fd]
  exact ⟨x, _, by rw [(hu.cell q).2.2, hh], {
    wf := hu.wf
    inv := ⟨hx, by rw [hu.sched, hdata], rfl, hd, howner⟩
    ext := hu.ext
    live := fun o ho _ => live_of_kept hu.live o ho
    others := by
      rintro fd' ⟨⟩
      exact hu.others
    apps := fun _ => .inl
    owned := by
      intro q' hq'
      refine .inl ((Shape.owned_setQueries ha fun q' => ?_).mp hq')
      simp only [hu.queries, hl, List.mem_append, List.mem_cons, List.not_mem_nil, or_false]
      grind
    schedule := by rintro _ _ _ _ ⟨⟩ }⟩

/-- The scheduler node of a loose query leaves the list. -/
theorem removeNode (hw : m.Wf S) {node handler : ℕ} {caller : Caller}
    (hinv : ManagerPc.Inv m S (.removeNode node handler caller)) :
    ∃ S', Moved (.removeNode node handler caller) m S (.freeNode node handler caller)
      { m with sched := Afdx.removeNode m.sched handler } S' := by
  obtain ⟨hx, hdata, hc⟩ := hinv
  -- what both callers need, given the rest of the loose queries
  have main : ∀ rest, S.loose = node :: rest → m.ownerFd handler = caller.fd →
      (∀ l₁ l₂, S.sched = l₁ ++ handler :: l₂ →
        Sched.SameNodes m.sched (Afdx.removeNode m.sched handler) →
        caller.Inv { m with sched := Afdx.removeNode m.sched handler }
          { S with sched := l₁ ++ l₂, loose := rest } (m.queries.cell node).next) →
      ∃ S', Moved (.removeNode node handler caller) m S (.freeNode node handler caller)
        { m with sched := Afdx.removeNode m.sched handler } S' := by
    intro rest hl hfd hcaller
    obtain ⟨l₁, l₂, hls, hwf, hsame, ho⟩ := hw.removeNode node handler rest hl hx hdata hfd
    have hk : m.LiveKept { m with sched := Afdx.removeNode m.sched handler } :=
      ⟨subset_rfl, subset_rfl, hsame.live.ge⟩
    have hgone : handler ∉ l₁ ++ l₂ :=
      (List.nodup_cons.mp (List.nodup_middle.mp (hls ▸ hw.schedRepr.nodup))).1
    exact ⟨_, {
      wf := hwf
      inv := ⟨hgone, hw.queryLive node (.inr (by simp [hl])), hw.not_owned_of_loose hl,
        hcaller l₁ l₂ hls hsame⟩
      ext := Mem.Ext.sched m hsame.brk.ge fun x _ => by
        rw [hsame.payload]
        exact ⟨rfl, rfl, rfl⟩
      live := fun o ho _ => live_of_kept hk o ho
      others := by
        rintro fd' ⟨⟩
        exact ho
      apps := fun _ => .inl
      owned := fun q hq => .inl (hq.imp_right fun hq => hl ▸ List.mem_cons_of_mem _ hq)
      schedule := by rintro _ _ _ _ ⟨⟩ }⟩
  cases caller with
  | unregisterQuery fd =>
    obtain ⟨hl, hd, hfd⟩ := hc
    exact main [] hl hfd fun _ _ _ _ => ⟨rfl, hd⟩
  | unregisterApplication fd app site =>
    obtain ⟨rest, hl⟩ : ∃ rest, S.loose = node :: rest := by
      have hhead := hc.chain.head
      cases hloose : S.loose with
      | nil => simp [hloose] at hhead
      | cons q rest =>
        rw [hloose] at hhead
        exact ⟨rest, by rw [Option.some.inj hhead]⟩
    have hnode : node ∈ S.loose := by simp [hl]
    refine main rest hl ?_ fun l₁ l₂ hls hsame => ?_
    · rw [Mem.ownerFd, hdata, hc.queryApp node hnode, hc.appFd]
      rfl
    have hsub : ∀ q ∈ rest, q ∈ S.loose := fun q hq => hl ▸ List.mem_cons_of_mem _ hq
    refine ⟨hc.detached, ?_, fun q hq => hc.queryApp q (hsub q hq), hc.appFd, hc.unique, fun q hq => ?_⟩
    · have hlinked := hc.chain.linked
      rw [hl] at hlinked
      exact ⟨hlinked.1, hlinked.2⟩
    · obtain ⟨y, hy, hh, hd⟩ := hc.handler q (hsub q hq)
      refine ⟨y, ?_, hh, (congrArg Payload.data (hsame.payload y)).trans hd⟩
      refine (List.mem_cons.mp (List.perm_middle.mem_iff.mp (hls ▸ hy))).resolve_left ?_
      rintro rfl
      exact (List.nodup_cons.mp (hl ▸ hw.looseNodup)).1 (hdata.symm.trans hd ▸ hq)

theorem freeNode (hw : m.Wf S) {node handler : ℕ} {caller : Caller}
    (hinv : ManagerPc.Inv m S (.freeNode node handler caller)) :
    Moved (.freeNode node handler caller) m S (.freeQuery node caller)
      { m with sched := { m.sched with nodes := m.sched.nodes.free handler } } S := by
  obtain ⟨hx, hlive, hno, hc⟩ := hinv
  exact {
    wf := hw.freeNode hx
    inv := by
      refine ⟨hlive, hno, ?_⟩
      cases caller with
      | unregisterQuery fd => exact hc
      | unregisterApplication fd app site => exact { hc with }
    ext := ⟨le_rfl, le_rfl, le_rfl, fun _ _ => rfl, fun _ _ => ⟨rfl, rfl⟩, fun _ _ => ⟨rfl, rfl, rfl⟩⟩
    live := by
      intro o ho hf
      cases o with
      | node x => exact (Heap.mem_free_live _ _ _).mpr ⟨fun hxh => hf (by rw [hxh]; rfl), ho⟩
      | query q => exact ho
      | app a => exact ho
    others := fun _ _ => ⟨rfl, rfl⟩
    apps := fun _ => .inl
    owned := fun _ => .inl
    schedule := by rintro _ _ _ _ ⟨⟩ }

theorem freeQuery (hw : m.Wf S) {node : ℕ} {caller : Caller}
    (hinv : ManagerPc.Inv m S (.freeQuery node caller)) {pc' : ManagerPc}
    (hpc' : pc' = match caller with
      | .unregisterQuery fd => .readLoop (fd + 1)
      | .unregisterApplication fd app site => .dropLoop fd app (m.queries.cell node).next site) :
    Moved (.freeQuery node caller) m S pc' (m.freeQuery node) S := by
  obtain ⟨hlive, hno, hc⟩ := hinv
  exact {
    wf := hw.freeQuery hno
    inv := by
      subst hpc'
      cases caller with
      | unregisterQuery fd => exact hc
      | unregisterApplication fd app site => exact { hc with }
    ext := ⟨le_rfl, le_rfl, le_rfl, fun _ _ => rfl, fun _ _ => ⟨rfl, rfl⟩, fun _ _ => ⟨rfl, rfl, rfl⟩⟩
    live := by
      intro o ho hf
      cases o with
      | node x => exact ho
      | query q => exact (Heap.mem_free_live _ _ _).mpr ⟨fun hqn => hf (by rw [hqn]; rfl), ho⟩
      | app a => exact ho
    others := fun _ _ => ⟨rfl, rfl⟩
    apps := fun _ => .inl
    owned := fun _ => .inl
    schedule := by
      subst hpc'
      cases caller <;> rintro _ _ _ _ ⟨⟩ }

theorem freeApp (hw : m.Wf S) {app : ℕ} {site : Teardown}
    (hinv : ManagerPc.Inv m S (.freeApp fd app site)) :
    ∃ S', Moved (.freeApp fd app site) m S (.close fd site) (m.freeApp app) S' := by
  obtain ⟨hl, hd, hu⟩ := hinv
  exact ⟨_, {
    wf := hw.freeApp hd hl
    inv := ⟨hl, rfl, hu⟩
    ext := ⟨le_rfl, le_rfl, le_rfl, fun _ _ => rfl, fun _ _ => ⟨rfl, rfl⟩, fun _ _ => ⟨rfl, rfl, rfl⟩⟩
    live := by
      intro o ho hf
      cases o with
      | node x => exact ho
      | query q => exact ho
      | app a => exact (Heap.mem_free_live _ _ _).mpr ⟨fun haa => hf (by rw [haa]; rfl), ho⟩
    others := fun _ _ => ⟨rfl, rfl⟩
    apps := fun _ => .inl
    owned := fun _ => .inl
    schedule := by rintro _ _ _ _ ⟨⟩ }⟩

theorem unchainApp (hw : m.Wf S) {site : Teardown} {app : Option ℕ}
    (hinv : ManagerPc.Inv m S (.unchainApp fd site)) (h : m.unchainApp fd = some (app, m')) :
    ∃ S', Moved (.unchainApp fd site) m S
      (match app with
        | none => .close fd site
        | some app => .dropLoop fd app (m'.apps.cell app).queries site) m' S' := by
  obtain ⟨hl, hd⟩ := hinv
  rcases hw.unchainApp hl fd with
    ⟨heq, hnone⟩ | ⟨l₁, a, l₂, m'', heq, hu⟩
  · obtain ⟨rfl, rfl⟩ : none = app ∧ m = m' := by
      simpa only [Option.some.injEq, Prod.mk.injEq] using heq.symm.trans h
    exact ⟨S, of_eq hw ⟨hl, hd, hnone⟩ (by rintro _ _ _ _ ⟨⟩)⟩
  obtain ⟨rfl, rfl⟩ : some a = app ∧ m'' = m' := by
    simpa only [Option.some.injEq, Prod.mk.injEq] using heq.symm.trans h
  have ha : a ∈ S.apps := by simp [hu.apps]
  have hsub : ∀ b ∈ l₁ ++ l₂, b ∈ S.apps := fun b hb => by
    rw [hu.apps, List.perm_middle.mem_iff]
    exact List.mem_cons_of_mem _ hb
  have hdropping : Dropping m'' { S with apps := l₁ ++ l₂, loose := S.queries a, detached := [a] } fd a
      (m''.apps.cell a).queries := by
    refine ⟨rfl, hu.chain, fun q hqa => ?_, (hu.fd_eq a).trans hu.app_fd, fun b hb hbfd => ?_, fun q hqa => ?_⟩
    · rw [hu.queries]
      exact hw.queryApp a ha q hqa
    · rw [hu.fd_eq] at hbfd
      obtain rfl := hw.appFd b (hsub b hb) a ha (hbfd.trans hu.app_fd.symm)
      exact (List.nodup_cons.mp (List.nodup_middle.mp (hu.apps ▸ hw.appNodup))).1 hb
    · rw [hu.queries, hu.sched]
      exact hw.handler a ha q hqa
  exact ⟨_, {
    wf := hu.wf
    inv := hdropping
    ext := hu.ext
    live := fun o ho _ => live_of_kept hu.live o ho
    others := by
      rintro fd' ⟨⟩
      exact hu.others
    apps := fun b hb => .inl (hsub b hb)
    owned := by
      rintro q (⟨b, hb, hqb⟩ | hqa)
      · exact .inl (.inl ⟨b, hsub b hb, hqb⟩)
      · exact .inl (.inl ⟨a, ha, hqa⟩)
    schedule := by rintro _ _ _ _ ⟨⟩ }⟩

end Moved

namespace Server

variable {am : ℕ} {s t : Server} {S : Shape}

theorem managerNext_moved (hw : s.mem.Wf S) (hinv : s.manager.Inv s.mem S)
    (h : s.managerNext am = some t) : ∃ S', Moved s.manager s.mem S t.manager t.mem S' := by
  cases hpc : s.manager with
  | accept | listenError | readLoop _ | exceptLoop _ =>
    rw [hpc] at hinv
    simp only [managerNext, hpc] at h
    (repeat' split at h) <;> cases h <;> first
      | exact ⟨S, .quiet hw hinv rfl rfl⟩
      | exact ⟨S, .quiet hw hinv rfl (by rw [exit, hpc]; rfl)⟩
  | registerNode fd query interval =>
    rw [hpc] at hinv
    simp only [managerNext, hpc] at h
    obtain ⟨⟨app, node, mem⟩, heq, rfl⟩ := Option.map_eq_some_iff.mp h
    exact Moved.registerNode hw hinv heq
  | storeHandler fd app node handler =>
    rw [hpc] at hinv
    simp only [managerNext, hpc] at h
    cases h
    exact Moved.storeHandler hw hinv
  | unchainQuery fd reqId =>
    rw [hpc] at hinv
    simp only [managerNext, hpc] at h
    split at h
    · cases h
    · rename_i mem heq
      cases h
      obtain ⟨hnone, -⟩ := Moved.unchainQuery hw hinv heq
      obtain rfl := hnone rfl
      exact ⟨S, .quiet hw hinv rfl rfl⟩
    · rename_i node mem heq
      obtain ⟨-, hsome⟩ := Moved.unchainQuery hw hinv heq
      obtain ⟨handler, S', hh, hm⟩ := hsome node rfl
      rw [hh, Option.map_some] at h
      cases h
      exact ⟨S', hm⟩
  | unchainApp fd site =>
    rw [hpc] at hinv
    simp only [managerNext, hpc] at h
    split at h
    · cases h
    · rename_i mem heq
      cases h
      exact Moved.unchainApp hw hinv heq
    · rename_i app mem heq
      cases h
      exact Moved.unchainApp hw hinv heq
  | dropLoop fd app p site =>
    rw [hpc] at hinv
    cases p with
    | none =>
      simp only [managerNext, hpc] at h
      cases h
      refine ⟨S, .of_eq hw ⟨?_, hinv.detached, hinv.unique⟩ (by simp)⟩
      exact List.head?_eq_none_iff.mp hinv.chain.head.symm
    | some node =>
      simp only [managerNext, hpc] at h
      have hnode : node ∈ S.loose := List.mem_of_head? hinv.chain.head.symm
      obtain ⟨x, hx, hh, hd⟩ := hinv.handler node hnode
      rw [hh, Option.map_some] at h
      cases h
      exact ⟨S, .of_eq hw ⟨hx, hd, hinv⟩ (by simp)⟩
  | removeNode node handler caller =>
    rw [hpc] at hinv
    simp only [managerNext, hpc] at h
    split at h
    · cases h
    · cases h
      exact Moved.removeNode hw hinv
  | freeNode node handler caller =>
    rw [hpc] at hinv
    simp only [managerNext, hpc] at h
    cases h
    exact ⟨S, .freeNode hw hinv⟩
  | freeQuery node caller =>
    rw [hpc] at hinv
    simp only [managerNext, hpc] at h
    cases h
    exact ⟨S, .freeQuery hw hinv (by cases caller <;> rfl)⟩
  | freeApp fd app site =>
    rw [hpc] at hinv
    simp only [managerNext, hpc] at h
    cases h
    exact Moved.freeApp hw hinv
  | close fd site =>
    rw [hpc] at hinv
    simp only [managerNext, hpc] at h
    cases h
    have hq : (site.next fd).quiet = true := by cases site <;> rfl
    refine ⟨S, .of_eq hw ((ManagerPc.inv_of_quiet hq).mpr ⟨hinv.1, hinv.2.1⟩) fun _ _ _ _ he => ?_⟩
    cases (congrArg ManagerPc.quiet he).symm.trans hq
  | select | read _ | serve _ _ | write _ _ _ | schedule _ _ _ _ => simp [managerNext, hpc] at h

theorem quiet_dispatch (fd : ℕ) (operation : Option Operation) :
    (dispatch fd operation).quiet = true := by
  rcases operation with _ | (_ | _ | _) <;> rfl

/-- Every step of `application_manager` keeps the invariant. -/
theorem managerStep_moved (hw : s.mem.Wf S) (hinv : s.manager.Inv s.mem S) {l : ManagerLabel}
    (h : managerStep am s l = some t) : ∃ S', Moved s.manager s.mem S t.manager t.mem S' := by
  cases l with
  | next => exact managerNext_moved hw hinv h
  | schedule now =>
    simp only [managerStep] at h
    split at h
    · rename_i fd app node interval hpc
      rw [hpc] at hinv ⊢
      split at h
      · cases h
      · obtain ⟨⟨handler, signal, sched⟩, heq, rfl⟩ := Option.map_eq_some_iff.mp h
        exact Moved.schedule_call hw hinv heq
    · cases h
  | read chunk =>
    simp only [managerStep] at h
    split at h
    · rename_i fd hpc
      (repeat' split at h) <;> cases h
      exact ⟨S, .quiet hw hinv (by rw [hpc]; rfl) (quiet_dispatch fd _)⟩
    · cases h
  | mallocError =>
    simp only [managerStep] at h
    split at h
    · cases h
      exact ⟨S, .of_eq hw hinv fun _ _ _ _ _ => rfl⟩
    · cases h
      exact ⟨S, .of_eq hw hinv fun _ _ _ _ _ => rfl⟩
    · cases h
  | write =>
    simp only [managerStep] at h
    split at h
    · rename_i hpc
      obtain ⟨conn, -, rfl⟩ := Option.map_eq_some_iff.mp h
      exact ⟨S, .quiet hw hinv (by rw [hpc]; rfl) rfl⟩
    · cases h
  | select _ _ | selectError | accept _ | acceptError | readEof | readError | serve _ | writeError =>
    simp only [managerStep] at h
    split at h
    · rename_i hpc
      (repeat' split at h) <;> cases h <;> first
        | exact ⟨S, .quiet hw hinv (by rw [hpc]; rfl) rfl⟩
        | exact ⟨S, .of_eq hw hinv fun _ _ _ _ _ => rfl⟩
    · cases h

/-! ## The scheduler -/

/-- Re-arming moves a node in the list and changes its time; the invariant of `application_manager`
    does not look at either. -/
theorem inv_rearm {pc : ManagerPc} {m : Mem} {st : Sched} {l : List ℕ} (hinv : pc.Inv m S)
    (hmem : ∀ y, y ∈ l ↔ y ∈ S.sched) (hdata : ∀ y, (st.payload y).data = (m.sched.payload y).data) :
    pc.Inv { m with sched := st } { S with sched := l } := by
  have drop : ∀ {fd app : ℕ} {p : Option ℕ}, Dropping m S fd app p →
      Dropping { m with sched := st } { S with sched := l } fd app p := fun h =>
    { h with
      handler := fun q hq => by
        obtain ⟨x, hx, hh, hd⟩ := h.handler q hq
        exact ⟨x, (hmem x).mpr hx, hh, (hdata x).trans hd⟩ }
  have caller : ∀ {c : Caller} {p : Option ℕ}, c.Inv m S p →
      c.Inv { m with sched := st } { S with sched := l } p := fun {c p} h => by
    cases c with
    | unregisterQuery fd => exact h
    | unregisterApplication fd app site => exact drop h
  cases pc with
  | storeHandler fd app node handler =>
    obtain ⟨h₁, h₂, h₃, h₄, h₅, h₆, h₇, h₈⟩ := hinv
    exact ⟨h₁, h₂, h₃, h₄, h₅, h₆, (hmem _).mpr h₇, (hdata _).trans h₈⟩
  | dropLoop fd app p site => exact drop hinv
  | removeNode node handler c =>
    obtain ⟨hx, hd, hc⟩ := hinv
    refine ⟨(hmem _).mpr hx, (hdata _).trans hd, ?_⟩
    cases c with
    | unregisterQuery fd =>
      refine ⟨hc.1, hc.2.1, ?_⟩
      rw [Mem.ownerFd, hdata]
      exact hc.2.2
    | unregisterApplication fd app site => exact drop hc
  | freeNode node handler c =>
    exact ⟨fun hx => hinv.1 ((hmem _).mp hx), hinv.2.1, hinv.2.2.1, caller hinv.2.2.2⟩
  | freeQuery node c => exact ⟨hinv.1, hinv.2.1, caller hinv.2.2⟩
  | _ => exact hinv

/-- What a step of `scheduler_run` does to the registry: at most it re-arms a node. -/
structure Rearmed (m : Mem) (S : Shape) (pc : ManagerPc) (m' : Mem) (S' : Shape) : Prop where
  wf : m'.Wf S'
  inv : pc.Inv m' S'
  ext : m.Ext m'
  live : m.LiveKept m'
  apps : m'.apps = m.apps
  queries : m'.queries = m.queries
  registered : S' = { S with sched := S'.sched }
  sched : S'.sched.Perm S.sched

theorem Rearmed.refl {m : Mem} {pc : ManagerPc} (hw : m.Wf S) (hinv : pc.Inv m S) :
    Rearmed m S pc m S :=
  ⟨hw, hinv, .refl m, ⟨subset_rfl, subset_rfl, subset_rfl⟩, rfl, rfl, rfl, .refl _⟩

theorem rearmFirst_rearmed {m : Mem} {pc : ManagerPc} {now : Timespec} {r : Option ℕ} {st : Sched}
    (hw : m.Wf S) (hinv : pc.Inv m S) (h : rearmFirst m.sched now = some (r, st)) :
    (∃ S', Rearmed m S pc { m with sched := st } S') ∧
      ∀ x ∈ r, x ∈ S.sched ∧ ∀ y, (st.payload y).data = (m.sched.payload y).data ∧
        (st.payload y).action = (m.sched.payload y).action := by
  rcases hw.rearmFirst now with ⟨heq, -⟩ | ⟨x, l, l₁, l₂, st', hl, hl', heq, -, hwf, hext, hk, hpx, hpy⟩
  · obtain ⟨rfl, rfl⟩ : none = r ∧ m.sched = st := by
      simpa only [Option.some.injEq, Prod.mk.injEq] using heq.symm.trans h
    exact ⟨⟨S, .refl hw hinv⟩, by simp⟩
  obtain ⟨rfl, rfl⟩ : some x = r ∧ st' = st := by
    simpa only [Option.some.injEq, Prod.mk.injEq] using heq.symm.trans h
  have hstatic : ∀ y, (st'.payload y).data = (m.sched.payload y).data ∧
      (st'.payload y).action = (m.sched.payload y).action := fun y => by
    by_cases hy : y = x
    · rw [hy, hpx]
      exact ⟨rfl, rfl⟩
    · rw [hpy y hy]
      exact ⟨rfl, rfl⟩
  have hperm : (l₁ ++ x :: l₂).Perm S.sched := by
    rw [hl, hl']
    exact List.perm_middle
  refine ⟨⟨_, hwf, inv_rearm hinv (fun y => hperm.mem_iff) fun y => (hstatic y).1, hext, hk, rfl, rfl, rfl,
    hperm⟩, ?_⟩
  rintro y ⟨⟩
  exact ⟨by simp [hl], hstatic⟩

/-- Every step of `scheduler_run` keeps the invariant. -/
theorem schedulerStep_rearmed (hw : s.mem.Wf S) (hinv : s.manager.Inv s.mem S) {l : SchedulerLabel}
    (h : schedulerStep s l = some t) :
    t.manager = s.manager ∧ ∃ S', Rearmed s.mem S s.manager t.mem S' := by
  cases l with
  | inner =>
    simp only [schedulerStep] at h
    split at h
    · split at h
      · cases h
      · rename_i heq
        cases h
        exact ⟨rfl, (rearmFirst_rearmed hw hinv heq).1⟩
      · rename_i heq
        cases h
        exact ⟨rfl, (rearmFirst_rearmed hw hinv heq).1⟩
    · cases h
  | load =>
    simp only [schedulerStep, schedulerLoad] at h
    (repeat' split at h) <;> cases h <;> exact ⟨rfl, S, .refl hw hinv⟩
  | write =>
    simp only [schedulerStep] at h
    split at h
    · obtain ⟨conn, -, rfl⟩ := Option.map_eq_some_iff.mp h
      exact ⟨rfl, S, .refl hw hinv⟩
    · cases h
  | lock | clock _ | serve _ | writeError | wake =>
    simp only [schedulerStep] at h
    split at h <;> cases h <;> exact ⟨rfl, S, .refl hw hinv⟩

/-! ## All reachable states -/

/-- The invariant of the registry, for the place where `application_manager` stands. -/
def Inv (s : Server) : Prop := ∃ S, s.mem.Wf S ∧ s.manager.Inv s.mem S

theorem inv_init (am : ℕ) (msg : MsgBytes) : Inv (init am msg) := ⟨.init, Mem.wf_init, rfl, rfl⟩

theorem step_manager {l : ManagerLabel} (h : step am s (.manager l) = some t) :
    s.running = true ∧ managerStep am s l = some t := by
  unfold step at h
  split at h <;> simp_all

theorem step_scheduler {l : SchedulerLabel} (h : step am s (.scheduler l) = some t) :
    s.running = true ∧ schedulerStep s l = some t := by
  unfold step at h
  split at h <;> simp_all

theorem Inv.step {l : ServerLabel} (hI : Inv s) (h : step am s l = some t) : Inv t := by
  obtain ⟨S, hw, hinv⟩ := hI
  cases l with
  | manager l =>
    obtain ⟨S', hm⟩ := managerStep_moved hw hinv (step_manager h).2
    exact ⟨S', hm.wf, hm.inv⟩
  | scheduler l =>
    obtain ⟨hpc, S', hr⟩ := schedulerStep_rearmed hw hinv (step_scheduler h).2
    exact ⟨S', hr.wf, hpc ▸ hr.inv⟩

theorem inv_of_reachable {msg : MsgBytes} (h : Lts.Reachable (Server.step am) (init am msg) s) : Inv s :=
  h.invariant (inv_init am msg) fun _ _ _ hI hs => hI.step hs

/-! ## What a step adds to the history -/

/-- A step reads a message, reads `intdata` for a query, writes a reply, or leaves the history alone. -/
inductive Logged (s : Server) (l : ServerLabel) (t : Server) : Prop
  | nothing (hl : ∀ chunk, l ≠ .manager (.read chunk)) (hist : t.hist = s.hist)
  | read (chunk : List UInt8) (fd conn : ℕ) (hl : l = .manager (.read chunk))
      (hconn : s.conns fd = some conn) (hpos : 0 < chunk.length) (hle : chunk.length ≤ sizeofMsg)
      (hist : t.hist = { s.hist with
        received := Function.update s.hist.received conn (s.hist.received conn ++ chunk)
        dispatched := Function.update s.hist.dispatched conn (s.hist.dispatched conn ++
          (s.packetMsg.overlay chunk).decode.operation.toList) })
  | serve (fd : ℕ) (query : AppQuery) (hl : ∀ chunk, l ≠ .manager (.read chunk))
      (hpc : s.manager = .serve fd query ∨ ∃ now, s.scheduler = .serve fd query now)
      (hist : t.hist = s.logRead query)
  | write (fd : ℕ) (query : AppQuery) (snap : Snapshot) (conn : ℕ)
      (hl : ∀ chunk, l ≠ .manager (.read chunk))
      (hpc : s.manager = .write fd query snap ∨ ∃ now, s.scheduler = .write fd query snap now)
      (hconn : s.conns fd = some conn) (hist : t.hist = s.logReply conn query snap)

theorem step_logged {l : ServerLabel} (h : step am s l = some t) : Logged s l t := by
  cases l with
  | manager l =>
    have hs := (step_manager h).2
    cases l with
    | read chunk =>
      simp only [managerStep] at hs
      split at hs
      · split at hs
        · rename_i conn hconn
          split at hs
          · rename_i hlen
            cases hs
            exact .read chunk _ conn rfl hconn hlen.1 hlen.2 rfl
          · cases hs
        · cases hs
      · cases hs
    | serve snap =>
      simp only [managerStep] at hs
      split at hs
      · rename_i fd query hpc
        cases hs
        exact .serve fd query (by simp) (.inl hpc) rfl
      · cases hs
    | write =>
      simp only [managerStep] at hs
      split at hs
      · rename_i fd query snap hpc
        obtain ⟨conn, hconn, rfl⟩ := Option.map_eq_some_iff.mp hs
        exact .write fd query snap conn (by simp) (.inl hpc) hconn rfl
      · cases hs
    | next =>
      refine .nothing (by simp) ?_
      simp only [managerStep, managerNext] at hs
      (repeat' split at hs) <;> first
        | (cases hs; rfl)
        | (obtain ⟨_, -, rfl⟩ := Option.map_eq_some_iff.mp hs; rfl)
        | cases hs
    | _ =>
      refine .nothing (by simp) ?_
      simp only [managerStep] at hs
      (repeat' split at hs) <;> first
        | (cases hs; rfl)
        | (obtain ⟨_, -, rfl⟩ := Option.map_eq_some_iff.mp hs; rfl)
        | cases hs
  | scheduler l =>
    have hs := (step_scheduler h).2
    cases l with
    | serve snap =>
      simp only [schedulerStep] at hs
      split at hs
      · rename_i fd query now hpc
        cases hs
        exact .serve fd query (by simp) (.inr ⟨now, hpc⟩) rfl
      · cases hs
    | write =>
      simp only [schedulerStep] at hs
      split at hs
      · rename_i fd query snap now hpc
        obtain ⟨conn, hconn, rfl⟩ := Option.map_eq_some_iff.mp hs
        exact .write fd query snap conn (by simp) (.inr ⟨now, hpc⟩) hconn rfl
      · cases hs
    | _ =>
      refine .nothing (by simp) ?_
      simp only [schedulerStep, schedulerLoad] at hs
      (repeat' split at hs) <;> cases hs <;> rfl

end Server

end Afdx
