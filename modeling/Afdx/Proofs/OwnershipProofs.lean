import Afdx.Proofs.ActionProofs
import Afdx.Proofs.PassProofs
import Afdx.Proofs.RegistryProofs

/-!
# Who holds the nodes of the registry

Every node that has been allocated and not freed is in the list it belongs to or in the hands of
`application_manager`, in one of the two and there once: nothing leaks, and `free` is called once for each
node, whatever `scheduler_run` does in between.
-/

namespace Afdx

open Links

/-- The query nodes from a pointer on. -/
def Mem.queriesFrom (m : Mem) (p : Option ℕ) : List ℕ :=
  collect (fun q => (m.queries.cell q).next) (m.queries.brk + 1) p

namespace Caller

/-- What the caller of `unschedule` has still to unschedule after the query in hand, which points to `p`. -/
def rest (m : Mem) (p : Option ℕ) : Caller → List ℕ
  | unregisterQuery _ => []
  | unregisterApplication _ _ _ => m.queriesFrom p

def heldApps : Caller → List ℕ
  | unregisterQuery _ => []
  | unregisterApplication _ app _ => [app]

end Caller

namespace ManagerPc

/-- The application that is unchained and not freed yet. -/
def heldApps : ManagerPc → List ℕ
  | .dropLoop _ app _ _ | .freeApp _ app _ => [app]
  | .removeNode _ _ caller | .freeNode _ _ caller | .freeQuery _ caller => caller.heldApps
  | _ => []

/-- The query nodes that are not in the list of their application yet, or not any more. -/
def heldQueries (m : Mem) : ManagerPc → List ℕ
  | .schedule _ _ node _ | .storeHandler _ _ node _ => [node]
  | .dropLoop _ _ p _ => m.queriesFrom p
  | .removeNode node _ caller | .freeNode node _ caller | .freeQuery node caller =>
    node :: caller.rest m (m.queries.cell node).next
  | _ => []

/-- The scheduler node that `unschedule` has taken out of the list and not freed yet. -/
def heldNodes : ManagerPc → List ℕ
  | .freeNode _ handler _ => [handler]
  | _ => []

end ManagerPc

/-- Every allocated node is in a list or held. -/
structure Accounted (m : Mem) (pc : ManagerPc) : Prop where
  apps : ∀ a ∈ m.apps.live, a ∈ m.appList ∨ a ∈ pc.heldApps
  queries : ∀ q ∈ m.queries.live, q ∈ m.queryNodes ∨ q ∈ pc.heldQueries m
  nodes : ∀ x ∈ m.sched.nodes.live, x ∈ m.schedList ∨ x ∈ pc.heldNodes
  held : ∀ x ∈ pc.heldNodes, x ∈ m.sched.nodes.live

namespace Mem

variable {m m' : Mem} {S S' : Shape} {fd : ℕ}

theorem Wf.mem_queryNodes (h : Wf m S) {q : ℕ} : q ∈ m.queryNodes ↔ ∃ a ∈ S.apps, q ∈ S.queries a := by
  rw [queryNodes, h.appList_eq, List.mem_flatMap]
  refine exists_congr fun a => and_congr_right fun ha => ?_
  rw [h.queryList_eq ha]

/-- The loose queries, from the pointer to the first of them. -/
theorem Wf.queriesFrom_eq (h : Wf m S) {p : Option ℕ}
    (hc : Chain (fun q => (m.queries.cell q).next) p S.loose) : m.queriesFrom p = S.loose :=
  hc.collect_eq (Nat.lt_succ_of_le (Heap.length_le_brk h.looseNodup fun q hq => h.queryLive q (.inr hq)))

theorem registerNode_live {query : AppQuery} {app node : ℕ}
    (h : m.registerNode fd query = some (app, node, m')) :
    m'.queries.live = insert node m.queries.live ∧ m'.sched = m.sched := by
  obtain ⟨⟨_, found⟩, -, heq⟩ := Option.map_eq_some_iff.mp h
  cases found <;> cases heq <;> exact ⟨rfl, rfl⟩

theorem unchainQuery_live {reqId : UInt32} {node : Option ℕ}
    (h : m.unchainQuery fd reqId = some (node, m')) :
    m'.apps.live = m.apps.live ∧ m'.queries.live = m.queries.live ∧ m'.sched = m.sched := by
  obtain ⟨⟨_, app⟩, -, h⟩ := Option.bind_eq_some_iff.mp h
  cases app with
  | none =>
    cases h
    exact ⟨rfl, rfl, rfl⟩
  | some app =>
    obtain ⟨⟨prev, q⟩, -, h⟩ := Option.bind_eq_some_iff.mp h
    cases q with
    | none =>
      cases h
      exact ⟨rfl, rfl, rfl⟩
    | some q => cases prev <;> cases h <;> exact ⟨rfl, rfl, rfl⟩

theorem unchainApp_live {app : Option ℕ} (h : m.unchainApp fd = some (app, m')) :
    m'.apps.live = m.apps.live ∧ m'.queries = m.queries ∧ m'.sched = m.sched := by
  obtain ⟨⟨prev, a⟩, -, h⟩ := Option.bind_eq_some_iff.mp h
  cases a with
  | none =>
    cases h
    exact ⟨rfl, rfl, rfl⟩
  | some a => cases prev <;> cases h <;> exact ⟨rfl, rfl, rfl⟩

/-- The lists after the first piece of `register_query`. -/
theorem Wf.registerNode_lists (h : Wf m S) {query : AppQuery} {app node : ℕ}
    (heq : m.registerNode fd query = some (app, node, m')) :
    (∀ a ∈ m'.apps.live, a ∈ m.apps.live ∨ a ∈ m'.appList) ∧ (∀ a ∈ m.appList, a ∈ m'.appList) ∧
      ∀ q ∈ m.queryNodes, q ∈ m'.queryNodes := by
  rcases h.findApp fd with ⟨hf, hnone⟩ | ⟨l₁, a, l₂, hl, ha, hf⟩
  · have hb : m.apps.brk ∉ S.apps := fun hb => m.apps.brk_not_mem_live (h.appLive _ hb)
    have hfd : ((m.apps.alloc ⟨fd, none, m.registeredApplications⟩).2.cell m.apps.brk).fd = fd := by
      rw [Heap.alloc_cell_self]
    have hq := (h.allocApp hnone).allocQuery query (List.mem_cons_self ..) hfd
    rw [Mem.registerNode, hf] at heq
    cases heq
    have happs := hq.wf.appList_eq
    refine ⟨fun a ha => ?_, fun a ha => ?_, fun q hqn => ?_⟩
    · rcases (Heap.mem_alloc_live ..).mp ha with rfl | ha
      · exact .inr (happs ▸ List.mem_cons_self ..)
      · exact .inl ha
    · rw [h.appList_eq] at ha
      exact happs ▸ List.mem_cons_of_mem _ ha
    · obtain ⟨a, ha, hqa⟩ := h.mem_queryNodes.mp hqn
      exact hq.wf.mem_queryNodes.mpr ⟨a, List.mem_cons_of_mem _ ha, (Shape.consApp_queries hb ha).symm ▸ hqa⟩
  · have hq := h.allocQuery query (by simp [hl] : a ∈ S.apps) ha
    rw [Mem.registerNode, hf] at heq
    cases heq
    refine ⟨fun a ha => .inl ha, fun a ha => ha, fun q hqn => ?_⟩
    exact hq.wf.mem_queryNodes.mpr (h.mem_queryNodes.mp hqn)

end Mem

namespace Accounted

variable {pc pc' : ManagerPc} {m m' : Mem} {S S' : Shape} {fd : ℕ}

/-- A step that leaves the registry alone. -/
theorem of_held_eq (hA : Accounted m pc) (ha : pc'.heldApps = pc.heldApps)
    (hq : pc'.heldQueries m = pc.heldQueries m) (hn : pc'.heldNodes = pc.heldNodes) : Accounted m pc' where
  apps a hlive := ha ▸ hA.apps a hlive
  queries q hlive := hq ▸ hA.queries q hlive
  nodes x hlive := hn ▸ hA.nodes x hlive
  held x hx := hA.held x (hn ▸ hx)

theorem quiet (hA : Accounted m pc) (hpc : pc.quiet = true) (hpc' : pc'.quiet = true) : Accounted m pc' := by
  have hnothing : ∀ pc : ManagerPc, pc.quiet = true →
      pc.heldApps = [] ∧ pc.heldQueries m = [] ∧ pc.heldNodes = [] := by
    intro pc hpc
    cases pc <;> first | exact ⟨rfl, rfl, rfl⟩ | cases hpc
  obtain ⟨ha, hq, hn⟩ := hnothing pc hpc
  obtain ⟨ha', hq', hn'⟩ := hnothing pc' hpc'
  exact hA.of_held_eq (ha'.trans ha.symm) (hq'.trans hq.symm) (hn'.trans hn.symm)

theorem registerNode {query : AppQuery} {interval : ℤ} {app node : ℕ}
    (hA : Accounted m (.registerNode fd query interval)) (hw : m.Wf S)
    (h : m.registerNode fd query = some (app, node, m')) :
    Accounted m' (.schedule fd app node interval) := by
  obtain ⟨hlive, hsched⟩ := Mem.registerNode_live h
  obtain ⟨hnew, happs, hqueries⟩ := hw.registerNode_lists h
  refine ⟨fun a ha => .inl ?_, fun q hq => ?_, fun x hx => .inl ?_, by simp [ManagerPc.heldNodes]⟩
  · rcases hnew a ha with ha | ha
    · exact happs a ((hA.apps a ha).resolve_right (by simp [ManagerPc.heldApps]))
    · exact ha
  · rw [hlive] at hq
    rcases Finset.mem_insert.mp hq with rfl | hq
    · exact .inr (List.mem_singleton_self _)
    · exact .inl (hqueries q ((hA.queries q hq).resolve_right (by simp [ManagerPc.heldQueries])))
  · rw [Mem.schedList, hsched]
    exact (hA.nodes x (hsched ▸ hx)).resolve_right (by simp [ManagerPc.heldNodes])

theorem schedule_call {app node handler : ℕ} {interval : ℤ} {now : Timespec} {signal : Bool} {st : Sched}
    (hA : Accounted m (.schedule fd app node interval)) (hw : m.Wf S)
    (h : Afdx.schedule m.sched .serveSchedulerQuery node interval now = some (handler, signal, st)) :
    Accounted { m with sched := st } (.storeHandler fd app node handler) := by
  obtain ⟨signal', st', l₁, l₂, heq, hl, -, -, -, hrepr, hlive, -⟩ :=
    hw.schedRepr.scheduleTs .serveSchedulerQuery node (msInterval interval) now
  obtain ⟨rfl, rfl, rfl⟩ : m.sched.nodes.brk = handler ∧ signal' = signal ∧ st' = st := by
    simpa only [Option.some.injEq, Prod.mk.injEq] using heq.symm.trans h
  have hlist : Mem.schedList { m with sched := st' } = l₁ ++ m.sched.nodes.brk :: l₂ := hrepr.list_eq
  refine ⟨hA.apps, hA.queries, fun x hx => .inl ?_, by simp [ManagerPc.heldNodes]⟩
  rw [hlist, List.perm_middle.mem_iff, List.mem_cons, ← hl, ← hw.schedList_eq]
  have hx' : x ∈ insert m.sched.nodes.brk m.sched.nodes.live := hlive ▸ hx
  refine (Finset.mem_insert.mp hx').imp_right fun hx => ?_
  exact (hA.nodes x hx).resolve_right (by simp [ManagerPc.heldNodes])

theorem storeHandler {app node handler : ℕ} (hA : Accounted m (.storeHandler fd app node handler))
    (hw : m.Wf S) (hinv : ManagerPc.Inv m S (.storeHandler fd app node handler)) :
    Accounted (m.storeHandler app node handler) (.readLoop (fd + 1)) := by
  obtain ⟨hl, hd, happ, hfd, hna, hnn, hx, hdata⟩ := hinv
  obtain ⟨hwf, -⟩ := hw.storeHandler node handler happ hfd hl hna hnn hx hdata
  refine ⟨fun a ha => .inl ?_, fun q hq => .inl ?_, hA.nodes, by simp [ManagerPc.heldNodes]⟩
  · rw [hwf.appList_eq]
    exact hw.appList_eq ▸ (hA.apps a ha).resolve_right (by simp [ManagerPc.heldApps])
  · rw [hwf.mem_queryNodes]
    rcases hA.queries q hq with hq | hq
    · obtain ⟨a, ha, hqa⟩ := hw.mem_queryNodes.mp hq
      by_cases haa : a = app
      · subst haa
        exact ⟨a, ha, by rw [Shape.setQueries_queries_self]; exact List.mem_cons_of_mem _ hqa⟩
      · exact ⟨a, ha, by rwa [Shape.setQueries_queries_of_ne haa]⟩
    · obtain rfl := List.mem_singleton.mp hq
      exact ⟨app, happ, by rw [Shape.setQueries_queries_self]; exact List.mem_cons_self ..⟩

theorem unchainQuery {reqId : UInt32} {q : ℕ} {handler : ℕ} (hA : Accounted m (.unchainQuery fd reqId))
    (hw : m.Wf S) (hinv : ManagerPc.Inv m S (.unchainQuery fd reqId))
    (h : m.unchainQuery fd reqId = some (some q, m')) :
    Accounted m' (.removeNode q handler (.unregisterQuery fd)) := by
  obtain ⟨halive, hqlive, hsched⟩ := Mem.unchainQuery_live h
  rcases hw.unchainQuery hinv.1 fd reqId with ⟨heq, -⟩ | ⟨a, l₁, q', l₂, m'', heq, hu⟩
  · rw [heq] at h
    cases h
  obtain ⟨rfl, rfl⟩ : q' = q ∧ m'' = m' := by
    simpa only [Option.some.injEq, Prod.mk.injEq] using heq.symm.trans h
  refine ⟨fun a ha => .inl ?_, fun q hq => ?_, fun x hx => .inl ?_, by simp [ManagerPc.heldNodes]⟩
  · rw [hu.wf.appList_eq]
    exact hw.appList_eq ▸ (hA.apps a (halive ▸ ha)).resolve_right (by simp [ManagerPc.heldApps])
  · obtain ⟨b, hb, hqb⟩ := hw.mem_queryNodes.mp
      ((hA.queries q (hqlive ▸ hq)).resolve_right (by simp [ManagerPc.heldQueries]))
    rw [hu.wf.mem_queryNodes]
    by_cases hba : b = a
    · subst hba
      rw [hu.queries, List.perm_middle.mem_iff, List.mem_cons] at hqb
      rcases hqb with rfl | hqb
      · exact .inr (List.mem_cons_self ..)
      · exact .inl ⟨b, hb, by rwa [Shape.setQueries_queries_self]⟩
    · exact .inl ⟨b, hb, by rwa [Shape.setQueries_queries_of_ne hba]⟩
  · rw [Mem.schedList, hsched]
    exact (hA.nodes x (hsched ▸ hx)).resolve_right (by simp [ManagerPc.heldNodes])

theorem unchainApp {site : Teardown} {app : ℕ} (hA : Accounted m (.unchainApp fd site)) (hw : m.Wf S)
    (hinv : ManagerPc.Inv m S (.unchainApp fd site)) (h : m.unchainApp fd = some (some app, m')) :
    Accounted m' (.dropLoop fd app (m'.apps.cell app).queries site) := by
  obtain ⟨halive, hqs, hsched⟩ := Mem.unchainApp_live h
  rcases hw.unchainApp hinv.1 fd with ⟨heq, -⟩ | ⟨l₁, a, l₂, m'', heq, hu⟩
  · rw [heq] at h
    cases h
  obtain ⟨rfl, rfl⟩ : a = app ∧ m'' = m' := by
    simpa only [Option.some.injEq, Prod.mk.injEq] using heq.symm.trans h
  have hmem : ∀ b ∈ S.apps, b = a ∨ b ∈ l₁ ++ l₂ := fun b hb => by
    rwa [hu.apps, List.perm_middle.mem_iff, List.mem_cons] at hb
  refine ⟨fun b hb => ?_, fun q hq => ?_, fun x hx => .inl ?_, by simp [ManagerPc.heldNodes]⟩
  · have hb' := (hA.apps b (halive ▸ hb)).resolve_right (by simp [ManagerPc.heldApps])
    rw [hu.wf.appList_eq]
    rcases hmem b (hw.appList_eq ▸ hb') with rfl | hb
    · exact .inr (List.mem_singleton_self _)
    · exact .inl hb
  · obtain ⟨b, hb, hqb⟩ := hw.mem_queryNodes.mp
      ((hA.queries q (hqs ▸ hq)).resolve_right (by simp [ManagerPc.heldQueries]))
    rw [hu.wf.mem_queryNodes]
    rcases hmem b hb with rfl | hb
    · have hfrom : m''.queriesFrom (m''.apps.cell b).queries = S.queries b :=
        hu.wf.queriesFrom_eq hu.chain
      exact .inr (by rwa [ManagerPc.heldQueries, hfrom])
    · exact .inl ⟨b, hb, hqb⟩
  · rw [Mem.schedList, hsched]
    exact (hA.nodes x (hsched ▸ hx)).resolve_right (by simp [ManagerPc.heldNodes])

/-- The loop of `unregister_application` takes the next query in hand. -/
theorem dropQuery {app node handler : ℕ} {site : Teardown}
    (hA : Accounted m (.dropLoop fd app (some node) site)) (hw : m.Wf S)
    (hinv : ManagerPc.Inv m S (.dropLoop fd app (some node) site)) :
    Accounted m (.removeNode node handler (.unregisterApplication fd app site)) := by
  refine hA.of_held_eq rfl ?_ rfl
  have hchain := hinv.chain
  have hlen := Heap.length_le_brk hw.looseNodup fun q hq => hw.queryLive q (.inr hq)
  cases hl : S.loose with
  | nil =>
    rw [hl] at hchain
    cases hchain.head
  | cons q rest =>
    have hfrom := hw.queriesFrom_eq hchain
    rw [hl] at hchain hlen hfrom
    obtain rfl := Option.some.inj hchain.head
    have hrest : m.queriesFrom (m.queries.cell node).next = rest :=
      Chain.collect_eq ⟨hchain.linked.1, hchain.linked.2⟩ (by simp only [List.length_cons] at hlen; omega)
    simp only [ManagerPc.heldQueries, Caller.rest, hrest]
    exact hfrom.symm

theorem removeNode {node handler : ℕ} {caller : Caller} (hA : Accounted m (.removeNode node handler caller))
    (hw : m.Wf S) (hinv : ManagerPc.Inv m S (.removeNode node handler caller)) :
    Accounted { m with sched := Afdx.removeNode m.sched handler } (.freeNode node handler caller) := by
  obtain ⟨l₁, l₂, hs⟩ := List.append_of_mem hinv.1
  obtain ⟨hrepr, hsame⟩ := (hs ▸ hw.schedRepr).removeNode
  have hlist : Mem.schedList { m with sched := Afdx.removeNode m.sched handler } = l₁ ++ l₂ := hrepr.list_eq
  refine ⟨hA.apps, hA.queries, fun x hx => ?_, fun x hx => ?_⟩
  · have hx' := (hA.nodes x (hsame.live ▸ hx)).resolve_right (by simp [ManagerPc.heldNodes])
    rw [hw.schedList_eq, hs, List.perm_middle.mem_iff, List.mem_cons] at hx'
    rcases hx' with rfl | hx'
    · exact .inr (List.mem_singleton_self _)
    · exact .inl (hlist ▸ hx')
  · rw [List.mem_singleton.mp hx]
    exact hsame.live ▸ hw.schedRepr.live handler hinv.1

theorem freeNode {node handler : ℕ} {caller : Caller} (hA : Accounted m (.freeNode node handler caller)) :
    Accounted { m with sched := { m.sched with nodes := m.sched.nodes.free handler } }
      (.freeQuery node caller) := by
  refine ⟨hA.apps, hA.queries, fun x hx => .inl ?_, by simp [ManagerPc.heldNodes]⟩
  obtain ⟨hne, hx⟩ := (Heap.mem_free_live ..).mp hx
  exact (hA.nodes x hx).resolve_right fun hm => hne (List.mem_singleton.mp hm)

theorem freeQuery {node : ℕ} {caller : Caller} (hA : Accounted m (.freeQuery node caller)) {pc' : ManagerPc}
    (hpc' : pc' = match caller with
      | .unregisterQuery fd => .readLoop (fd + 1)
      | .unregisterApplication fd app site => .dropLoop fd app (m.queries.cell node).next site) :
    Accounted (m.freeQuery node) pc' := by
  have happs : pc'.heldApps = caller.heldApps := by
    subst hpc'
    cases caller <;> rfl
  have hqs : pc'.heldQueries (m.freeQuery node) = caller.rest m (m.queries.cell node).next := by
    subst hpc'
    cases caller <;> rfl
  have hnodes : pc'.heldNodes = [] := by
    subst hpc'
    cases caller <;> rfl
  refine ⟨fun a ha => happs.symm ▸ hA.apps a ha, fun q hq => ?_, fun x hx => ?_, by simp [hnodes]⟩
  · obtain ⟨hne, hq⟩ := (Heap.mem_free_live ..).mp hq
    rw [hqs]
    exact (hA.queries q hq).imp_right fun hm => (List.mem_cons.mp hm).resolve_left hne
  · exact .inl ((hA.nodes x hx).resolve_right (by simp [ManagerPc.heldNodes]))

theorem freeApp {app : ℕ} {site : Teardown} (hA : Accounted m (.freeApp fd app site)) :
    Accounted (m.freeApp app) (.close fd site) := by
  refine ⟨fun a ha => .inl ?_, hA.queries, hA.nodes, by simp [ManagerPc.heldNodes]⟩
  obtain ⟨hne, ha⟩ := (Heap.mem_free_live ..).mp ha
  exact (hA.apps a ha).resolve_right fun hm => hne (List.mem_singleton.mp hm)

theorem rearm {pc : ManagerPc} {now : Timespec} {r : Option ℕ} {st : Sched} (hA : Accounted m pc)
    (hw : m.Wf S) (h : rearmFirst m.sched now = some (r, st)) : Accounted { m with sched := st } pc := by
  obtain ⟨hlive, hlist⟩ : st.nodes.live = m.sched.nodes.live ∧ st.list.Perm m.sched.list := by
    by_cases hdue : ∀ x ∈ S.sched.head?, m.sched.due now x = false
    · rw [hw.schedRepr.rearmFirst_none now hdue] at h
      cases h
      exact ⟨rfl, .refl _⟩
    · have hrepr := hw.schedRepr
      cases hl : S.sched with
      | nil => simp [hl] at hdue
      | cons x l =>
        rw [hl] at hrepr hdue
        have hdue : m.sched.due now x = true := by simpa using hdue
        obtain ⟨st', l₁, l₂, heq, hre⟩ := hrepr.rearmFirst_some now hdue
        rw [heq] at h
        cases h
        refine ⟨hre.live, ?_⟩
        rw [hre.repr.list_eq, hrepr.list_eq, hre.split]
        exact List.perm_middle
  refine ⟨hA.apps, hA.queries, fun x hx => ?_, fun x hx => hlive ▸ hA.held x hx⟩
  exact (hA.nodes x (hlive ▸ hx)).imp_left hlist.mem_iff.mpr

end Accounted

namespace Server

variable {am : ℕ} {s t : Server} {S : Shape} {msg : MsgBytes}

theorem managerNext_accounted (hA : Accounted s.mem s.manager) (hw : s.mem.Wf S)
    (hinv : s.manager.Inv s.mem S) (h : s.managerNext am = some t) : Accounted t.mem t.manager := by
  cases hpc : s.manager with
  | accept | listenError | readLoop _ | exceptLoop _ =>
    rw [hpc] at hA
    simp only [managerNext, hpc] at h
    (repeat' split at h) <;> cases h <;> first
      | exact hA.quiet rfl rfl
      | exact hpc.symm ▸ hA
  | registerNode fd query interval =>
    rw [hpc] at hA
    simp only [managerNext, hpc] at h
    obtain ⟨⟨app, node, mem⟩, heq, rfl⟩ := Option.map_eq_some_iff.mp h
    exact hA.registerNode hw heq
  | storeHandler fd app node handler =>
    rw [hpc] at hA hinv
    simp only [managerNext, hpc] at h
    cases h
    exact hA.storeHandler hw hinv
  | unchainQuery fd reqId =>
    rw [hpc] at hA hinv
    simp only [managerNext, hpc] at h
    split at h
    · cases h
    · rename_i mem heq
      cases h
      obtain rfl := (Moved.unchainQuery hw hinv heq).1 rfl
      exact hA.quiet rfl rfl
    · rename_i node mem heq
      obtain ⟨handler, -, rfl⟩ := Option.map_eq_some_iff.mp h
      exact hA.unchainQuery hw hinv heq
  | unchainApp fd site =>
    rw [hpc] at hA hinv
    simp only [managerNext, hpc] at h
    split at h
    · cases h
    · rename_i mem heq
      cases h
      rcases hw.unchainApp hinv.1 fd with ⟨heq', -⟩ | ⟨_, _, _, _, heq', -⟩
      · obtain ⟨-, rfl⟩ : (none : Option ℕ) = none ∧ s.mem = mem := by
          simpa only [Option.some.injEq, Prod.mk.injEq] using heq'.symm.trans heq
        exact hA.of_held_eq rfl rfl rfl
      · rw [heq'] at heq
        cases heq
    · rename_i app mem heq
      cases h
      exact hA.unchainApp hw hinv heq
  | dropLoop fd app p site =>
    rw [hpc] at hA hinv
    cases p with
    | none =>
      simp only [managerNext, hpc] at h
      cases h
      exact hA.of_held_eq rfl rfl rfl
    | some node =>
      simp only [managerNext, hpc] at h
      obtain ⟨handler, -, rfl⟩ := Option.map_eq_some_iff.mp h
      exact hA.dropQuery hw hinv
  | removeNode node handler caller =>
    rw [hpc] at hA hinv
    simp only [managerNext, hpc] at h
    split at h <;> cases h
    exact hA.removeNode hw hinv
  | freeNode node handler caller =>
    rw [hpc] at hA
    simp only [managerNext, hpc] at h
    cases h
    exact hA.freeNode
  | freeQuery node caller =>
    rw [hpc] at hA
    simp only [managerNext, hpc] at h
    cases h
    exact hA.freeQuery (by cases caller <;> rfl)
  | freeApp fd app site =>
    rw [hpc] at hA
    simp only [managerNext, hpc] at h
    cases h
    exact hA.freeApp
  | close fd site =>
    rw [hpc] at hA
    simp only [managerNext, hpc] at h
    cases h
    cases site <;> exact hA.of_held_eq rfl rfl rfl
  | select | read _ | serve _ _ | write _ _ _ | schedule _ _ _ _ => simp [managerNext, hpc] at h

theorem managerStep_accounted (hA : Accounted s.mem s.manager) (hw : s.mem.Wf S)
    (hinv : s.manager.Inv s.mem S) {l : ManagerLabel} (h : managerStep am s l = some t) :
    Accounted t.mem t.manager := by
  cases l with
  | next => exact managerNext_accounted hA hw hinv h
  | schedule now =>
    simp only [managerStep] at h
    split at h <;> [rename_i fd app node interval hpc; cases h]
    rw [hpc] at hA
    split at h
    · cases h
    · obtain ⟨⟨handler, signal, sched⟩, heq, rfl⟩ := Option.map_eq_some_iff.mp h
      exact hA.schedule_call hw heq
  | read chunk =>
    simp only [managerStep] at h
    split at h <;> [rename_i fd hpc; cases h]
    rw [hpc] at hA
    (repeat' split at h) <;> cases h
    exact hA.quiet rfl (quiet_dispatch fd _)
  | write =>
    simp only [managerStep] at h
    split at h <;> [rename_i hpc; cases h]
    rw [hpc] at hA
    obtain ⟨conn, -, rfl⟩ := Option.map_eq_some_iff.mp h
    exact hA.quiet rfl rfl
  | mallocError =>
    simp only [managerStep] at h
    split at h <;> cases h <;> exact hA
  | _ =>
    simp only [managerStep] at h
    split at h
    · rename_i hpc
      (repeat' split at h) <;> cases h <;> first
        | exact hA
        | (rw [hpc] at hA; exact hA.quiet rfl rfl)
    · cases h

theorem schedulerStep_accounted (hA : Accounted s.mem s.manager) (hw : s.mem.Wf S) {l : SchedulerLabel}
    (h : schedulerStep s l = some t) : Accounted t.mem t.manager := by
  cases l with
  | inner =>
    simp only [schedulerStep] at h
    split at h <;> [skip; cases h]
    split at h
    · cases h
    · rename_i heq
      cases h
      exact hA.rearm hw heq
    · rename_i heq
      cases h
      exact hA.rearm hw heq
  | write =>
    simp only [schedulerStep] at h
    split at h <;> [skip; cases h]
    obtain ⟨conn, -, rfl⟩ := Option.map_eq_some_iff.mp h
    exact hA
  | _ =>
    simp only [schedulerStep, schedulerLoad] at h
    (repeat' split at h) <;> cases h <;> exact hA

theorem accounted_of_reachable (h : Lts.Reachable (Server.step am) (init am msg) s) :
    Accounted s.mem s.manager := by
  refine (h.invariant (I := fun s => Inv s ∧ Accounted s.mem s.manager) ⟨inv_init am msg, ?_⟩ ?_).2
  · constructor <;> simp [init, Mem.init, Sched.init, Heap.empty, ManagerPc.heldNodes]
  · rintro s l t ⟨hI, hA⟩ hs
    obtain ⟨S, hw, hinv⟩ := id hI
    refine ⟨hI.step hs, ?_⟩
    cases l with
    | manager l => exact managerStep_accounted hA hw hinv (step_manager hs).2
    | scheduler l => exact schedulerStep_accounted hA hw (step_scheduler hs).2

end Server

/-! ## Nothing leaks and nothing is freed twice -/

namespace ManagerPc

variable {pc : ManagerPc} {m : Mem} {S : Shape}

theorem heldApps_eq (hinv : pc.Inv m S) : pc.heldApps = S.detached := by
  cases pc with
  | schedule fd app node interval => exact hinv.2.1.symm
  | storeHandler fd app node handler => exact hinv.2.1.symm
  | dropLoop fd app p site => exact hinv.detached.symm
  | removeNode node handler caller =>
    cases caller with
    | unregisterQuery fd => exact hinv.2.2.2.1.symm
    | unregisterApplication fd app site => exact hinv.2.2.detached.symm
  | freeNode node handler caller =>
    cases caller with
    | unregisterQuery fd => exact hinv.2.2.2.2.symm
    | unregisterApplication fd app site => exact hinv.2.2.2.detached.symm
  | freeQuery node caller =>
    cases caller with
    | unregisterQuery fd => exact hinv.2.2.2.symm
    | unregisterApplication fd app site => exact hinv.2.2.detached.symm
  | freeApp fd app site => exact hinv.2.1.symm
  | close fd site => exact hinv.2.1.symm
  | _ => exact hinv.2.symm

/-- What the caller of `unschedule` still has to unschedule is what is loose. -/
theorem rest_eq (hw : m.Wf S) {caller : Caller} {p : Option ℕ} (hc : caller.Inv m S p) :
    caller.rest m p = S.loose := by
  cases caller with
  | unregisterQuery fd => exact hc.1.symm
  | unregisterApplication fd app site => exact hw.queriesFrom_eq hc.chain

/-- The query nodes that are held are loose, but for one that is not scheduled. -/
theorem heldQueries_eq (hw : m.Wf S) (hinv : pc.Inv m S) :
    pc.heldQueries m = S.loose ∨
      ∃ q, pc.heldQueries m = q :: S.loose ∧ q ∈ m.queries.live ∧ ¬ S.Owned q := by
  cases pc with
  | schedule fd app node interval =>
    obtain ⟨hl, -, -, -, hlive, hno, -⟩ := hinv
    exact .inr ⟨node, by rw [hl]; rfl, hlive, hno⟩
  | storeHandler fd app node handler => exact .inl hinv.1.symm
  | dropLoop fd app p site => exact .inl (hw.queriesFrom_eq hinv.chain)
  | removeNode node handler caller =>
    left
    cases caller with
    | unregisterQuery fd => exact hinv.2.2.1.symm
    | unregisterApplication fd app site =>
      have hchain := hinv.2.2.chain
      cases hl : S.loose with
      | nil =>
        rw [hl] at hchain
        cases hchain.head
      | cons q rest =>
        have hlen := Heap.length_le_brk hw.looseNodup fun q hq => hw.queryLive q (.inr hq)
        rw [hl] at hchain hlen
        obtain rfl := Option.some.inj hchain.head
        rw [List.length_cons] at hlen
        exact congrArg (node :: ·) (Chain.collect_eq ⟨hchain.linked.1, hchain.linked.2⟩ (by omega))
  | freeNode node handler caller =>
    obtain ⟨-, hlive, hno, hc⟩ := hinv
    exact .inr ⟨node, congrArg (node :: ·) (rest_eq hw hc), hlive, hno⟩
  | freeQuery node caller =>
    obtain ⟨hlive, hno, hc⟩ := hinv
    exact .inr ⟨node, congrArg (node :: ·) (rest_eq hw hc), hlive, hno⟩
  | freeApp fd app site => exact .inl hinv.1.symm
  | close fd site => exact .inl hinv.1.symm
  | _ => exact .inl hinv.1.symm

theorem heldQueries_listed (hw : m.Wf S) (hinv : pc.Inv m S) :
    (pc.heldQueries m).Nodup ∧
      ∀ q ∈ pc.heldQueries m, q ∈ m.queries.live ∧ ∀ a ∈ S.apps, q ∉ S.queries a := by
  have hloose : ∀ q ∈ S.loose, q ∈ m.queries.live ∧ ∀ a ∈ S.apps, q ∉ S.queries a := fun q hq =>
    ⟨hw.queryLive q (.inr hq), fun a ha hqa => hw.not_loose ha hqa hq⟩
  rcases heldQueries_eq hw hinv with heq | ⟨q, heq, hlive, hno⟩
  · rw [heq]
    exact ⟨hw.looseNodup, hloose⟩
  · rw [heq]
    refine ⟨List.nodup_cons.mpr ⟨fun hq => hno (.inr hq), hw.looseNodup⟩, fun q' hq' => ?_⟩
    rcases List.mem_cons.mp hq' with rfl | hq'
    · exact ⟨hlive, fun a ha hqa => hno (.inl ⟨a, ha, hqa⟩)⟩
    · exact hloose q' hq'

end ManagerPc

namespace Server

variable {am : ℕ} {s t : Server} {S : Shape} {msg : MsgBytes}

/-- Whatever the two threads do, every node that is allocated and not freed is in a list of the registry or
    of the scheduler, or in the hands of `application_manager`, in one place and there once; and what
    `application_manager` frees has not been freed before. Between two operations it holds nothing. -/
theorem nodes_listed (h : Lts.Reachable (Server.step am) (init am msg) s) :
    s.mem.apps.Listed (s.mem.appList ++ s.manager.heldApps) ∧
      s.mem.queries.Listed (s.mem.queryNodes ++ s.manager.heldQueries s.mem) ∧
      s.mem.sched.nodes.Listed (s.mem.schedList ++ s.manager.heldNodes) ∧
      ∀ o, s.manager.freed = some o → o.Live s.mem := by
  obtain ⟨S, hw, hinv⟩ := inv_of_reachable h
  have hA := accounted_of_reachable h
  have happs := ManagerPc.heldApps_eq hinv
  obtain ⟨hqnodup, hqheld⟩ := ManagerPc.heldQueries_listed hw hinv
  refine ⟨?_, ?_, ?_, fun o ho => ?_⟩
  · have hall := hA.apps
    rw [happs, hw.appList_eq] at hall ⊢
    have hnodup : S.detached.Nodup := by
      rw [← happs]
      cases hpc : s.manager <;> first
        | exact List.nodup_nil
        | exact List.nodup_singleton _
        | (rename_i caller; cases caller <;> first | exact List.nodup_nil | exact List.nodup_singleton _)
    exact Heap.Listed.append hw.appNodup hnodup (fun a ha => (hw.detached a ha).2) hw.appLive
      (fun a ha => (hw.detached a ha).1) hall
  · have hnodup : s.mem.queryNodes.Nodup := by
      rw [Mem.queryNodes, hw.appList_eq, List.flatMap_congr fun a ha => hw.queryList_eq ha,
        List.nodup_flatMap]
      refine ⟨hw.queryNodup, hw.appNodup.imp_of_mem fun {a b} ha hb hne q hqa hqb => hne ?_⟩
      rw [← hw.queryApp a ha q hqa, hw.queryApp b hb q hqb]
    refine Heap.Listed.append hnodup hqnodup (fun q hq hqn => ?_) (fun q hq => ?_)
      (fun q hq => (hqheld q hq).1) hA.queries
    · obtain ⟨a, ha, hqa⟩ := hw.mem_queryNodes.mp hqn
      exact (hqheld q hq).2 a ha hqa
    · exact hw.queryLive q (.inl (hw.mem_queryNodes.mp hq))
  · have hall := hA.nodes
    have hdisj : ∀ x ∈ s.manager.heldNodes, x ∉ S.sched := by
      intro x hx
      cases hpc : s.manager with
      | freeNode node handler caller =>
        rw [hpc] at hx hinv
        rw [List.mem_singleton.mp hx]
        exact hinv.1
      | _ => rw [hpc] at hx; cases hx
    have hnodup : s.manager.heldNodes.Nodup := by
      cases s.manager <;> first | exact List.nodup_nil | exact List.nodup_singleton _
    rw [hw.schedList_eq] at hall ⊢
    exact Heap.Listed.append hw.schedRepr.nodup hnodup hdisj hw.schedRepr.live hA.held hall
  · cases hpc : s.manager with
    | freeNode node handler caller =>
      rw [hpc] at ho
      cases ho
      exact hA.held handler (by rw [hpc]; exact List.mem_singleton_self _)
    | freeQuery node caller =>
      rw [hpc] at ho hinv
      cases ho
      exact hinv.1
    | freeApp fd app site =>
      rw [hpc] at ho hinv
      cases ho
      exact (hw.detached app (hinv.2.1 ▸ List.mem_singleton_self _)).1
    | _ => rw [hpc] at ho; cases ho

/-- The first of two clients closes its connection. Its scheduler node is out of the list and not freed yet. -/
theorem nodes_listed_eofRun :
    ∃ s, Lts.run (step 3) (init 3 fun _ => 0) (registerRun 4 ++ registerRun 5 ++ eofRun 4 3) = some s ∧
      s.mem.schedList = [1] ∧ s.manager.heldNodes = [0] ∧
      s.mem.sched.nodes.Listed (s.mem.schedList ++ s.manager.heldNodes) := by
  obtain ⟨s, hrun, hp⟩ := Lts.exists_run_of_map (step 3) (init 3 fun _ => 0)
    (registerRun 4 ++ registerRun 5 ++ eofRun 4 3)
    (fun s => decide (s.mem.schedList = [1] ∧ s.manager.heldNodes = [0])) (by decide)
  obtain ⟨hsched, hheld⟩ := of_decide_eq_true hp
  exact ⟨s, hrun, hsched, hheld, (nodes_listed ⟨_, hrun⟩).2.2.1⟩

end Server

end Afdx
