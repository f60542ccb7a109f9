import Afdx.Proofs.SchedulerProofs
import Afdx.RegistrySpec

/-!
# The pieces of the registry operations

The invariant `Wf` of the registry holds between any two pieces of an operation, so that it can be used
for the operations run alone and for the threads that interleave them. Besides the lists that the
pointers represent it allows query nodes that are scheduled but in no list (`loose`) and applications
that are no longer registered but not yet freed (`detached`).
-/

namespace Afdx

open Links

/-- The lists that the pointers of a `Mem` represent. -/
structure Shape where
  apps : List ℕ
  queries : ℕ → List ℕ
  sched : List ℕ
  /-- Query nodes that are scheduled but in the list of no registered application. -/
  loose : List ℕ
  /-- Applications that are unchained but still allocated. -/
  detached : List ℕ

namespace Shape

def init : Shape := ⟨[], fun _ => [], [], [], []⟩

/-- The query nodes that must be scheduled. -/
def Owned (S : Shape) (q : ℕ) : Prop := (∃ a ∈ S.apps, q ∈ S.queries a) ∨ q ∈ S.loose

/-- The shape after a new application without queries is registered. -/
def consApp (S : Shape) (b : ℕ) : Shape :=
  { S with apps := b :: S.apps, queries := Function.update S.queries b [] }

theorem consApp_queries {S : Shape} {a b : ℕ} (hb : b ∉ S.apps) (ha : a ∈ S.apps) :
    (S.consApp b).queries a = S.queries a :=
  Function.update_of_ne (ne_of_mem_of_not_mem ha hb) ..

theorem owned_consApp {S : Shape} {b q : ℕ} (hb : b ∉ S.apps) :
    (S.consApp b).Owned q ↔ S.Owned q := by
  refine or_congr_left ⟨?_, ?_⟩
  · rintro ⟨a, ha, hq⟩
    rcases List.mem_cons.mp ha with rfl | ha
    · simp [consApp] at hq
    · exact ⟨a, ha, consApp_queries hb ha ▸ hq⟩
  · rintro ⟨a, ha, hq⟩
    exact ⟨a, List.mem_cons_of_mem _ ha, (consApp_queries hb ha).symm ▸ hq⟩

/-- The shape after the list of `app` is set to `l`, and what is loose to `loose`. -/
def setQueries (S : Shape) (app : ℕ) (l loose : List ℕ) : Shape :=
  { S with queries := Function.update S.queries app l, loose := loose }

@[simp] theorem setQueries_queries_self {S : Shape} {app : ℕ} {l loose : List ℕ} :
    (S.setQueries app l loose).queries app = l := Function.update_self ..

theorem setQueries_queries_of_ne {S : Shape} {a app : ℕ} {l loose : List ℕ} (ha : a ≠ app) :
    (S.setQueries app l loose).queries a = S.queries a := Function.update_of_ne ha ..

/-- Nodes that go from a list to the loose ones or back are scheduled all the time. -/
theorem owned_setQueries {S : Shape} {app q : ℕ} {l loose : List ℕ} (ha : app ∈ S.apps)
    (hmem : ∀ q, q ∈ l ∨ q ∈ loose ↔ q ∈ S.queries app ∨ q ∈ S.loose) :
    (S.setQueries app l loose).Owned q ↔ S.Owned q := by
  constructor
  · rintro (⟨a, haS, hq⟩ | hq)
    · by_cases haa : a = app
      · subst haa
        rw [setQueries_queries_self] at hq
        exact ((hmem q).mp (.inl hq)).imp_left fun hq => ⟨a, ha, hq⟩
      · exact .inl ⟨a, haS, setQueries_queries_of_ne haa ▸ hq⟩
    · exact ((hmem q).mp (.inr hq)).imp_left fun hq => ⟨app, ha, hq⟩
  · rintro (⟨a, haS, hq⟩ | hq)
    · by_cases haa : a = app
      · subst haa
        exact ((hmem q).mpr (.inl hq)).imp_left fun hq => ⟨a, ha, by rwa [setQueries_queries_self]⟩
      · exact .inl ⟨a, haS, (setQueries_queries_of_ne haa).symm ▸ hq⟩
    · exact ((hmem q).mpr (.inr hq)).imp_left fun hq => ⟨app, ha, by rwa [setQueries_queries_self]⟩

end Shape

namespace Mem

variable {m m' : Mem} {S S' : Shape} {fd : ℕ}

/-- The pointers of `m` represent `S`, and the lists belong together. -/
structure Wf (m : Mem) (S : Shape) : Prop where
  appChain : Chain (fun a => (m.apps.cell a).next) m.registeredApplications S.apps
  appNodup : S.apps.Nodup
  appLive : ∀ a ∈ S.apps, a ∈ m.apps.live
  appFd : ∀ a ∈ S.apps, ∀ b ∈ S.apps, (m.apps.cell a).fd = (m.apps.cell b).fd → a = b
  detached : ∀ a ∈ S.detached, a ∈ m.apps.live ∧ a ∉ S.apps
  queryChain : ∀ a ∈ S.apps,
    Chain (fun q => (m.queries.cell q).next) (m.apps.cell a).queries (S.queries a)
  queryNodup : ∀ a ∈ S.apps, (S.queries a).Nodup
  queryApp : ∀ a ∈ S.apps, ∀ q ∈ S.queries a, (m.queries.cell q).app = a
  looseNodup : S.loose.Nodup
  looseApp : ∀ q ∈ S.loose,
    ((m.queries.cell q).app ∈ S.apps ∧ q ∉ S.queries (m.queries.cell q).app) ∨
      (m.queries.cell q).app ∈ S.detached
  queryLive : ∀ q, S.Owned q → q ∈ m.queries.live
  schedRepr : m.sched.Repr S.sched
  schedNode : ∀ x ∈ S.sched,
    (m.sched.payload x).action = .serveSchedulerQuery ∧ S.Owned (m.sched.payload x).data
  schedData : ∀ x ∈ S.sched, ∀ y ∈ S.sched,
    (m.sched.payload x).data = (m.sched.payload y).data → x = y
  handler : ∀ a ∈ S.apps, ∀ q ∈ S.queries a,
    ∃ x ∈ S.sched, (m.queries.cell q).handler = some x ∧ (m.sched.payload x).data = q

/-- What never changes in a node once it is allocated, and names are never used twice. -/
structure Ext (m m' : Mem) : Prop where
  appsBrk : m.apps.brk ≤ m'.apps.brk
  queriesBrk : m.queries.brk ≤ m'.queries.brk
  nodesBrk : m.sched.nodes.brk ≤ m'.sched.nodes.brk
  fd : ∀ a < m.apps.brk, (m'.apps.cell a).fd = (m.apps.cell a).fd
  query : ∀ q < m.queries.brk, (m'.queries.cell q).query = (m.queries.cell q).query ∧
    (m'.queries.cell q).app = (m.queries.cell q).app
  node : ∀ x < m.sched.nodes.brk, (m'.sched.payload x).action = (m.sched.payload x).action ∧
    (m'.sched.payload x).data = (m.sched.payload x).data ∧
    (m'.sched.payload x).interval = (m.sched.payload x).interval

theorem wf_init : Wf .init .init := by
  constructor <;> simp [Shape.init, Mem.init, Shape.Owned, Chain.nil, Sched.repr_init]

/-! ## What follows from the invariant -/

theorem Wf.app_of_owned (h : Wf m S) {q : ℕ} (hq : S.Owned q) :
    (m.queries.cell q).app ∈ S.apps ∨ (m.queries.cell q).app ∈ S.detached := by
  rcases hq with ⟨a, ha, hq⟩ | hq
  · exact .inl ((h.queryApp a ha q hq).symm ▸ ha)
  · exact (h.looseApp q hq).imp_left And.left

/-- The application of a scheduled query is allocated. -/
theorem Wf.appLive_of_owned (h : Wf m S) {q : ℕ} (hq : S.Owned q) :
    (m.queries.cell q).app ∈ m.apps.live :=
  (h.app_of_owned hq).elim (h.appLive _) fun hd => (h.detached _ hd).1

/-- A query in the list of an application is not loose. -/
theorem Wf.not_loose (h : Wf m S) {a q : ℕ} (ha : a ∈ S.apps) (hq : q ∈ S.queries a) :
    q ∉ S.loose := by
  intro hl
  have happ := h.queryApp a ha q hq
  rcases h.looseApp q hl with ⟨-, hn⟩ | hd
  · exact hn (happ.symm ▸ hq)
  · exact (h.detached _ hd).2 (happ.symm ▸ ha)

theorem Wf.apps_length_lt (h : Wf m S) : S.apps.length < m.apps.brk + 1 :=
  Nat.lt_succ_of_le (Heap.length_le_brk h.appNodup h.appLive)

theorem Wf.queries_length_lt (h : Wf m S) {a : ℕ} (ha : a ∈ S.apps) :
    (S.queries a).length < m.queries.brk + 1 :=
  Nat.lt_succ_of_le (Heap.length_le_brk (h.queryNodup a ha) fun q hq => h.queryLive q (.inl ⟨a, ha, hq⟩))

theorem Wf.appList_eq (h : Wf m S) : m.appList = S.apps := h.appChain.collect_eq h.apps_length_lt

theorem Wf.queryList_eq (h : Wf m S) {a : ℕ} (ha : a ∈ S.apps) : m.queryList a = S.queries a :=
  (h.queryChain a ha).collect_eq (h.queries_length_lt ha)

theorem Wf.schedList_eq (h : Wf m S) : m.schedList = S.sched :=
  h.schedRepr.chain.forward.collect_eq h.schedRepr.length_lt

/-- The invariant depends on the registered applications, on the scheduled queries and on the
    scheduler's list only. -/
theorem Wf.congr (h : Wf m S) (hreg : m'.registeredApplications = m.registeredApplications)
    (happ : ∀ a ∈ S.apps, m'.apps.cell a = m.apps.cell a ∧ a ∈ m'.apps.live)
    (hdet : ∀ a ∈ S.detached, a ∈ m'.apps.live)
    (hq : ∀ q, S.Owned q → m'.queries.cell q = m.queries.cell q ∧ q ∈ m'.queries.live)
    (hs : m'.sched.Repr S.sched) (hpay : ∀ x ∈ S.sched, m'.sched.payload x = m.sched.payload x) :
    Wf m' S where
  appChain := hreg ▸ h.appChain.congr fun a ha => by rw [(happ a ha).1]
  appNodup := h.appNodup
  appLive a ha := (happ a ha).2
  appFd a ha b hb := by
    rw [(happ a ha).1, (happ b hb).1]
    exact h.appFd a ha b hb
  detached a ha := ⟨hdet a ha, (h.detached a ha).2⟩
  queryChain a ha := by
    rw [(happ a ha).1]
    exact (h.queryChain a ha).congr fun q hqa => by rw [(hq q (.inl ⟨a, ha, hqa⟩)).1]
  queryNodup := h.queryNodup
  queryApp a ha q hqa := by
    rw [(hq q (.inl ⟨a, ha, hqa⟩)).1]
    exact h.queryApp a ha q hqa
  looseNodup := h.looseNodup
  looseApp q hql := by
    rw [(hq q (.inr hql)).1]
    exact h.looseApp q hql
  queryLive q hqo := (hq q hqo).2
  schedRepr := hs
  schedNode x hx := by
    rw [hpay x hx]
    exact h.schedNode x hx
  schedData x hx y hy := by
    rw [hpay x hx, hpay y hy]
    exact h.schedData x hx y hy
  handler a ha q hqa := by
    obtain ⟨x, hx, hh, hd⟩ := h.handler a ha q hqa
    refine ⟨x, hx, ?_, ?_⟩
    · rw [(hq q (.inl ⟨a, ha, hqa⟩)).1]
      exact hh
    · rw [hpay x hx]
      exact hd

/-- The search for an application finds the one of `fd`, if it is registered. -/
theorem Wf.findApp (h : Wf m S) (fd : ℕ) :
    (m.findApp fd = some (S.apps.getLast?, none) ∧ ∀ a ∈ S.apps, (m.apps.cell a).fd ≠ fd) ∨
      ∃ l₁ a l₂, S.apps = l₁ ++ a :: l₂ ∧ (m.apps.cell a).fd = fd ∧
        m.findApp fd = some (l₁.getLast?, some a) := by
  obtain ⟨l₁, l₂, hl, h₁, h₂, hw⟩ := walk_eq (fun a => decide ((m.apps.cell a).fd = fd)) none
    h.appChain h.apps_length_lt
  rw [Option.or_none] at hw
  cases l₂ with
  | nil =>
    rw [List.append_nil] at hl
    subst hl
    exact .inl ⟨hw, fun a ha => of_decide_eq_false (h₁ a ha)⟩
  | cons a l₂ => exact .inr ⟨l₁, a, l₂, hl, of_decide_eq_true (h₂ a rfl), hw⟩

/-- The search for a query finds the first one with the request id. -/
theorem Wf.findQuery (h : Wf m S) {a : ℕ} (ha : a ∈ S.apps) (reqId : UInt32) :
    (m.findQuery a reqId = some ((S.queries a).getLast?, none) ∧
        ∀ q ∈ S.queries a, (m.queries.cell q).query.reqId ≠ reqId) ∨
      ∃ l₁ q l₂, S.queries a = l₁ ++ q :: l₂ ∧ (m.queries.cell q).query.reqId = reqId ∧
        (∀ q ∈ l₁, (m.queries.cell q).query.reqId ≠ reqId) ∧
        m.findQuery a reqId = some (l₁.getLast?, some q) := by
  obtain ⟨l₁, l₂, hl, h₁, h₂, hw⟩ := walk_eq (fun q => decide ((m.queries.cell q).query.reqId = reqId))
    none (h.queryChain a ha) (h.queries_length_lt ha)
  rw [Option.or_none] at hw
  have hne : ∀ q ∈ l₁, (m.queries.cell q).query.reqId ≠ reqId := fun q hq => of_decide_eq_false (h₁ q hq)
  cases l₂ with
  | nil =>
    rw [List.append_nil] at hl
    subst hl
    exact .inl ⟨hw, hne⟩
  | cons q l₂ => exact .inr ⟨l₁, q, l₂, hl, of_decide_eq_true (h₂ q rfl), hne, hw⟩

/-- What is registered for a client whose application is known. -/
theorem Wf.registrations_some (h : Wf m S) {a : ℕ} (ha : a ∈ S.apps)
    (hfd : (m.apps.cell a).fd = fd) :
    m.registrations fd =
      some ((S.queries a).map fun q => ((m.queries.cell q).query, m.intervalOf q)) := by
  have hfind : (S.apps.find? fun a => (m.apps.cell a).fd = fd) = some a := by
    cases hf : S.apps.find? fun a => (m.apps.cell a).fd = fd with
    | none => simpa [hfd] using List.find?_eq_none.mp hf a ha
    | some b =>
      have hb := List.find?_some hf
      rw [h.appFd a ha b (List.mem_of_find?_eq_some hf) (hfd.trans (of_decide_eq_true hb).symm)]
  rw [registrations, h.appList_eq, hfind, Option.map_some, h.queryList_eq ha]

theorem Wf.registrations_none (h : Wf m S) (hfd : ∀ a ∈ S.apps, (m.apps.cell a).fd ≠ fd) :
    m.registrations fd = none := by
  rw [registrations, h.appList_eq, Option.map_eq_none_iff, List.find?_eq_none]
  simpa using hfd

/-! ## What a store or an allocation leaves alone -/

/-- Nothing is freed. -/
structure LiveKept (m m' : Mem) : Prop where
  apps : m.apps.live ⊆ m'.apps.live
  queries : m.queries.live ⊆ m'.queries.live
  nodes : m.sched.nodes.live ⊆ m'.sched.nodes.live

theorem LiveKept.trans {m'' : Mem} (h : LiveKept m m') (h' : LiveKept m' m'') : LiveKept m m'' :=
  ⟨h.apps.trans h'.apps, h.queries.trans h'.queries, h.nodes.trans h'.nodes⟩

theorem Ext.refl (m : Mem) : Ext m m :=
  ⟨le_rfl, le_rfl, le_rfl, fun _ _ => rfl, fun _ _ => ⟨rfl, rfl⟩, fun _ _ => ⟨rfl, rfl, rfl⟩⟩

theorem Ext.trans {m'' : Mem} (h : Ext m m') (h' : Ext m' m'') : Ext m m'' where
  appsBrk := h.appsBrk.trans h'.appsBrk
  queriesBrk := h.queriesBrk.trans h'.queriesBrk
  nodesBrk := h.nodesBrk.trans h'.nodesBrk
  fd a ha := (h'.fd a (ha.trans_le h.appsBrk)).trans (h.fd a ha)
  query q hq :=
    have h₁ := h.query q hq
    have h₂ := h'.query q (hq.trans_le h.queriesBrk)
    ⟨h₂.1.trans h₁.1, h₂.2.trans h₁.2⟩
  node x hx :=
    have h₁ := h.node x hx
    have h₂ := h'.node x (hx.trans_le h.nodesBrk)
    ⟨h₂.1.trans h₁.1, h₂.2.1.trans h₁.2.1, h₂.2.2.trans h₁.2.2⟩

theorem Ext.apps (m : Mem) {apps : Heap RegApp} (r : Option ℕ) (hb : m.apps.brk ≤ apps.brk)
    (hc : ∀ a < m.apps.brk, (apps.cell a).fd = (m.apps.cell a).fd) :
    Ext m { m with apps := apps, registeredApplications := r } :=
  ⟨hb, le_rfl, le_rfl, hc, fun _ _ => ⟨rfl, rfl⟩, fun _ _ => ⟨rfl, rfl, rfl⟩⟩

theorem Ext.queries (m : Mem) {queries : Heap RegQueryNode} (hb : m.queries.brk ≤ queries.brk)
    (hc : ∀ q < m.queries.brk, (queries.cell q).query = (m.queries.cell q).query ∧
      (queries.cell q).app = (m.queries.cell q).app) :
    Ext m { m with queries := queries } :=
  ⟨le_rfl, hb, le_rfl, fun _ _ => rfl, hc, fun _ _ => ⟨rfl, rfl, rfl⟩⟩

theorem Ext.sched (m : Mem) {st : Sched} (hb : m.sched.nodes.brk ≤ st.nodes.brk)
    (hp : ∀ x < m.sched.nodes.brk, (st.payload x).action = (m.sched.payload x).action ∧
      (st.payload x).data = (m.sched.payload x).data ∧
      (st.payload x).interval = (m.sched.payload x).interval) :
    Ext m { m with sched := st } :=
  ⟨le_rfl, le_rfl, hb, fun _ _ => rfl, fun _ _ => ⟨rfl, rfl⟩, hp⟩

/-! ## The view of the other clients -/

/-- A piece of an operation for the client `fd`: it leaves everything alone that belongs to others. -/
structure OtherClientsKept (fd : ℕ) (m m' : Mem) : Prop where
  apps : m'.othersApps fd = m.othersApps fd
  sched : m'.othersSched fd = m.othersSched fd

theorem OtherClientsKept.refl (fd : ℕ) (m : Mem) : OtherClientsKept fd m m := ⟨rfl, rfl⟩

theorem OtherClientsKept.trans {m'' : Mem} (h : OtherClientsKept fd m m')
    (h' : OtherClientsKept fd m' m'') : OtherClientsKept fd m m'' :=
  ⟨h'.apps.trans h.apps, h'.sched.trans h.sched⟩

theorem Wf.othersApps_congr (h : Wf m S) (h' : Wf m' S')
    (happs : (S'.apps.filter fun a => (m'.apps.cell a).fd ≠ fd) =
      S.apps.filter fun a => (m.apps.cell a).fd ≠ fd)
    (hq : ∀ a ∈ S.apps, (m.apps.cell a).fd ≠ fd → (m'.apps.cell a).fd = (m.apps.cell a).fd ∧
      S'.queries a = S.queries a ∧ ∀ q ∈ S.queries a,
        (m'.queries.cell q).query = (m.queries.cell q).query ∧
        (m'.queries.cell q).handler = (m.queries.cell q).handler) :
    m'.othersApps fd = m.othersApps fd := by
  unfold othersApps
  rw [h'.appList_eq, h.appList_eq, happs]
  refine List.map_congr_left fun a ha => ?_
  have ha' : a ∈ S'.apps := List.mem_of_mem_filter (happs.symm ▸ ha)
  obtain ⟨ha, hne⟩ := List.mem_filter.mp ha
  obtain ⟨hfd, hl, hc⟩ := hq a ha (of_decide_eq_true hne)
  rw [h'.queryList_eq ha', h.queryList_eq ha, hfd, hl]
  congr 2
  refine List.map_congr_left fun q hqa => ?_
  rw [(hc q hqa).1, (hc q hqa).2]

theorem Wf.othersSched_congr (h : Wf m S) (h' : Wf m' S')
    (hs : (S'.sched.filter fun x => m'.ownerFd x ≠ fd) = S.sched.filter fun x => m.ownerFd x ≠ fd)
    (hp : ∀ x ∈ S.sched, m.ownerFd x ≠ fd → m'.sched.payload x = m.sched.payload x) :
    m'.othersSched fd = m.othersSched fd := by
  unfold othersSched
  rw [h'.schedList_eq, h.schedList_eq, hs]
  refine List.map_congr_left fun x hx => ?_
  obtain ⟨hx, hne⟩ := List.mem_filter.mp hx
  rw [hp x hx (of_decide_eq_true hne)]

/-- Filtering does not see an element in the middle that does not pass. -/
theorem filter_insert_of_not {p p' : ℕ → Bool} {l₁ l₂ : List ℕ} {x : ℕ} (hx : p' x = false)
    (hp : ∀ y ∈ l₁ ++ l₂, p' y = p y) : (l₁ ++ x :: l₂).filter p' = (l₁ ++ l₂).filter p := by
  rw [List.filter_append, List.filter_cons_of_neg (by simp [hx]), ← List.filter_append]
  exact List.filter_congr hp

/-! ## `register_query` -/

theorem Wf.allocApp (h : Wf m S) (hfd : ∀ a ∈ S.apps, (m.apps.cell a).fd ≠ fd) :
    Wf { m with
        apps := (m.apps.alloc ⟨fd, none, m.registeredApplications⟩).2
        registeredApplications := some m.apps.brk }
      (S.consApp m.apps.brk) := by
  have hb : m.apps.brk ∉ S.apps := fun hb => m.apps.brk_not_mem_live (h.appLive _ hb)
  have hcell : ∀ a ∈ S.apps, (m.apps.alloc ⟨fd, none, m.registeredApplications⟩).2.cell a =
      m.apps.cell a := fun a ha => m.apps.alloc_cell_of_live _ (h.appLive a ha)
  have hqs : ∀ a ∈ S.apps, (S.consApp m.apps.brk).queries a = S.queries a :=
    fun a ha => Shape.consApp_queries hb ha
  have howned : ∀ q, (S.consApp m.apps.brk).Owned q ↔ S.Owned q := fun q => Shape.owned_consApp hb
  have hnil : (S.consApp m.apps.brk).queries m.apps.brk = [] := Function.update_self ..
  constructor
  case appChain =>
    refine (h.appChain.congr fun a ha => ?_).cons ?_
    · rw [hcell a ha]
    · rw [Heap.alloc_cell_self]
  case appNodup => exact List.nodup_cons.mpr ⟨hb, h.appNodup⟩
  case appLive =>
    intro a ha
    exact (m.apps.mem_alloc_live _ _).mpr ((List.mem_cons.mp ha).imp_right (h.appLive a))
  case appFd =>
    intro a ha b hbm
    rcases List.mem_cons.mp ha with rfl | ha <;> rcases List.mem_cons.mp hbm with rfl | hbm
    · simp
    · rw [Heap.alloc_cell_self, hcell b hbm]
      exact fun he => (hfd b hbm he.symm).elim
    · rw [Heap.alloc_cell_self, hcell a ha]
      exact fun he => (hfd a ha he).elim
    · rw [hcell a ha, hcell b hbm]
      exact h.appFd a ha b hbm
  case detached =>
    intro a ha
    obtain ⟨hl, hn⟩ := h.detached a ha
    refine ⟨(m.apps.mem_alloc_live _ _).mpr (.inr hl), ?_⟩
    rintro (_ | ⟨_, ha⟩)
    · exact m.apps.brk_not_mem_live hl
    · exact hn ha
  case queryChain =>
    intro a ha
    rcases List.mem_cons.mp ha with rfl | ha
    · rw [hnil]
      simp [Chain.nil]
    · simp only [hcell a ha, hqs a ha]
      exact h.queryChain a ha
  case queryNodup =>
    intro a ha
    rcases List.mem_cons.mp ha with rfl | ha
    · simp [hnil]
    · simp only [hqs a ha]
      exact h.queryNodup a ha
  case queryApp =>
    intro a ha q hq
    rcases List.mem_cons.mp ha with rfl | ha
    · simp [hnil] at hq
    · simp only [hqs a ha] at hq
      exact h.queryApp a ha q hq
  case looseNodup => exact h.looseNodup
  case looseApp =>
    intro q hq
    refine (h.looseApp q hq).imp_left fun ⟨ha, hn⟩ => ⟨List.mem_cons_of_mem _ ha, ?_⟩
    simp only [hqs _ ha]
    exact hn
  case queryLive => exact fun q hq => h.queryLive q ((howned q).mp hq)
  case schedRepr => exact h.schedRepr
  case schedNode => exact fun x hx => (h.schedNode x hx).imp_right (howned _).mpr
  case schedData => exact h.schedData
  case handler =>
    intro a ha q hq
    rcases List.mem_cons.mp ha with rfl | ha
    · simp [hnil] at hq
    · simp only [hqs a ha] at hq
      exact h.handler a ha q hq

/-- What the first piece of `register_query` establishes: the client has an application, and the new
    node is allocated but not yet scheduled. -/
structure NodeRegistered (m : Mem) (S : Shape) (fd : ℕ) (query : AppQuery) (m' : Mem) (S' : Shape)
    (app node : ℕ) : Prop where
  wf : Wf m' S'
  ext : Ext m m'
  live : LiveKept m m'
  others : OtherClientsKept fd m m'
  app_mem : app ∈ S'.apps
  app_fd : (m'.apps.cell app).fd = fd
  loose : S'.loose = S.loose
  detached : S'.detached = S.detached
  schedList : S'.sched = S.sched
  sched : m'.sched = m.sched
  node_live : node ∈ m'.queries.live
  node_eq : node = m.queries.brk
  brk : m'.queries.brk = node + 1
  apps : ∀ a ∈ S'.apps, a ∈ S.apps ∨ (m'.apps.cell a).fd = fd
  cell : m'.queries.cell node = ⟨query, app, none, (S'.queries app).head?⟩
  not_owned : ¬ S'.Owned node
  kept : ∀ q, S'.Owned q → S.Owned q ∧ m'.queries.cell q = m.queries.cell q
  old : (m.registrations fd).getD [] =
    (S'.queries app).map fun q => ((m.queries.cell q).query, m.intervalOf q)

/-- The new node is allocated in an application that is registered. -/
theorem Wf.allocQuery (h : Wf m S) (query : AppQuery) {app : ℕ} (ha : app ∈ S.apps)
    (hfd : (m.apps.cell app).fd = fd) :
    NodeRegistered m S fd query { m with
      queries := (m.queries.alloc ⟨query, app, none, (m.apps.cell app).queries⟩).2 } S app
      m.queries.brk := by
  have hcell : ∀ q, S.Owned q → (m.queries.alloc
      ⟨query, app, none, (m.apps.cell app).queries⟩).2.cell q = m.queries.cell q :=
    fun q hq => m.queries.alloc_cell_of_live _ (h.queryLive q hq)
  have hwf : Wf { m with
      queries := (m.queries.alloc ⟨query, app, none, (m.apps.cell app).queries⟩).2 } S :=
    h.congr rfl (fun a ha => ⟨rfl, h.appLive a ha⟩) (fun a ha => (h.detached a ha).1)
      (fun q hq => ⟨hcell q hq, (m.queries.mem_alloc_live _ _).mpr (.inr (h.queryLive q hq))⟩)
      h.schedRepr fun _ _ => rfl
  refine
    { wf := hwf
      ext := Ext.queries m (Nat.le_succ _) fun q hq => ?_
      live := ⟨subset_rfl, Finset.subset_insert _ _, subset_rfl⟩
      others := ⟨h.othersApps_congr hwf rfl fun a ha _ => ⟨rfl, rfl, fun q hq => ?_⟩,
        h.othersSched_congr hwf (List.filter_congr fun x hx => ?_) fun _ _ _ => rfl⟩
      app_mem := ha
      app_fd := hfd
      loose := rfl
      detached := rfl
      schedList := rfl
      sched := rfl
      node_live := Finset.mem_insert_self _ _
      node_eq := rfl
      brk := rfl
      apps := fun _ => .inl
      cell := ?_
      not_owned := fun ho => m.queries.brk_not_mem_live (h.queryLive _ ho)
      kept := fun q hq => ⟨hq, hcell q hq⟩
      old := ?_ }
  · rw [m.queries.alloc_cell_of_ne _ hq.ne]
    exact ⟨rfl, rfl⟩
  · rw [hcell q (.inl ⟨a, ha, hq⟩)]
    exact ⟨rfl, rfl⟩
  · have := (h.schedNode x hx).2
    unfold ownerFd
    rw [hcell _ this]
  · rw [Heap.alloc_cell_self, (h.queryChain app ha).head]
  · rw [h.registrations_some ha hfd, Option.getD_some]

/-- The first piece of `register_query` does not fail. -/
theorem Wf.registerNode (h : Wf m S) (fd : ℕ) (query : AppQuery) :
    ∃ app node m' S', m.registerNode fd query = some (app, node, m') ∧
      NodeRegistered m S fd query m' S' app node := by
  rcases h.findApp fd with ⟨hf, hnone⟩ | ⟨l₁, a, l₂, hl, ha, hf⟩
  · -- a new application
    have hnew := h.allocApp hnone
    have hext := Ext.apps m (some m.apps.brk) (Nat.le_succ _) fun a ha => congrArg RegApp.fd
      (m.apps.alloc_cell_of_ne ⟨fd, none, m.registeredApplications⟩ ha.ne)
    have hb : m.apps.brk ∉ S.apps := fun hb => m.apps.brk_not_mem_live (h.appLive _ hb)
    have hcell : ∀ a ∈ S.apps, (m.apps.alloc ⟨fd, none, m.registeredApplications⟩).2.cell a =
        m.apps.cell a := fun a ha => m.apps.alloc_cell_of_live _ (h.appLive a ha)
    have hfd : ((m.apps.alloc ⟨fd, none, m.registeredApplications⟩).2.cell m.apps.brk).fd = fd := by
      rw [Heap.alloc_cell_self]
    have hq := hnew.allocQuery query (List.mem_cons_self ..) hfd
    have hothers : OtherClientsKept fd m { m with
        apps := (m.apps.alloc ⟨fd, none, m.registeredApplications⟩).2
        registeredApplications := some m.apps.brk } := by
      refine ⟨h.othersApps_congr hnew ?_ fun a ha _ => ?_, h.othersSched_congr hnew ?_ fun _ _ _ => rfl⟩
      · refine (List.filter_cons_of_neg (by simp)).trans (List.filter_congr fun a ha => ?_)
        simp only [hcell a ha]
      · exact ⟨congrArg RegApp.fd (hcell a ha), Shape.consApp_queries hb ha, fun _ _ => ⟨rfl, rfl⟩⟩
      · refine List.filter_congr fun x hx => ?_
        have hlive := h.appLive_of_owned (h.schedNode x hx).2
        unfold ownerFd
        exact congrArg (fun c => decide (c.fd ≠ fd)) (m.apps.alloc_cell_of_live _ hlive)
    have hlive : LiveKept m { m with
        apps := (m.apps.alloc ⟨fd, none, m.registeredApplications⟩).2
        registeredApplications := some m.apps.brk } :=
      ⟨Finset.subset_insert _ _, subset_rfl, subset_rfl⟩
    refine ⟨m.apps.brk, m.queries.brk, _, S.consApp m.apps.brk, by rw [Mem.registerNode, hf]; rfl, ?_⟩
    exact
      { hq with
        ext := hext.trans hq.ext
        live := hlive.trans hq.live
        others := hothers.trans hq.others
        apps := fun a ha => by
          rcases List.mem_cons.mp ha with rfl | ha
          · exact .inr hfd
          · exact .inl ha
        kept := fun q ho => ⟨(Shape.owned_consApp hb).mp ho, (hq.kept q ho).2⟩
        old := by simp [h.registrations_none hnone, Shape.consApp] }
  · have ham : a ∈ S.apps := by simp [hl]
    exact ⟨a, _, _, S, by rw [Mem.registerNode, hf]; rfl, h.allocQuery query ham ha⟩

/-- The call of `schedule` in `register_query`: a scheduler node for the new query node, which is not
    in the list of its application yet. -/
theorem Wf.schedule (h : Wf m S) (fd : ℕ) {node : ℕ} (hlive : node ∈ m.queries.live) (hno : ¬ S.Owned node)
    (happ : (m.queries.cell node).app ∈ S.apps) (hfd : (m.apps.cell (m.queries.cell node).app).fd = fd)
    (interval : ℤ) (now : Timespec) :
    ∃ signal st' l₁ l₂, Afdx.schedule m.sched .serveSchedulerQuery node interval now =
        some (m.sched.nodes.brk, signal, st') ∧ S.sched = l₁ ++ l₂ ∧
      Wf { m with sched := st' }
        { S with sched := l₁ ++ m.sched.nodes.brk :: l₂, loose := node :: S.loose } ∧
      Ext m { m with sched := st' } ∧ LiveKept m { m with sched := st' } ∧
      OtherClientsKept fd m { m with sched := st' } ∧
      st'.payload m.sched.nodes.brk =
        ⟨msInterval interval, tmIncr now (msInterval interval), .serveSchedulerQuery, node⟩ ∧
      ∀ x ∈ S.sched, st'.payload x = m.sched.payload x := by
  obtain ⟨signal, st', l₁, l₂, heq, hl, -, -, -, hrepr, hnl, hbrk, hnew, hold⟩ :=
    h.schedRepr.scheduleTs .serveSchedulerQuery node (msInterval interval) now
  have hlt : ∀ x ∈ S.sched, x < m.sched.nodes.brk := fun x hx =>
    m.sched.nodes.live_lt x (h.schedRepr.live x hx)
  have hpay : ∀ x ∈ S.sched, st'.payload x = m.sched.payload x := fun x hx => hold x (hlt x hx).ne
  have hmem : ∀ x, x ∈ l₁ ++ m.sched.nodes.brk :: l₂ ↔ x = m.sched.nodes.brk ∨ x ∈ S.sched := by
    intro x
    rw [hl, List.perm_middle.mem_iff, List.mem_cons]
  have howned : ∀ q, Shape.Owned ⟨S.apps, S.queries, l₁ ++ m.sched.nodes.brk :: l₂, node :: S.loose,
      S.detached⟩ q ↔ q = node ∨ S.Owned q := by
    intro q
    simp only [Shape.Owned, List.mem_cons]
    exact or_left_comm
  have hwf : Wf { m with sched := st' }
      { S with sched := l₁ ++ m.sched.nodes.brk :: l₂, loose := node :: S.loose } :=
    { h with
      detached := h.detached
      looseNodup := List.nodup_cons.mpr ⟨fun hl => hno (.inr hl), h.looseNodup⟩
      looseApp := by
        rintro q (_ | ⟨_, hq⟩)
        · exact .inl ⟨happ, fun hq => hno (.inl ⟨_, happ, hq⟩)⟩
        · exact h.looseApp q hq
      queryLive := fun q hq => ((howned q).mp hq).elim (· ▸ hlive) (h.queryLive q)
      schedRepr := hrepr
      schedNode := by
        intro x hx
        rcases (hmem x).mp hx with rfl | hx
        · rw [hnew]
          exact ⟨rfl, (howned _).mpr (.inl rfl)⟩
        · rw [hpay x hx]
          exact (h.schedNode x hx).imp_right fun ho => (howned _).mpr (.inr ho)
      schedData := by
        intro x hx y hy
        have hne : ∀ x ∈ S.sched, (m.sched.payload x).data ≠ node := fun x hx hd =>
          hno (hd ▸ (h.schedNode x hx).2)
        rcases (hmem x).mp hx with rfl | hx <;> rcases (hmem y).mp hy with rfl | hy
        · exact fun _ => rfl
        · rw [hnew, hpay y hy]
          exact fun hd => (hne y hy hd.symm).elim
        · rw [hnew, hpay x hx]
          exact fun hd => (hne x hx hd).elim
        · rw [hpay x hx, hpay y hy]
          exact h.schedData x hx y hy
      handler := by
        intro a ha q hq
        obtain ⟨x, hx, hh, hd⟩ := h.handler a ha q hq
        exact ⟨x, (hmem x).mpr (.inr hx), hh, by rw [hpay x hx, hd]⟩ }
  refine ⟨signal, st', l₁, l₂, heq, hl, hwf, Ext.sched m (by omega) fun x hx => ?_,
    ⟨subset_rfl, subset_rfl, ?_⟩, ⟨h.othersApps_congr hwf rfl fun _ _ _ =>
      ⟨rfl, rfl, fun _ _ => ⟨rfl, rfl⟩⟩, h.othersSched_congr hwf ?_ fun x hx _ => hpay x hx⟩, hnew, hpay⟩
  · rw [hold x hx.ne]
    exact ⟨rfl, rfl, rfl⟩
  · rw [hnl]
    exact Finset.subset_insert _ _
  · rw [hl]
    refine filter_insert_of_not ?_ fun x hx => ?_
    · have ho : Mem.ownerFd { m with sched := st' } m.sched.nodes.brk = fd := by
        rw [ownerFd, hnew]
        exact hfd
      simp [ho]
    · have ho : Mem.ownerFd { m with sched := st' } x = m.ownerFd x := by
        rw [ownerFd, hpay x (hl ▸ hx), ownerFd]
      rw [ho]

/-- A change of the list of `app` and of the loose nodes that leaves the other lists alone. -/
theorem Wf.rewire (h : Wf m S) {app : ℕ} {l loose : List ℕ} (apps : Heap RegApp)
    (queries : Heap RegQueryNode) (ha : app ∈ S.apps) (hfd : (m.apps.cell app).fd = fd)
    (hmem : ∀ q, q ∈ l ∨ q ∈ loose ↔ q ∈ S.queries app ∨ q ∈ S.loose)
    (hl : l.Nodup) (hloose : loose.Nodup) (hdisj : ∀ q ∈ loose, q ∉ l)
    (hown : ∀ q ∈ S.loose, (m.queries.cell q).app = app)
    (happs : ∀ a, (apps.cell a).fd = (m.apps.cell a).fd ∧ (apps.cell a).next = (m.apps.cell a).next ∧
      (a ≠ app → (apps.cell a).queries = (m.apps.cell a).queries))
    (hal : apps.live = m.apps.live)
    (hqs : ∀ q, (queries.cell q).query = (m.queries.cell q).query ∧
      (queries.cell q).app = (m.queries.cell q).app)
    (hql : queries.live = m.queries.live)
    (hsame : ∀ q, q ∉ S.queries app → q ∉ S.loose → queries.cell q = m.queries.cell q)
    (hchain : Chain (fun q => (queries.cell q).next) (apps.cell app).queries l)
    (hhandler : ∀ q ∈ l, ∃ x ∈ S.sched,
      (queries.cell q).handler = some x ∧ (m.sched.payload x).data = q) :
    Wf { m with apps := apps, queries := queries } (S.setQueries app l loose) ∧
      OtherClientsKept fd m { m with apps := apps, queries := queries } := by
  have hother : ∀ a ∈ S.apps, a ≠ app → ∀ q ∈ S.queries a, queries.cell q = m.queries.cell q := by
    intro a haS hne q hq
    refine hsame q (fun hq' => hne ?_) (h.not_loose haS hq)
    exact (h.queryApp a haS q hq).symm.trans (h.queryApp app ha q hq')
  have happ : ∀ q, q ∈ l ∨ q ∈ loose → (m.queries.cell q).app = app := fun q hq =>
    ((hmem q).mp hq).elim (h.queryApp app ha q) (hown q)
  have hwf : Wf { m with apps := apps, queries := queries } (S.setQueries app l loose) := by
    constructor
    case appChain => exact h.appChain.congr fun a _ => (happs a).2.1
    case appNodup => exact h.appNodup
    case appLive => exact fun a ha => hal.symm ▸ h.appLive a ha
    case appFd =>
      intro a ha b hb
      rw [(happs a).1, (happs b).1]
      exact h.appFd a ha b hb
    case detached => exact fun a ha => (h.detached a ha).imp_left (hal.symm ▸ ·)
    case queryChain =>
      intro a haS
      by_cases haa : a = app
      · rw [haa, Shape.setQueries_queries_self]
        exact hchain
      · rw [Shape.setQueries_queries_of_ne haa, (happs a).2.2 haa]
        exact (h.queryChain a haS).congr fun q hq => by rw [hother a haS haa q hq]
    case queryNodup =>
      intro a haS
      by_cases haa : a = app
      · rwa [haa, Shape.setQueries_queries_self]
      · rw [Shape.setQueries_queries_of_ne haa]
        exact h.queryNodup a haS
    case queryApp =>
      intro a haS q hq
      rw [(hqs q).2]
      by_cases haa : a = app
      · rw [haa, Shape.setQueries_queries_self] at hq
        rw [haa, happ q (.inl hq)]
      · rw [Shape.setQueries_queries_of_ne haa] at hq
        exact h.queryApp a haS q hq
    case looseNodup => exact hloose
    case looseApp =>
      intro q hq
      rw [(hqs q).2, happ q (.inr hq), Shape.setQueries_queries_self]
      exact .inl ⟨ha, hdisj q hq⟩
    case queryLive => exact fun q hq => hql.symm ▸ h.queryLive q ((Shape.owned_setQueries ha hmem).mp hq)
    case schedRepr => exact h.schedRepr
    case schedNode =>
      exact fun x hx => (h.schedNode x hx).imp_right (Shape.owned_setQueries ha hmem).mpr
    case schedData => exact h.schedData
    case handler =>
      intro a haS q hq
      by_cases haa : a = app
      · rw [haa, Shape.setQueries_queries_self] at hq
        exact hhandler q hq
      · rw [Shape.setQueries_queries_of_ne haa] at hq
        rw [hother a haS haa q hq]
        exact h.handler a haS q hq
  refine ⟨hwf, h.othersApps_congr hwf ?_ fun a haS hne => ?_, h.othersSched_congr hwf ?_ fun _ _ _ => rfl⟩
  · refine List.filter_congr fun a _ => ?_
    rw [(happs a).1]
  · have haa : a ≠ app := fun haa => hne (haa ▸ hfd)
    refine ⟨(happs a).1, Shape.setQueries_queries_of_ne haa, fun q hq => ?_⟩
    rw [hother a haS haa q hq]
    exact ⟨rfl, rfl⟩
  · refine List.filter_congr fun x _ => ?_
    have ho : Mem.ownerFd { m with apps := apps, queries := queries } x = m.ownerFd x := by
      simp only [ownerFd, (hqs _).2, (happs _).1]
    rw [ho]

/-- The last piece of `register_query`: the scheduled node goes to the front of the list of its
    application. -/
theorem Wf.storeHandler (h : Wf m S) {app : ℕ} (node x : ℕ) (ha : app ∈ S.apps)
    (hfd : (m.apps.cell app).fd = fd) (hl : S.loose = [node])
    (happ : (m.queries.cell node).app = app) (hnext : (m.queries.cell node).next = (S.queries app).head?)
    (hx : x ∈ S.sched) (hd : (m.sched.payload x).data = node) :
    Wf (m.storeHandler app node x) (S.setQueries app (node :: S.queries app) []) ∧
      OtherClientsKept fd m (m.storeHandler app node x) := by
  have hnode : node ∈ S.loose := by simp [hl]
  have hno : node ∉ S.queries app := fun hq => h.not_loose ha hq hnode
  have hcell : ∀ q, q ≠ node → (m.queries.modify node
      fun c => { c with handler := some x }).cell q = m.queries.cell q :=
    fun q hq => m.queries.modify_cell_of_ne _ _ hq
  refine h.rewire _ _ ha hfd (fun q => ?_) (List.nodup_cons.mpr ⟨hno, h.queryNodup app ha⟩) List.nodup_nil
    (by simp) (fun q hq => ?_) (fun a => ?_) rfl (fun q => ?_) rfl (fun q _ hq => ?_) ?_ fun q hq => ?_
  · simp [hl, or_comm]
  · obtain rfl : q = node := by simpa [hl] using hq
    exact happ
  · rw [Heap.modify_cell]
    split_ifs with haa
    · exact ⟨rfl, rfl, fun hn => (hn haa).elim⟩
    · exact ⟨rfl, rfl, fun _ => rfl⟩
  · rw [Heap.modify_cell]
    split_ifs <;> exact ⟨rfl, rfl⟩
  · exact hcell q fun hqn => hq (hqn ▸ hnode)
  · rw [Heap.modify_cell_self]
    refine Chain.cons (p := (S.queries app).head?) ⟨rfl, ?_⟩ ?_
    · refine (h.queryChain app ha).linked.congr fun q hq => ?_
      rw [hcell q fun hqn => hno (hqn ▸ hq)]
    · rw [Heap.modify_cell_self]
      exact hnext
  · rcases List.mem_cons.mp hq with rfl | hq
    · exact ⟨x, hx, by rw [Heap.modify_cell_self], hd⟩
    · rw [hcell q fun hqn => hno (hqn ▸ hq)]
      exact h.handler app ha q hq

theorem ext_storeHandler (m : Mem) (app node x : ℕ) :
    Ext m (m.storeHandler app node x) ∧ LiveKept m (m.storeHandler app node x) := by
  refine ⟨⟨le_rfl, le_rfl, le_rfl, fun a _ => ?_, fun q _ => ?_, fun _ _ => ⟨rfl, rfl, rfl⟩⟩,
    ⟨subset_rfl, subset_rfl, subset_rfl⟩⟩
  · simp only [Mem.storeHandler, Heap.modify_cell]
    split_ifs <;> rfl
  · simp only [Mem.storeHandler, Heap.modify_cell]
    split_ifs <;> exact ⟨rfl, rfl⟩

/-! ## `unregister_query` -/

/-- The query node `q`, the first one of the client `fd` with the request id, is taken out of the list of
    its application `a`. -/
structure QueryUnchained (m : Mem) (S : Shape) (fd : ℕ) (reqId : UInt32) (m' : Mem) (a : ℕ)
    (l₁ : List ℕ) (q : ℕ) (l₂ : List ℕ) : Prop where
  app_mem : a ∈ S.apps
  app_fd : (m.apps.cell a).fd = fd
  queries : S.queries a = l₁ ++ q :: l₂
  reqId_eq : (m.queries.cell q).query.reqId = reqId
  before : ∀ q ∈ l₁, (m.queries.cell q).query.reqId ≠ reqId
  wf : Wf m' (S.setQueries a (l₁ ++ l₂) [q])
  ext : Ext m m'
  live : LiveKept m m'
  others : OtherClientsKept fd m m'
  sched : m'.sched = m.sched
  brk : m'.queries.brk = m.queries.brk
  fd_eq : ∀ a, (m'.apps.cell a).fd = (m.apps.cell a).fd
  cell : ∀ q, (m'.queries.cell q).query = (m.queries.cell q).query ∧
    (m'.queries.cell q).app = (m.queries.cell q).app ∧
    (m'.queries.cell q).handler = (m.queries.cell q).handler

/-- The first piece of `unregister_query` unchains the first node with the request id, if there is
    one. -/
theorem Wf.unchainQuery (h : Wf m S) (hloose : S.loose = []) (fd : ℕ) (reqId : UInt32) :
    (m.unchainQuery fd reqId = some (none, m) ∧ ∀ a ∈ S.apps, (m.apps.cell a).fd = fd →
        ∀ q ∈ S.queries a, (m.queries.cell q).query.reqId ≠ reqId) ∨
      ∃ a l₁ q l₂ m', m.unchainQuery fd reqId = some (some q, m') ∧
        QueryUnchained m S fd reqId m' a l₁ q l₂ := by
  rcases h.findApp fd with ⟨hf, hnone⟩ | ⟨_, a, _, hl, hfd, hf⟩
  · refine .inl ⟨by simp [Mem.unchainQuery, hf], fun a ha hfd => (hnone a ha hfd).elim⟩
  have ha : a ∈ S.apps := by simp [hl]
  rcases h.findQuery ha reqId with ⟨hq, hnone⟩ | ⟨l₁, q, l₂, hql, hreq, hbefore, hq⟩
  · refine .inl ⟨by simp [Mem.unchainQuery, hf, hq], fun b hb hfd' => ?_⟩
    obtain rfl := h.appFd a ha b hb (hfd.trans hfd'.symm)
    exact hnone
  refine .inr ⟨a, l₁, q, l₂, ?_⟩
  have hnd := h.queryNodup a ha
  rw [hql] at hnd
  obtain ⟨hqn, hnd'⟩ := List.nodup_cons.mp (List.nodup_middle.mp hnd)
  have hmem : ∀ q', q' ∈ l₁ ++ l₂ ∨ q' ∈ [q] ↔ q' ∈ S.queries a ∨ q' ∈ S.loose := by
    intro q'
    simp only [hql, hloose, List.mem_append, List.mem_cons, List.not_mem_nil, or_false]
    grind
  have hdisj : ∀ q' ∈ [q], q' ∉ l₁ ++ l₂ := by simpa using hqn
  have hlinked := (h.queryChain a ha).linked
  rw [hql] at hlinked
  have hhead := (h.queryChain a ha).head
  have hnext : (m.queries.cell q).next = l₂.head? := hlinked.tail.head
  have hhandler : ∀ q' ∈ l₁ ++ l₂, ∃ x ∈ S.sched,
      (m.queries.cell q').handler = some x ∧ (m.sched.payload x).data = q' := fun q' hq' =>
    h.handler a ha q' (by rw [hql, List.perm_middle.mem_iff]; exact List.mem_cons_of_mem _ hq')
  cases hl₁ : l₁.getLast? with
  | none =>
    obtain rfl := List.getLast?_eq_none_iff.mp hl₁
    rw [List.nil_append] at hmem hdisj hhandler hnd'
    have hcell : ∀ b, ((m.apps.modify a fun c => { c with queries := (m.queries.cell q).next }).cell b).fd
        = (m.apps.cell b).fd := fun b => by
      rw [Heap.modify_cell]
      split_ifs <;> rfl
    obtain ⟨hwf, ho⟩ := h.rewire
      (m.apps.modify a fun c => { c with queries := (m.queries.cell q).next }) m.queries ha hfd hmem hnd'
      (List.nodup_singleton q) hdisj (by simp [hloose])
      (fun b => by
        rw [Heap.modify_cell]
        split_ifs with hb
        · exact ⟨rfl, rfl, fun hn => (hn hb).elim⟩
        · exact ⟨rfl, rfl, fun _ => rfl⟩)
      rfl (fun _ => ⟨rfl, rfl⟩) rfl (fun _ _ _ => rfl)
      (by rw [Heap.modify_cell_self, hnext]; exact ⟨rfl, hlinked.2⟩) hhandler
    exact ⟨_, by simp [Mem.unchainQuery, hf, hq], {
      app_mem := ha
      app_fd := hfd
      queries := hql
      reqId_eq := hreq
      before := hbefore
      wf := hwf
      ext := Ext.apps m _ le_rfl fun b _ => hcell b
      live := ⟨subset_rfl, subset_rfl, subset_rfl⟩
      others := ho
      sched := rfl
      brk := rfl
      fd_eq := hcell
      cell := fun _ => ⟨rfl, rfl, rfl⟩ }⟩
  | some prev =>
    have hcell : ∀ q', ((m.queries.modify prev fun c =>
        { c with next := (m.queries.cell q).next }).cell q').query = (m.queries.cell q').query ∧
        ((m.queries.modify prev fun c => { c with next := (m.queries.cell q).next }).cell q').app =
          (m.queries.cell q').app ∧
        ((m.queries.modify prev fun c => { c with next := (m.queries.cell q).next }).cell q').handler =
          (m.queries.cell q').handler := fun q' => by
      rw [Heap.modify_cell]
      split_ifs <;> exact ⟨rfl, rfl, rfl⟩
    have hprev : prev ∈ l₁ := List.mem_of_getLast? hl₁
    obtain ⟨hwf, ho⟩ := h.rewire m.apps
      (m.queries.modify prev fun c => { c with next := (m.queries.cell q).next }) ha hfd hmem
      hnd' (List.nodup_singleton q) hdisj (by simp [hloose]) (fun _ => ⟨rfl, rfl, fun _ => rfl⟩) rfl
      (fun q' => ⟨(hcell q').1, (hcell q').2.1⟩) rfl
      (fun q' hn _ => m.queries.modify_cell_of_ne _ _ fun hqp => hn (by simp [hql, hqp, hprev]))
      (by
        refine ⟨hhead.trans ?_, hlinked.remove hnd (fun y hy => ?_) fun y _ hy => ?_⟩
        · rw [hql]
          cases l₁ with
          | nil => simp at hl₁
          | cons b _ => rfl
        · obtain rfl : prev = y := Option.some.inj (hl₁.symm.trans hy)
          rw [Heap.modify_cell_self]
        · rw [Heap.modify_cell_of_ne _ _ _ (by rintro rfl; exact hy hl₁)])
      (fun q' hq' => by rw [(hcell q').2.2]; exact hhandler q' hq')
    exact ⟨_, by simp [Mem.unchainQuery, hf, hq, hl₁], {
      app_mem := ha
      app_fd := hfd
      queries := hql
      reqId_eq := hreq
      before := hbefore
      wf := hwf
      ext := Ext.queries m le_rfl fun q' _ => ⟨(hcell q').1, (hcell q').2.1⟩
      live := ⟨subset_rfl, subset_rfl, subset_rfl⟩
      others := ho
      sched := rfl
      brk := rfl
      fd_eq := fun _ => rfl
      cell := hcell }⟩

/-! ## `unschedule` and `free` -/

/-- A loose query node is in no list of a registered application. -/
theorem Wf.not_owned_of_loose (h : Wf m S) {q : ℕ} {rest : List ℕ} (hl : S.loose = q :: rest)
    {sched : List ℕ} : ¬ Shape.Owned ⟨S.apps, S.queries, sched, rest, S.detached⟩ q := by
  rintro (⟨a, ha, hq⟩ | hq)
  · exact h.not_loose ha hq (by simp [hl])
  · exact (List.nodup_cons.mp (hl ▸ h.looseNodup)).1 hq

/-- `unschedule` in the critical section: the scheduler node of a loose query leaves the list. -/
theorem Wf.removeNode (h : Wf m S) (q x : ℕ) (rest : List ℕ) (hl : S.loose = q :: rest)
    (hx : x ∈ S.sched) (hd : (m.sched.payload x).data = q) (hfd : m.ownerFd x = fd) :
    ∃ l₁ l₂, S.sched = l₁ ++ x :: l₂ ∧
      Wf { m with sched := Afdx.removeNode m.sched x } { S with sched := l₁ ++ l₂, loose := rest } ∧
      Sched.SameNodes m.sched (Afdx.removeNode m.sched x) ∧
      OtherClientsKept fd m { m with sched := Afdx.removeNode m.sched x } := by
  obtain ⟨l₁, l₂, hs⟩ := List.append_of_mem hx
  obtain ⟨hrepr, hsame⟩ := (hs ▸ h.schedRepr).removeNode
  have hpay := hsame.payload
  obtain ⟨hxn, -⟩ := List.nodup_cons.mp (List.nodup_middle.mp (hs ▸ h.schedRepr.nodup))
  have hmem : ∀ y, y ∈ l₁ ++ l₂ → y ∈ S.sched ∧ y ≠ x := fun y hy =>
    ⟨by rw [hs, List.perm_middle.mem_iff]; exact List.mem_cons_of_mem _ hy,
      ne_of_mem_of_not_mem hy hxn⟩
  have hmem' : ∀ y ∈ S.sched, y ≠ x → y ∈ l₁ ++ l₂ := fun y hy hne =>
    (List.mem_cons.mp (List.perm_middle.mem_iff.mp (hs ▸ hy))).resolve_left hne
  have howned : ∀ q', S.Owned q' → q' ≠ q →
      Shape.Owned ⟨S.apps, S.queries, l₁ ++ l₂, rest, S.detached⟩ q' := fun q' ho hne =>
    ho.imp_right fun hq' => (List.mem_cons.mp (hl ▸ hq')).resolve_left hne
  have hwf : Wf { m with sched := Afdx.removeNode m.sched x }
      { S with sched := l₁ ++ l₂, loose := rest } :=
    { h with
      detached := h.detached
      looseNodup := (List.nodup_cons.mp (hl ▸ h.looseNodup)).2
      looseApp := fun q' hq' => h.looseApp q' (hl ▸ List.mem_cons_of_mem _ hq')
      queryLive := fun q' hq' => h.queryLive q'
        (hq'.imp_right fun hq' => hl ▸ List.mem_cons_of_mem _ hq')
      schedRepr := hrepr
      schedNode := by
        intro y hy
        obtain ⟨hyS, hyx⟩ := hmem y hy
        rw [hpay]
        refine (h.schedNode y hyS).imp_right fun ho => howned _ ho fun hyq => ?_
        exact hyx (h.schedData y hyS x hx (hyq.trans hd.symm))
      schedData := by
        intro y hy z hz
        rw [hpay, hpay]
        exact h.schedData y (hmem y hy).1 z (hmem z hz).1
      handler := by
        intro a ha q' hq'
        obtain ⟨y, hy, hh, hd'⟩ := h.handler a ha q' hq'
        refine ⟨y, hmem' y hy ?_, hh, by rw [hpay]; exact hd'⟩
        rintro rfl
        exact h.not_loose ha hq' (by rw [hl, ← hd'.symm.trans hd]; exact List.mem_cons_self ..) }
  have hown : ∀ y, Mem.ownerFd { m with sched := Afdx.removeNode m.sched x } y = m.ownerFd y := fun y => by
    rw [ownerFd, hpay, ownerFd]
  refine ⟨l₁, l₂, hs, hwf, hsame, h.othersApps_congr hwf rfl fun _ _ _ => ⟨rfl, rfl, fun _ _ => ⟨rfl, rfl⟩⟩,
    h.othersSched_congr hwf ?_ fun y _ _ => hpay y⟩
  rw [hs]
  refine (filter_insert_of_not (by simp [hfd]) fun y _ => ?_).symm
  rw [hown]

/-- `free` of a scheduler node that is not in the list. -/
theorem Wf.freeNode (h : Wf m S) {x : ℕ} (hx : x ∉ S.sched) :
    Wf { m with sched := { m.sched with nodes := m.sched.nodes.free x } } S :=
  h.congr rfl (fun a ha => ⟨rfl, h.appLive a ha⟩) (fun a ha => (h.detached a ha).1)
    (fun q hq => ⟨rfl, h.queryLive q hq⟩)
    (h.schedRepr.congr rfl rfl (fun _ _ => ⟨rfl, rfl⟩) fun y hy =>
      (Heap.mem_free_live _ x y).mpr ⟨ne_of_mem_of_not_mem hy hx, h.schedRepr.live y hy⟩)
    fun _ _ => rfl

/-- `free` of a query node that is not scheduled. -/
theorem Wf.freeQuery (h : Wf m S) {q : ℕ} (hq : ¬ S.Owned q) : Wf (m.freeQuery q) S :=
  h.congr rfl (fun a ha => ⟨rfl, h.appLive a ha⟩) (fun a ha => (h.detached a ha).1)
    (fun q' hq' => ⟨rfl, (Heap.mem_free_live _ q q').mpr ⟨fun hqq => hq (hqq ▸ hq'), h.queryLive q' hq'⟩⟩)
    h.schedRepr fun _ _ => rfl

/-- `free` of an application that is unchained and has no scheduled query left. -/
theorem Wf.freeApp (h : Wf m S) {a : ℕ} (hd : S.detached = [a]) (hl : S.loose = []) :
    Wf (m.freeApp a) { S with detached := [] } := by
  have ha : a ∉ S.apps := (h.detached a (by simp [hd])).2
  have hwf : Wf m { S with detached := [] } :=
    { h with
      detached := by simp
      looseApp := by simp [hl] }
  refine hwf.congr rfl (fun b hb => ⟨rfl, ?_⟩) (by simp) (fun q hq => ⟨rfl, h.queryLive q hq⟩)
    h.schedRepr fun _ _ => rfl
  exact (Heap.mem_free_live _ a b).mpr ⟨ne_of_mem_of_not_mem hb ha, h.appLive b hb⟩

/-- The views of the clients do not look at what is live. -/
theorem otherClientsKept_free (m : Mem) (x q a : ℕ) :
    OtherClientsKept fd m { m with sched := { m.sched with nodes := m.sched.nodes.free x } } ∧
      OtherClientsKept fd m (m.freeQuery q) ∧ OtherClientsKept fd m (m.freeApp a) :=
  ⟨⟨rfl, rfl⟩, ⟨rfl, rfl⟩, ⟨rfl, rfl⟩⟩

/-! ## `unregister_application` -/

/-- The application `a` of the client `fd` is taken out of the list; all its queries are loose. -/
structure AppUnchained (m : Mem) (S : Shape) (fd : ℕ) (m' : Mem) (l₁ : List ℕ) (a : ℕ) (l₂ : List ℕ) :
    Prop where
  apps : S.apps = l₁ ++ a :: l₂
  app_fd : (m.apps.cell a).fd = fd
  wf : Wf m' { S with apps := l₁ ++ l₂, loose := S.queries a, detached := [a] }
  ext : Ext m m'
  live : LiveKept m m'
  others : OtherClientsKept fd m m'
  sched : m'.sched = m.sched
  queries : m'.queries = m.queries
  fd_eq : ∀ b, (m'.apps.cell b).fd = (m.apps.cell b).fd
  chain : Chain (fun q => (m'.queries.cell q).next) (m'.apps.cell a).queries (S.queries a)

/-- An application leaves the list and its queries become loose, however the list is changed for it. -/
theorem Wf.detachApp (h : Wf m S) (m' : Mem) (hloose : S.loose = []) {l₁ l₂ : List ℕ} {a : ℕ}
    (hl : S.apps = l₁ ++ a :: l₂) (hfd : (m.apps.cell a).fd = fd) (hal : m'.apps.live = m.apps.live)
    (hab : m'.apps.brk = m.apps.brk) (hq : m'.queries = m.queries) (hs : m'.sched = m.sched)
    (hc : ∀ b, (m'.apps.cell b).fd = (m.apps.cell b).fd ∧
      (m'.apps.cell b).queries = (m.apps.cell b).queries)
    (hchain : Chain (fun b => (m'.apps.cell b).next) m'.registeredApplications (l₁ ++ l₂)) :
    AppUnchained m S fd m' l₁ a l₂ := by
  have ha : a ∈ S.apps := by simp [hl]
  have hnd := h.appNodup
  rw [hl] at hnd
  obtain ⟨han, hnd'⟩ := List.nodup_cons.mp (List.nodup_middle.mp hnd)
  have hmem : ∀ b ∈ l₁ ++ l₂, b ∈ S.apps ∧ b ≠ a := fun b hb =>
    ⟨by rw [hl, List.perm_middle.mem_iff]; exact List.mem_cons_of_mem _ hb, ne_of_mem_of_not_mem hb han⟩
  have hmem' : ∀ b ∈ S.apps, b = a ∨ b ∈ l₁ ++ l₂ := fun b hb =>
    List.mem_cons.mp (List.perm_middle.mem_iff.mp (hl ▸ hb))
  have howned : ∀ q, Shape.Owned ⟨l₁ ++ l₂, S.queries, S.sched, S.queries a, [a]⟩ q ↔ S.Owned q := by
    intro q
    constructor
    · rintro (⟨b, hb, hq⟩ | hq)
      · exact .inl ⟨b, (hmem b hb).1, hq⟩
      · exact .inl ⟨a, ha, hq⟩
    · rintro (⟨b, hb, hq⟩ | hq)
      · rcases hmem' b hb with rfl | hb
        · exact .inr hq
        · exact .inl ⟨b, hb, hq⟩
      · simp [hloose] at hq
  have hwf : Wf m' { S with apps := l₁ ++ l₂, loose := S.queries a, detached := [a] } := by
    constructor
    case appChain => exact hchain
    case appNodup => exact hnd'
    case appLive => exact fun b hb => hal.symm ▸ h.appLive b (hmem b hb).1
    case appFd =>
      intro b hb c hc'
      rw [(hc b).1, (hc c).1]
      exact h.appFd b (hmem b hb).1 c (hmem c hc').1
    case detached =>
      intro b hb
      obtain rfl : b = a := by simpa using hb
      exact ⟨hal.symm ▸ h.appLive b ha, han⟩
    case queryChain =>
      intro b hb
      rw [(hc b).2, hq]
      exact h.queryChain b (hmem b hb).1
    case queryNodup => exact fun b hb => h.queryNodup b (hmem b hb).1
    case queryApp =>
      intro b hb q hqb
      rw [hq]
      exact h.queryApp b (hmem b hb).1 q hqb
    case looseNodup => exact h.queryNodup a ha
    case looseApp =>
      intro q hqa
      rw [hq, h.queryApp a ha q hqa]
      exact .inr (List.mem_singleton_self a)
    case queryLive => exact fun q hqo => hq.symm ▸ h.queryLive q ((howned q).mp hqo)
    case schedRepr => exact hs.symm ▸ h.schedRepr
    case schedNode =>
      intro x hx
      rw [hs]
      exact (h.schedNode x hx).imp_right (howned _).mpr
    case schedData =>
      rw [hs]
      exact h.schedData
    case handler =>
      intro b hb q hqb
      rw [hq, hs]
      exact h.handler b (hmem b hb).1 q hqb
  have hown : ∀ x, m'.ownerFd x = m.ownerFd x := fun x => by
    simp only [ownerFd, hs, hq, (hc _).1]
  have hext : Ext m m' := by
    refine ⟨hab.ge, hq ▸ le_rfl, hs ▸ le_rfl, fun b _ => (hc b).1, fun q _ => ?_, fun x _ => ?_⟩
    · rw [hq]
      exact ⟨rfl, rfl⟩
    · rw [hs]
      exact ⟨rfl, rfl, rfl⟩
  have hothers : OtherClientsKept fd m m' := by
    refine ⟨h.othersApps_congr hwf ?_ fun b _ _ => ⟨(hc b).1, rfl, ?_⟩,
      h.othersSched_congr hwf ?_ fun x _ _ => by rw [hs]⟩
    · rw [hl]
      refine (filter_insert_of_not (by simp [hfd]) fun b _ => ?_).symm
      rw [(hc b).1]
    · rw [hq]
      exact fun _ _ => ⟨rfl, rfl⟩
    · exact List.filter_congr fun x _ => by rw [hown]
  exact
    { apps := hl
      app_fd := hfd
      wf := hwf
      ext := hext
      live := ⟨hal.ge, hq ▸ subset_rfl, hs ▸ subset_rfl⟩
      others := hothers
      sched := hs
      queries := hq
      fd_eq := fun b => (hc b).1
      chain := by
        rw [(hc a).2, hq]
        exact h.queryChain a ha }

/-- The first piece of `unregister_application` unchains the application of `fd`, if there is one. All
    its queries are loose afterwards. -/
theorem Wf.unchainApp (h : Wf m S) (hloose : S.loose = []) (fd : ℕ) :
    (m.unchainApp fd = some (none, m) ∧ ∀ a ∈ S.apps, (m.apps.cell a).fd ≠ fd) ∨
      ∃ l₁ a l₂ m', m.unchainApp fd = some (some a, m') ∧ AppUnchained m S fd m' l₁ a l₂ := by
  rcases h.findApp fd with ⟨hf, hnone⟩ | ⟨l₁, a, l₂, hl, hfd, hf⟩
  · exact .inl ⟨by simp [Mem.unchainApp, hf], hnone⟩
  refine .inr ⟨l₁, a, l₂, ?_⟩
  have hnd := h.appNodup
  rw [hl] at hnd
  have hlinked := h.appChain.linked
  rw [hl] at hlinked
  have hhead := h.appChain.head
  rw [hl] at hhead
  have hnext : (m.apps.cell a).next = l₂.head? := hlinked.tail.head
  cases hl₁ : l₁.getLast? with
  | none =>
    obtain rfl := List.getLast?_eq_none_iff.mp hl₁
    have hchain : Chain (fun b => (m.apps.cell b).next) (m.apps.cell a).next ([] ++ l₂) :=
      ⟨hnext, hlinked.2⟩
    exact ⟨_, by simp [Mem.unchainApp, hf], h.detachApp
      { m with registeredApplications := (m.apps.cell a).next } hloose hl hfd rfl rfl rfl rfl
      (fun _ => ⟨rfl, rfl⟩) hchain⟩
  | some prev =>
    have hc : ∀ b, ((m.apps.modify prev fun c => { c with next := (m.apps.cell a).next }).cell b).fd =
        (m.apps.cell b).fd ∧
        ((m.apps.modify prev fun c => { c with next := (m.apps.cell a).next }).cell b).queries =
          (m.apps.cell b).queries := fun b => by
      rw [Heap.modify_cell]
      split_ifs <;> exact ⟨rfl, rfl⟩
    have hchain : Chain (fun b => ((m.apps.modify prev
        fun c => { c with next := (m.apps.cell a).next }).cell b).next)
        m.registeredApplications (l₁ ++ l₂) := by
      refine ⟨hhead.trans ?_, hlinked.remove hnd (fun y hy => ?_) fun y _ hy => ?_⟩
      · cases l₁ with
        | nil => simp at hl₁
        | cons b _ => rfl
      · obtain rfl : prev = y := Option.some.inj (hl₁.symm.trans hy)
        rw [Heap.modify_cell_self]
      · rw [Heap.modify_cell_of_ne _ _ _ (by rintro rfl; exact hy hl₁)]
    exact ⟨_, by simp [Mem.unchainApp, hf, hl₁], h.detachApp
      { m with apps := m.apps.modify prev fun c => { c with next := (m.apps.cell a).next } } hloose hl hfd
      rfl rfl rfl rfl hc hchain⟩

/-! ## Re-arming -/

/-- One pass of the scheduler moves the first node, if it is due, and sets its time. -/
theorem Wf.rearmFirst (h : Wf m S) (now : Timespec) :
    (Afdx.rearmFirst m.sched now = some (none, m.sched) ∧
        ∀ x ∈ S.sched.head?, tmGe now (m.sched.payload x).nextTime = false) ∨
      ∃ x l l₁ l₂ st', S.sched = x :: l ∧ l = l₁ ++ l₂ ∧
        Afdx.rearmFirst m.sched now = some (some x, st') ∧
        tmGe now (m.sched.payload x).nextTime = true ∧
        Wf { m with sched := st' } { S with sched := l₁ ++ x :: l₂ } ∧
        Ext m { m with sched := st' } ∧ LiveKept m { m with sched := st' } ∧
        st'.payload x = { m.sched.payload x with
          nextTime := rearmedTime now (m.sched.nodes.cell x) } ∧
        ∀ y, y ≠ x → st'.payload y = m.sched.payload y := by
  cases hl : S.sched with
  | nil =>
    exact .inl ⟨(hl ▸ h.schedRepr).rearmFirst_none now (by simp), by simp⟩
  | cons x l =>
    have hrepr := hl ▸ h.schedRepr
    cases hdue : tmGe now (m.sched.payload x).nextTime with
    | false =>
      have hnone : ∀ y ∈ (x :: l).head?, tmGe now (m.sched.payload y).nextTime = false := by
        intro y hy
        obtain rfl : x = y := Option.some.inj hy
        exact hdue
      exact .inl ⟨hrepr.rearmFirst_none now hnone, hnone⟩
    | true =>
      obtain ⟨st', l₁, l₂, heq, hre⟩ := hrepr.rearmFirst_some now hdue
      have hstatic : ∀ y, (st'.payload y).action = (m.sched.payload y).action ∧
          (st'.payload y).data = (m.sched.payload y).data ∧
          (st'.payload y).interval = (m.sched.payload y).interval := fun y => by
        by_cases hy : y = x
        · rw [hy, hre.self]
          exact ⟨rfl, rfl, rfl⟩
        · rw [hre.others y hy]
          exact ⟨rfl, rfl, rfl⟩
      have hmem : ∀ y, y ∈ l₁ ++ x :: l₂ ↔ y ∈ S.sched := fun y => by
        rw [hl, hre.split, List.perm_middle.mem_iff]
      refine .inr ⟨x, l, l₁, l₂, st', rfl, hre.split, heq, hdue, ?_, Ext.sched m hre.brk.ge fun y _ => hstatic y,
        ⟨subset_rfl, subset_rfl, hre.live.ge⟩, hre.self, hre.others⟩
      exact
        { h with
          detached := h.detached
          schedRepr := hre.repr
          schedNode := fun y hy => by
            rw [(hstatic y).1, (hstatic y).2.1]
            exact h.schedNode y ((hmem y).mp hy)
          schedData := fun y hy z hz => by
            rw [(hstatic y).2.1, (hstatic z).2.1]
            exact h.schedData y ((hmem y).mp hy) z ((hmem z).mp hz)
          handler := fun a ha q hq => by
            obtain ⟨y, hy, hh, hd⟩ := h.handler a ha q hq
            exact ⟨y, (hmem y).mpr hy, hh, by rw [(hstatic y).2.1]; exact hd⟩ }

end Mem

end Afdx
