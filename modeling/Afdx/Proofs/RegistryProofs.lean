import Afdx.Lib.Lts
import Afdx.Proofs.RegistrationProofs

/-!
# The registry refines a map from clients to lists of queries

The pieces of `RegistrationProofs` put together to whole operations, and the operations to runs.
-/

namespace Afdx

open Links

namespace Mem

variable {m m' : Mem} {S S' : Shape} {fd fd' : ℕ}

/-- Between two operations nothing is loose or detached. -/
structure Settled (m : Mem) (S : Shape) : Prop where
  wf : Wf m S
  loose : S.loose = []
  detached : S.detached = []

theorem settled_init : Settled .init .init := ⟨wf_init, rfl, rfl⟩

/-! ## What a settled memory looks like -/

/-- The interval of a registered query is that of its handler. -/
theorem Wf.intervalOf (h : Wf m S) {a q : ℕ} (ha : a ∈ S.apps) (hq : q ∈ S.queries a) :
    ∃ x ∈ S.sched, (m.queries.cell q).handler = some x ∧ (m.sched.payload x).data = q ∧
      m.intervalOf q = some (m.sched.payload x).interval := by
  obtain ⟨x, hx, hh, hd⟩ := h.handler a ha q hq
  exact ⟨x, hx, hh, hd, by rw [Mem.intervalOf, hh, Option.map_some]⟩

theorem Settled.queryNodes_eq (h : Settled m S) : m.queryNodes = S.apps.flatMap S.queries := by
  rw [queryNodes, h.wf.appList_eq]
  exact List.flatMap_congr fun a ha => h.wf.queryList_eq ha

theorem Settled.mem_queryNodes (h : Settled m S) {q : ℕ} : q ∈ m.queryNodes ↔ S.Owned q := by
  rw [h.queryNodes_eq, List.mem_flatMap, Shape.Owned, h.loose]
  simp

theorem Settled.nodup_queryNodes (h : Settled m S) : m.queryNodes.Nodup := by
  rw [h.queryNodes_eq, List.nodup_flatMap]
  refine ⟨h.wf.queryNodup, h.wf.appNodup.imp_of_mem fun {a b} ha hb hne q hqa hqb => hne ?_⟩
  rw [← h.wf.queryApp a ha q hqa, h.wf.queryApp b hb q hqb]

/-- The handler of a registered node is the scheduler node for it. -/
theorem Settled.handler (h : Settled m S) {q : ℕ} (hq : q ∈ m.queryNodes) :
    ∃ x ∈ S.sched, (m.queries.cell q).handler = some x ∧ (m.sched.payload x).data = q := by
  rcases h.mem_queryNodes.mp hq with ⟨a, ha, hqa⟩ | hq
  · exact h.wf.handler a ha q hqa
  · simp [h.loose] at hq

theorem Settled.consistent (h : Settled m S) : m.Consistent where
  apps := h.wf.appList_eq ▸ h.wf.appChain
  fds := by
    rw [h.wf.appList_eq]
    exact h.wf.appNodup.map_on fun a ha b hb => h.wf.appFd a ha b hb
  queries a ha := by
    rw [h.wf.appList_eq] at ha
    rw [h.wf.queryList_eq ha]
    exact h.wf.queryChain a ha
  app a ha q hq := by
    rw [h.wf.appList_eq] at ha
    rw [h.wf.queryList_eq ha] at hq
    exact h.wf.queryApp a ha q hq
  live := ⟨h.wf.appList_eq ▸ h.wf.appLive, fun q hq => h.wf.queryLive q (h.mem_queryNodes.mp hq)⟩
  sched := h.wf.schedList_eq ▸ h.wf.schedRepr
  nodup := h.nodup_queryNodes
  handlers := by
    rw [h.wf.schedList_eq, List.perm_ext_iff_of_nodup]
    · intro o
      simp only [List.mem_map]
      constructor
      · rintro ⟨q, hq, rfl⟩
        obtain ⟨x, hx, hh, -⟩ := h.handler hq
        exact ⟨x, hx, hh.symm⟩
      · rintro ⟨x, hx, rfl⟩
        have hq := h.mem_queryNodes.mpr (h.wf.schedNode x hx).2
        obtain ⟨y, hy, hh, hd⟩ := h.handler hq
        exact ⟨_, hq, by rw [hh, h.wf.schedData y hy x hx hd]⟩
    · refine h.nodup_queryNodes.map_on fun q hq q' hq' heq => ?_
      obtain ⟨x, -, hh, hd⟩ := h.handler hq
      obtain ⟨y, -, hh', hd'⟩ := h.handler hq'
      obtain rfl : x = y := Option.some.inj (hh.symm.trans (heq.trans hh'))
      exact hd.symm.trans hd'
    · exact h.wf.schedRepr.nodup.map (Option.some_injective _)
  action q hq x hx := by
    obtain ⟨y, hy, hh, hd⟩ := h.handler hq
    obtain rfl : y = x := Option.some.inj (hh.symm.trans hx)
    exact ⟨(h.wf.schedNode y hy).1, hd⟩

/-! ## The clients that an operation is not about -/

/-- What is registered for a client can be read from the view of the clients other than `fd`. -/
theorem Wf.registrations_of_view (h : Wf m S) (h' : Wf m' S') (hk : OtherClientsKept fd m m')
    (hne : fd' ≠ fd) {a : ℕ} (ha : a ∈ S.apps) (hfd : (m.apps.cell a).fd = fd') :
    m'.registrations fd' = m.registrations fd' := by
  have hmem : (a, fd', (S.queries a).map fun q =>
      (q, (m.queries.cell q).query, (m.queries.cell q).handler)) ∈ m'.othersApps fd := by
    rw [hk.apps, othersApps, h.appList_eq]
    refine List.mem_map.mpr ⟨a, List.mem_filter.mpr ⟨ha, ?_⟩, by rw [hfd, h.queryList_eq ha]⟩
    simpa [hfd] using hne
  rw [othersApps, h'.appList_eq] at hmem
  obtain ⟨b, hb, heq⟩ := List.mem_map.mp hmem
  replace hb := List.mem_of_mem_filter hb
  rw [h'.queryList_eq hb] at heq
  obtain ⟨rfl, hfd₂, hlist⟩ : b = a ∧ (m'.apps.cell b).fd = fd' ∧ ((S'.queries b).map fun q =>
      (q, (m'.queries.cell q).query, (m'.queries.cell q).handler)) = (S.queries a).map fun q =>
      (q, (m.queries.cell q).query, (m.queries.cell q).handler) := by
    simpa only [Prod.mk.injEq] using heq
  have hqs : S'.queries b = S.queries b := by
    have := congrArg (List.map Prod.fst) hlist
    simpa only [List.map_map, Function.comp_def, List.map_id'] using this
  rw [hqs] at hlist
  rw [h'.registrations_some hb hfd₂, h.registrations_some ha hfd, hqs]
  refine congrArg some (List.map_congr_left fun q hq => ?_)
  have hcell := List.map_inj_left.mp hlist q hq
  simp only [Prod.mk.injEq, true_and] at hcell
  obtain ⟨x, hx, hh, hd, hi⟩ := h.intervalOf ha hq
  have hx' : (x, m.sched.payload x) ∈ m'.othersSched fd := by
    rw [hk.sched, othersSched, h.schedList_eq]
    refine List.mem_map.mpr ⟨x, List.mem_filter.mpr ⟨hx, ?_⟩, rfl⟩
    have ho : m.ownerFd x = fd' := by rw [ownerFd, hd, h.queryApp b ha q hq, hfd]
    simpa [ho] using hne
  obtain ⟨y, -, heq⟩ := List.mem_map.mp hx'
  obtain ⟨rfl, hp⟩ : y = x ∧ m'.sched.payload y = m.sched.payload x := by
    simpa only [Prod.mk.injEq] using heq
  rw [hi, Mem.intervalOf, hcell.1, hcell.2, hh, Option.map_some, hp]

theorem Wf.registrations_of_others (h : Wf m S) (h' : Wf m' S') (hk : OtherClientsKept fd m m')
    (hne : fd' ≠ fd) : m'.registrations fd' = m.registrations fd' := by
  by_cases hex : ∃ a ∈ S.apps, (m.apps.cell a).fd = fd'
  · obtain ⟨a, ha, hfd⟩ := hex
    exact h.registrations_of_view h' hk hne ha hfd
  by_cases hex' : ∃ a ∈ S'.apps, (m'.apps.cell a).fd = fd'
  · obtain ⟨a, ha, hfd⟩ := hex'
    exact (h'.registrations_of_view h ⟨hk.apps.symm, hk.sched.symm⟩ hne ha hfd).symm
  rw [h.registrations_none fun a ha hfd => hex ⟨a, ha, hfd⟩,
    h'.registrations_none fun a ha hfd => hex' ⟨a, ha, hfd⟩]

/-! ## The operations -/

/-- `register_query` puts the query at the front of what is registered for the client. -/
theorem Settled.registerQuery (h : Settled m S) (fd : ℕ) (query : AppQuery) (interval : ℤ)
    (now : Timespec) :
    ∃ m' S', m.registerQuery fd query interval now = some m' ∧ Settled m' S' ∧
      OtherClientsKept fd m m' ∧ m'.registrations fd =
        some ((query, some (msInterval interval)) :: (m.registrations fd).getD []) := by
  obtain ⟨app, node, m₁, S₁, heq₁, hr⟩ := h.wf.registerNode fd query
  have happ : (m₁.queries.cell node).app = app := by rw [hr.cell]
  obtain ⟨signal, st, l₁, l₂, heq₂, hl, hwf₂, -, -, hk₂, hnew, hold⟩ := hr.wf.schedule fd hr.node_live
    hr.not_owned (happ.symm ▸ hr.app_mem) (happ.symm ▸ hr.app_fd) interval now
  have hloose : S₁.loose = [] := hr.loose.trans h.loose
  obtain ⟨hwf₃, hk₃⟩ := hwf₂.storeHandler node m₁.sched.nodes.brk hr.app_mem hr.app_fd
    (by rw [hloose]) happ (by rw [hr.cell]) (by simp) (by rw [hnew])
  refine ⟨_, _, ?_, ⟨hwf₃, rfl, hr.detached.trans h.detached⟩, (hr.others.trans hk₂).trans hk₃, ?_⟩
  · simp only [Mem.registerQuery, heq₁, heq₂, Option.bind_eq_bind, Option.bind_some]
  have hfd : ((Mem.storeHandler { m₁ with sched := st } app node m₁.sched.nodes.brk).apps.cell app).fd =
      fd := by
    simp only [Mem.storeHandler, Heap.modify_cell_self]
    exact hr.app_fd
  rw [hwf₃.registrations_some (a := app) hr.app_mem hfd, Shape.setQueries_queries_self, List.map_cons,
    hr.old]
  refine congrArg some (congrArg₂ _ ?_ (List.map_congr_left fun q hq => ?_))
  · simp [Mem.storeHandler, Mem.intervalOf, hr.cell, hnew]
  · have hqn : q ≠ node := fun hqn => hr.not_owned (.inl ⟨app, hr.app_mem, hqn ▸ hq⟩)
    have hcell := (hr.kept q (.inl ⟨app, hr.app_mem, hq⟩)).2
    obtain ⟨x, hx, hh, -, hi⟩ := hr.wf.intervalOf hr.app_mem hq
    rw [Mem.intervalOf, hcell, hr.sched] at hi
    simp only [Mem.storeHandler, Mem.intervalOf, Heap.modify_cell_of_ne _ _ _ hqn]
    rw [hh, Option.map_some, hold x hx, hcell, hr.sched, ← hi]

/-- `unregister_query` removes the first query with the request id from what is registered for the
    client. -/
theorem Settled.unregisterQuery (h : Settled m S) (fd : ℕ) (reqId : UInt32) :
    ∃ m' S', m.unregisterQuery fd reqId = some m' ∧ Settled m' S' ∧ OtherClientsKept fd m m' ∧
      m'.registrations fd = (m.registrations fd).map fun l => l.eraseP fun p => p.1.reqId = reqId := by
  rcases h.wf.unchainQuery h.loose fd reqId with
    ⟨heq, hnone⟩ | ⟨a, l₁, q, l₂, m₁, heq, hu⟩
  · refine ⟨m, S, ?_, h, .refl fd m, ?_⟩
    · simp only [Mem.unregisterQuery, heq, Option.bind_eq_bind, Option.bind_some]
    · by_cases hex : ∃ a ∈ S.apps, (m.apps.cell a).fd = fd
      · obtain ⟨a, ha, hfd⟩ := hex
        rw [h.wf.registrations_some ha hfd, Option.map_some, List.eraseP_of_forall_not]
        intro p hp
        obtain ⟨q, hq, rfl⟩ := List.mem_map.mp hp
        simpa using hnone a ha hfd q hq
      · rw [h.wf.registrations_none fun a ha hfd => hex ⟨a, ha, hfd⟩, Option.map_none]
  have ha := hu.app_mem
  have hqa : q ∈ S.queries a := by simp [hu.queries]
  obtain ⟨x, hx, hh, hd⟩ := h.wf.handler a ha q hqa
  have hown : m₁.ownerFd x = fd := by
    rw [ownerFd, hu.sched, hd, (hu.cell q).2.1, h.wf.queryApp a ha q hqa, hu.fd_eq, hu.app_fd]
  obtain ⟨k₁, k₂, hk, hwf₂, hsame, hk₂⟩ := hu.wf.removeNode q x [] rfl hx
    (by rw [hu.sched, hd]) hown
  have hxk : x ∉ k₁ ++ k₂ :=
    (List.nodup_cons.mp (List.nodup_middle.mp (hk ▸ hu.wf.schedRepr.nodup))).1
  have hwf₃ := (hwf₂.freeNode hxk).freeQuery (hu.wf.not_owned_of_loose rfl)
  refine ⟨_, _, ?_, ⟨hwf₃, rfl, h.detached⟩, ?_, ?_⟩
  · simp only [Mem.unregisterQuery, heq, Option.bind_eq_bind, Option.bind_some, (hu.cell q).2.2, hh]
    rfl
  · exact (hu.others.trans hk₂).trans
      ((otherClientsKept_free _ x q a).1.trans (otherClientsKept_free _ x q a).2.1)
  · rw [hwf₃.registrations_some (a := a) ha ((hu.fd_eq a).trans hu.app_fd),
      h.wf.registrations_some ha hu.app_fd, Option.map_some, List.eraseP_map,
      Shape.setQueries_queries_self, hu.queries]
    have herase : (l₁ ++ q :: l₂).eraseP ((fun p : AppQuery × Option Timespec => decide (p.1.reqId = reqId)) ∘
        fun q => ((m.queries.cell q).query, m.intervalOf q)) = l₁ ++ l₂ := by
      rw [List.eraseP_append_right _ (fun q' hq' => by simpa using hu.before q' hq'),
        List.eraseP_cons_of_pos (by simpa using hu.reqId_eq)]
    rw [herase]
    refine congrArg some (List.map_congr_left fun q' hq' => ?_)
    have hpay : ∀ y, ((Afdx.removeNode m₁.sched x).payload y) = m.sched.payload y := fun y => by
      rw [hsame.payload, hu.sched]
    refine Prod.ext (hu.cell q').1 ?_
    change ((m₁.queries.cell q').handler.map
      fun y => ((Afdx.removeNode m₁.sched x).payload y).interval) = _
    simp only [(hu.cell q').2.2, hpay]
    rfl

/-- The loop of `unregister_application` unschedules and frees the loose queries, one by one. -/
theorem Wf.dropQueries {a : ℕ} {p : Option ℕ} (h : Wf m S) (fuel : ℕ)
    (hchain : Chain (fun q => (m.queries.cell q).next) p S.loose) (hf : S.loose.length < fuel)
    (happ : ∀ q ∈ S.loose, (m.queries.cell q).app = a) (hfd : (m.apps.cell a).fd = fd)
    (hh : ∀ q ∈ S.loose, ∃ x ∈ S.sched, (m.queries.cell q).handler = some x ∧
      (m.sched.payload x).data = q) :
    ∃ m' sched', Mem.dropQueries fuel p m = some m' ∧ Wf m' { S with sched := sched', loose := [] } ∧
      OtherClientsKept fd m m' ∧ m'.apps = m.apps := by
  induction hl : S.loose generalizing m S p fuel with
  | nil =>
    obtain ⟨fuel, rfl⟩ : ∃ k, fuel = k + 1 := Nat.exists_eq_succ_of_ne_zero (by omega)
    rw [hl] at hchain
    rw [hchain.head]
    exact ⟨m, S.sched, rfl, hl ▸ h, .refl fd m, rfl⟩
  | cons q rest ih =>
    obtain ⟨fuel, rfl⟩ : ∃ k, fuel = k + 1 := Nat.exists_eq_succ_of_ne_zero (by omega)
    rw [hl] at hchain hf happ hh
    obtain ⟨x, hx, hhq, hd⟩ := hh q (List.mem_cons_self ..)
    have hown : m.ownerFd x = fd := by rw [ownerFd, hd, happ q (List.mem_cons_self ..), hfd]
    obtain ⟨k₁, k₂, hk, hwf, hsame, hk₁⟩ := h.removeNode q x rest hl hx hd hown
    have hxk : x ∉ k₁ ++ k₂ :=
      (List.nodup_cons.mp (List.nodup_middle.mp (hk ▸ h.schedRepr.nodup))).1
    have hwf' := (hwf.freeNode hxk).freeQuery (h.not_owned_of_loose hl)
    have hqr : q ∉ rest := (List.nodup_cons.mp (hl ▸ h.looseNodup)).1
    obtain ⟨m', sched', heq, hwf₃, hk₃, happs⟩ := ih hwf' (p := (m.queries.cell q).next)
      fuel ⟨hchain.linked.1, hchain.linked.2⟩ (Nat.lt_of_succ_lt_succ hf)
      (fun q' hq' => happ q' (List.mem_cons_of_mem _ hq')) hfd (fun q' hq' => by
        obtain ⟨y, hy, hhy, hdy⟩ := hh q' (List.mem_cons_of_mem _ hq')
        refine ⟨y, ?_, hhy, (congrArg Payload.data (hsame.payload y)).trans hdy⟩
        refine (List.mem_cons.mp (List.perm_middle.mem_iff.mp (hk ▸ hy))).resolve_left ?_
        rintro rfl
        exact hqr (hd.symm.trans hdy ▸ hq')) rfl
    refine ⟨m', sched', ?_, hwf₃, ?_, happs⟩
    · rw [hchain.head]
      simp only [List.head?_cons, Mem.dropQueries, hhq, Option.bind_eq_bind, Option.bind_some]
      exact heq
    · exact (hk₁.trans ((otherClientsKept_free _ x q 0).1.trans (otherClientsKept_free _ x q 0).2.1)).trans
        hk₃

/-- `unregister_application` removes all that is registered for the client. -/
theorem Settled.unregisterApplication (h : Settled m S) (fd : ℕ) :
    ∃ m' S', m.unregisterApplication fd = some m' ∧ Settled m' S' ∧ OtherClientsKept fd m m' ∧
      m'.registrations fd = none := by
  rcases h.wf.unchainApp h.loose fd with
    ⟨heq, hnone⟩ | ⟨l₁, a, l₂, m₁, heq, hu⟩
  · refine ⟨m, S, ?_, h, .refl fd m, h.wf.registrations_none hnone⟩
    simp only [Mem.unregisterApplication, heq, Option.bind_eq_bind, Option.bind_some]
  have ha : a ∈ S.apps := by simp [hu.apps]
  obtain ⟨m₂, sched', heq₂, hwf₂, hk₂, happs⟩ := hu.wf.dropQueries (m₁.queries.brk + 1) (a := a) hu.chain
    (by rw [hu.queries]; exact h.wf.queries_length_lt ha)
    (fun q hq => by rw [hu.queries]; exact h.wf.queryApp a ha q hq) ((hu.fd_eq a).trans hu.app_fd)
    (fun q hq => by rw [hu.queries, hu.sched]; exact h.wf.handler a ha q hq)
  have hwf₃ := hwf₂.freeApp (a := a) rfl rfl
  refine ⟨_, _, ?_, ⟨hwf₃, rfl, rfl⟩, (hu.others.trans hk₂).trans (otherClientsKept_free _ 0 0 a).2.2, ?_⟩
  · simp only [Mem.unregisterApplication, heq, heq₂, Option.bind_eq_bind, Option.bind_some]
  · refine hwf₃.registrations_none fun b hb hbfd => ?_
    have hfdb : (m.apps.cell b).fd = fd := by
      rw [← hu.fd_eq b, ← happs]
      exact hbfd
    have hbS : b ∈ S.apps := by
      rw [hu.apps, List.perm_middle.mem_iff]
      exact List.mem_cons_of_mem _ hb
    obtain rfl := h.wf.appFd b hbS a ha (hfdb.trans hu.app_fd.symm)
    exact (List.nodup_cons.mp (List.nodup_middle.mp (hu.apps ▸ h.wf.appNodup))).1 hb

/-- Re-arming a scheduler node changes nothing that is registered. -/
theorem Settled.rearm (h : Settled m S) (now : Timespec) :
    ∃ m' S', m.rearm now = some m' ∧ Settled m' S' ∧
      ∀ fd, m'.registrations fd = m.registrations fd := by
  rcases h.wf.rearmFirst now with ⟨heq, -⟩ | ⟨x, l, l₁, l₂, st', hl, hl', heq, -, hwf, -, -, hpx, hpy⟩
  · exact ⟨m, S, by rw [Mem.rearm, heq, Option.map_some], h, fun _ => rfl⟩
  · refine ⟨_, _, by rw [Mem.rearm, heq, Option.map_some], ⟨hwf, h.loose, h.detached⟩, fun fd => ?_⟩
    have hi : ∀ y, (st'.payload y).interval = (m.sched.payload y).interval := fun y => by
      by_cases hy : y = x
      · rw [hy, hpx]
      · rw [hpy y hy]
    simp only [registrations, Mem.intervalOf, hi]
    rfl

/-! ## Runs -/

/-- The registry `m` holds what the map `r` says. -/
def Refines (m : Mem) (r : Registrations) : Prop :=
  ∀ fd, m.registrations fd = (r fd).map fun l => l.map fun p => (p.1, some (msInterval p.2))

/-- One operation: it does not fail, it keeps the refinement, and it leaves all other clients alone. -/
theorem Settled.step (h : Settled m S) {r : Registrations} (hr : m.Refines r) (l : RegistryLabel) :
    ∃ m' S', m.step l = some m' ∧ Settled m' S' ∧ m'.Refines (r.step l) ∧
      ∀ fd ∈ l.fd, OtherClientsKept fd m m' := by
  have others : ∀ {fd : ℕ} {m' S'} {o : Option (List (AppQuery × ℤ))}, Settled m' S' →
      OtherClientsKept fd m m' →
      (m'.registrations fd = o.map fun l => l.map fun p => (p.1, some (msInterval p.2))) →
      m'.Refines (Function.update r fd o) := by
    intro fd m' S' o h' hk hown fd'
    by_cases hfd : fd' = fd
    · rw [hfd, hown, Function.update_self]
    · rw [h.wf.registrations_of_others h'.wf hk hfd, hr fd', Function.update_of_ne hfd]
  cases l with
  | registerQuery fd query interval now =>
    obtain ⟨m', S', heq, h', hk, hreg⟩ := h.registerQuery fd query interval now
    refine ⟨m', S', heq, h', others h' hk ?_, by rintro _ ⟨⟩; exact hk⟩
    rw [hreg, hr fd]
    cases r fd <;> rfl
  | unregisterQuery fd reqId =>
    obtain ⟨m', S', heq, h', hk, hreg⟩ := h.unregisterQuery fd reqId
    refine ⟨m', S', heq, h', others h' hk ?_, by rintro _ ⟨⟩; exact hk⟩
    rw [hreg, hr fd]
    cases r fd with
    | none => rfl
    | some l =>
      simp only [Option.map_some, List.eraseP_map]
      rfl
  | unregisterApplication fd =>
    obtain ⟨m', S', heq, h', hk, hreg⟩ := h.unregisterApplication fd
    exact ⟨m', S', heq, h', others h' hk hreg, by rintro _ ⟨⟩; exact hk⟩
  | rearm now =>
    obtain ⟨m', S', heq, h', hreg⟩ := h.rearm now
    exact ⟨m', S', heq, h', fun fd => (hreg fd).trans (hr fd), by rintro _ ⟨⟩⟩

/-- Every run from a settled memory ends in a settled memory that refines what the run means. -/
theorem Settled.run (h : Settled m S) {r : Registrations} (hr : m.Refines r) (ls : List RegistryLabel) :
    ∃ m' S', Lts.run Mem.step m ls = some m' ∧ Settled m' S' ∧
      m'.Refines (ls.foldl Registrations.step r) := by
  induction ls generalizing m S r with
  | nil => exact ⟨m, S, rfl, h, hr⟩
  | cons l ls ih =>
    obtain ⟨m₁, S₁, heq, h₁, hr₁, -⟩ := h.step hr l
    rw [Lts.run_cons_of_step heq]
    exact ih h₁ hr₁

/-- The registry is a map from clients to lists of queries with their intervals. Every sequence of
    operations runs to its end; after it the three linked structures belong together and hold what the
    map says. An operation for one client leaves the queries, their order, and the scheduler nodes of
    all other clients alone, with their times and their order. -/
theorem registry_refines (ls : List RegistryLabel) :
    ∃ m, Lts.run Mem.step .init ls = some m ∧ m.Consistent ∧
      (∀ fd, m.registrations fd = (ls.foldl Registrations.step .init fd).map fun l =>
        l.map fun p => (p.1, some (msInterval p.2))) ∧
      ∀ l, ∃ m', m.step l = some m' ∧
        ∀ fd ∈ l.fd, m'.othersApps fd = m.othersApps fd ∧ m'.othersSched fd = m.othersSched fd := by
  have hinit : Mem.init.Refines .init := fun fd => settled_init.wf.registrations_none (by simp [Shape.init])
  obtain ⟨m, S, heq, h, hr⟩ := settled_init.run hinit ls
  refine ⟨m, heq, h.consistent, hr, fun l => ?_⟩
  obtain ⟨m', S', heq', -, -, hk⟩ := h.step hr l
  exact ⟨m', heq', fun fd hfd => ⟨(hk fd hfd).apps, (hk fd hfd).sched⟩⟩

end Mem

end Afdx
