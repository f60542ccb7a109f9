import Afdx.Proofs.RegistryProofs

/-!
# What is left after `unregister_query`

The client chooses the request ids and `register_query` takes an id any number of times, but
`unregister_query` removes only the first query that has it. Nothing with the id is left exactly if there
was at most one.
-/

namespace Afdx

/-- `register_query` is called for the client with this request id. -/
def RegistryLabel.registers (fd : ℕ) (reqId : UInt32) : RegistryLabel → Bool
  | registerQuery fd' query _ _ => fd' = fd && query.reqId = reqId
  | _ => false

/-! ## The abstract registry -/

namespace Registrations

variable {fd : ℕ} {reqId : UInt32}

/-- How many queries with the request id the client has. -/
def count (r : Registrations) (fd : ℕ) (reqId : UInt32) : ℕ :=
  ((r fd).getD []).countP fun p => p.1.reqId = reqId

theorem countP_eraseP {α : Type*} (p : α → Bool) (l : List α) :
    (l.eraseP p).countP p = l.countP p - 1 := by
  induction l with
  | nil => rfl
  | cons a l ih =>
    by_cases ha : p a = true
    · rw [List.eraseP_cons_of_pos ha, List.countP_cons_of_pos ha, Nat.add_sub_cancel]
    · rw [List.eraseP_cons_of_neg ha, List.countP_cons_of_neg ha, List.countP_cons_of_neg ha, ih]

theorem count_unregisterQuery (r : Registrations) (fd : ℕ) (reqId : UInt32) :
    (r.unregisterQuery fd reqId).count fd reqId = r.count fd reqId - 1 := by
  unfold count unregisterQuery
  rw [Function.update_self]
  cases r fd with
  | none => rfl
  | some l => exact countP_eraseP ..

/-- Only `register_query` adds a query with the request id. -/
theorem count_step_le (r : Registrations) {l : RegistryLabel} (hl : l.registers fd reqId = false) :
    (r.step l).count fd reqId ≤ r.count fd reqId := by
  -- an operation for another client
  have other : ∀ {fd' : ℕ} (o : Option (List (AppQuery × ℤ))), fd ≠ fd' →
      count (Function.update r fd' o) fd reqId ≤ r.count fd reqId := fun o hne => by
    rw [count, Function.update_of_ne hne, count]
  cases l with
  | registerQuery fd' query interval now =>
    by_cases hfd : fd = fd'
    · subst hfd
      have hne : query.reqId ≠ reqId := by simpa [RegistryLabel.registers] using hl
      rw [step, registerQuery, count, Function.update_self, Option.getD_some,
        List.countP_cons_of_neg (by simpa using hne), count]
    · exact other _ hfd
  | unregisterQuery fd' reqId' =>
    by_cases hfd : fd = fd'
    · subst hfd
      rw [step, unregisterQuery, count, Function.update_self, count]
      cases r fd with
      | none => rfl
      | some l => exact List.eraseP_sublist.countP_le
    · exact other _ hfd
  | unregisterApplication fd' =>
    by_cases hfd : fd = fd'
    · subst hfd
      rw [step, unregisterApplication, count, Function.update_self]
      exact Nat.zero_le _
    · exact other _ hfd
  | rearm now => exact le_rfl

theorem count_foldl_le (r : Registrations) (ls : List RegistryLabel)
    (hls : ∀ l ∈ ls, l.registers fd reqId = false) :
    (ls.foldl step r).count fd reqId ≤ r.count fd reqId := by
  induction ls generalizing r with
  | nil => exact le_rfl
  | cons l ls ih =>
    exact (ih (r.step l) fun l' hl' => hls l' (List.mem_cons_of_mem _ hl')).trans
      (count_step_le r (hls l (List.mem_cons_self ..)))

end Registrations

/-! ## The registry in memory -/

namespace Mem

variable {m m' : Mem} {S : Shape} {fd : ℕ} {reqId : UInt32} {r : Registrations}

/-- How many queries with the request id are registered for the client. -/
def registered (m : Mem) (fd : ℕ) (reqId : UInt32) : ℕ :=
  ((m.registrations fd).getD []).countP fun p => p.1.reqId = reqId

theorem Refines.registered_eq (hr : m.Refines r) : m.registered fd reqId = r.count fd reqId := by
  rw [registered, hr fd, Registrations.count]
  cases r fd with
  | none => rfl
  | some l => exact List.countP_map ..

/-- The scheduler node serves a query of the client with the request id. -/
def Serves (m : Mem) (fd : ℕ) (reqId : UInt32) (x : ℕ) : Prop :=
  m.ownerFd x = fd ∧ (m.queries.cell (m.sched.payload x).data).query.reqId = reqId

/-- No query node of the client with the request id is registered, no scheduler node serves such a query,
    and no pass of the scheduler runs one. -/
structure Unregistered (m : Mem) (fd : ℕ) (reqId : UInt32) : Prop where
  query : ∀ a ∈ m.appList, (m.apps.cell a).fd = fd →
    ∀ q ∈ m.queryList a, (m.queries.cell q).query.reqId ≠ reqId
  sched : ∀ x ∈ m.schedList, ¬ m.Serves fd reqId x
  pass : ∀ now x st, rearmFirst m.sched now = some (some x, st) → ¬ m.Serves fd reqId x

theorem Settled.registered_eq_zero (h : Settled m S) (h₀ : m.registered fd reqId = 0) :
    m.Unregistered fd reqId := by
  have hquery : ∀ a ∈ S.apps, (m.apps.cell a).fd = fd →
      ∀ q ∈ S.queries a, (m.queries.cell q).query.reqId ≠ reqId := fun a ha hfd q hq => by
    rw [registered, h.wf.registrations_some ha hfd, Option.getD_some, List.countP_eq_zero] at h₀
    simpa using h₀ _ (List.mem_map_of_mem hq)
  have hsched : ∀ x ∈ S.sched, ¬ m.Serves fd reqId x := by
    rintro x hx ⟨hfd, hid⟩
    rcases (h.wf.schedNode x hx).2 with ⟨a, ha, hq⟩ | hq
    · rw [ownerFd, h.wf.queryApp a ha _ hq] at hfd
      exact hquery a ha hfd _ hq hid
    · simp [h.loose] at hq
  refine ⟨fun a ha hfd q hq => ?_, fun x hx => hsched x (h.wf.schedList_eq ▸ hx), fun now x st heq => ?_⟩
  · rw [h.wf.appList_eq] at ha
    rw [h.wf.queryList_eq ha] at hq
    exact hquery a ha hfd q hq
  · rcases h.wf.rearmFirst now with ⟨hnone, -⟩ | ⟨y, l, _, _, st', hl, -, hsome, -⟩
    · rw [hnone] at heq
      cases heq
    · rw [hsome] at heq
      cases heq
      exact hsched x (by simp [hl])

theorem Unregistered.registered_eq_zero (hu : m.Unregistered fd reqId) (h : Settled m S) :
    m.registered fd reqId = 0 := by
  by_cases hex : ∃ a ∈ S.apps, (m.apps.cell a).fd = fd
  · obtain ⟨a, ha, hfd⟩ := hex
    rw [registered, h.wf.registrations_some ha hfd, Option.getD_some, List.countP_map, List.countP_eq_zero]
    intro q hq
    have hne := hu.query a (h.wf.appList_eq.symm ▸ ha) hfd q ((h.wf.queryList_eq ha).symm ▸ hq)
    simpa using hne
  · rw [registered, h.wf.registrations_none fun a ha hfd => hex ⟨a, ha, hfd⟩]
    rfl

/-- After any sequence of operations: once `unregister_query` has returned, nothing of the client with the
    request id is registered or scheduled until it is registered again, exactly if at most one query with
    the id was registered at the call. -/
theorem unregistered_iff (ls : List RegistryLabel) (fd : ℕ) (reqId : UInt32) :
    ∃ m m', Lts.run Mem.step .init ls = some m ∧ m.unregisterQuery fd reqId = some m' ∧
      ((∀ ls', (∀ l ∈ ls', l.registers fd reqId = false) →
          ∃ m'', Lts.run Mem.step m' ls' = some m'' ∧ m''.Unregistered fd reqId) ↔
        m.registered fd reqId ≤ 1) := by
  have hinit : Mem.init.Refines .init := fun fd => settled_init.wf.registrations_none (by simp [Shape.init])
  obtain ⟨m, S, heq, h, hr⟩ := settled_init.run hinit ls
  obtain ⟨m', S', heq', h', hr', -⟩ := h.step hr (.unregisterQuery fd reqId)
  have hdrop : ((ls.foldl Registrations.step .init).step (.unregisterQuery fd reqId)).count fd reqId =
      (ls.foldl Registrations.step .init).count fd reqId - 1 := Registrations.count_unregisterQuery ..
  refine ⟨m, m', heq, heq', ⟨fun hall => ?_, fun hle ls' hls' => ?_⟩⟩
  · -- at once, if no operation follows
    obtain ⟨m'', hm'', hu⟩ := hall [] (by simp)
    obtain rfl := Option.some.inj hm''
    have hzero := hu.registered_eq_zero h'
    rw [hr'.registered_eq] at hzero
    rw [hr.registered_eq]
    omega
  · obtain ⟨m'', S'', hrun, h'', hr''⟩ := h'.run hr' ls'
    refine ⟨m'', hrun, h''.registered_eq_zero ?_⟩
    have hcount := Registrations.count_foldl_le
      ((ls.foldl Registrations.step .init).step (.unregisterQuery fd reqId)) ls' hls'
    rw [hr.registered_eq] at hle
    rw [hr''.registered_eq]
    omega

/-- A client registers two queries with the request id 7 and unregisters it. -/
def repeatedIdRun : List RegistryLabel :=
  [.registerQuery 4 ⟨7, 0, 7⟩ 100 ⟨0, 0⟩, .registerQuery 4 ⟨7, 0, 8⟩ 200 ⟨0, 0⟩, .unregisterQuery 4 7]

/-- The query registered first is still served. -/
theorem serves_after_unregister :
    ∃ m x st, Lts.run Mem.step .init repeatedIdRun = some m ∧ m.registered 4 7 = 1 ∧
      rearmFirst m.sched ⟨1, 0⟩ = some (some x, st) ∧ m.Serves 4 7 x ∧ ¬ m.Unregistered 4 7 := by
  obtain ⟨m, hrun, hp⟩ := Lts.exists_run_of_map Mem.step .init repeatedIdRun (fun m =>
    match rearmFirst m.sched ⟨1, 0⟩ with
    | some (some x, _) => decide (m.registered 4 7 = 1 ∧ m.ownerFd x = 4 ∧
        (m.queries.cell (m.sched.payload x).data).query.reqId = 7)
    | _ => false) (by decide)
  split at hp
  · rename_i x st heq
    obtain ⟨hone, hserves⟩ := of_decide_eq_true hp
    exact ⟨m, x, st, hrun, hone, heq, hserves, fun hu => hu.pass _ x st heq hserves⟩
  · cases hp

end Mem

end Afdx
