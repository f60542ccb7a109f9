import Afdx.Proofs.CadenceProofs
import Afdx.Reuse

/-!
# The scheduler with memory that is used again

`scheduler_run` calls the action of a node through a pointer that no lock protects. If the node is freed before the
call and `malloc` hands out its address again, the action of the new node is called, long before it is due. In the
runs in which no node is freed that is about to be called, the nodes called are the nodes popped, and what the
callers are promised about the times of the calls holds.
-/

namespace Afdx

namespace Scheduling

open Sched

variable {s t : Scheduling} {l : List ℕ} {lab : SchedulingLabel}

/-- The nodes that are allocated after a step. -/
def liveAfter (s : Scheduling) : SchedulingLabel → Finset ℕ
  | .newNode _ _ _ _ => insert s.sched.nodes.brk s.sched.nodes.live
  | .free handler => s.sched.nodes.live.erase handler
  | _ => s.sched.nodes.live

/-- At the head of the inner loop either the pass is over, or the first node is due and is dispatched. -/
theorem Inv.inner_cases (hI : Inv s l) (h : Scheduling.step s .inner = some t) :
    (∃ pc : RunPc, pc.calling = [] ∧ t = { s with scheduler := pc }) ∨
      ∃ x l' st' l₁ l₂ now, l = x :: l' ∧ Rearm now s.sched x l' st' l₁ l₂ ∧
        t = { s with sched := st', scheduler := .call x now } := by
  simp only [Scheduling.step] at h
  split at h <;> [rename_i now didSomething hpc; cases h]
  simp only [innerStep] at h
  by_cases hdue : ∀ x ∈ l.head?, s.sched.due now x = false
  · rw [hI.repr.rearmFirst_none now hdue] at h
    obtain rfl := Option.some.inj h
    exact .inl ⟨_, by split <;> rfl, rfl⟩
  · cases l with
    | nil => simp at hdue
    | cons x l =>
      have hdue : s.sched.due now x = true := by simpa using hdue
      obtain ⟨st', l₁, l₂, heq, hr⟩ := hI.repr.rearmFirst_some now hdue
      rw [heq] at h
      exact .inr ⟨x, l, st', l₁, l₂, now, rfl, hr, (Option.some.inj h).symm⟩

theorem liveAfter_subset (hlab : ∀ action data interval now, lab ≠ .newNode action data interval now) :
    s.liveAfter lab ⊆ s.sched.nodes.live := by
  cases lab with
  | newNode action data interval now => exact absurd rfl (hlab action data interval now)
  | free handler => exact Finset.erase_subset ..
  | _ => exact subset_rfl

theorem Inv.live_step (hI : Inv s l) (h : Scheduling.step s lab = some t) :
    t.sched.nodes.live = s.liveAfter lab := by
  cases lab with
  | newNode action data interval now =>
    obtain rfl := Option.some.inj h
    rfl
  | insert node =>
    simp only [Scheduling.step] at h
    split at h <;> [rename_i hok; cases h]
    obtain ⟨sched, hins, rfl⟩ := Option.map_eq_some_iff.mp h
    obtain ⟨hlive, hnl, -⟩ := hI.pending node hok.1
    obtain ⟨st', l₁, l₂, hins', rfl, -, -, -, hs⟩ := hI.repr.insertNode hnl hlive
    obtain rfl : st' = sched := Option.some.inj (hins'.symm.trans hins)
    exact hs.live
  | remove handler =>
    simp only [Scheduling.step] at h
    split at h <;> [rename_i hok; cases h]
    obtain rfl := Option.some.inj h
    obtain ⟨l₁, l₂, rfl⟩ := List.append_of_mem ((hI.handlers handler).mp hok.1)
    exact hI.repr.removeNode.2.live
  | inner =>
    rcases hI.inner_cases h with ⟨pc, -, rfl⟩ | ⟨x, l', st', l₁, l₂, now, -, hr, rfl⟩
    · rfl
    · exact hr.live
  | free handler | lock | clock now | call | wake =>
    simp only [Scheduling.step] at h
    split at h <;> cases h <;> rfl

/-- The node that is about to be called has been before, or has just been popped from the list. -/
theorem Inv.calling_step (hI : Inv s l) (h : Scheduling.step s lab = some t) :
    ∀ e ∈ t.scheduler.calling, e ∈ s.scheduler.calling ∨ lab = .inner ∧ e.1 ∈ s.sched.nodes.live := by
  cases lab with
  | newNode action data interval now =>
    obtain rfl := Option.some.inj h
    exact fun e he => .inl he
  | insert node =>
    simp only [Scheduling.step] at h
    split at h <;> [skip; cases h]
    obtain ⟨sched, -, rfl⟩ := Option.map_eq_some_iff.mp h
    intro e he
    dsimp only at he
    split at he
    · exact .inl (RunPc.calling_signal s.scheduler ▸ he)
    · exact .inl he
  | inner =>
    rcases hI.inner_cases h with ⟨pc, hpc, rfl⟩ | ⟨x, l', st', l₁, l₂, now, rfl, -, rfl⟩
    · exact fun e he => by simp [hpc] at he
    · intro e he
      rw [List.mem_singleton.mp he]
      exact .inr ⟨rfl, hI.repr.live x (List.mem_cons_self ..)⟩
  | remove handler | free handler =>
    simp only [Scheduling.step] at h
    split at h <;> cases h
    exact fun e he => .inl he
  | lock | clock now | call | wake =>
    simp only [Scheduling.step] at h
    split at h <;> cases h <;> exact fun e he => by cases he

/-- `unschedule` takes only nodes out of the list that are allocated, and they stay so until it frees them. -/
theorem Inv.removed_live_step (hI : Inv s l) (hR : ∀ x ∈ s.removed, x ∈ s.sched.nodes.live)
    (h : Scheduling.step s lab = some t) : ∀ x ∈ t.removed, x ∈ t.sched.nodes.live := by
  rw [hI.live_step h]
  cases lab with
  | newNode action data interval now =>
    obtain rfl := Option.some.inj h
    exact fun x hx => Finset.mem_insert_of_mem (hR x hx)
  | insert node =>
    simp only [Scheduling.step] at h
    split at h <;> [skip; cases h]
    obtain ⟨sched, -, rfl⟩ := Option.map_eq_some_iff.mp h
    exact hR
  | remove handler =>
    simp only [Scheduling.step] at h
    split at h <;> [rename_i hok; cases h]
    obtain rfl := Option.some.inj h
    intro x hx
    rcases Finset.mem_insert.mp hx with rfl | hx
    · exact hI.repr.live x ((hI.handlers x).mp hok.1)
    · exact hR x hx
  | free handler =>
    simp only [Scheduling.step] at h
    split at h <;> cases h
    exact fun x hx => Finset.mem_erase.mpr ⟨Finset.ne_of_mem_erase hx, hR x (Finset.mem_of_mem_erase hx)⟩
  | inner => rcases hI.inner_cases h with ⟨pc, -, rfl⟩ | ⟨x, l', st', l₁, l₂, now, -, -, rfl⟩ <;> exact hR
  | lock | clock now | call | wake =>
    simp only [Scheduling.step] at h
    split at h <;> cases h <;> exact hR

/-- Only a call of an action is recorded as one. -/
theorem Inv.executed_of_ne_call (hI : Inv s l) (hlab : lab ≠ .call) (h : Scheduling.step s lab = some t) :
    t.hist.executed = s.hist.executed := by
  cases lab with
  | call => exact absurd rfl hlab
  | newNode action data interval now =>
    obtain rfl := Option.some.inj h
    rfl
  | insert node =>
    simp only [Scheduling.step] at h
    split at h <;> [skip; cases h]
    obtain ⟨sched, -, rfl⟩ := Option.map_eq_some_iff.mp h
    rfl
  | inner => rcases hI.inner_cases h with ⟨pc, -, rfl⟩ | ⟨x, l', st', l₁, l₂, now, -, -, rfl⟩ <;> rfl
  | remove handler | free handler | lock | clock now | wake =>
    simp only [Scheduling.step] at h
    split at h <;> cases h <;> rfl

end Scheduling

namespace Addressed

open Scheduling (tenths)

variable {s t : Addressed} {l : AddressedLabel}

/-- What a step does to the addresses and to the record of the calls. -/
inductive Effect (s : Addressed) (l : AddressedLabel) (t : Addressed) : Prop
  /-- `schedule_ts` calls `malloc`. -/
  | newNode (action : Action) (data : ℕ) (interval : Timespec) (now : ClockTime)
      (label : l.label = .newNode action data interval now)
      (unused : s.addresses.Unused s.run.sched.nodes l.addr)
      (addresses : t.addresses = s.addresses.assign s.run.sched.nodes.brk l.addr)
      (called : t.called = s.called)
  /-- `scheduler_run` calls an action. -/
  | call (node : ℕ) (now : Timespec) (label : l.label = .call) (pc : s.run.scheduler = .call node now)
      (addresses : t.addresses = s.addresses)
      (called : t.called = s.called ++ [(s.addresses.found node, now)])
  | other (hnew : ∀ action data interval now, l.label ≠ .newNode action data interval now)
      (hcall : l.label ≠ .call) (addresses : t.addresses = s.addresses) (called : t.called = s.called)

/-- The addresses are not seen by the scheduler and its callers. -/
theorem step_effect (h : step s l = some t) : s.run.step l.label = some t.run ∧ Effect s l t := by
  obtain ⟨lab, addr⟩ := l
  cases lab with
  | newNode action data interval now =>
    simp only [step] at h
    split at h <;> [rename_i hunused; cases h]
    obtain ⟨run, hrun, rfl⟩ := Option.map_eq_some_iff.mp h
    exact ⟨hrun, .newNode action data interval now rfl hunused rfl rfl⟩
  | call =>
    simp only [step] at h
    split at h <;> [rename_i node now hpc; cases h]
    obtain ⟨run, hrun, rfl⟩ := Option.map_eq_some_iff.mp h
    exact ⟨hrun, .call node now rfl hpc rfl rfl⟩
  | _ =>
    simp only [step] at h
    obtain ⟨run, hrun, rfl⟩ := Option.map_eq_some_iff.mp h
    exact ⟨hrun, .other (by simp) (by simp) rfl rfl⟩

theorem reachable_run (h : Lts.Reachable step init s) : Lts.Reachable Scheduling.step .init s.run :=
  h.project Addressed.run fun _ _ _ hs => .inr ⟨_, (step_effect hs).1⟩

/-- Pointers to live nodes find them, and no node is freed twice. -/
structure Sound (s : Addressed) : Prop where
  inv : ∃ l, s.run.Inv l
  addresses : s.addresses.Sound s.run.sched.nodes
  removed : ∀ x ∈ s.run.removed, x ∈ s.run.sched.nodes.live

theorem Sound.step (hS : Sound s) (h : Addressed.step s l = some t) : Sound t := by
  obtain ⟨hrun, heff⟩ := step_effect h
  obtain ⟨lst, hI⟩ := hS.inv
  refine ⟨(hI.step hrun).1, ?_, hI.removed_live_step hS.removed hrun⟩
  have hlive := hI.live_step hrun
  cases heff with
  | newNode action data interval now label unused addresses =>
    rw [label] at hlive
    exact addresses ▸ hS.addresses.assign unused hlive.le
  | call node now label pc addresses =>
    rw [label] at hlive
    exact addresses ▸ hS.addresses.mono hlive.le
  | other hnew hcall addresses =>
    exact addresses ▸ hS.addresses.mono (hlive.le.trans (Scheduling.liveAfter_subset hnew))

theorem sound_of_reachable (h : Lts.Reachable Addressed.step init s) : Sound s :=
  h.invariant (I := Sound)
    ⟨⟨[], Scheduling.inv_init⟩, by simp [Heap.Addresses.Sound, init, Scheduling.init, Sched.init, Heap.empty],
      by simp [init, Scheduling.init]⟩ fun _ _ _ hS hs => hS.step hs

/-! ## Runs that spare the call -/

/-- The step frees no node that `scheduler_run` is about to call. -/
def sparesCall (s : Addressed) (l : AddressedLabel) : Bool :=
  match l.label with
  | .free handler => s.run.scheduler.calling.all fun e => e.1 ≠ handler
  | _ => true

/-- The node about to be called is allocated, and the nodes called are those that were popped. -/
structure Spared (s : Addressed) : Prop where
  calling : ∀ e ∈ s.run.scheduler.calling, e.1 ∈ s.run.sched.nodes.live
  called : s.called = s.run.hist.executed

theorem Spared.step (hS : Sound s) (hP : Spared s) (hok : s.sparesCall l = true)
    (h : Addressed.step s l = some t) : Spared t := by
  obtain ⟨hrun, heff⟩ := step_effect h
  obtain ⟨lst, hI⟩ := hS.inv
  constructor
  case calling =>
    intro e he
    rw [hI.live_step hrun]
    rcases hI.calling_step hrun e he with hold | ⟨hlab, hlive⟩
    · have hlive := hP.calling e hold
      unfold sparesCall at hok
      cases hlab : l.label with
      | newNode action data interval now => exact Finset.mem_insert_of_mem hlive
      | free handler =>
        rw [hlab] at hok
        exact Finset.mem_erase.mpr ⟨of_decide_eq_true (List.all_eq_true.mp hok e hold), hlive⟩
      | _ => exact hlive
    · rw [hlab]
      exact hlive
  case called =>
    cases heff with
    | call node now label pc addresses called =>
      rw [label] at hrun
      simp only [Scheduling.step, pc] at hrun
      have hfound : s.addresses.found node = node :=
        hS.addresses node (hP.calling (node, now) (by rw [pc]; exact List.mem_singleton_self _))
      rw [called, hfound, hP.called, ← Option.some.inj hrun]
    | newNode action data interval now label unused addresses called =>
      rw [called, hP.called, hI.executed_of_ne_call (by simp [label]) hrun]
    | other hnew hcall addresses called => rw [called, hP.called, hI.executed_of_ne_call hcall hrun]

theorem spared_of_reachable (h : Lts.Reachable (Lts.restrict Addressed.step sparesCall) init s) : Spared s :=
  h.invariant_restrict (I := Sound) (J := Spared) (sound_of_reachable (.refl _))
    (fun _ _ _ hS hs => hS.step hs) ⟨by simp [init, Scheduling.init, RunPc.calling], rfl⟩
    fun _ _ _ hS hP hok hs => hP.step hS hok hs

theorem Spared.executions_eq (hP : Spared s) (node : ℕ) : s.executions node = s.run.executions node := by
  rw [executions, Scheduling.executions, hP.called]

/-! ## The times of the calls -/

/-- No node with a normalised and positive interval is called early: the call number `k` is in a pass that reads a
    clock no earlier than `k` intervals after the node was scheduled. So as long as no pass has read a clock later
    than `T`, the node has been called no more often than its interval goes into the time up to `T`. -/
def NeverEarly (s : Addressed) : Prop :=
  ∀ c ∈ s.run.hist.scheduled, c.interval.Normalised → 0 < c.interval.ns →
    (∀ k, (hk : k < (s.executions c.node).length) → (s.executions c.node)[k] ∈ s.run.hist.passes ∧
      c.time.ns + (k + 1) * c.interval.ns ≤ ((s.executions c.node)[k]).ns) ∧
    ∀ T : ℤ, c.time.ns ≤ T → (∀ now ∈ s.run.hist.passes, now.ns ≤ T) →
      ((s.executions c.node).length : ℤ) ≤ (T - c.time.ns) / c.interval.ns

/-- If `malloc` may return the address of the node about to be called, a node with an interval of one second can be
    scheduled there and called at once. -/
theorem called_at_once {node : ℕ} {now : Timespec} (hpc : s.run.scheduler = .call node now) (hnow : now.Normalised)
    (hlt : node < s.run.sched.nodes.brk)
    (hunused : s.addresses.Unused s.run.sched.nodes (s.addresses.addr node)) :
    ∃ u, Lts.Reachable Addressed.step s u ∧ ⟨s.run.sched.nodes.brk, ⟨1, 0⟩, now⟩ ∈ u.run.hist.scheduled ∧
      u.called = s.called ++ [(s.run.sched.nodes.brk, now)] := by
  obtain ⟨run, hrun, hsched, hpc'⟩ : ∃ run,
      s.run.step (.newNode .serveSchedulerQuery 0 ⟨1, 0⟩ ⟨now, hnow⟩) = some run ∧
      run.hist.scheduled = s.run.hist.scheduled ++ [⟨s.run.sched.nodes.brk, ⟨1, 0⟩, now⟩] ∧
      run.scheduler = s.run.scheduler := ⟨_, rfl, rfl, rfl⟩
  rw [hpc] at hpc'
  obtain ⟨run', hrun', hsched'⟩ : ∃ run', run.step .call = some run' ∧
      run'.hist.scheduled = run.hist.scheduled := by
    simp only [Scheduling.step, hpc']
    exact ⟨_, rfl, rfl⟩
  have hnew : Addressed.step s ⟨.newNode .serveSchedulerQuery 0 ⟨1, 0⟩ ⟨now, hnow⟩, s.addresses.addr node⟩ =
      some { s with
        run := run
        addresses := s.addresses.assign s.run.sched.nodes.brk (s.addresses.addr node) } := by
    simp only [step, if_pos hunused, hrun, Option.map_some]
  have hfound : (s.addresses.assign s.run.sched.nodes.brk (s.addresses.addr node)).found node =
      s.run.sched.nodes.brk := Heap.Addresses.found_assign_of_addr hlt.ne rfl
  refine ⟨{ s with
      run := run'
      addresses := s.addresses.assign s.run.sched.nodes.brk (s.addresses.addr node)
      called := s.called ++ [(s.run.sched.nodes.brk, now)] },
    (Lts.Reachable.single hnew).tail (l := ⟨.call, 0⟩) ?_, ?_, rfl⟩
  · simp only [step, hpc', hrun', Option.map_some, hfound]
  · rw [hsched', hsched]
    exact List.mem_append_right _ (List.mem_singleton_self _)

/-- A node that is called in the pass at whose time it was scheduled is called early. -/
theorem not_neverEarly_of_called {node : ℕ} {now : Timespec} {called : List (ℕ × Timespec)}
    (hsched : ⟨node, ⟨1, 0⟩, now⟩ ∈ s.run.hist.scheduled) (hcalled : s.called = called ++ [(node, now)]) :
    ¬ s.NeverEarly := by
  intro hearly
  have hexec : s.executions node = ((called.filter fun e => e.1 = node).map Prod.snd) ++ [now] := by
    simp [executions, hcalled]
  have hnorm : Timespec.Normalised ⟨1, 0⟩ := by decide
  have hpos : 0 < Timespec.ns ⟨1, 0⟩ := by decide
  have hpace := ((hearly _ hsched hnorm hpos).1 ((called.filter fun e => e.1 = node).map Prod.snd).length
    (by simp [hexec])).2
  simp only [hexec, List.getElem_concat_length] at hpace
  have hsec : Timespec.ns ⟨1, 0⟩ = 1000000000 := rfl
  rw [hsec] at hpace
  omega

/-- A step that does not spare the call frees the node that is about to be called. -/
theorem freed_of_not_spared (hs : step s l = some t) (hbad : s.sparesCall l = false) :
    ∃ node now, s.run.scheduler = .call node now ∧ node ∈ s.run.removed ∧ t.run.scheduler = .call node now ∧
      t.run.sched.nodes = s.run.sched.nodes.free node ∧ t.addresses = s.addresses := by
  obtain ⟨lab, addr⟩ := l
  cases lab with
  | free handler =>
    simp only [step, Scheduling.step] at hs
    obtain ⟨run, hrun, rfl⟩ := Option.map_eq_some_iff.mp hs
    split at hrun <;> [rename_i hmem; cases hrun]
    obtain rfl := Option.some.inj hrun
    cases hpc : s.run.scheduler with
    | call node now =>
      obtain rfl : node = handler := by simpa [sparesCall, hpc, RunPc.calling] using hbad
      exact ⟨node, now, rfl, hmem, rfl, rfl, rfl⟩
    | _ => simp [sparesCall, hpc, RunPc.calling] at hbad
  | _ => cases hbad

/-- After a step that frees the node about to be called, `malloc` may return its address for another one. -/
theorem early_of_not_spared (h : Lts.Reachable Addressed.step init s) (hs : Addressed.step s l = some t)
    (hbad : s.sparesCall l = false) :
    ∃ u, Lts.Reachable Addressed.step t u ∧ ¬ u.NeverEarly := by
  have hS := sound_of_reachable h
  obtain ⟨node, now, hpc, hmem, hpc', hnodes, haddr⟩ := freed_of_not_spared hs hbad
  have hlive := hS.removed node hmem
  have hnow : now.Normalised := by
    have hP := Scheduling.paced_of_reachable (reachable_run h)
    exact hP.passes now (hP.reading now (by rw [hpc]; rfl))
  obtain ⟨u, htu, hsched, hcalled⟩ := called_at_once hpc' hnow
    (by rw [hnodes]; exact s.run.sched.nodes.live_lt node hlive)
    (by rw [hnodes, haddr]; exact hS.addresses.unused_free hlive)
  exact ⟨u, htu, not_neverEarly_of_called hsched hcalled⟩

/-- In the runs in which no node is freed that `scheduler_run` is about to call, no node is called early. After any
    step that frees such a node a continuation calls one early. -/
theorem never_early_iff (s : Addressed) :
    (Lts.Reachable (Lts.restrict step sparesCall) init s → s.NeverEarly) ∧
    ∀ l t, Lts.Reachable step init s → step s l = some t → s.sparesCall l = false →
      ∃ u, Lts.Reachable step t u ∧ ¬ u.NeverEarly := by
  refine ⟨fun h c hc hn hpos => ?_, fun l t h hs hbad => early_of_not_spared h hs hbad⟩
  have hpace := Scheduling.executed_on_pace (reachable_run h.of_restrict) c hc hn hpos
  rwa [← (spared_of_reachable h).executions_eq] at hpace

/-- A run in which `malloc` always returns the same address. -/
def oneAddress (labels : List SchedulingLabel) : List AddressedLabel := labels.map fun label => ⟨label, 0⟩

/-- The node that is run at 3 seconds is freed before its action is called. -/
def freedRun : List AddressedLabel := oneAddress (Scheduling.lateRun.take 5 ++ [.remove 0, .free 0])

/-- Where the late node is called, it is not called early; where it is freed before, another one may be. -/
theorem never_early_iff_lateRun :
    (∃ s, Lts.run (Lts.restrict step sparesCall) init (oneAddress Scheduling.lateRun) = some s ∧
      s.executions 0 = [⟨3, 0⟩] ∧ s.NeverEarly) ∧
    ∃ t u, Lts.run step init freedRun = some t ∧ Lts.Reachable step t u ∧ ¬ u.NeverEarly := by
  constructor
  · obtain ⟨s, hs, hp⟩ := Lts.exists_run_of_map (Lts.restrict step sparesCall) init (oneAddress Scheduling.lateRun)
      (fun s => decide (s.executions 0 = [⟨3, 0⟩])) (by decide)
    exact ⟨s, hs, of_decide_eq_true hp, (never_early_iff s).1 ⟨_, hs⟩⟩
  · obtain ⟨s, hs, hp⟩ := Lts.exists_run_of_map step init freedRun.dropLast
      (fun s => !s.sparesCall ⟨.free 0, 0⟩ && (step s ⟨.free 0, 0⟩).isSome) (by decide)
    rw [Bool.and_eq_true, Bool.not_eq_true'] at hp
    obtain ⟨t, ht⟩ := Option.isSome_iff_exists.mp hp.2
    obtain ⟨u, hu, hearly⟩ := (never_early_iff s).2 ⟨.free 0, 0⟩ t ⟨_, hs⟩ ht hp.1
    refine ⟨t, u, ?_, hu, hearly⟩
    have hrun : freedRun = freedRun.dropLast ++ [⟨.free 0, 0⟩] := rfl
    rw [hrun, Lts.run_append, hs, Option.bind_some, Lts.run_cons_of_step ht, Lts.run_nil]

/-- A node with an interval of 1000 seconds is scheduled at 3 seconds, where the one just freed was, and is called
    in the pass that reads 3 seconds. -/
theorem early_at_same_address :
    ∃ s, Lts.run step init (freedRun ++
        oneAddress [.newNode .serveSchedulerQuery 1 ⟨1000, 0⟩ (tenths 30), .insert 1, .call]) = some s ∧
      s.run.hist.scheduled = [⟨0, ⟨1, 0⟩, ⟨0, 0⟩⟩, ⟨1, ⟨1000, 0⟩, ⟨3, 0⟩⟩] ∧
      s.called = [(1, ⟨3, 0⟩)] ∧ ¬ s.NeverEarly := by
  obtain ⟨s, hs, hp⟩ := Lts.exists_run_of_map step init (freedRun ++
      oneAddress [.newNode .serveSchedulerQuery 1 ⟨1000, 0⟩ (tenths 30), .insert 1, .call])
    (fun s => decide (s.run.hist.scheduled = [⟨0, ⟨1, 0⟩, ⟨0, 0⟩⟩, ⟨1, ⟨1000, 0⟩, ⟨3, 0⟩⟩] ∧
      s.called = [(1, ⟨3, 0⟩)])) (by decide)
  obtain ⟨hsch, hcalled⟩ := of_decide_eq_true hp
  refine ⟨s, hs, hsch, hcalled, fun hearly => ?_⟩
  have hexec : s.executions 1 = [⟨3, 0⟩] := by rw [executions, hcalled]; rfl
  have hpace := (hearly ⟨1, ⟨1000, 0⟩, ⟨3, 0⟩⟩ (by simp [hsch]) (by decide) (by decide)).1 0 (by simp [hexec])
  simp [hexec, Timespec.ns] at hpace

/-! ## The rate and the freshness -/

/-- If no node is freed that is about to be called, the action of a node is not called more than `m + 1` times in
    any stretch of `m` intervals, as the passes read the clock. -/
theorem calls_in_window (h : Lts.Reachable (Lts.restrict step sparesCall) init s) (c : Scheduled)
    (hc : c ∈ s.run.hist.scheduled) (hn : c.interval.Normalised) (hpos : 0 < c.interval.ns) (a : ℤ) (m : ℕ) :
    ((s.executions c.node).filter fun now => a ≤ now.ns ∧ now.ns ≤ a + m * c.interval.ns).length ≤ m + 1 := by
  rw [(spared_of_reachable h).executions_eq]
  exact Scheduling.executions_in_window (reachable_run h.of_restrict) c hc hn hpos a m

theorem calls_in_window_gridRun :
    ∃ s, Lts.run (Lts.restrict step sparesCall) init (oneAddress Scheduling.gridRun) = some s ∧
      s.executions 0 = [⟨1, 0⟩, ⟨2, 500000000⟩] ∧
      ((s.executions 0).filter fun now =>
        1500000000 ≤ now.ns ∧ now.ns ≤ 1500000000 + ((1 : ℕ) : ℤ) * 1000000000).length ≤ 1 + 1 := by
  obtain ⟨s, hs, hp⟩ := Lts.exists_run_of_map (Lts.restrict step sparesCall) init (oneAddress Scheduling.gridRun)
    (fun s => decide (s.executions 0 = [⟨1, 0⟩, ⟨2, 500000000⟩] ∧
      s.run.hist.scheduled = [⟨0, ⟨1, 0⟩, ⟨0, 0⟩⟩])) (by decide)
  obtain ⟨hexec, hsch⟩ := of_decide_eq_true hp
  have hc : (⟨0, ⟨1, 0⟩, ⟨0, 0⟩⟩ : Scheduled) ∈ s.run.hist.scheduled := hsch ▸ List.mem_singleton_self _
  exact ⟨s, hs, hexec, calls_in_window ⟨_, hs⟩ ⟨0, ⟨1, 0⟩, ⟨0, 0⟩⟩ hc (by decide) (by decide) 1500000000 1⟩

end Addressed

end Afdx
