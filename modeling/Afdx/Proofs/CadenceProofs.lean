import Afdx.Lib.Periodic
import Afdx.Proofs.SchedulingProofs
import Mathlib.Algebra.Order.Ring.Int
import Mathlib.Tactic.Ring

/-!
# The cadence of a scheduled node

A scheduled node is a periodic timer, whatever the callers do and whatever the clock shows, as long as the node
that is run is the one that was popped: its actions are more than a period apart when counted over any number of
runs, it stays on its grid until a run comes a whole period late, and whenever the scheduler thread waits no node
of the list has been left out for a period. Once a node is unscheduled it is not dispatched again.
-/

namespace Afdx

namespace Scheduling

open Sched

variable {s t : Scheduling} {l : List ℕ}

/-- Every node is a periodic timer that was due first one interval after the call that scheduled it. -/
def Cadent (s : Scheduling) : Prop :=
  ∀ c ∈ s.hist.scheduled, c.interval.Normalised →
    Periodic.Runs c.interval.ns (c.time.ns + c.interval.ns) ((s.times c.node).map Timespec.ns)
      (s.sched.nextTime c.node).ns

/-- No action of the next node has been called yet. -/
theorem Paced.times_brk (hP : Paced s) : s.times s.sched.nodes.brk = [] := by
  refine List.map_eq_nil_iff.mpr (List.filter_eq_nil_iff.mpr fun e he heq => ?_)
  exact (hP.dispatched e he).1.ne (of_decide_eq_true heq)

theorem times_of_dispatch {node : ℕ} {now : Timespec} (h : t.dispatched = s.dispatched ++ [(node, now)])
    (x : ℕ) : t.times x = s.times x ++ if node = x then [now] else [] := by
  rw [times, times, h, List.filter_append, List.map_append]
  by_cases hx : node = x <;> simp [hx]

theorem Cadent.step (hI : Inv s l) (hP : Paced s) (hC : Cadent s) {lab : SchedulingLabel}
    (h : step s lab = some t) : Cadent t := by
  intro c hc hn
  cases (hI.step h).2 with
  | quiet hbrk hpay hsch hdis =>
    rw [times_of_dispatched hdis, nextTime, hpay]
    exact hC c (hsch ▸ hc) hn
  | newNode action data interval now hnew hsch hdis =>
    rw [times_of_dispatched hdis]
    rw [hsch] at hc
    rcases List.mem_append.mp hc with hc | hc
    · rw [nextTime, hnew.others _ (hP.allocated c hc).ne]
      exact hC c hc hn
    · obtain rfl := List.mem_singleton.mp hc
      have hnext : t.sched.nextTime s.sched.nodes.brk = tmIncr now interval :=
        congrArg Payload.nextTime hnew.self
      rw [hP.times_brk, hnext, ns_tmIncr]
      exact .nil _
  | rearm node now l l₁ l₂ hr hdue hlt hre hsch hdis =>
    rw [hsch] at hc
    have hruns := hC c hc hn
    rw [times_of_dispatch hdis]
    by_cases hcn : node = c.node
    · subst hcn
      have hnow := hP.passes now (hP.reading now hr)
      have hi : (s.sched.nodes.cell c.node).interval = c.interval := hP.interval c hc
      have htime := hP.normalised _ hlt (hP.interval c hc ▸ hn)
      have hns := ns_rearmedTime (n := s.sched.nodes.cell c.node) hnow htime (hi.symm ▸ hn)
      rw [if_pos rfl, List.map_append, hre.nextTime_self, hns, hi]
      exact hruns.concat ((tmGe_iff_ns hnow htime).mp hdue)
    · rw [if_neg hcn, List.append_nil, hre.nextTime_others (Ne.symm hcn)]
      exact hruns

theorem cadent_of_reachable (h : Lts.Reachable Scheduling.step init s) : Cadent s :=
  (h.invariant (I := fun s => ((∃ l, Inv s l) ∧ Paced s) ∧ Cadent s)
    ⟨⟨⟨[], inv_init⟩, paced_init⟩, by simp [Cadent, init]⟩
    fun _ _ _ ⟨⟨⟨_, hI⟩, hP⟩, hC⟩ hs => ⟨⟨(hI.step hs).1, hP.step hI hs⟩, hC.step hI hP hs⟩).2

/-- The actions called so far are the dispatches, but for one that is about to be called. -/
theorem times_eq (s : Scheduling) (x : ℕ) :
    s.times x = s.executions x ++ (s.scheduler.calling.filter fun e => e.1 = x).map Prod.snd := by
  rw [times, dispatched, List.filter_append, List.map_append, executions]

/-! ## The rate -/

/-- In no stretch of `m` intervals, as the passes read the clock, is the action of a node called more than
    `m + 1` times. -/
theorem executions_in_window (h : Lts.Reachable Scheduling.step init s) (c : Scheduled)
    (hc : c ∈ s.hist.scheduled) (hn : c.interval.Normalised) (hpos : 0 < c.interval.ns) (a : ℤ) (m : ℕ) :
    ((s.executions c.node).filter fun now => a ≤ now.ns ∧ now.ns ≤ a + m * c.interval.ns).length ≤
      m + 1 := by
  have hle := (cadent_of_reachable h c hc hn).length_filter_le hpos a m
  rw [times_eq, List.map_append, List.filter_append, List.length_append, List.filter_map,
    List.length_map] at hle
  simp only [nsmul_eq_mul] at hle
  exact (Nat.le_add_right _ _).trans hle

/-- A time of the clock, in tenths of a second. -/
def tenths (k : ℕ) : ClockTime :=
  ⟨⟨(k / 10 : ℕ), (k % 10 * 100000000 : ℕ)⟩, by
    simp only [Timespec.Normalised]
    omega⟩

/-- A node with an interval of one second is run at 1 second and, half a second late, at 2.5 seconds. At 2.6
    seconds there is nothing to do and the thread waits. -/
def gridRun : List SchedulingLabel :=
  [.newNode .serveSchedulerQuery 0 ⟨1, 0⟩ (tenths 0), .insert 0, .lock, .clock (tenths 10), .inner, .call, .lock,
    .inner, .clock (tenths 25), .inner, .call, .lock, .inner, .clock (tenths 26), .inner]

/-! ## The grid -/

/-- The pass in progress goes by the last clock reading, and so has the one before a wait, which ends later. -/
structure Fresh (s : Scheduling) : Prop where
  reading : ∀ now ∈ s.scheduler.reading, s.hist.passes.getLast? = some now
  waiting : ∀ deadline, s.scheduler = .waiting deadline →
    ∃ now, s.hist.passes.getLast? = some now ∧ ∀ d ∈ deadline, tmGe now d = false

/-- A step that reads no clock and after which the thread waits only if it did before. -/
theorem Fresh.goto (hF : Fresh s) (hp : t.hist.passes = s.hist.passes)
    (hr : ∀ now ∈ t.scheduler.reading, now ∈ s.scheduler.reading)
    (hw : ∀ deadline, t.scheduler = .waiting deadline → s.scheduler = .waiting deadline) : Fresh t where
  reading now hn := by
    rw [hp]
    exact hF.reading now (hr now hn)
  waiting deadline hd := by
    rw [hp]
    exact hF.waiting deadline (hw deadline hd)

theorem Fresh.inner (hI : Inv s l) (hF : Fresh s) (h : step s .inner = some t) : Fresh t := by
  simp only [Scheduling.step] at h
  split at h <;> [rename_i now didSomething hpc; cases h]
  have hlast : s.hist.passes.getLast? = some now := hF.reading now (by rw [hpc]; rfl)
  simp only [innerStep] at h
  by_cases hdue : ∀ x ∈ l.head?, s.sched.due now x = false
  · rw [hI.repr.rearmFirst_none now hdue] at h
    obtain rfl := Option.some.inj h
    cases didSomething with
    | true => exact ⟨by simp [RunPc.reading], by simp⟩
    | false =>
      refine ⟨by simp [RunPc.reading], fun deadline hd => ⟨now, hlast, fun d hd' => ?_⟩⟩
      -- the deadline is the time of the first node, which is not due
      obtain rfl := RunPc.waiting.inj hd
      obtain ⟨x, hx, rfl⟩ := Option.map_eq_some_iff.mp hd'
      exact hdue x (hI.repr.first_eq ▸ hx)
  · cases l with
    | nil => simp at hdue
    | cons x l =>
      have hdue : s.sched.due now x = true := by simpa using hdue
      obtain ⟨st', l₁, l₂, heq, -⟩ := hI.repr.rearmFirst_some now hdue
      rw [heq] at h
      obtain rfl := Option.some.inj h
      exact hF.goto rfl (by rw [hpc]; exact fun _ h => h) (by simp)

theorem Fresh.step (hI : Inv s l) (hF : Fresh s) {lab : SchedulingLabel} (h : step s lab = some t) :
    Fresh t := by
  cases lab with
  | newNode action data interval now =>
    obtain rfl := Option.some.inj h
    exact hF.goto rfl (fun _ h => h) fun _ h => h
  | insert node =>
    simp only [Scheduling.step] at h
    split at h <;> [skip; cases h]
    obtain ⟨sched, -, rfl⟩ := Option.map_eq_some_iff.mp h
    by_cases hfirst : sched.first ≠ s.sched.first
    · simp only [if_pos hfirst]
      refine hF.goto rfl (fun now hn => ?_) fun deadline hd => ?_
      · exact RunPc.reading_signal s.scheduler ▸ hn
      · exact absurd hd (RunPc.signal_ne_waiting _ _)
    · simp only [if_neg hfirst]
      exact hF.goto rfl (fun _ h => h) fun _ h => h
  | clock now =>
    simp only [Scheduling.step] at h
    split at h <;> cases h
    refine ⟨fun now' hn => ?_, by simp⟩
    rw [List.getLast?_concat]
    exact hn
  | inner => exact hF.inner hI h
  | lock =>
    simp only [Scheduling.step] at h
    split at h <;> [rename_i hpc; rename_i now hpc; cases h] <;> obtain rfl := Option.some.inj h
    · exact hF.goto rfl (by simp [RunPc.reading]) (by simp)
    · exact hF.goto rfl (by rw [hpc]; exact fun _ h => h) (by simp)
  | call =>
    simp only [Scheduling.step] at h
    split at h <;> [rename_i node now hpc; cases h]
    obtain rfl := Option.some.inj h
    exact hF.goto rfl (by rw [hpc]; exact fun _ h => h) (by simp)
  | wake =>
    simp only [Scheduling.step] at h
    split at h <;> cases h
    exact hF.goto rfl (by simp [RunPc.reading]) (by simp)
  | remove handler | free handler =>
    simp only [Scheduling.step] at h
    split at h <;> cases h
    exact hF.goto rfl (fun _ h => h) fun _ h => h

/-- The node `x` has been taken out of the list. -/
structure Gone (s : Scheduling) (x : ℕ) : Prop where
  allocated : x < s.sched.nodes.brk
  pending : x ∉ s.pending
  handlers : x ∉ s.handlers

/-- No step puts a node back into the list. -/
theorem Gone.step {x : ℕ} (hI : Inv s l) (hG : Gone s x) {lab : SchedulingLabel}
    (h : step s lab = some t) : Gone t x := by
  have hbrk : x < t.sched.nodes.brk := by
    cases (hI.step h).2 with
    | quiet hbrk => exact hbrk ▸ hG.allocated
    | newNode action data interval now hnew => exact hnew.brk ▸ Nat.lt_succ_of_lt hG.allocated
    | rearm node now l l₁ l₂ hr hdue hlt hre => exact hre.brk ▸ hG.allocated
  cases lab with
  | newNode action data interval now =>
    obtain rfl := Option.some.inj h
    refine ⟨hbrk, fun hp => ?_, hG.handlers⟩
    rcases Finset.mem_insert.mp hp with rfl | hp
    · exact hG.allocated.false
    · exact hG.pending hp
  | insert node =>
    simp only [Scheduling.step] at h
    split at h <;> [rename_i hok; cases h]
    obtain ⟨sched, -, rfl⟩ := Option.map_eq_some_iff.mp h
    refine ⟨hbrk, fun hp => hG.pending (Finset.mem_of_mem_erase hp), fun hh => ?_⟩
    rcases Finset.mem_insert.mp hh with rfl | hh
    · exact hG.pending hok.1
    · exact hG.handlers hh
  | remove handler =>
    simp only [Scheduling.step] at h
    split at h <;> cases h
    exact ⟨hbrk, hG.pending, fun hh => hG.handlers (Finset.mem_of_mem_erase hh)⟩
  | inner =>
    simp only [Scheduling.step] at h
    split at h <;> [skip; cases h]
    simp only [innerStep] at h
    split at h <;> cases h <;> exact ⟨hbrk, hG.pending, hG.handlers⟩
  | _ =>
    simp only [Scheduling.step] at h
    split at h <;> cases h <;> exact ⟨hbrk, hG.pending, hG.handlers⟩

theorem Gone.not_mem {x : ℕ} (hI : Inv s l) (hG : Gone s x) : x ∉ l := fun hx =>
  hG.handlers ((hI.handlers x).mpr hx)

/-- A node that is out of the list is not dispatched. -/
theorem Gone.times {x : ℕ} (hI : Inv s l) (hG : Gone s x) {lab : SchedulingLabel}
    (h : Scheduling.step s lab = some t) : t.times x = s.times x := by
  obtain ⟨⟨l', hT⟩, heff⟩ := hI.step h
  cases heff with
  | quiet _ _ _ hdis => exact times_of_dispatched hdis x
  | newNode _ _ _ _ _ _ hdis => exact times_of_dispatched hdis x
  | rearm node now l l₁ l₂ hr hdue hlt hre hsch hdis =>
    have hne : node ≠ x := by
      rintro rfl
      refine (hG.step hI h).not_mem hT ?_
      rw [← hT.repr.list_eq, hre.repr.list_eq]
      simp
    rw [times_of_dispatch hdis, if_neg hne, List.append_nil]

end Scheduling

end Afdx
