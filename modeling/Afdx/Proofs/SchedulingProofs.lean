import Afdx.Proofs.PassProofs
import Afdx.Scheduling

/-!
# The scheduler under any interleaving

The list stays sorted through all calls, and while the scheduler thread waits no node is due before its
deadline: `schedule_ts` signals whenever the new node becomes the first one. A node is due no earlier than
its interval allows, counted from the call that scheduled it.
-/

namespace Afdx

/-- The clock reading of the pass in progress. -/
def RunPc.reading : RunPc → Option Timespec
  | inner now _ | call _ now | relock now => some now
  | _ => none

/-- The action about to be called. -/
def RunPc.calling : RunPc → List (ℕ × Timespec)
  | call node now => [(node, now)]
  | _ => []

theorem RunPc.calling_signal (pc : RunPc) : pc.signal.calling = pc.calling := by cases pc <;> rfl

theorem RunPc.reading_signal (pc : RunPc) : pc.signal.reading = pc.reading := by cases pc <;> rfl

theorem RunPc.signal_ne_waiting (pc : RunPc) (deadline : Option Timespec) :
    pc.signal ≠ .waiting deadline := by cases pc <;> simp [RunPc.signal]

namespace Scheduling

open Sched

variable {s t : Scheduling} {l : List ℕ}

/-- The nodes dispatched: their actions have been called or are about to be. -/
def dispatched (s : Scheduling) : List (ℕ × Timespec) := s.hist.executed ++ s.scheduler.calling

/-- The invariant of the scheduler with the list `l`. -/
structure Inv (s : Scheduling) (l : List ℕ) : Prop where
  repr : s.sched.Repr l
  sorted : s.sched.Sorted l
  handlers : ∀ x, x ∈ s.handlers ↔ x ∈ l
  pending : ∀ x ∈ s.pending, x ∈ s.sched.nodes.live ∧ x ∉ l ∧ x ∉ s.removed
  removed : ∀ x ∈ s.removed, x ∉ l ∧ x < s.sched.nodes.brk
  waiting : ∀ deadline, s.scheduler = .waiting deadline →
    (deadline = none → l = []) ∧ ∀ d ∈ deadline, ∀ x ∈ l, tmGe (s.sched.nextTime x) d = true

/-- What a step does to the nodes, and what it dispatches. -/
inductive Effect (s t : Scheduling) : Prop
  /-- No node changes and none is dispatched. -/
  | quiet (brk : t.sched.nodes.brk = s.sched.nodes.brk)
      (payload : ∀ x, t.sched.payload x = s.sched.payload x)
      (scheduled : t.hist.scheduled = s.hist.scheduled) (dispatched : t.dispatched = s.dispatched)
  /-- `schedule_ts` makes a node. -/
  | newNode (action : Action) (data : ℕ) (interval : Timespec) (now : ClockTime)
      (new : NewNode s.sched ⟨interval, tmIncr now interval, action, data⟩ t.sched)
      (scheduled : t.hist.scheduled = s.hist.scheduled ++ [⟨s.sched.nodes.brk, interval, now⟩])
      (dispatched : t.dispatched = s.dispatched)
  /-- `scheduler_run` re-arms a node that is due, and dispatches it. -/
  | rearm (node : ℕ) (now : Timespec) (l l₁ l₂ : List ℕ) (reading : s.scheduler.reading = some now)
      (due : s.sched.due now node = true) (mem : node < s.sched.nodes.brk)
      (rearm : Rearm now s.sched node l t.sched l₁ l₂)
      (scheduled : t.hist.scheduled = s.hist.scheduled)
      (dispatched : t.dispatched = s.dispatched ++ [(node, now)])

theorem inv_init : Inv init [] where
  repr := repr_init
  sorted := List.Pairwise.nil
  handlers := by simp [init]
  pending := by simp [init]
  removed := by simp [init]
  waiting := by simp [init]

/-! ## The steps of the callers -/

theorem Inv.newNode (hI : Inv s l) {action : Action} {data : ℕ} {interval : Timespec} {now : ClockTime}
    (h : step s (.newNode action data interval now) = some t) : Inv t l ∧ Effect s t := by
  obtain rfl := Option.some.inj h
  obtain ⟨hr, hnew⟩ := hI.repr.newNode action data interval now.1
  have hx := hI.repr.brk_not_mem
  have hsame : ∀ x ∈ l, (Afdx.newNode s.sched action data interval now.1).2.nextTime x =
      s.sched.nextTime x := fun x hxl =>
    congrArg Payload.nextTime (hnew.others x fun hxb => hx (hxb ▸ hxl))
  refine ⟨⟨hr, hI.sorted.congr hsame, hI.handlers, fun x hxp => ?_, fun x hxr => ?_, fun d hd => ?_⟩,
    .newNode action data interval now hnew rfl rfl⟩
  · rcases Finset.mem_insert.mp hxp with rfl | hxp
    · exact ⟨Finset.mem_insert_self _ _, hx, fun hxr => (hI.removed _ hxr).2.false⟩
    · obtain ⟨hlive, hrest⟩ := hI.pending x hxp
      exact ⟨Finset.mem_insert_of_mem hlive, hrest⟩
  · exact ⟨(hI.removed x hxr).1, Nat.lt_succ_of_lt (hI.removed x hxr).2⟩
  · obtain ⟨hnone, hsome⟩ := hI.waiting d hd
    refine ⟨hnone, fun d' hd' x hxl => ?_⟩
    have hge := hsome d' hd' x hxl
    rwa [← hsame x hxl] at hge

/-- The critical section of `schedule_ts`. If it does not signal, the new node stands behind another one,
    so that the deadline of a scheduler that waits is right for it too. -/
theorem Inv.insert (hI : Inv s l) {node : ℕ} (h : step s (.insert node) = some t) :
    (∃ l', Inv t l') ∧ Effect s t := by
  simp only [step] at h
  split at h <;> [rename_i hok; cases h]
  obtain ⟨sched, hins, rfl⟩ := Option.map_eq_some_iff.mp h
  obtain ⟨hlive, hnl, hnr⟩ := hI.pending node hok.1
  obtain ⟨st', l₁, l₂, hins', rfl, hle, hgt, hr, hs⟩ := hI.repr.insertNode hnl hlive
  obtain rfl : st' = sched := Option.some.inj (hins'.symm.trans hins)
  have htime : ∀ x, st'.nextTime x = s.sched.nextTime x := fun x =>
    congrArg Payload.nextTime (hs.payload x)
  have hsorted : st'.Sorted (l₁ ++ l₂) := hI.sorted.congr fun x _ => htime x
  refine ⟨⟨l₁ ++ node :: l₂, hr, hsorted.insert ?_ ?_, fun x => ?_, fun x hx => ?_, fun x hx => ?_,
    fun d hd => ?_⟩, .quiet hs.brk hs.payload rfl ?_⟩
  · intro y hy
    rw [htime, htime]
    exact hle y hy
  · intro y hy
    rw [htime, htime]
    exact hgt y hy
  · rw [Finset.mem_insert, hI.handlers, List.perm_middle.mem_iff, List.mem_cons]
  · obtain ⟨hne, hx⟩ := Finset.mem_erase.mp hx
    obtain ⟨hxlive, hxl, hxr⟩ := hI.pending x hx
    refine ⟨hs.live ▸ hxlive, fun hm => ?_, hxr⟩
    exact (List.mem_cons.mp (List.perm_middle.mem_iff.mp hm)).elim hne hxl
  · obtain ⟨hxl, hlt⟩ := hI.removed x hx
    refine ⟨fun hm => ?_, hs.brk ▸ hlt⟩
    rcases List.mem_cons.mp (List.perm_middle.mem_iff.mp hm) with rfl | hm
    · exact hnr hx
    · exact hxl hm
  · simp only at hd
    split at hd
    · exact absurd hd (RunPc.signal_ne_waiting _ _)
    rename_i hfirst
    obtain ⟨a, l₁, rfl⟩ : ∃ a l₁', l₁ = a :: l₁' := by
      cases l₁ with
      | nil =>
        refine absurd ?_ hfirst
        rw [hr.first_eq, hI.repr.first_eq]
        intro heq
        exact hnl (List.mem_of_head? heq.symm)
      | cons a l₁ => exact ⟨a, l₁, rfl⟩
    obtain ⟨hnone, hsome⟩ := hI.waiting d hd
    refine ⟨fun hd' => absurd (hnone hd') (by simp), fun d' hd' x hx => ?_⟩
    rw [htime]
    rcases List.mem_cons.mp (List.perm_middle.mem_iff.mp hx) with rfl | hx
    · exact tmGe_trans (hle a (by simp)) (hsome d' hd' a (by simp))
    · exact hsome d' hd' x hx
  · simp only [dispatched]
    split
    · rw [RunPc.calling_signal]
    · rfl

theorem Inv.remove (hI : Inv s l) {handler : ℕ} (h : step s (.remove handler) = some t) :
    (∃ l', Inv t l') ∧ Effect s t := by
  simp only [step] at h
  split at h <;> [rename_i hok; cases h]
  obtain rfl := Option.some.inj h
  obtain ⟨l₁, l₂, rfl⟩ := List.append_of_mem ((hI.handlers handler).mp hok.1)
  obtain ⟨hr, hs⟩ := hI.repr.removeNode
  have hx := (List.nodup_cons.mp (List.nodup_middle.mp hI.repr.nodup)).1
  have hmem : ∀ x, x ∈ l₁ ++ handler :: l₂ ↔ x = handler ∨ x ∈ l₁ ++ l₂ := fun x => by
    rw [List.perm_middle.mem_iff, List.mem_cons]
  have htime : ∀ x, (removeNode s.sched handler).nextTime x = s.sched.nextTime x := fun x =>
    congrArg Payload.nextTime (hs.payload x)
  refine ⟨⟨l₁ ++ l₂, hr, hI.sorted.remove.congr fun x _ => htime x, fun x => ?_,
    fun x hxp => ?_, fun x hxr => ?_, fun d hd => ?_⟩, .quiet hs.brk hs.payload rfl rfl⟩
  · rw [Finset.mem_erase, hI.handlers, hmem]
    refine ⟨fun h => h.2.resolve_left h.1, fun h => ⟨fun hxh => hx (hxh ▸ h), .inr h⟩⟩
  · obtain ⟨hlive, hxl, hnr⟩ := hI.pending x hxp
    rw [hmem, not_or] at hxl
    refine ⟨hs.live ▸ hlive, hxl.2, ?_⟩
    rw [Finset.mem_insert, not_or]
    exact ⟨hxl.1, hnr⟩
  · rw [hs.brk]
    rcases Finset.mem_insert.mp hxr with rfl | hxr
    · exact ⟨hx, s.sched.nodes.live_lt _ (hI.repr.live _ (by simp))⟩
    · obtain ⟨hxl, hlt⟩ := hI.removed x hxr
      exact ⟨fun hm => hxl ((hmem x).mpr (.inr hm)), hlt⟩
  · obtain ⟨hnone, hsome⟩ := hI.waiting d hd
    refine ⟨fun hd' => absurd (hnone hd') (by simp), fun d' hd' x hx => ?_⟩
    rw [htime]
    exact hsome d' hd' x ((hmem x).mpr (.inr hx))

theorem Inv.free (hI : Inv s l) {handler : ℕ} (h : step s (.free handler) = some t) :
    Inv t l ∧ Effect s t := by
  simp only [step] at h
  split at h <;> [rename_i hok; cases h]
  obtain rfl := Option.some.inj h
  have hx := (hI.removed handler hok).1
  refine ⟨⟨hI.repr.congr rfl rfl (fun _ _ => ⟨rfl, rfl⟩) fun x hxl => ?_, hI.sorted, hI.handlers,
    fun x hxp => ?_, fun x hxr => hI.removed x (Finset.mem_of_mem_erase hxr), hI.waiting⟩,
    .quiet rfl (fun _ => rfl) rfl rfl⟩
  · exact (Heap.mem_free_live ..).mpr ⟨fun hxh => hx (hxh ▸ hxl), hI.repr.live x hxl⟩
  · obtain ⟨hlive, hxl, hnr⟩ := hI.pending x hxp
    have hne : x ≠ handler := fun hxh => hnr (hxh ▸ hok)
    exact ⟨(Heap.mem_free_live ..).mpr ⟨hne, hlive⟩, hxl, fun hxr => hnr (Finset.mem_of_mem_erase hxr)⟩

/-! ## The steps of `scheduler_run` -/

/-- The scheduler thread goes on, but does not begin to wait. -/
theorem Inv.goto (hI : Inv s l) {pc : RunPc} (hpc : ∀ deadline, pc ≠ .waiting deadline)
    (hist : SchedulingHist) : Inv { s with scheduler := pc, hist := hist } l :=
  { hI with
    repr := hI.repr
    handlers := hI.handlers
    pending := hI.pending
    removed := hI.removed
    waiting := fun d hd => absurd hd (hpc d) }

/-- The head of the inner loop: the first node is dispatched if it is due. If it is not, and no other was
    before it in this pass, the deadline is its time, which no node of the list is due before. -/
theorem Inv.inner (hI : Inv s l) (h : step s .inner = some t) : (∃ l', Inv t l') ∧ Effect s t := by
  simp only [step] at h
  split at h <;> [rename_i now didSomething hpc; cases h]
  simp only [innerStep] at h
  by_cases hdue : ∀ x ∈ l.head?, s.sched.due now x = false
  · rw [hI.repr.rearmFirst_none now hdue] at h
    obtain rfl := Option.some.inj h
    refine ⟨⟨l, hI.repr, hI.sorted, hI.handlers, hI.pending, hI.removed, fun d hd => ?_⟩,
      .quiet rfl (fun _ => rfl) rfl ?_⟩
    · simp only at hd
      split at hd
      · cases hd
      obtain rfl := RunPc.waiting.inj hd
      rw [hI.repr.first_eq]
      cases l with
      | nil => simp
      | cons x l =>
        refine ⟨by simp, ?_⟩
        rintro _ ⟨⟩
        exact Ordered.le_of_head (r := s.sched.NoLater) hI.sorted
          (by rintro _ ⟨⟩; exact tmGe_refl _)
    · simp only [dispatched, hpc]
      split <;> rfl
  · cases l with
    | nil => simp at hdue
    | cons x l =>
      have hdue : s.sched.due now x = true := by simpa using hdue
      obtain ⟨st', l₁, l₂, heq, hr⟩ := hI.repr.rearmFirst_some now hdue
      rw [heq] at h
      obtain rfl := Option.some.inj h
      refine ⟨⟨l₁ ++ x :: l₂, hr.repr, hI.sorted.rearm hr, fun y => ?_, fun y hy => ?_, fun y hy => ?_,
        by simp⟩, .rearm x now l l₁ l₂ (by rw [hpc]; rfl) hdue
          (s.sched.nodes.live_lt x (hI.repr.live x (by simp))) hr rfl ?_⟩
      · rw [hr.mem_iff]
        exact hI.handlers y
      · rw [hr.live, hr.mem_iff]
        exact hI.pending y hy
      · rw [hr.brk, hr.mem_iff]
        exact hI.removed y hy
      · simp [dispatched, hpc, RunPc.calling]

/-- The scheduler thread goes on and dispatches nothing. -/
theorem Inv.quiet (hI : Inv s l) {pc : RunPc} {hist : SchedulingHist}
    (hpc : ∀ deadline, pc ≠ .waiting deadline) (hs : hist.scheduled = s.hist.scheduled)
    (hd : hist.executed ++ pc.calling = s.dispatched) :
    (∃ l', Inv { s with scheduler := pc, hist := hist } l') ∧
      Effect s { s with scheduler := pc, hist := hist } :=
  ⟨⟨l, hI.goto hpc hist⟩, .quiet rfl (fun _ => rfl) hs hd⟩

/-- Every step keeps the invariant and has one of the effects. -/
theorem Inv.step (hI : Inv s l) {lab : SchedulingLabel} (h : step s lab = some t) :
    (∃ l', Inv t l') ∧ Effect s t := by
  cases lab with
  | newNode action data interval now => exact (hI.newNode h).imp_left fun hI => ⟨l, hI⟩
  | insert node => exact hI.insert h
  | remove handler => exact hI.remove h
  | free handler => exact (hI.free h).imp_left fun hI => ⟨l, hI⟩
  | inner => exact hI.inner h
  | lock =>
    simp only [Scheduling.step] at h
    split at h <;> [rename_i hpc; rename_i now hpc; cases h] <;> obtain rfl := Option.some.inj h
    · exact hI.quiet (by simp) rfl (by simp [dispatched, hpc, RunPc.calling])
    · exact hI.quiet (by simp) rfl (by simp [dispatched, hpc, RunPc.calling])
  | clock now =>
    simp only [Scheduling.step] at h
    split at h <;> [rename_i hpc; cases h]
    obtain rfl := Option.some.inj h
    exact hI.quiet (by simp) rfl (by simp [dispatched, hpc, RunPc.calling])
  | call =>
    simp only [Scheduling.step] at h
    split at h <;> [rename_i node now hpc; cases h]
    obtain rfl := Option.some.inj h
    exact hI.quiet (by simp) rfl (by simp [dispatched, hpc, RunPc.calling])
  | wake =>
    simp only [Scheduling.step] at h
    split at h <;> [rename_i d hpc; cases h]
    obtain rfl := Option.some.inj h
    exact hI.quiet (by simp) rfl (by simp [dispatched, hpc, RunPc.calling])

theorem inv_of_reachable (h : Lts.Reachable Scheduling.step init s) : ∃ l, Inv s l :=
  h.invariant (I := fun s => ∃ l, Inv s l) ⟨[], inv_init⟩ fun _ _ _ ⟨_, hI⟩ hs => (hI.step hs).1

/-! ## The inner loop -/

/-- A step of `scheduler_run` in a pass. -/
def inPass (_ : Scheduling) : SchedulingLabel → Bool
  | .inner | .call | .lock => true
  | _ => false

/-- What `innerLoop` computes is what `scheduler_run` does up to the end of the inner loop, if no caller
    comes in between. -/
theorem innerLoop_runs {now : Timespec} {didSomething : Bool} {ran : List ℕ} {st : Sched} {fuel : ℕ}
    (h : innerLoop now fuel s.sched = some (ran, st)) (hpc : s.scheduler = .inner now didSomething) :
    ∃ t, Lts.Reachable (Lts.restrict step inPass) s t ∧ t.sched = st ∧ t.scheduler.reading = none ∧
      t.hist.executed = s.hist.executed ++ ran.map fun x => (x, now) := by
  induction fuel generalizing s didSomething ran with
  | zero => cases h
  | succ fuel ih =>
    rw [innerLoop] at h
    have hstep : Lts.restrict step inPass s .inner = s.innerStep now didSomething := by
      simp only [Lts.restrict, inPass, if_true, step, hpc]
    unfold innerStep at hstep
    split at h
    · cases h
    · rename_i st₁ heq
      obtain ⟨rfl, rfl⟩ : ran = [] ∧ st₁ = st := by simpa [eq_comm] using h
      rw [heq] at hstep
      refine ⟨_, .single hstep, rfl, ?_, (List.append_nil _).symm⟩
      cases didSomething <;> rfl
    · rename_i node st₁ heq
      obtain ⟨⟨ran', st'⟩, hloop, heq'⟩ := Option.map_eq_some_iff.mp h
      obtain ⟨rfl, rfl⟩ : node :: ran' = ran ∧ st' = st := by simpa using heq'
      rw [heq] at hstep
      obtain ⟨t, hreach, hsched, hread, hexec⟩ := ih (s := { s with
        sched := st₁, scheduler := .inner now true
        hist := { s.hist with executed := s.hist.executed ++ [(node, now)] } }) hloop rfl
      refine ⟨t, ?_, hsched, hread, by simpa using hexec⟩
      exact (((Lts.Reachable.single hstep).tail (l := .call) rfl).tail (l := .lock) rfl).trans hreach

/-! ## Pace -/

/-- What a node that is scheduled at `t₀` every `i` nanoseconds has been dispatched at, and when it is
    due next: the dispatch number `k` comes no earlier than `k` intervals after `t₀`. -/
structure OnPace (t₀ i : ℤ) (times : List Timespec) (next : Timespec) : Prop where
  next : t₀ + (times.length + 1) * i ≤ next.ns
  times : ∀ k, (h : k < times.length) → t₀ + (k + 1) * i ≤ (times[k]).ns

theorem OnPace.dispatch {t₀ i : ℤ} {times : List Timespec} {next next' now : Timespec}
    (h : OnPace t₀ i times next) (hdue : next.ns ≤ now.ns) (hnext : next.ns + i ≤ next'.ns) :
    OnPace t₀ i (times ++ [now]) next' := by
  have hn := h.next
  refine ⟨?_, fun k hk => ?_⟩
  · rw [List.length_append, List.length_singleton]
    push_cast
    rw [Int.add_mul _ 1 i, Int.one_mul]
    omega
  · by_cases hlt : k < times.length
    · rw [List.getElem_append_left hlt]
      exact h.times k hlt
    · obtain rfl : k = times.length := by
        rw [List.length_append, List.length_singleton] at hk
        omega
      rw [List.getElem_concat_length rfl]
      omega

/-- The times at which the node has been dispatched. -/
def times (s : Scheduling) (node : ℕ) : List Timespec :=
  (s.dispatched.filter fun e => e.1 = node).map Prod.snd

/-- What is known of the times of the nodes. -/
structure Paced (s : Scheduling) : Prop where
  allocated : ∀ c ∈ s.hist.scheduled, c.node < s.sched.nodes.brk
  dispatched : ∀ e ∈ s.dispatched, e.1 < s.sched.nodes.brk ∧ e.2 ∈ s.hist.passes
  passes : ∀ now ∈ s.hist.passes, now.Normalised
  reading : ∀ now ∈ s.scheduler.reading, now ∈ s.hist.passes
  scheduled : ∀ x < s.sched.nodes.brk,
    ∃ c ∈ s.hist.scheduled, c.node = x ∧ c.interval = (s.sched.payload x).interval
  interval : ∀ c ∈ s.hist.scheduled, (s.sched.payload c.node).interval = c.interval
  normalised : ∀ x < s.sched.nodes.brk, (s.sched.payload x).interval.Normalised →
    (s.sched.nextTime x).Normalised
  pace : ∀ c ∈ s.hist.scheduled, c.interval.Normalised →
    OnPace c.time.ns c.interval.ns (s.times c.node) (s.sched.nextTime c.node)

/-- As long as all intervals are normalised, so are the times of all nodes ever made, those out of the
    list among them. -/
theorem Paced.normalised_nextTime (hP : Paced s) (hn : ∀ c ∈ s.hist.scheduled, c.interval.Normalised) :
    ∀ x < s.sched.nodes.brk, (s.sched.nextTime x).Normalised := by
  intro x hx
  obtain ⟨c, hc, -, hi⟩ := hP.scheduled x hx
  apply hP.normalised x hx
  rw [← hi]
  exact hn c hc

theorem paced_init : Paced init := by
  constructor <;> simp [init, Scheduling.dispatched, RunPc.calling, RunPc.reading, Sched.init, Heap.empty]

/-- The clock readings that a step adds are normalised, and the pass in progress is among them. -/
theorem passes_step {lab : SchedulingLabel} (h : step s lab = some t) :
    s.hist.passes ⊆ t.hist.passes ∧ (∀ now ∈ t.hist.passes, now ∈ s.hist.passes ∨ now.Normalised) ∧
      ∀ now ∈ t.scheduler.reading, now ∈ s.scheduler.reading ∨ now ∈ t.hist.passes := by
  have hsame : ∀ {t : Scheduling}, t.hist.passes = s.hist.passes →
      t.scheduler.reading = s.scheduler.reading ∨ t.scheduler.reading = none →
      s.hist.passes ⊆ t.hist.passes ∧ (∀ now ∈ t.hist.passes, now ∈ s.hist.passes ∨ now.Normalised) ∧
        ∀ now ∈ t.scheduler.reading, now ∈ s.scheduler.reading ∨ now ∈ t.hist.passes := by
    intro t hp hr
    refine ⟨fun now hn => hp ▸ hn, fun now hn => .inl (hp ▸ hn), fun now hn => ?_⟩
    rcases hr with hr | hr
    · exact .inl (hr ▸ hn)
    · rw [hr] at hn
      cases hn
  cases lab with
  | newNode action data interval now =>
    obtain rfl := Option.some.inj h
    exact hsame rfl (.inl rfl)
  | insert node =>
    simp only [step] at h
    split at h <;> [skip; cases h]
    obtain ⟨sched, -, rfl⟩ := Option.map_eq_some_iff.mp h
    refine hsame rfl (.inl ?_)
    simp only
    split
    · exact RunPc.reading_signal _
    · rfl
  | remove handler =>
    simp only [step] at h
    split at h <;> cases h
    exact hsame rfl (.inl rfl)
  | free handler =>
    simp only [step] at h
    split at h <;> cases h
    exact hsame rfl (.inl rfl)
  | clock now =>
    simp only [step] at h
    split at h <;> cases h
    refine ⟨List.subset_append_left .., fun now' hn => ?_, fun now' hn => .inr ?_⟩
    · rcases List.mem_append.mp hn with hn | hn
      · exact .inl hn
      · exact .inr (List.mem_singleton.mp hn ▸ now.2)
    · obtain rfl := Option.some.inj hn
      exact List.mem_append_right _ (List.mem_singleton_self _)
  | inner =>
    simp only [step] at h
    split at h <;> [rename_i now didSomething hpc; cases h]
    simp only [innerStep] at h
    split at h
    · cases h
    · obtain rfl := Option.some.inj h
      exact hsame rfl (.inl (by rw [hpc]; rfl))
    · obtain rfl := Option.some.inj h
      refine hsame rfl (.inr ?_)
      cases didSomething <;> rfl
  | lock =>
    simp only [step] at h
    split at h <;> [rename_i hpc; rename_i now hpc; cases h] <;> obtain rfl := Option.some.inj h
    · exact hsame rfl (.inr rfl)
    · exact hsame rfl (.inl (by rw [hpc]; rfl))
  | call =>
    simp only [step] at h
    split at h <;> [rename_i node now hpc; cases h]
    obtain rfl := Option.some.inj h
    exact hsame rfl (.inl (by rw [hpc]; rfl))
  | wake =>
    simp only [step] at h
    split at h <;> cases h
    exact hsame rfl (.inr rfl)

theorem times_of_dispatched (h : t.dispatched = s.dispatched) (x : ℕ) : t.times x = s.times x := by
  rw [times, times, h]

/-- A step that leaves the nodes alone. -/
theorem Paced.of_quiet (hP : Paced s) (hbrk : t.sched.nodes.brk = s.sched.nodes.brk)
    (hpay : ∀ x, t.sched.payload x = s.sched.payload x) (hsch : t.hist.scheduled = s.hist.scheduled)
    (hdis : t.dispatched = s.dispatched) (hsub : s.hist.passes ⊆ t.hist.passes)
    (hnorm : ∀ now ∈ t.hist.passes, now.Normalised)
    (hread : ∀ now ∈ t.scheduler.reading, now ∈ t.hist.passes) : Paced t where
  allocated c hc := by
    rw [hbrk]
    exact hP.allocated c (hsch ▸ hc)
  dispatched e he := by
    rw [hbrk]
    obtain ⟨hlt, hm⟩ := hP.dispatched e (hdis ▸ he)
    exact ⟨hlt, hsub hm⟩
  passes := hnorm
  reading := hread
  scheduled x hx := by
    rw [hsch, hpay]
    exact hP.scheduled x (hbrk ▸ hx)
  interval c hc := by
    rw [hpay]
    exact hP.interval c (hsch ▸ hc)
  normalised x hx := by
    rw [nextTime, hpay]
    exact hP.normalised x (hbrk ▸ hx)
  pace c hc hn := by
    rw [times_of_dispatched hdis, nextTime, hpay]
    exact hP.pace c (hsch ▸ hc) hn

/-- A new node is due one interval after the call. -/
theorem Paced.of_newNode (hP : Paced s) {action : Action} {data : ℕ} {interval : Timespec}
    {now : ClockTime}
    (hnew : NewNode s.sched ⟨interval, tmIncr now interval, action, data⟩ t.sched)
    (hsch : t.hist.scheduled = s.hist.scheduled ++ [⟨s.sched.nodes.brk, interval, now⟩])
    (hdis : t.dispatched = s.dispatched) (hsub : s.hist.passes ⊆ t.hist.passes)
    (hnorm : ∀ now ∈ t.hist.passes, now.Normalised)
    (hread : ∀ now ∈ t.scheduler.reading, now ∈ t.hist.passes) : Paced t := by
  have hold : ∀ x < s.sched.nodes.brk, t.sched.payload x = s.sched.payload x := fun x hx =>
    hnew.others x hx.ne
  have hnext : t.sched.nextTime s.sched.nodes.brk = tmIncr now interval :=
    congrArg Payload.nextTime hnew.self
  have hmem : ∀ c ∈ t.hist.scheduled, c ∈ s.hist.scheduled ∨ c = ⟨s.sched.nodes.brk, interval, now⟩ := by
    intro c hc
    rw [hsch] at hc
    exact (List.mem_append.mp hc).imp_right List.mem_singleton.mp
  refine ⟨fun c hc => ?_, fun e he => ?_, hnorm, hread, fun x hx => ?_, fun c hc => ?_, fun x hx => ?_,
    fun c hc hn => ?_⟩
  · rw [hnew.brk]
    rcases hmem c hc with hc | rfl
    · exact Nat.lt_succ_of_lt (hP.allocated c hc)
    · exact Nat.lt_succ_self _
  · rw [hnew.brk]
    obtain ⟨hlt, hm⟩ := hP.dispatched e (hdis ▸ he)
    exact ⟨Nat.lt_succ_of_lt hlt, hsub hm⟩
  · rw [hsch]
    rcases Nat.lt_succ_iff_lt_or_eq.mp (hnew.brk ▸ hx) with hx | rfl
    · obtain ⟨c, hc, hcx⟩ := hP.scheduled x hx
      exact ⟨c, List.mem_append_left _ hc, by rwa [hold x hx]⟩
    · exact ⟨_, List.mem_append_right _ (List.mem_singleton_self _), rfl, by rw [hnew.self]⟩
  · rcases hmem c hc with hc | rfl
    · rw [hold _ (hP.allocated c hc)]
      exact hP.interval c hc
    · rw [hnew.self]
  · rcases Nat.lt_succ_iff_lt_or_eq.mp (hnew.brk ▸ hx) with hx | rfl
    · rw [nextTime, hold x hx]
      exact hP.normalised x hx
    · rw [hnext, hnew.self]
      exact normalised_tmIncr now.2
  · rw [times_of_dispatched hdis]
    rcases hmem c hc with hc | rfl
    · rw [nextTime, hold _ (hP.allocated c hc)]
      exact hP.pace c hc hn
    · -- no action of the new node has been called yet
      have hnil : s.times s.sched.nodes.brk = [] := by
        refine List.map_eq_nil_iff.mpr (List.filter_eq_nil_iff.mpr fun e he heq => ?_)
        exact (hP.dispatched e he).1.ne (of_decide_eq_true heq)
      rw [hnil, hnext]
      refine ⟨?_, by simp⟩
      rw [ns_tmIncr]
      simp

/-- A node is re-armed when it is due, by at least its interval. -/
theorem Paced.of_rearm (hP : Paced s) {node : ℕ} {now : Timespec} {l l₁ l₂ : List ℕ}
    (hr : s.scheduler.reading = some now) (hdue : s.sched.due now node = true)
    (hlt : node < s.sched.nodes.brk) (hre : Rearm now s.sched node l t.sched l₁ l₂)
    (hsch : t.hist.scheduled = s.hist.scheduled)
    (hdis : t.dispatched = s.dispatched ++ [(node, now)]) (hsub : s.hist.passes ⊆ t.hist.passes)
    (hnorm : ∀ now ∈ t.hist.passes, now.Normalised)
    (hread : ∀ now ∈ t.scheduler.reading, now ∈ t.hist.passes) : Paced t := by
  have hnow := hP.reading now hr
  have hnown := hP.passes now hnow
  refine ⟨fun c hc => ?_, fun e he => ?_, hnorm, hread, fun x hx => ?_, fun c hc => ?_, fun x hx hi => ?_,
    fun c hc hn => ?_⟩
  · rw [hre.brk]
    exact hP.allocated c (hsch ▸ hc)
  · rw [hre.brk]
    rw [hdis] at he
    rcases List.mem_append.mp he with he | he
    · exact (hP.dispatched e he).imp_right fun hm => hsub hm
    · rw [List.mem_singleton.mp he]
      exact ⟨hlt, hsub hnow⟩
  · rw [hsch, hre.interval]
    exact hP.scheduled x (hre.brk ▸ hx)
  · rw [hre.interval]
    exact hP.interval c (hsch ▸ hc)
  · rw [hre.interval] at hi
    have htime := hP.normalised x (hre.brk ▸ hx) hi
    by_cases hxn : x = node
    · subst hxn
      rw [hre.nextTime_self]
      exact normalised_rearmedTime hnown htime hi
    · rwa [hre.nextTime_others hxn]
  · rw [hsch] at hc
    have hpace := hP.pace c hc hn
    have htimes : t.times c.node = s.times c.node ++ if node = c.node then [now] else [] := by
      rw [times, times, hdis, List.filter_append, List.map_append]
      by_cases hcn : node = c.node <;> simp [hcn]
    by_cases hcn : node = c.node
    · subst hcn
      have hi : (s.sched.nodes.cell c.node).interval = c.interval := hP.interval c hc
      have htime := hP.normalised _ hlt ((hP.interval c hc).symm ▸ hn)
      have hle := (tmGe_iff_ns hnown htime).mp hdue
      have hns := ns_rearmedTime (n := s.sched.nodes.cell c.node) hnown htime (hi.symm ▸ hn)
      have htime' : (s.sched.nodes.cell c.node).nextTime = s.sched.nextTime c.node := rfl
      rw [hi, htime'] at hns
      rw [htimes, if_pos rfl, hre.nextTime_self]
      refine hpace.dispatch hle ?_
      rw [hns]
      split_ifs <;> omega
    · rw [htimes, if_neg hcn, List.append_nil, hre.nextTime_others (Ne.symm hcn)]
      exact hpace

theorem Paced.step (hI : Inv s l) (hP : Paced s) {lab : SchedulingLabel} (h : step s lab = some t) :
    Paced t := by
  obtain ⟨hsub, hnew, hread⟩ := passes_step h
  have hnorm : ∀ now ∈ t.hist.passes, now.Normalised := fun now hn =>
    (hnew now hn).elim (hP.passes now) id
  have hread' : ∀ now ∈ t.scheduler.reading, now ∈ t.hist.passes := fun now hn =>
    (hread now hn).elim (fun hn => hsub (hP.reading now hn)) id
  cases (hI.step h).2 with
  | quiet hbrk hpay hsch hdis => exact hP.of_quiet hbrk hpay hsch hdis hsub hnorm hread'
  | newNode action data interval now hn hsch hdis => exact hP.of_newNode hn hsch hdis hsub hnorm hread'
  | rearm node now l l₁ l₂ hr hdue hlt hre hsch hdis =>
    exact hP.of_rearm hr hdue hlt hre hsch hdis hsub hnorm hread'

theorem paced_of_reachable (h : Lts.Reachable Scheduling.step init s) : Paced s :=
  (h.invariant (I := fun s => (∃ l, Inv s l) ∧ Paced s) ⟨⟨[], inv_init⟩, paced_init⟩
    fun _ _ _ ⟨⟨_, hI⟩, hP⟩ hs => ⟨(hI.step hs).1, hP.step hI hs⟩).2

/-- A node scheduled at `t₀` with a positive interval is never run early, if the node that is run is the one that
    was popped: the run number `k` is in a pass that reads a clock no earlier than `k` intervals after `t₀`. So as
    long as no pass has read a clock later than `T`, the node has run no more often than its interval goes into the
    time up to `T`. -/
theorem executed_on_pace (h : Lts.Reachable Scheduling.step init s) (c : Scheduled)
    (hc : c ∈ s.hist.scheduled) (hn : c.interval.Normalised) (hpos : 0 < c.interval.ns) :
    (∀ k, (hk : k < (s.executions c.node).length) → (s.executions c.node)[k] ∈ s.hist.passes ∧
      c.time.ns + (k + 1) * c.interval.ns ≤ ((s.executions c.node)[k]).ns) ∧
    ∀ T : ℤ, c.time.ns ≤ T → (∀ now ∈ s.hist.passes, now.ns ≤ T) →
      ((s.executions c.node).length : ℤ) ≤ (T - c.time.ns) / c.interval.ns := by
  have hP := paced_of_reachable h
  have hpace := hP.pace c hc hn
  have htimes : s.times c.node = s.executions c.node ++
      (s.scheduler.calling.filter fun e => e.1 = c.node).map Prod.snd := by
    rw [times, dispatched, List.filter_append, List.map_append, executions]
  have hmem : ∀ now ∈ s.executions c.node, now ∈ s.hist.passes := fun now hnow => by
    obtain ⟨e, he, rfl⟩ := List.mem_map.mp hnow
    exact (hP.dispatched e (List.mem_append_left _ (List.mem_filter.mp he).1)).2
  have hget : ∀ k, (hk : k < (s.executions c.node).length) →
      c.time.ns + (k + 1) * c.interval.ns ≤ ((s.executions c.node)[k]).ns := fun k hk => by
    have hk' : k < (s.times c.node).length := by
      rw [htimes, List.length_append]
      omega
    have hle := hpace.times k hk'
    simp only [htimes] at hle
    rwa [List.getElem_append_left hk] at hle
  refine ⟨fun k hk => ⟨hmem _ (List.getElem_mem hk), hget k hk⟩, fun T hT hall => ?_⟩
  rw [Int.le_ediv_iff_mul_le hpos]
  cases hlen : (s.executions c.node).length with
  | zero =>
    push_cast
    omega
  | succ k =>
    have hk : k < (s.executions c.node).length := by omega
    have hle := hget k hk
    have hlast := hall _ (hmem _ (List.getElem_mem hk))
    push_cast
    omega

/-- A node with an interval of one second is scheduled at 0 and run at 3 seconds. -/
def lateRun : List SchedulingLabel :=
  [.newNode .serveSchedulerQuery 0 ⟨1, 0⟩ ⟨⟨0, 0⟩, by decide⟩, .insert 0, .lock,
    .clock ⟨⟨3, 0⟩, by decide⟩, .inner, .call]

/-! ## Deadlines -/

/-- The deadline of a wait is the time that the first node has when the wait begins. -/
theorem waiting_step {lab : SchedulingLabel} (h : step s lab = some t) (d : Timespec)
    (hd : t.scheduler = .waiting (some d)) :
    s.scheduler = .waiting (some d) ∨ ∃ x ∈ s.sched.first, d = s.sched.nextTime x := by
  cases lab with
  | newNode action data interval now =>
    obtain rfl := Option.some.inj h
    exact .inl hd
  | insert node =>
    simp only [step] at h
    split at h <;> [skip; cases h]
    obtain ⟨sched, -, rfl⟩ := Option.map_eq_some_iff.mp h
    simp only at hd
    split at hd
    · exact absurd hd (RunPc.signal_ne_waiting _ _)
    · exact .inl hd
  | inner =>
    simp only [step] at h
    split at h <;> [rename_i now didSomething hpc; cases h]
    simp only [innerStep] at h
    split at h
    · cases h
    · obtain rfl := Option.some.inj h
      cases hd
    · obtain rfl := Option.some.inj h
      simp only at hd
      split at hd
      · cases hd
      · obtain ⟨x, hx, rfl⟩ := Option.map_eq_some_iff.mp (RunPc.waiting.inj hd)
        exact .inr ⟨x, hx, rfl⟩
  | _ =>
    simp only [step] at h
    split at h <;> cases h <;> first | exact .inl hd | cases hd

/-- If all intervals are normalised, so is the deadline of a wait. -/
def DeadlineNormalised (s : Scheduling) : Prop :=
  ∀ d, s.scheduler = .waiting (some d) → (∀ c ∈ s.hist.scheduled, c.interval.Normalised) → d.Normalised

theorem DeadlineNormalised.step (hI : Inv s l) (hP : Paced s) (hD : DeadlineNormalised s)
    {lab : SchedulingLabel} (h : step s lab = some t) : DeadlineNormalised t := by
  intro d hd hall
  have hsub : ∀ c ∈ s.hist.scheduled, c.interval.Normalised := fun c hc => by
    refine hall c ?_
    cases (hI.step h).2 with
    | quiet _ _ hsch => exact hsch ▸ hc
    | newNode _ _ _ _ _ hsch => exact hsch ▸ List.mem_append_left _ hc
    | rearm _ _ _ _ _ _ _ _ _ hsch => exact hsch ▸ hc
  rcases waiting_step h d hd with hd | ⟨x, hx, rfl⟩
  · exact hD d hd hsub
  · rw [hI.repr.first_eq] at hx
    exact hP.normalised_nextTime hsub x (s.sched.nodes.live_lt x (hI.repr.live x (List.mem_of_head? hx)))

theorem deadlineNormalised_of_reachable (h : Lts.Reachable Scheduling.step init s) :
    DeadlineNormalised s :=
  (h.invariant (I := fun s => ((∃ l, Inv s l) ∧ Paced s) ∧ DeadlineNormalised s)
    ⟨⟨⟨[], inv_init⟩, paced_init⟩, by simp [DeadlineNormalised, init]⟩
    fun _ _ _ ⟨⟨⟨_, hI⟩, hP⟩, hD⟩ hs => ⟨⟨(hI.step hs).1, hP.step hI hs⟩, hD.step hI hP hs⟩).2

/-- While the scheduler thread is blocked, it has a deadline that no node of the list is due before, or
    the list is empty. If the intervals are normalised this holds in nanoseconds too. -/
theorem waiting_deadline (h : Lts.Reachable Scheduling.step init s) (deadline : Option Timespec)
    (hw : s.scheduler = .waiting deadline) :
    match deadline with
    | some d => ∀ x ∈ s.sched.list, tmGe (s.sched.nextTime x) d = true ∧
        ((∀ c ∈ s.hist.scheduled, c.interval.Normalised) → d.ns ≤ (s.sched.nextTime x).ns)
    | none => s.sched.list = [] := by
  obtain ⟨l, hI⟩ := inv_of_reachable h
  have hP := paced_of_reachable h
  rw [hI.repr.list_eq]
  obtain ⟨hnone, hsome⟩ := hI.waiting deadline hw
  cases deadline with
  | none => exact hnone rfl
  | some d =>
    intro x hx
    have hge := hsome d rfl x hx
    refine ⟨hge, fun hall => ?_⟩
    have hx' := hP.normalised_nextTime hall x (s.sched.nodes.live_lt x (hI.repr.live x hx))
    exact (tmGe_iff_ns hx' (deadlineNormalised_of_reachable h d hw hall)).mp hge

/-- A node due at 2 seconds is put in front of one due at 3 seconds while the scheduler thread waits for
    the latter; the thread wakes up and waits again. -/
def earlierNodeRun : List SchedulingLabel :=
  [.newNode .serveSchedulerQuery 0 ⟨3, 0⟩ ⟨⟨0, 0⟩, by decide⟩, .insert 0, .lock,
    .clock ⟨⟨1, 0⟩, by decide⟩, .inner, .newNode .serveSchedulerQuery 1 ⟨1, 0⟩ ⟨⟨1, 0⟩, by decide⟩,
    .insert 1, .lock, .clock ⟨⟨1, 5⟩, by decide⟩, .inner]

theorem waiting_deadline_earlierNodeRun :
    ∃ s, Lts.run step init earlierNodeRun = some s ∧ s.scheduler = .waiting (some ⟨2, 0⟩) ∧
      s.sched.list = [1, 0] ∧ ∀ x ∈ s.sched.list, tmGe (s.sched.nextTime x) ⟨2, 0⟩ = true := by
  obtain ⟨s, hs, hp⟩ := Lts.exists_run_of_map step init earlierNodeRun
    (fun s => decide (s.scheduler = .waiting (some ⟨2, 0⟩) ∧ s.sched.list = [1, 0])) (by decide)
  obtain ⟨hw, hl⟩ := of_decide_eq_true hp
  exact ⟨s, hs, hw, hl, fun x hx => (waiting_deadline ⟨_, hs⟩ (some ⟨2, 0⟩) hw x hx).1⟩

end Scheduling

end Afdx
