import Afdx.Proofs.QueueProofs
import Afdx.QueueUse

/-!
# The semaphore and the two indices

The semaphore and the indices count the same slots as long as every call of `next_nqnode_in` finds a free
one. A call that finds none raises the semaphore all the same; from then on it is one too high, and the
consumer gets `NULL` once it has emptied the queue.
-/

namespace Afdx

namespace QueueUse

variable {n : ℕ} {s t : QueueUse} {l : QueueUseLabel}

/-- The consumer is past `sem_wait`, with no slot returned yet. -/
def midCall (s : QueueUse) : ℕ := if s.consumer = .nextNqnodeOut then 1 else 0

/-- Every call of `next_nqnode_in` raises the semaphore, every call of `next_nqnode_out` lowers it. -/
def Accounted (s : QueueUse) : Prop :=
  s.queue.nrNodesQueue + s.hist.returned + s.hist.nulls + s.midCall = s.hist.handedOut + s.hist.failed

theorem Accounted.step (hA : Accounted s) (h : step n s l = some t) : Accounted t := by
  unfold Accounted midCall at *
  cases l with
  | nextNqnodeIn =>
    have hnr := nextNqnodeIn_nrNodesQueue n s.queue
    simp only [QueueUse.step] at h
    split at h <;> cases h <;> rename_i heq <;> simp only [heq] at hnr ⊢ <;> omega
  | semWait =>
    simp only [QueueUse.step] at h
    split at h <;> [rename_i hpc; cases h]
    obtain ⟨queue, hq, rfl⟩ := Option.map_eq_some_iff.mp h
    obtain ⟨hpos, rfl⟩ := semWait_eq_some hq
    simp only [hpc, reduceCtorEq, if_false, if_true] at hA ⊢
    omega
  | nextNqnodeOut =>
    simp only [QueueUse.step] at h
    split at h <;> [rename_i hpc; cases h]
    simp only [hpc, if_true] at hA
    split at h <;> cases h <;> simp only [reduceCtorEq, if_false] <;> omega
  | dispose =>
    simp only [QueueUse.step] at h
    split at h <;> cases h
    rename_i hpc
    simp only [hpc, reduceCtorEq, if_false, disposeLastNqnode_nrNodesQueue] at hA ⊢
    exact hA

theorem accounted_init : Accounted init := by simp [Accounted, midCall, init, initQueue]

/-- The slots given back. -/
def disposed (s : QueueUse) : ℕ := s.hist.returned - if s.consumer = .dispose then 1 else 0

/-- The indices count the slots handed out and given back, and `next_nqnode_out` has not returned
    `NULL`. -/
structure Counted (n : ℕ) (s : QueueUse) : Prop where
  counts : s.queue.Counts n s.hist.handedOut s.disposed
  nulls : s.hist.nulls = 0
  dispose : s.consumer = .dispose → 0 < s.hist.returned ∧ s.hist.returned ≤ s.hist.handedOut

theorem counted_init (hn : 0 < n) : Counted n init where
  counts := initQueue_counts hn
  nulls := rfl
  dispose := by simp [init]

theorem Counted.returned_le (hC : Counted n s) : s.hist.returned ≤ s.hist.handedOut := by
  by_cases hpc : s.consumer = .dispose
  · exact (hC.dispose hpc).2
  · have hle := hC.counts.le
    rwa [disposed, if_neg hpc, Nat.sub_zero] at hle

/-- A call of `next_nqnode_in`, whether it finds a free slot or not. -/
theorem Counted.nextNqnodeIn (hC : Counted n s) (h : step n s .nextNqnodeIn = some t) :
    Counted n t ∧ t.consumer = s.consumer ∧ t.hist.returned = s.hist.returned ∧
      if s.full n then t.hist = { s.hist with failed := s.hist.failed + 1 }
      else t.hist = { s.hist with handedOut := s.hist.handedOut + 1 } := by
  have hfull : s.full n = true ↔ s.hist.handedOut + 1 = s.disposed + n := by
    rw [full, hC.counts.inPtr, hC.counts.outPtr, decide_eq_true_iff]
    exact Ring.full_iff hC.counts.le hC.counts.lt
  simp only [step] at h
  by_cases hf : s.full n = true
  · rw [nextNqnodeIn_of_eq hC.counts (hfull.mp hf)] at h
    cases h
    refine ⟨⟨⟨hC.counts.inPtr, hC.counts.outPtr, hC.counts.le, hC.counts.lt⟩, hC.nulls, hC.dispose⟩, rfl,
      rfl, ?_⟩
    rw [if_pos hf]
  · have hne : s.hist.handedOut + 1 ≠ s.disposed + n := fun he => hf (hfull.mpr he)
    have hlt : s.hist.handedOut + 1 < s.disposed + n := lt_of_le_of_ne hC.counts.lt hne
    rw [nextNqnodeIn_of_lt hC.counts hlt] at h
    cases h
    refine ⟨⟨⟨rfl, hC.counts.outPtr, Nat.le_succ_of_le hC.counts.le, hlt⟩, hC.nulls, fun hpc => ?_⟩, rfl, rfl,
      ?_⟩
    · exact ⟨(hC.dispose hpc).1, Nat.le_succ_of_le (hC.dispose hpc).2⟩
    · rw [if_neg hf]

/-- A step of the consumer, if there is a slot to return where it asks for one. -/
theorem Counted.consumer (hC : Counted n s) (hl : l ≠ .nextNqnodeIn)
    (hout : s.consumer = .nextNqnodeOut → s.hist.returned < s.hist.handedOut)
    (h : step n s l = some t) :
    Counted n t ∧ t.hist.handedOut = s.hist.handedOut ∧ t.hist.failed = s.hist.failed := by
  have hdisp : s.consumer ≠ .dispose → s.disposed = s.hist.returned := fun hpc => by simp [disposed, hpc]
  cases l with
  | nextNqnodeIn => exact absurd rfl hl
  | semWait =>
    simp only [QueueUse.step] at h
    split at h <;> [rename_i hpc; cases h]
    obtain ⟨queue, hq, rfl⟩ := Option.map_eq_some_iff.mp h
    obtain ⟨-, rfl⟩ := semWait_eq_some hq
    have hc := hC.counts
    rw [hdisp (by simp [hpc])] at hc
    exact ⟨⟨⟨hc.inPtr, hc.outPtr, hc.le, hc.lt⟩, hC.nulls, by simp⟩, rfl, rfl⟩
  | nextNqnodeOut =>
    simp only [QueueUse.step] at h
    split at h <;> [rename_i hpc; cases h]
    have hc := hC.counts
    rw [hdisp (by simp [hpc])] at hc
    rw [nextNqnodeOut_of_lt hc (hout hpc)] at h
    cases h
    exact ⟨⟨hc, hC.nulls, fun _ => ⟨Nat.succ_pos _, hout hpc⟩⟩, rfl, rfl⟩
  | dispose =>
    simp only [QueueUse.step] at h
    split at h <;> [rename_i hpc; cases h]
    cases h
    obtain ⟨hpos, hle⟩ := hC.dispose hpc
    obtain ⟨d, hd⟩ : ∃ d, s.hist.returned = d + 1 := Nat.exists_eq_add_one.mpr hpos
    have hc : s.queue.Counts n s.hist.handedOut d := by
      have hdisp : s.disposed = d := by simp [disposed, hpc, hd]
      exact hdisp ▸ hC.counts
    refine ⟨⟨?_, hC.nulls, by simp⟩, rfl, rfl⟩
    have hlt := hc.lt
    rw [disposeLastNqnode_of_lt hc (by omega)]
    simp only [disposed, reduceCtorEq, if_false, Nat.sub_zero, hd]
    exact ⟨hc.inPtr, rfl, by omega, by omega⟩

/-! ## Runs in which every call of `next_nqnode_in` finds a free slot -/

/-- The invariant of these runs. -/
theorem spares_invariant (h : Lts.Reachable (Lts.restrict (step n) (spares n)) init s) (hn : 0 < n) :
    Accounted s ∧ Counted n s ∧ s.hist.failed = 0 := by
  refine h.invariant (I := fun s => Accounted s ∧ Counted n s ∧ s.hist.failed = 0)
    ⟨accounted_init, counted_init hn, rfl⟩ ?_
  rintro s l t ⟨hA, hC, hf⟩ hr
  obtain ⟨hok, hs⟩ := Lts.restrict_eq_some.mp hr
  by_cases hl : l = .nextNqnodeIn
  · subst hl
    obtain ⟨hC', -, -, hhist⟩ := hC.nextNqnodeIn hs
    have hfull : s.full n = false := by simpa [spares] using hok
    rw [hfull, if_neg (by simp)] at hhist
    exact ⟨hA.step hs, hC', by rw [hhist, hf]⟩
  · have hout : s.consumer = .nextNqnodeOut → s.hist.returned < s.hist.handedOut := fun hpc => by
      have hnull := hC.nulls
      simp only [Accounted, midCall, hpc, if_true] at hA
      omega
    obtain ⟨hC', -, hfail⟩ := hC.consumer hl hout hs
    exact ⟨hA.step hs, hC', by rw [hfail, hf]⟩

/-! ## After a call that finds no free slot -/

/-- The semaphore is one too high. -/
structure OneTooHigh (n : ℕ) (s : QueueUse) : Prop where
  accounted : Accounted s
  counted : Counted n s
  failed : s.hist.failed = 1

theorem OneTooHigh.of_failed (hA : Accounted s) (hC : Counted n s) (hf : s.hist.failed = 0)
    (hfull : s.full n = true) (h : step n s .nextNqnodeIn = some t) : OneTooHigh n t := by
  obtain ⟨hC', -, -, hhist⟩ := hC.nextNqnodeIn h
  rw [if_pos hfull] at hhist
  exact ⟨hA.step h, hC', by rw [hhist, hf]⟩

theorem OneTooHigh.consumer (hO : OneTooHigh n s) (hl : l ≠ .nextNqnodeIn)
    (hout : s.consumer = .nextNqnodeOut → s.hist.returned < s.hist.handedOut)
    (h : step n s l = some t) : OneTooHigh n t := by
  obtain ⟨hC', -, hf⟩ := hO.counted.consumer hl hout h
  exact ⟨hO.accounted.step h, hC', hf.trans hO.failed⟩

theorem OneTooHigh.ne (hO : OneTooHigh n s) (hpc : s.consumer ≠ .nextNqnodeOut) :
    s.queue.nrNodesQueue + s.hist.returned = s.hist.handedOut + 1 := by
  have hA := hO.accounted
  rw [Accounted, midCall, if_neg hpc, hO.counted.nulls, hO.failed] at hA
  exact hA

/-- How far the consumer is from asking the empty queue for a slot. -/
def stepsToEmpty (s : QueueUse) : ℕ :=
  3 * (s.hist.handedOut - s.hist.returned) +
    match s.consumer with
    | .dispose => 2
    | .semWait => 1
    | .nextNqnodeOut => 0

/-- `next_nqnode_out` returns a slot as long as there is one. -/
theorem OneTooHigh.nextNqnodeOut (hO : OneTooHigh n s) (hpc : s.consumer = .nextNqnodeOut)
    (hlt : s.hist.returned < s.hist.handedOut) :
    ∃ t, step n s .nextNqnodeOut = some t ∧ OneTooHigh n t ∧ t.consumer = .dispose ∧
      t.stepsToEmpty < s.stepsToEmpty := by
  have hd : s.disposed < s.hist.handedOut := by
    rwa [disposed, if_neg (by simp [hpc]), Nat.sub_zero]
  have hs : step n s .nextNqnodeOut = some { s with
      consumer := .dispose
      hist := { s.hist with returned := s.hist.returned + 1 } } := by
    simp only [step, hpc, nextNqnodeOut_of_lt hO.counted.counts hd]
  refine ⟨_, hs, hO.consumer (by simp) (fun _ => hlt) hs, rfl, ?_⟩
  simp only [stepsToEmpty, hpc]
  omega

/-- The consumer can always take its next step, and comes nearer to the empty queue. -/
theorem OneTooHigh.proceed (hO : OneTooHigh n s)
    (hne : ¬ (s.consumer = .nextNqnodeOut ∧ s.hist.returned = s.hist.handedOut)) :
    ∃ l t, step n s l = some t ∧ OneTooHigh n t ∧ t.stepsToEmpty < s.stepsToEmpty := by
  have hle := hO.counted.returned_le
  cases hpc : s.consumer with
  | semWait =>
    have hnr := hO.ne (by simp [hpc])
    have hs : step n s .semWait = some { s with
        queue := { s.queue with nrNodesQueue := s.queue.nrNodesQueue - 1 }
        consumer := .nextNqnodeOut } := by
      simp only [step, hpc, semWait_of_pos (q := s.queue) (by omega), Option.map_some]
    refine ⟨_, _, hs, hO.consumer (by simp) (by simp [hpc]) hs, ?_⟩
    simp only [stepsToEmpty, hpc]
    omega
  | nextNqnodeOut =>
    obtain ⟨t, hs, hO', -, hlt⟩ := hO.nextNqnodeOut hpc (lt_of_le_of_ne hle fun heq => hne ⟨hpc, heq⟩)
    exact ⟨_, t, hs, hO', hlt⟩
  | dispose =>
    have hs : step n s .dispose = some { s with
        queue := disposeLastNqnode n s.queue
        consumer := .semWait } := by
      simp only [step, hpc]
    refine ⟨_, _, hs, hO.consumer (by simp) (by simp [hpc]) hs, ?_⟩
    simp only [stepsToEmpty, hpc]
    omega

/-- In the end the consumer gets `NULL`. -/
theorem OneTooHigh.null (hO : OneTooHigh n s) : ∃ t, Lts.Reachable (step n) s t ∧ t.hist.nulls = 1 := by
  obtain ⟨t, hst, hO, hpc, heq⟩ := Lts.reaches_of_decreasing (step n) stepsToEmpty
    (fun s hO hne => OneTooHigh.proceed (n := n) hO hne) s hO
  have hc := hO.counted.counts
  rw [disposed, if_neg (by simp [hpc]), Nat.sub_zero, heq] at hc
  have hnone : Afdx.nextNqnodeOut t.queue = none := by
    rw [Afdx.nextNqnodeOut, hc.inPtr, hc.outPtr, if_neg (by simp)]
  have hs : step n t .nextNqnodeOut = some { t with
      consumer := .dispose
      hist := { t.hist with nulls := t.hist.nulls + 1 } } := by
    simp only [step, hpc, hnone]
  exact ⟨_, hst.tail hs, by rw [hO.counted.nulls]⟩

/-- Between two calls the semaphore counts the slots handed out and not yet returned, and the consumer has
    never got `NULL`. -/
def Agrees (n : ℕ) (s : QueueUse) : Prop :=
  s.hist.nulls = 0 ∧ (s.betweenCalls = true →
    s.queue.nrNodesQueue + s.hist.returned = s.hist.handedOut ∧ s.queue.nrNodesQueue ≤ n - 1)

/-- The semaphore and the indices agree in the runs in which `next_nqnode_in` is never called on a full
    queue. After such a call the count is wrong, and the consumer can get `NULL`. -/
theorem semaphore_agrees_iff (n : ℕ+) :
    (∀ s, Lts.Reachable (Lts.restrict (step n) (spares n)) init s → Agrees n s) ∧
    ∀ s l t, Lts.Reachable (Lts.restrict (step n) (spares n)) init s → step n s l = some t →
      spares n s l = false → (∃ u, Lts.Reachable (step n) t u ∧ u.betweenCalls = true ∧
        u.queue.nrNodesQueue + u.hist.returned ≠ u.hist.handedOut) ∧
        ∃ u, Lts.Reachable (step n) t u ∧ u.hist.nulls ≠ 0 := by
  constructor
  · intro s h
    obtain ⟨hA, hC, hf⟩ := spares_invariant h n.pos
    refine ⟨hC.nulls, fun hb => ?_⟩
    have hpc : s.consumer ≠ .nextNqnodeOut := by simpa [betweenCalls] using hb
    rw [Accounted, midCall, if_neg hpc, hC.nulls, hf] at hA
    have hlt := hC.counts.lt
    rw [disposed] at hlt
    exact ⟨hA, by omega⟩
  · intro s l t h hs hok
    obtain ⟨hA, hC, hf⟩ := spares_invariant h n.pos
    obtain ⟨rfl, hfull⟩ : l = .nextNqnodeIn ∧ s.full n = true := by simpa [spares] using hok
    have hO := OneTooHigh.of_failed hA hC hf hfull hs
    obtain ⟨u, hu, hnull⟩ := hO.null
    refine ⟨?_, u, hu, by rw [hnull]; simp⟩
    by_cases hpc : t.consumer = .nextNqnodeOut
    · -- the call in progress returns its slot first
      obtain ⟨-, hcons, hret, hhist⟩ := hC.nextNqnodeIn hs
      rw [if_pos hfull] at hhist
      have hsame : t.hist.handedOut = s.hist.handedOut := by rw [hhist]
      have hlt : t.hist.returned < t.hist.handedOut := by
        have hnull := hC.nulls
        rw [Accounted, midCall, if_pos (hcons.symm.trans hpc)] at hA
        omega
      obtain ⟨u, hu, hO', hpc', -⟩ := hO.nextNqnodeOut hpc hlt
      refine ⟨u, .single hu, by simp [betweenCalls, hpc'], ?_⟩
      rw [hO'.ne (by simp [hpc'])]
      omega
    · refine ⟨t, .refl t, by simpa [betweenCalls] using hpc, ?_⟩
      rw [hO.ne hpc]
      omega

/-- The queue is filled and emptied once. -/
def lapRun : List QueueUseLabel :=
  List.replicate 99 .nextNqnodeIn ++ (List.replicate 99 [.semWait, .nextNqnodeOut, .dispose]).flatten

theorem semaphore_agrees_lapRun :
    ∃ s, Lts.run (Lts.restrict (step sizeQueue) (spares sizeQueue)) init lapRun = some s ∧
      s.hist.returned = 99 ∧ Agrees sizeQueue s := by
  obtain ⟨s, hrun, hp⟩ := Lts.exists_run_of_map (Lts.restrict (step sizeQueue) (spares sizeQueue)) init lapRun
    (fun s => decide (s.hist.returned = 99)) (by decide +kernel)
  exact ⟨s, hrun, of_decide_eq_true hp, (semaphore_agrees_iff sizeQueue).1 s ⟨_, hrun⟩⟩

/-- `next_nqnode_in` is called once more than there are slots, and then the queue is emptied. -/
def overfullRun : List QueueUseLabel :=
  List.replicate 100 .nextNqnodeIn ++ (List.replicate 99 [.semWait, .nextNqnodeOut, .dispose]).flatten ++
    [.semWait, .nextNqnodeOut]

/-- The semaphore is 100 with 99 slots handed out; `next_nqnode_out` returns `NULL` in the end. -/
theorem null_after_overfullRun :
    (∃ s, Lts.run (step sizeQueue) init (overfullRun.take 100) = some s ∧ s.betweenCalls = true ∧
      s.queue.nrNodesQueue = 100 ∧ s.hist.handedOut = 99 ∧ s.hist.returned = 0 ∧ ¬ Agrees sizeQueue s) ∧
    ∃ s, Lts.run (step sizeQueue) init overfullRun = some s ∧ s.hist.nulls = 1 := by
  constructor
  · obtain ⟨s, hrun, hp⟩ := Lts.exists_run_of_map (step sizeQueue) init (overfullRun.take 100)
      (fun s => decide (s.betweenCalls = true ∧ s.queue.nrNodesQueue = 100 ∧ s.hist.handedOut = 99 ∧
        s.hist.returned = 0)) (by decide +kernel)
    obtain ⟨hb, hnr, hin, hout⟩ := of_decide_eq_true hp
    refine ⟨s, hrun, hb, hnr, hin, hout, fun ha => ?_⟩
    have heq := (ha.2 hb).1
    omega
  · obtain ⟨s, hrun, hp⟩ := Lts.exists_run_of_map (step sizeQueue) init overfullRun
      (fun s => decide (s.hist.nulls = 1)) (by decide +kernel)
    exact ⟨s, hrun, of_decide_eq_true hp⟩

end QueueUse

end Afdx
