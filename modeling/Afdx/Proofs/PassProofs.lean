import Afdx.Lib.Ordered
import Afdx.Proofs.SchedulerProofs
import Afdx.Proofs.TimeProofs

/-!
# One pass of `scheduler_run`

The inner loop pops nodes from the list that it inserts them into again. It ends because a node with a
positive interval is re-armed to a time beyond the clock reading of the pass, so that every iteration
leaves one node less that is due. A due node whose interval is zero stays due for ever.
-/

namespace Afdx

namespace Sched

variable {st st' : Sched} {l l' l₁ l₂ : List ℕ} {x : ℕ} {now : Timespec}

/-- The node is to run in a pass at `now`. -/
def due (st : Sched) (now : Timespec) (x : ℕ) : Bool := tmGe now (st.nextTime x)

instance (st : Sched) : IsTrans ℕ st.NoLater := ⟨fun _ _ _ h₁ h₂ => tmGe_trans h₂ h₁⟩

/-- If any node is due, the first one is. -/
theorem Sorted.due_head (hs : Sorted st (x :: l)) {y : ℕ} (hy : y ∈ x :: l) (hdue : st.due now y = true) :
    st.due now x = true := by
  rcases List.mem_cons.mp hy with rfl | hy
  · exact hdue
  · exact tmGe_trans hdue ((List.pairwise_cons.mp hs).1 y hy)

theorem Sorted.congr (hs : Sorted st l) (h : ∀ x ∈ l, st'.nextTime x = st.nextTime x) : Sorted st' l :=
  List.Pairwise.imp_of_mem (fun {a b} ha hb hab => by rwa [NoLater, h a ha, h b hb]) hs

/-- `insert_node` keeps the list sorted. -/
theorem Sorted.insert (hs : Sorted st (l₁ ++ l₂))
    (h₁ : ∀ y ∈ l₁, tmGe (st.nextTime x) (st.nextTime y) = true)
    (h₂ : ∀ y ∈ l₂.head?, tmGe (st.nextTime x) (st.nextTime y) = false) :
    Sorted st (l₁ ++ x :: l₂) :=
  Ordered.insert hs h₁ fun y hy => tmGe_of_not (h₂ y hy)

theorem Sorted.remove (hs : Sorted st (l₁ ++ x :: l₂)) : Sorted st (l₁ ++ l₂) := Ordered.remove hs

/-! ## Re-arming the first node -/

theorem Rearm.nextTime_self (hr : Rearm now st x l st' l₁ l₂) :
    st'.nextTime x = rearmedTime now (st.nodes.cell x) := congrArg Payload.nextTime hr.self

theorem Rearm.nextTime_others (hr : Rearm now st x l st' l₁ l₂) {y : ℕ} (hy : y ≠ x) :
    st'.nextTime y = st.nextTime y := congrArg Payload.nextTime (hr.others y hy)

theorem Rearm.interval (hr : Rearm now st x l st' l₁ l₂) (y : ℕ) :
    (st'.payload y).interval = (st.payload y).interval := by
  by_cases hy : y = x
  · rw [hy, hr.self]
  · rw [hr.others y hy]

theorem Rearm.mem_iff (hr : Rearm now st x l st' l₁ l₂) {y : ℕ} : y ∈ l₁ ++ x :: l₂ ↔ y ∈ x :: l := by
  rw [hr.split, List.perm_middle.mem_iff]

theorem Rearm.not_mem (hr : Rearm now st x l st' l₁ l₂) : x ∉ l₁ ++ l₂ :=
  (List.nodup_cons.mp (List.nodup_middle.mp hr.repr.nodup)).1

theorem Sorted.rearm (hs : Sorted st (x :: l)) (hr : Rearm now st x l st' l₁ l₂) :
    Sorted st' (l₁ ++ x :: l₂) := by
  have hne : ∀ y ∈ l₁ ++ l₂, st'.nextTime y = st.nextTime y := fun y hy =>
    hr.nextTime_others fun hyx => hr.not_mem (hyx ▸ hy)
  have hl : Sorted st (l₁ ++ l₂) := hr.split ▸ (List.pairwise_cons.mp hs).2
  refine (hl.congr hne).insert (fun y hy => ?_) fun y hy => ?_
  · rw [hr.nextTime_self, hne y (List.mem_append_left _ hy)]
    exact hr.before y hy
  · rw [hr.nextTime_self, hne y (List.mem_append_right _ (List.mem_of_head? hy))]
    exact hr.after y hy

theorem Timely.rearm (ht : Timely st (x :: l)) (hr : Rearm now st x l st' l₁ l₂)
    (hnow : now.Normalised) : Timely st' (l₁ ++ x :: l₂) where
  nextTime y hy := by
    by_cases hyx : y = x
    · subst hyx
      rw [hr.nextTime_self]
      exact normalised_rearmedTime hnow (ht.nextTime y (by simp)) (ht.interval y (by simp))
    · rw [hr.nextTime_others hyx]
      exact ht.nextTime y (hr.mem_iff.mp hy)
  interval y hy := by
    rw [hr.interval]
    exact ht.interval y (hr.mem_iff.mp hy)

/-- The new time, in nanoseconds. -/
theorem ns_rearmed (ht : Timely st l) (hx : x ∈ l) (hnow : now.Normalised) :
    (rearmedTime now (st.nodes.cell x)).ns =
      if now.ns < (st.nextTime x).ns + (st.payload x).interval.ns then
        (st.nextTime x).ns + (st.payload x).interval.ns
      else now.ns + (st.payload x).interval.ns :=
  ns_rearmedTime hnow (ht.nextTime x hx) (ht.interval x hx)

/-- A node with a positive interval is not due any more once it is re-armed. -/
theorem Rearm.not_due (hr : Rearm now st x l st' l₁ l₂) (ht : Timely st (x :: l))
    (hnow : now.Normalised) (hpos : 0 < (st.payload x).interval.ns) : st'.due now x = false := by
  have hns := ns_rearmed ht (List.mem_cons_self ..) hnow
  have hnorm := (ht.rearm hr hnow).nextTime x (by simp)
  rw [due, not_tmGe_iff_ns hnow hnorm, hr.nextTime_self, hns]
  split_ifs <;> omega

/-! ## The inner loop -/

/-- The pass at `now` over the list `l` that leaves the list `l'`: the nodes that are due are re-armed,
    the others stay as they are, in the same order. -/
structure Pass (now : Timespec) (st : Sched) (l : List ℕ) (st' : Sched) (l' : List ℕ) : Prop where
  repr : Repr st' l'
  perm : l'.Perm l
  sorted : Sorted st' l'
  kept : ∀ x, x ∉ l.filter (st.due now) → st'.payload x = st.payload x
  order : l'.filter (fun x => !st.due now x) = l.filter fun x => !st.due now x
  rearmed : ∀ x ∈ l.filter (st.due now),
    st'.payload x = { st.payload x with nextTime := rearmedTime now (st.nodes.cell x) }

/-- An iteration followed by the rest of the pass. -/
theorem Pass.cons (hr : Rearm now st x l st' l₁ l₂) (hdue : st.due now x = true)
    (hdue' : st'.due now x = false) {st'' : Sched} (hp : Pass now st' (l₁ ++ x :: l₂) st'' l') :
    Pass now st (x :: l) st'' l' := by
  have hothers : ∀ y, y ≠ x → st'.due now y = st.due now y := fun y hy => by
    rw [due, due, hr.nextTime_others hy]
  have hmem : ∀ y, y ∈ (l₁ ++ x :: l₂).filter (st'.due now) ↔
      y ≠ x ∧ y ∈ (x :: l).filter (st.due now) := by
    intro y
    rw [List.mem_filter, List.mem_filter, hr.mem_iff]
    by_cases hy : y = x
    · simp [hy, hdue']
    · simp [hy, hothers y hy]
  refine ⟨hp.repr, hp.perm.trans ?_, hp.sorted, fun y hy => ?_, ?_, fun y hy => ?_⟩
  · rw [hr.split]
    exact List.perm_middle
  · have hyx : y ≠ x := by
      rintro rfl
      exact hy (List.mem_filter.mpr ⟨by simp, hdue⟩)
    rw [hp.kept y fun h => hy ((hmem y).mp h).2, hr.others y hyx]
  · -- the nodes not due before are those not due now, without `x`
    have hnot : ∀ y, (!st.due now y) = ((y != x) && !st'.due now y) := fun y => by
      by_cases hy : y = x
      · simp [hy, hdue]
      · simp [hy, hothers y hy]
    simp only [hnot, ← List.filter_filter]
    rw [hp.order, hr.split]
    simp [List.filter_filter]
  · by_cases hyx : y = x
    · subst hyx
      rw [hp.kept y fun h => ((hmem y).mp h).1 rfl, hr.self]
    · rw [hp.rearmed y ((hmem y).mpr ⟨hyx, hy⟩), hr.others y hyx,
        rearmedTime_congr now (hr.others y hyx)]

/-- With more fuel than due nodes the loop ends, after one iteration for each of them. -/
theorem innerLoop_pass (fuel : ℕ) (h : Repr st l) (hs : Sorted st l) (ht : Timely st l)
    (hpos : ∀ x ∈ l, st.due now x = true → 0 < (st.payload x).interval.ns) (hnow : now.Normalised)
    (hf : (l.filter (st.due now)).length < fuel) :
    ∃ st' l', innerLoop now fuel st = some (l.filter (st.due now), st') ∧ Pass now st l st' l' := by
  induction fuel generalizing st l with
  | zero => simp at hf
  | succ fuel ih =>
    by_cases hhead : ∀ y ∈ l.head?, st.due now y = false
    · have hnone : l.filter (st.due now) = [] := by
        refine List.filter_eq_nil_iff.mpr fun y hy hdue => ?_
        cases l with
        | nil => simp at hy
        | cons x l =>
          have hx := hhead x rfl
          rw [hs.due_head hy hdue] at hx
          cases hx
      refine ⟨st, l, ?_, h, .refl l, hs, fun _ _ => rfl, rfl, by simp [hnone]⟩
      rw [hnone, innerLoop, h.rearmFirst_none now hhead]
    · cases l with
      | nil => simp at hhead
      | cons x l =>
        have hdue : st.due now x = true := by simpa using hhead
        obtain ⟨st₁, l₁, l₂, heq, hr⟩ := h.rearmFirst_some now hdue
        have hdue' := hr.not_due ht hnow (hpos x (by simp) hdue)
        have hothers : ∀ y ∈ l₁ ++ l₂, st₁.due now y = st.due now y := fun y hy => by
          rw [due, due, hr.nextTime_others fun hyx => hr.not_mem (hyx ▸ hy)]
        have hfilter : (l₁ ++ x :: l₂).filter (st₁.due now) = l.filter (st.due now) := by
          rw [List.filter_append, List.filter_cons_of_neg (by simpa using hdue'),
            ← List.filter_append, hr.split]
          exact List.filter_congr hothers
        rw [List.filter_cons_of_pos hdue] at hf ⊢
        obtain ⟨st', l', hloop, hp⟩ := ih hr.repr (hs.rearm hr) (ht.rearm hr hnow) (fun y hy hy' => by
          rw [hr.interval]
          refine hpos y (hr.mem_iff.mp hy) ?_
          by_cases hyx : y = x
          · rw [hyx]
            exact hdue
          · rwa [due, hr.nextTime_others hyx] at hy') (by
          rw [hfilter]
          exact Nat.lt_of_succ_lt_succ hf)
        refine ⟨st', l', ?_, hp.cons hr hdue hdue'⟩
        rw [innerLoop, heq]
        simp only [hloop, hfilter, Option.map_some]

/-- One pass over a sorted list whose intervals are all positive: the nodes that are due are run, each
    once and in list order. Each of them is due next one interval after its old time if that is later
    than `now`, else one interval after `now`; the others keep their times and their order. -/
theorem pass_runs_due (h : Repr st l) (hs : Sorted st l) (ht : Timely st l)
    (hpos : ∀ x ∈ l, 0 < (st.payload x).interval.ns) (now : ClockTime) :
    ∃ st' l', innerLoop now (l.length + 1) st =
        some (l.filter fun x => (st.nextTime x).ns ≤ now.1.ns, st') ∧
      Repr st' l' ∧ l'.Perm l ∧ Sorted st' l' ∧
      (l'.filter fun x => now.1.ns < (st.nextTime x).ns) =
        (l.filter fun x => now.1.ns < (st.nextTime x).ns) ∧
      (∀ x ∈ l, now.1.ns < (st.nextTime x).ns → st'.payload x = st.payload x) ∧
      ∀ x ∈ l, (st.nextTime x).ns ≤ now.1.ns →
        st'.payload x = { st.payload x with nextTime := st'.nextTime x } ∧
        (st'.nextTime x).ns = (if now.1.ns < (st.nextTime x).ns + (st.payload x).interval.ns then
            (st.nextTime x).ns + (st.payload x).interval.ns
          else now.1.ns + (st.payload x).interval.ns) ∧
        now.1.ns < (st'.nextTime x).ns ∧
        (st'.nextTime x).ns ≤ now.1.ns + (st.payload x).interval.ns := by
  have hdue : ∀ x ∈ l, st.due now x = decide ((st.nextTime x).ns ≤ now.1.ns) := fun x hx =>
    Bool.eq_iff_iff.mpr ((tmGe_iff_ns now.2 (ht.nextTime x hx)).trans decide_eq_true_iff.symm)
  have hnot : ∀ x ∈ l, (!st.due now x) = decide (now.1.ns < (st.nextTime x).ns) := fun x hx => by
    rw [hdue x hx, ← decide_not, decide_eq_decide, not_le]
  obtain ⟨st', l', hloop, hp⟩ := innerLoop_pass (l.length + 1) h hs ht (fun x hx _ => hpos x hx) now.2
    (Nat.lt_succ_of_le (List.length_filter_le ..))
  refine ⟨st', l', ?_, hp.repr, hp.perm, hp.sorted, ?_, fun x hx hlt => ?_, fun x hx hle => ?_⟩
  · rw [hloop, List.filter_congr hdue]
  · rw [← List.filter_congr hnot, ← hp.order]
    exact List.filter_congr fun x hx => (hnot x (hp.perm.mem_iff.mp hx)).symm
  · refine hp.kept x fun hm => ?_
    have hle := (List.mem_filter.mp hm).2
    rw [hdue x hx, decide_eq_true_iff] at hle
    omega
  · have hm : x ∈ l.filter (st.due now) := by
      rw [List.mem_filter, hdue x hx]
      exact ⟨hx, decide_eq_true hle⟩
    have hre := hp.rearmed x hm
    have htime : st'.nextTime x = rearmedTime now.1 (st.nodes.cell x) := congrArg Payload.nextTime hre
    have hns := ns_rearmed ht hx now.2
    have hi := hpos x hx
    rw [htime, hns]
    refine ⟨hre, rfl, ?_, ?_⟩ <;> split_ifs <;> omega

/-- A node with an interval of one second that is two seconds late runs once and is due one second
    after the clock reading. -/
theorem pass_runs_due_late : ∃ st st', innerLoop ⟨3, 0⟩ 2 st = some ([0], st') ∧
    (st'.nextTime 0).ns = 4000000000 := by
  obtain ⟨_, st, l₁, l₂, -, hl, -, -, -, hr, -, -, hp, -⟩ :=
    repr_init.scheduleTs .serveSchedulerQuery 0 ⟨1, 0⟩ ⟨0, 0⟩
  obtain ⟨rfl, rfl⟩ := List.append_eq_nil_iff.mp hl.symm
  have hp : st.payload 0 = ⟨⟨1, 0⟩, ⟨1, 0⟩, .serveSchedulerQuery, 0⟩ := hp
  have hr : Repr st [0] := hr
  have htime : st.nextTime 0 = ⟨1, 0⟩ := congrArg Payload.nextTime hp
  have ht : Timely st [0] := by
    constructor
    · simpa [htime] using (by decide : (⟨1, 0⟩ : Timespec).Normalised)
    · simpa [hp] using (by decide : (⟨1, 0⟩ : Timespec).Normalised)
  obtain ⟨st', l', hloop, -, -, -, -, -, hre⟩ := pass_runs_due hr (List.pairwise_singleton ..) ht
    (by simp [hp, Timespec.ns]) ⟨⟨3, 0⟩, by decide⟩
  refine ⟨st, st', ?_, ?_⟩
  · simpa [htime, Timespec.ns] using hloop
  · have hns := (hre 0 (by simp) (by simp [htime, Timespec.ns])).2.1
    simpa [htime, hp, Timespec.ns] using hns

/-! ## Intervals of zero -/

/-- While a node with an interval of zero is due, the loop does not end. -/
theorem innerLoop_stuck (fuel : ℕ) (h : Repr st l) (hs : Sorted st l) (hx : x ∈ l)
    (hdue : st.due now x = true) (hnow : now.Normalised) (ht : (st.nextTime x).Normalised)
    (hi : (st.payload x).interval.Normalised) (hzero : (st.payload x).interval.ns = 0) :
    innerLoop now fuel st = none := by
  induction fuel generalizing st l with
  | zero => rfl
  | succ fuel ih =>
    cases l with
    | nil => simp at hx
    | cons y l =>
      obtain ⟨st₁, l₁, l₂, heq, hr⟩ := h.rearmFirst_some now (hs.due_head hx hdue)
      have hx₁ := hr.mem_iff.mpr hx
      have hnext : st₁.due now x = true ∧ (st₁.nextTime x).Normalised := by
        by_cases hxy : x = y
        · -- re-armed at `now`, the node is due again
          subst hxy
          have hnorm := normalised_rearmedTime (n := st.nodes.cell x) hnow ht hi
          have hns := ns_rearmedTime (n := st.nodes.cell x) hnow ht hi
          have hle := (tmGe_iff_ns hnow ht).mp hdue
          have hz : (st.nodes.cell x).interval.ns = 0 := hzero
          have ht' : (st.nodes.cell x).nextTime = st.nextTime x := rfl
          rw [hz, ht', Int.add_zero, if_neg (not_lt.mpr hle), Int.add_zero] at hns
          rw [due, hr.nextTime_self]
          exact ⟨(tmGe_iff_ns hnow hnorm).mpr hns.le, hnorm⟩
        · rw [due, hr.nextTime_others hxy]
          exact ⟨hdue, ht⟩
      have hnone := ih hr.repr (hs.rearm hr) hx₁ hnext.1 hnext.2 ((hr.interval x).symm ▸ hi)
        ((hr.interval x).symm ▸ hzero)
      rw [innerLoop, heq]
      simp only [hnone, Option.map_none]

/-- The inner loop ends exactly if no node with an interval of zero is due. -/
theorem innerLoop_ends_iff (h : Repr st l) (hs : Sorted st l) (ht : Timely st l)
    (hi : ∀ x ∈ l, 0 ≤ (st.payload x).interval.ns) (hnow : now.Normalised) :
    (∃ fuel, (innerLoop now fuel st).isSome) ↔
      ∀ x ∈ l, st.due now x = true → (st.payload x).interval.ns ≠ 0 := by
  constructor
  · rintro ⟨fuel, hsome⟩ x hx hdue hzero
    rw [innerLoop_stuck fuel h hs hx hdue hnow (ht.nextTime x hx) (ht.interval x hx) hzero] at hsome
    cases hsome
  · intro hne
    have hpos : ∀ x ∈ l, st.due now x = true → 0 < (st.payload x).interval.ns := fun x hx hdue =>
      lt_of_le_of_ne (hi x hx) (hne x hx hdue).symm
    obtain ⟨st', l', hloop, -⟩ := innerLoop_pass _ h hs ht hpos hnow (Nat.lt_succ_self _)
    exact ⟨_, by rw [hloop]; rfl⟩

end Sched

end Afdx
