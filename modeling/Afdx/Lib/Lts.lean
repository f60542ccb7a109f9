import Mathlib.Data.List.Forall2
import Mathlib.Data.List.Induction
import Mathlib.Data.Nat.Basic
import Mathlib.Tactic.Common

/-!
# Labelled transition systems given by a partial step function

A system is a function `step : σ → ℓ → Option σ`. The label of a step resolves every choice of the
system (which thread moves, what the environment answers), and `none` says that the step is not
enabled. Runs are lists of labels, so a concrete run is evaluated, not only reasoned about.

A condition on the steps of a run is a restriction of the step function (`restrict`): the runs of
the restricted system are the runs whose steps all meet the condition.
-/

namespace Lts

variable {σ ℓ : Type*}

/-- The state after the steps `ls` from `s`, if they are all enabled. -/
def run (step : σ → ℓ → Option σ) : σ → List ℓ → Option σ
  | s, [] => some s
  | s, l :: ls => (step s l).bind fun t => run step t ls

/-- Some run leads from `s₀` to `s`. -/
def Reachable (step : σ → ℓ → Option σ) (s₀ s : σ) : Prop := ∃ ls, run step s₀ ls = some s

/-- The system whose steps are those of `step` that meet the condition `ok`. -/
def restrict (step : σ → ℓ → Option σ) (ok : σ → ℓ → Bool) : σ → ℓ → Option σ :=
  fun s l => if ok s l then step s l else none

variable {step : σ → ℓ → Option σ}

@[simp] theorem run_nil (s : σ) : run step s [] = some s := rfl

theorem run_cons (s : σ) (l : ℓ) (ls : List ℓ) :
    run step s (l :: ls) = (step s l).bind fun t => run step t ls := rfl

theorem run_cons_of_step {s t : σ} {l : ℓ} (h : step s l = some t) (ls : List ℓ) :
    run step s (l :: ls) = run step t ls := by
  rw [run_cons, h, Option.bind_some]

theorem run_append (s : σ) (ls ls' : List ℓ) :
    run step s (ls ++ ls') = (run step s ls).bind fun t => run step t ls' := by
  induction ls generalizing s with
  | nil => rfl
  | cons l ls ih =>
    rw [List.cons_append, run_cons, run_cons]
    cases step s l with
    | none => rfl
    | some t => exact ih t

theorem Reachable.refl (s : σ) : Reachable step s s := ⟨[], rfl⟩

theorem Reachable.trans {s t u : σ} (h₁ : Reachable step s t) (h₂ : Reachable step t u) :
    Reachable step s u := by
  obtain ⟨ls₁, h₁⟩ := h₁
  obtain ⟨ls₂, h₂⟩ := h₂
  exact ⟨ls₁ ++ ls₂, by rw [run_append, h₁, Option.bind_some, h₂]⟩

theorem Reachable.single {s t : σ} {l : ℓ} (h : step s l = some t) : Reachable step s t :=
  ⟨[l], by rw [run_cons_of_step h, run_nil]⟩

theorem Reachable.tail {s t u : σ} {l : ℓ} (h : Reachable step s t) (hl : step t l = some u) :
    Reachable step s u := h.trans (.single hl)

/-- A run on concrete labels that ends in a state with a decidable property, checked by evaluation. -/
theorem exists_run_of_map (step : σ → ℓ → Option σ) (s : σ) (ls : List ℓ) (p : σ → Bool)
    (h : (run step s ls).map p = some true) : ∃ t, run step s ls = some t ∧ p t = true :=
  Option.map_eq_some_iff.mp h

/-- Induction over runs, last step first: what holds of the first state and is kept by every step
    from a reachable state holds of every reachable state. -/
theorem Reachable.invariant {I : σ → Prop} {s₀ s : σ} (h : Reachable step s₀ s) (h₀ : I s₀)
    (hstep : ∀ s l t, I s → step s l = some t → I t) : I s := by
  obtain ⟨ls, h⟩ := h
  induction ls generalizing s₀ with
  | nil => rw [run_nil, Option.some.injEq] at h; exact h ▸ h₀
  | cons l ls ih =>
    rw [run_cons] at h
    obtain ⟨t, ht, h⟩ := Option.bind_eq_some_iff.mp h
    exact ih (hstep _ _ _ h₀ ht) h

/-- A forward simulation: if every step of the system can be followed by a run of the other one, what the
    system reaches is related to what the other one reaches. -/
theorem Reachable.simulate {τ m : Type*} {step' : τ → m → Option τ} (R : σ → τ → Prop) {s₀ s : σ} {t₀ : τ}
    (h : Reachable step s₀ s) (h₀ : R s₀ t₀)
    (hstep : ∀ s l s' t, R s t → step s l = some s' → ∃ t', Reachable step' t t' ∧ R s' t') :
    ∃ t, Reachable step' t₀ t ∧ R s t :=
  h.invariant (I := fun s => ∃ t, Reachable step' t₀ t ∧ R s t) ⟨t₀, .refl t₀, h₀⟩
    fun s l s' ⟨t, ht, hR⟩ hs => by
      obtain ⟨t', ht', hR'⟩ := hstep s l s' t hR hs
      exact ⟨t', ht.trans ht', hR'⟩

/-- A component of a system: if every step of the system is a step of the component or leaves it
    alone, what the system reaches the component reaches on its own. -/
theorem Reachable.project {τ m : Type*} {step' : τ → m → Option τ} (f : σ → τ) {s₀ s : σ}
    (h : Reachable step s₀ s)
    (hstep : ∀ s l t, step s l = some t → f t = f s ∨ ∃ l', step' (f s) l' = some (f t)) :
    Reachable step' (f s₀) (f s) :=
  h.invariant (I := fun t => Reachable step' (f s₀) (f t)) (.refl _) fun s l t hr hs => by
    rcases hstep s l t hs with heq | ⟨l', hl⟩
    · rwa [heq]
    · exact hr.tail hl

/-- Induction over a run, last step last: what holds before the first step and is kept by every step holds
    at the end, with the steps taken so far at hand. -/
theorem run_induction {I : List ℓ → σ → Prop} {s₀ s : σ} {ls : List ℓ} (h : run step s₀ ls = some s)
    (h₀ : I [] s₀) (hstep : ∀ ls s l t, I ls s → step s l = some t → I (ls ++ [l]) t) : I ls s := by
  induction ls using List.reverseRecOn generalizing s with
  | nil =>
    rw [run_nil, Option.some.injEq] at h
    exact h ▸ h₀
  | append_singleton ls l ih =>
    rw [run_append] at h
    obtain ⟨t, ht, h⟩ := Option.bind_eq_some_iff.mp h
    rw [run_cons] at h
    obtain ⟨u, hu, h⟩ := Option.bind_eq_some_iff.mp h
    obtain rfl := Option.some.inj h
    exact hstep ls t l u (ih ht) hu

/-! ## Observations -/

theorem restrict_eq_some {ok : σ → ℓ → Bool} {s t : σ} {l : ℓ} :
    restrict step ok s l = some t ↔ ok s l = true ∧ step s l = some t := by
  unfold restrict
  split <;> simp [*]

theorem Reachable.of_restrict {ok : σ → ℓ → Bool} {s t : σ}
    (h : Reachable (restrict step ok) s t) : Reachable step s t :=
  h.invariant (I := Reachable step s) (.refl s) fun _ _ _ hr hs =>
    hr.tail (restrict_eq_some.mp hs).2

/-- A weaker condition on the steps leaves more runs. -/
theorem Reachable.mono {ok ok' : σ → ℓ → Bool} {s t : σ} (h : Reachable (restrict step ok) s t)
    (hok : ∀ s l, ok s l = true → ok' s l = true) : Reachable (restrict step ok') s t :=
  h.invariant (I := Reachable (restrict step ok') s) (.refl s) fun s l _ hr hs =>
    hr.tail (restrict_eq_some.mpr ⟨hok s l (restrict_eq_some.mp hs).1, (restrict_eq_some.mp hs).2⟩)

/-- An invariant of the whole system may be used to keep a second one on restricted runs. -/
theorem Reachable.invariant_restrict {ok : σ → ℓ → Bool} {I J : σ → Prop} {s₀ s : σ}
    (h : Reachable (restrict step ok) s₀ s) (hI₀ : I s₀)
    (hI : ∀ s l t, I s → step s l = some t → I t) (hJ₀ : J s₀)
    (hJ : ∀ s l t, I s → J s → ok s l = true → step s l = some t → J t) : J s :=
  (h.invariant (I := fun s => I s ∧ J s) ⟨hI₀, hJ₀⟩ fun s l t ⟨hi, hj⟩ hs =>
    ⟨hI s l t hi (restrict_eq_some.mp hs).2,
      hJ s l t hi hj (restrict_eq_some.mp hs).1 (restrict_eq_some.mp hs).2⟩).2

/-! ## Bounded work -/

/-- If no step increases `μ` and the steps with `p` decrease it, the steps with `p` of a run are at most `μ`. What
    `μ` is measured against may depend on where the run ends: `K` holds of all states before one of `K`. -/
theorem countP_add_le {I K : σ → Prop} {μ : σ → ℕ} (p : ℓ → Bool) (hI : ∀ s l t, I s → step s l = some t → I t)
    (hK : ∀ s l t, step s l = some t → K t → K s)
    (hμ : ∀ s l t, I s → K t → step s l = some t → μ t + (if p l then 1 else 0) ≤ μ s)
    {s t : σ} {ls : List ℓ} (hs : I s) (h : run step s ls = some t) (ht : K t) :
    ls.countP p + μ t ≤ μ s := by
  have hrun := run_induction h (I := fun ls t => I t ∧ (K t → ls.countP p + μ t ≤ μ s))
    ⟨hs, fun _ => by simp⟩ (by
      rintro ls u l v ⟨hIu, ih⟩ hl
      refine ⟨hI u l v hIu hl, fun hKv => ?_⟩
      have hu := ih (hK u l v hl hKv)
      have hv := hμ u l v hIu hKv hl
      rw [List.countP_append, List.countP_singleton]
      omega)
  exact hrun.2 ht

/-! ## Progress -/

/-- If every state of `I` outside `G` reaches another one of `I` with a smaller measure `μ`, every state of `I`
    reaches one of `G`. -/
theorem reaches_of_progress (step : σ → ℓ → Option σ) {I G : σ → Prop} (μ : σ → ℕ)
    (hprog : ∀ s, I s → ¬ G s → ∃ t, Reachable step s t ∧ I t ∧ μ t < μ s) (s : σ) (hs : I s) :
    ∃ t, Reachable step s t ∧ I t ∧ G t := by
  induction hk : μ s using Nat.strong_induction_on generalizing s with
  | _ k ih =>
    by_cases hg : G s
    · exact ⟨s, .refl s, hs, hg⟩
    · obtain ⟨t, hst, ht, hlt⟩ := hprog s hs hg
      obtain ⟨u, hu, hIu, hGu⟩ := ih (μ t) (hk ▸ hlt) t ht rfl
      exact ⟨u, hst.trans hu, hIu, hGu⟩

/-- If every state of `I` outside `G` has a step within `I` that decreases the measure `μ`, every
    state of `I` reaches one of `G` without leaving `I`. -/
theorem reaches_of_decreasing (step : σ → ℓ → Option σ) {I G : σ → Prop} (μ : σ → ℕ)
    (hstep : ∀ s, I s → ¬ G s → ∃ l t, step s l = some t ∧ I t ∧ μ t < μ s) (s : σ) (hs : I s) :
    ∃ t, Reachable step s t ∧ I t ∧ G t :=
  reaches_of_progress step μ (fun s hs hg => by
    obtain ⟨l, t, hl, ht, hlt⟩ := hstep s hs hg
    exact ⟨t, .single hl, ht, hlt⟩) s hs

end Lts
