import Mathlib.Algebra.Order.Group.Basic
import Mathlib.Data.List.NodupEquivFin
import Mathlib.Tactic.Abel

/-!
# Periodic timers

A timer with period `i` that is due at `t` and runs at `now` is due again one period after `t`, or one period
after `now` if that time has passed already. A run never comes before the timer is due.
-/

namespace Periodic

variable {T : Type*} [AddCommGroup T] [LinearOrder T]

/-- When the timer is due after a run at `now`. -/
def rearm (i now t : T) : T := if now < t + i then t + i else now + i

/-- A timer that is due at `t` runs at `times` and is due at `next` after that. -/
inductive Runs (i : T) : T → List T → T → Prop
  | nil (t : T) : Runs i t [] t
  | cons {t now next : T} {times : List T} (hdue : t ≤ now) (h : Runs i (rearm i now t) times next) :
    Runs i t (now :: times) next

variable {i t now next : T} {times times' : List T}

theorem runs_append_iff :
    Runs i t (times ++ times') next ↔ ∃ u, Runs i t times u ∧ Runs i u times' next := by
  induction times generalizing t with
  | nil =>
    constructor
    · intro h
      exact ⟨t, .nil t, h⟩
    · rintro ⟨u, ⟨⟩, h⟩
      exact h
  | cons now times ih =>
    constructor
    · rintro (_ | ⟨hdue, h⟩)
      obtain ⟨u, h₁, h₂⟩ := ih.mp h
      exact ⟨u, .cons hdue h₁, h₂⟩
    · rintro ⟨u, _ | ⟨hdue, h₁⟩, h₂⟩
      exact .cons hdue (ih.mpr ⟨u, h₁, h₂⟩)

/-- One more run, when the timer is due. -/
theorem Runs.concat (h : Runs i t times next) (hdue : next ≤ now) :
    Runs i t (times ++ [now]) (rearm i now next) :=
  runs_append_iff.mpr ⟨next, h, .cons hdue (.nil _)⟩

/-! ## One run -/

variable [IsOrderedAddMonoid T]

theorem add_le_rearm (hdue : t ≤ now) : t + i ≤ rearm i now t := by
  unfold rearm
  split
  · exact le_rfl
  · exact add_le_add_left hdue i

theorem lt_rearm (hi : 0 < i) (now t : T) : now < rearm i now t := by
  unfold rearm
  split
  · assumption
  · exact lt_add_of_pos_right now hi

/-! ## Any number of runs -/

/-- Every run puts the timer off by a period at least. -/
theorem Runs.add_le (h : Runs i t times next) : t + times.length • i ≤ next := by
  induction h with
  | nil t => simp
  | @cons t now next times hdue _ ih =>
    calc t + (times.length + 1) • i = t + i + times.length • i := by rw [succ_nsmul]; abel
      _ ≤ rearm i now t + times.length • i := add_le_add_left (add_le_rearm hdue) _
      _ ≤ next := ih

/-- A run and the one `m + 1` runs later are more than `m` periods apart. -/
theorem Runs.apart (h : Runs i t times next) (hi : 0 < i) {k m : ℕ} (hk : k + m + 1 < times.length) :
    times[k] + m • i < times[k + m + 1] := by
  induction h generalizing k with
  | nil t => simp at hk
  | @cons t now next times hdue h ih =>
    cases k with
    | succ k =>
      have hk' : k + m + 1 < times.length := by
        simp only [List.length_cons] at hk
        omega
      have hlt := ih hk'
      simp only [List.getElem_cons_succ, Nat.add_right_comm k 1 m]
      exact hlt
    | zero =>
      simp only [Nat.zero_add, List.length_cons] at hk
      have hm : m < times.length := by omega
      -- the timer is due at `u` when the later run comes
      obtain ⟨u, h₁, h₂⟩ := runs_append_iff.mp (List.take_append_drop m times ▸ h)
      rw [List.drop_eq_getElem_cons hm] at h₂
      obtain _ | ⟨hdue', -⟩ := h₂
      have hu := h₁.add_le
      rw [List.length_take, min_eq_left hm.le] at hu
      simp only [List.getElem_cons_zero, Nat.zero_add, List.getElem_cons_succ]
      calc now + m • i < rearm i now t + m • i := add_lt_add_left (lt_rearm hi now t) _
        _ ≤ u := hu
        _ ≤ times[m] := hdue'

/-- No more than `m + 1` runs fall into `m` periods. -/
theorem Runs.length_filter_le (h : Runs i t times next) (hi : 0 < i) (a : T) (m : ℕ) :
    (times.filter fun r => a ≤ r ∧ r ≤ a + m • i).length ≤ m + 1 := by
  set window := times.filter fun r => a ≤ r ∧ r ≤ a + m • i with hwindow
  by_contra! hlen
  have hmem : ∀ r ∈ window, a ≤ r ∧ r ≤ a + m • i := by
    intro r hr
    exact of_decide_eq_true (List.mem_filter.mp hr).2
  -- where the first of the window and the one `m + 1` after it stand among all runs
  obtain ⟨f, hf⟩ := List.sublist_iff_exists_orderEmbedding_getElem?_eq.mp
    (List.filter_sublist : window.Sublist times)
  have hget : ∀ j, (hj : j < window.length) → ∃ hk : f j < times.length, times[f j] = window[j] := by
    intro j hj
    have heq := hf j
    rw [List.getElem?_eq_getElem hj, eq_comm, List.getElem?_eq_some_iff] at heq
    exact heq
  obtain ⟨h₀, heq₀⟩ := hget 0 (by omega)
  obtain ⟨h₁, heq₁⟩ := hget (m + 1) hlen
  have hapart : m + 1 + f 0 ≤ f (m + 1) := f.strictMono.add_le_nat (m + 1) 0
  obtain ⟨d, hd⟩ := Nat.exists_eq_add_of_le hapart
  have hk : f 0 + (m + d) + 1 < times.length := by omega
  have hfirst := (hmem _ (List.getElem_mem (by omega : 0 < window.length))).1
  have hlast := (hmem _ (List.getElem_mem hlen)).2
  refine lt_irrefl (a + m • i) ?_
  calc a + m • i ≤ times[f 0] + (m + d) • i :=
        add_le_add (heq₀ ▸ hfirst) (nsmul_le_nsmul_left hi.le (Nat.le_add_right m d))
    _ < times[f 0 + (m + d) + 1] := h.apart hi hk
    _ = window[m + 1] := by
      rw [← heq₁]
      congr 1
      omega
    _ ≤ a + m • i := hlast

end Periodic
