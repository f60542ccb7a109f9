import Mathlib.Data.Finset.Sort

/-!
# Scanning a finite set of numbers

The loop `for (x = 0; x < n; x++) if (x in s) visit(x);` and what it has still to visit when its counter
stands at `b`.
-/

namespace Scan

variable {s : Finset ℕ} {b n : ℕ}

/-- The members of `s` from `b` on, in increasing order. -/
def rest (s : Finset ℕ) (b : ℕ) : List ℕ := (s.filter (b ≤ ·)).sort

theorem rest_of_mem (h : b ∈ s) : rest s b = b :: rest s (b + 1) := by
  have hins : s.filter (b ≤ ·) = insert b (s.filter (b + 1 ≤ ·)) := by
    ext x
    simp only [Finset.mem_filter, Finset.mem_insert]
    constructor
    · intro hx
      by_cases hxb : x = b
      · exact .inl hxb
      · exact .inr ⟨hx.1, by omega⟩
    · rintro (rfl | ⟨hx, hle⟩)
      · exact ⟨h, le_rfl⟩
      · exact ⟨hx, by omega⟩
  rw [rest, hins, Finset.sort_insert]
  · rfl
  · intro x hx
    exact Nat.le_of_succ_le (Finset.mem_filter.mp hx).2
  · simp

theorem rest_of_not_mem (h : b ∉ s) : rest s b = rest s (b + 1) := by
  unfold rest
  congr 1
  refine Finset.filter_congr fun x hx => ?_
  have hne : x ≠ b := fun hxb => h (hxb ▸ hx)
  omega

theorem rest_of_le (h : ∀ x ∈ s, x < n) (hb : n ≤ b) : rest s b = [] := by
  rw [rest, Finset.filter_false_of_mem, Finset.sort_empty]
  intro x hx hle
  exact absurd (h x hx) (by omega)

end Scan
