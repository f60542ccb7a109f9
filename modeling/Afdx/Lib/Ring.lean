import Mathlib.Data.List.Range
import Mathlib.Data.Nat.ModEq
import Mathlib.Tactic.Common

/-!
# Circular buffers indexed by counters

A circular buffer of `n` slots keeps two indices modulo `n`. They are the residues of two counters
that only grow: `r`, the slots handed out so far, and `d`, the slots given back. The lemmas below
read the tests on the indices ("empty", "full", "same slot") as facts about the counters, as long as
the counters lie in a window of at most `n`.
-/

namespace Ring

variable {n a b r d : ℕ}

/-- Two counters within one lap of each other that share a slot are equal. -/
theorem eq_of_mod_eq (h : a ≤ b) (hn : b < a + n) (he : a % n = b % n) : a = b := by
  obtain ⟨k, hk⟩ := (Nat.modEq_iff_dvd' h).mp he
  cases k with
  | zero => omega
  | succ k => rw [Nat.mul_succ] at hk; omega

theorem mod_ne_of_lt (h : a < b) (hn : b < a + n) : a % n ≠ b % n := fun he =>
  absurd (eq_of_mod_eq h.le hn he) h.ne

theorem succ_mod (r n : ℕ) : (r % n + 1) % n = (r + 1) % n := Nat.mod_add_mod r n 1

/-- Advancing the input index meets the output index exactly when `n - 1` slots are handed out. -/
theorem full_iff (h : d ≤ r) (hn : r < d + n) : (r % n + 1) % n = d % n ↔ r + 1 = d + n := by
  rw [succ_mod]
  constructor
  · intro he
    by_contra hne
    exact mod_ne_of_lt (a := d) (b := r + 1) (by omega) (by omega) he.symm
  · intro he
    rw [he, Nat.add_mod_right]

/-- The slots of the counters from `d` to `r`, the oldest one first. -/
def slots (n r d : ℕ) : List ℕ := (List.range' d (r - d)).map (· % n)

@[simp] theorem slots_self (n r : ℕ) : slots n r r = [] := by simp [slots]

@[simp] theorem length_slots (n r d : ℕ) : (slots n r d).length = r - d := by simp [slots]

theorem slots_succ (h : d ≤ r) : slots n (r + 1) d = slots n r d ++ [r % n] := by
  have hlen : r + 1 - d = (r - d) + 1 := by omega
  have hlast : d + 1 * (r - d) = r := by omega
  rw [slots, hlen, List.range'_concat, List.map_append, hlast]
  rfl

theorem slots_of_lt (h : d < r) : slots n r d = d % n :: slots n r (d + 1) := by
  have hlen : r - d = (r - (d + 1)) + 1 := by omega
  rw [slots, hlen, List.range'_succ]
  rfl

/-- As long as there is room, the next slot is none of those handed out. -/
theorem mod_not_mem_slots (hn : r < d + n) : r % n ∉ slots n r d := by
  intro hmem
  obtain ⟨k, hk, he⟩ := List.mem_map.mp hmem
  rw [List.mem_range'_1] at hk
  exact mod_ne_of_lt (a := k) (b := r) (by omega) (by omega) he

end Ring
