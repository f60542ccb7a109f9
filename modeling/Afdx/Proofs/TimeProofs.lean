import Afdx.Scheduler
import Mathlib.Order.Defs.Unbundled

/-!
# The scheduler's time arithmetic

`tm_ge` compares seconds first and is a total preorder on all times; on normalised times it compares
nanoseconds. `tm_incr` adds nanoseconds exactly and keeps times normalised, and no sum of nanoseconds
needs more than 32 bits. A node that is re-armed is
due one interval after the old time or after the clock reading, whichever is later than the reading.
-/

namespace Afdx

variable {a b c v i now : Timespec}

/-! ## `tm_ge` -/

/-- `tm_ge` is the lexicographic order on seconds and nanoseconds. -/
theorem tmGe_iff : tmGe a b = true ↔ b.tvSec < a.tvSec ∨ b.tvSec = a.tvSec ∧ b.tvNsec ≤ a.tvNsec := by
  unfold tmGe
  split_ifs with h₁ h₂
  · simp only [true_iff]
    exact .inl h₁
  · simp only [false_iff]
    omega
  · rw [decide_eq_true_iff]
    omega

theorem tmGe_refl (a : Timespec) : tmGe a a = true := tmGe_iff.mpr (.inr ⟨rfl, le_rfl⟩)

theorem tmGe_trans (h₁ : tmGe a b = true) (h₂ : tmGe b c = true) : tmGe a c = true := by
  rw [tmGe_iff] at h₁ h₂ ⊢
  omega

/-- Of two times one is greater than or equal to the other. -/
theorem tmGe_of_not (h : tmGe a b = false) : tmGe b a = true := by
  rw [← Bool.not_eq_true, tmGe_iff] at h
  rw [tmGe_iff]
  omega

/-- On normalised times `tm_ge` compares nanoseconds. -/
theorem tmGe_iff_ns (ha : a.Normalised) (hb : b.Normalised) : tmGe a b = true ↔ b.ns ≤ a.ns := by
  obtain ⟨ha, ha'⟩ := ha
  obtain ⟨hb, hb'⟩ := hb
  rw [tmGe_iff]
  unfold Timespec.ns
  omega

theorem not_tmGe_iff_ns (ha : a.Normalised) (hb : b.Normalised) : tmGe a b = false ↔ a.ns < b.ns := by
  rw [← Bool.not_eq_true, tmGe_iff_ns ha hb, not_le]

/-! ## `tm_incr` -/

/-- The value fits a `long` of 32 bits. -/
def FitsLong32 (x : ℤ) : Prop := -2147483648 ≤ x ∧ x < 2147483648

/-- `tm_incr` is exact, on all times. -/
theorem ns_tmIncr (v i : Timespec) : (tmIncr v i).ns = v.ns + i.ns := by
  have h := Int.tmod_add_mul_tdiv (v.tvNsec + i.tvNsec) 1000000000
  unfold tmIncr Timespec.ns
  simp only
  omega

theorem normalised_tmIncr (hv : v.Normalised) (hi : i.Normalised) : (tmIncr v i).Normalised := by
  obtain ⟨hv, -⟩ := hv
  obtain ⟨hi, -⟩ := hi
  have hpos : 0 ≤ v.tvNsec + i.tvNsec := by omega
  exact ⟨Int.tmod_nonneg _ hpos, Int.tmod_lt_of_pos _ (by decide)⟩

/-- The sum `nsecs` of `tm_incr` stays below two seconds. -/
theorem fitsLong32_nsecs (hv : v.Normalised) (hi : i.Normalised) : FitsLong32 (v.tvNsec + i.tvNsec) := by
  obtain ⟨hv, hv'⟩ := hv
  obtain ⟨hi, hi'⟩ := hi
  unfold FitsLong32
  omega

/-! ## The interval of a number of milliseconds -/

theorem normalised_msInterval {ms : ℤ} (h : 0 ≤ ms) : (msInterval ms).Normalised := by
  have h₀ := Int.tmod_nonneg 1000 h
  have h₁ := Int.tmod_lt_of_pos ms (b := 1000) (by decide)
  unfold msInterval Timespec.Normalised
  simp only
  omega

/-- The product that becomes `tv_nsec` is `tv_nsec`, and that is less than a second. -/
theorem fitsLong32_tmod {ms : ℤ} (h : 0 ≤ ms) : FitsLong32 (ms.tmod 1000 * 1000000) := by
  obtain ⟨h₀, h₁⟩ : 0 ≤ ms.tmod 1000 * 1000000 ∧ ms.tmod 1000 * 1000000 < 1000000000 :=
    normalised_msInterval h
  unfold FitsLong32
  omega

theorem ns_msInterval (ms : ℤ) : (msInterval ms).ns = ms * 1000000 := by
  have h := Int.tmod_add_mul_tdiv ms 1000
  unfold msInterval Timespec.ns
  simp only
  omega

/-! ## Re-arming -/

variable {n : SchedulerNode}

/-- The new time is one interval after the old one, or after `now` if that is missed. -/
theorem ns_rearmedTime (hnow : now.Normalised) (ht : n.nextTime.Normalised)
    (hi : n.interval.Normalised) :
    (rearmedTime now n).ns =
      if now.ns < n.nextTime.ns + n.interval.ns then n.nextTime.ns + n.interval.ns
      else now.ns + n.interval.ns := by
  have hge := tmGe_iff_ns hnow (normalised_tmIncr ht hi)
  rw [ns_tmIncr] at hge
  unfold rearmedTime
  simp only
  split_ifs with h₁ h₂ h₂
  · exact absurd (hge.mp h₁) (not_le.mpr h₂)
  · rw [ns_tmIncr]
  · rw [ns_tmIncr]
  · exact absurd (hge.mpr (not_lt.mp h₂)) h₁

theorem normalised_rearmedTime (hnow : now.Normalised) (ht : n.nextTime.Normalised)
    (hi : n.interval.Normalised) : (rearmedTime now n).Normalised := by
  unfold rearmedTime
  simp only
  split_ifs
  · exact normalised_tmIncr hnow hi
  · exact normalised_tmIncr ht hi

end Afdx
