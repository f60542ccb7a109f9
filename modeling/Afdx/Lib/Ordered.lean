import Mathlib.Data.List.Pairwise
import Mathlib.Order.Defs.Unbundled

/-!
# Sorted lists under insertion

Lists sorted by a total preorder `r`, and what happens to them when an element goes behind the elements
that are no greater and before the first one that is.
-/

namespace Ordered

variable {α : Type*} {r : α → α → Prop} {x : α} {l l₁ l₂ : List α}

/-- What is below the head of a sorted list is below all of it. -/
theorem le_of_head [IsTrans α r] (h : l.Pairwise r) (hx : ∀ y ∈ l.head?, r x y) : ∀ y ∈ l, r x y := by
  cases l with
  | nil => simp
  | cons a l =>
    intro y hy
    rcases List.mem_cons.mp hy with rfl | hy
    · exact hx y rfl
    · exact trans_of r (hx a rfl) ((List.pairwise_cons.mp h).1 y hy)

/-- Insertion of `x` between the elements that are no greater and those that are no smaller. -/
theorem insert [IsTrans α r] (h : (l₁ ++ l₂).Pairwise r) (h₁ : ∀ y ∈ l₁, r y x)
    (h₂ : ∀ y ∈ l₂.head?, r x y) : (l₁ ++ x :: l₂).Pairwise r := by
  obtain ⟨hl₁, hl₂, hcross⟩ := List.pairwise_append.mp h
  refine List.pairwise_append.mpr ⟨hl₁, List.pairwise_cons.mpr ⟨le_of_head hl₂ h₂, hl₂⟩, ?_⟩
  intro a ha b hb
  rcases List.mem_cons.mp hb with rfl | hb
  · exact h₁ a ha
  · exact hcross a ha b hb

theorem remove (h : (l₁ ++ x :: l₂).Pairwise r) : (l₁ ++ l₂).Pairwise r :=
  h.sublist ((List.sublist_cons_self x l₂).append_left l₁)

/-! ## Placement by a test -/

/-- The list `l` with `x` behind the elements that pass the test and before those that do not. -/
def place (test : α → Bool) (x : α) (l : List α) : List α :=
  l.filter test ++ x :: l.filter fun y => !test y

theorem place_append {test : α → Bool} (h₁ : ∀ y ∈ l₁, test y = true) (h₂ : ∀ y ∈ l₂, test y = false) :
    place test x (l₁ ++ l₂) = l₁ ++ x :: l₂ := by
  have hl₁ : l₁.filter test = l₁ := List.filter_eq_self.mpr h₁
  have hl₂ : l₂.filter test = [] := List.filter_eq_nil_iff.mpr fun y hy => by simp [h₂ y hy]
  have hr₁ : (l₁.filter fun y => !test y) = [] := List.filter_eq_nil_iff.mpr fun y hy => by simp [h₁ y hy]
  have hr₂ : (l₂.filter fun y => !test y) = l₂ := List.filter_eq_self.mpr fun y hy => by simp [h₂ y hy]
  rw [place, List.filter_append, List.filter_append, hl₁, hl₂, hr₁, hr₂, List.append_nil, List.nil_append]

end Ordered
