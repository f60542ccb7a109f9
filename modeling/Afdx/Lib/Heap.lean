import Mathlib.Data.Finset.Card
import Mathlib.Data.Finset.Range

/-!
# Typed heaps

Cells of one type, under names that are never used twice: `alloc` hands out the next name, `free`
takes the name out of the live ones. A cell keeps its last contents when it is freed, so that a
stale pointer can be followed by a model that wants to say what it would find.

A name stands for one allocation, not for an address. Where it matters that `malloc` hands out the address
of a freed cell again, `Addresses` says which cell a pointer finds.
-/

/-- A heap of cells of type `α`. -/
structure Heap (α : Type*) where
  cell : ℕ → α
  live : Finset ℕ
  /-- The first name not yet handed out. -/
  brk : ℕ
  live_lt : ∀ x ∈ live, x < brk

namespace Heap

variable {α : Type*}

def empty (v : α) : Heap α := ⟨fun _ => v, ∅, 0, by simp⟩

/-- `malloc`: a name never used before, and the heap where it holds `v`. -/
def alloc (h : Heap α) (v : α) : ℕ × Heap α :=
  (h.brk,
    { cell := Function.update h.cell h.brk v
      live := insert h.brk h.live
      brk := h.brk + 1
      live_lt := by
        intro x hx
        rcases Finset.mem_insert.mp hx with rfl | hx
        · exact Nat.lt_succ_self _
        · exact Nat.lt_succ_of_lt (h.live_lt x hx) })

/-- `free`: the cell keeps its contents but is no longer live. -/
def free (h : Heap α) (x : ℕ) : Heap α :=
  { h with
    live := h.live.erase x
    live_lt := fun y hy => h.live_lt y (Finset.mem_of_mem_erase hy) }

/-- A store into the cell `x`. -/
def modify (h : Heap α) (x : ℕ) (f : α → α) : Heap α :=
  { h with cell := Function.update h.cell x (f (h.cell x)) }

variable (h : Heap α) (x y : ℕ) (f : α → α) (v : α)

@[simp] theorem alloc_fst : (h.alloc v).1 = h.brk := rfl

@[simp] theorem alloc_brk : (h.alloc v).2.brk = h.brk + 1 := rfl

@[simp] theorem mem_alloc_live : y ∈ (h.alloc v).2.live ↔ y = h.brk ∨ y ∈ h.live :=
  Finset.mem_insert

@[simp] theorem alloc_cell_self : (h.alloc v).2.cell h.brk = v := Function.update_self ..

theorem alloc_cell_of_ne {y : ℕ} (hy : y ≠ h.brk) : (h.alloc v).2.cell y = h.cell y :=
  Function.update_of_ne hy ..

theorem alloc_cell_of_live {y : ℕ} (hy : y ∈ h.live) : (h.alloc v).2.cell y = h.cell y :=
  h.alloc_cell_of_ne v (h.live_lt y hy).ne

@[simp] theorem free_cell : (h.free x).cell = h.cell := rfl

@[simp] theorem free_brk : (h.free x).brk = h.brk := rfl

@[simp] theorem mem_free_live : y ∈ (h.free x).live ↔ y ≠ x ∧ y ∈ h.live := Finset.mem_erase

@[simp] theorem modify_live : (h.modify x f).live = h.live := rfl

@[simp] theorem modify_brk : (h.modify x f).brk = h.brk := rfl

theorem modify_cell : (h.modify x f).cell y = if y = x then f (h.cell y) else h.cell y := by
  simp only [modify, Function.update_apply]
  split_ifs with hy <;> simp [*]

@[simp] theorem modify_cell_self : (h.modify x f).cell x = f (h.cell x) :=
  Function.update_self ..

theorem modify_cell_of_ne {y : ℕ} (hy : y ≠ x) : (h.modify x f).cell y = h.cell y :=
  Function.update_of_ne hy ..

theorem brk_not_mem_live : h.brk ∉ h.live := fun hb => (h.live_lt _ hb).false

variable {h} in
/-- A duplicate-free list of live cells is no longer than the names handed out. -/
theorem length_le_brk {l : List ℕ} (hnd : l.Nodup) (hl : ∀ x ∈ l, x ∈ h.live) :
    l.length ≤ h.brk := by
  have hsub : l.toFinset ⊆ Finset.range h.brk := fun x hx =>
    Finset.mem_range.mpr (h.live_lt x (hl x (List.mem_toFinset.mp hx)))
  have hcard := Finset.card_le_card hsub
  rwa [List.toFinset_card_of_nodup hnd, Finset.card_range] at hcard

/-! ## Stores into cells that are not live -/

/-- The two heaps hold the same live cells. -/
structure SameLive (h h' : Heap α) : Prop where
  live : h'.live = h.live
  cell : ∀ x ∈ h.live, h'.cell x = h.cell x

theorem SameLive.refl : h.SameLive h := ⟨rfl, fun _ _ => rfl⟩

variable {h x} in
theorem SameLive.modify (hx : x ∉ h.live) : h.SameLive (h.modify x f) :=
  ⟨rfl, fun _ hy => h.modify_cell_of_ne x f (ne_of_mem_of_not_mem hy hx)⟩

/-! ## The live cells as a list -/

variable {h}

/-- The list names the live cells, each once. -/
def Listed (h : Heap α) (l : List ℕ) : Prop := l.Nodup ∧ ∀ x, x ∈ h.live ↔ x ∈ l

/-- Two lists of live cells that have none in common and leave none out. -/
theorem Listed.append {l l' : List ℕ} (hl : l.Nodup) (hl' : l'.Nodup) (hdisj : ∀ x ∈ l', x ∉ l)
    (hlive : ∀ x ∈ l, x ∈ h.live) (hlive' : ∀ x ∈ l', x ∈ h.live) (hall : ∀ x ∈ h.live, x ∈ l ∨ x ∈ l') :
    h.Listed (l ++ l') := by
  refine ⟨List.nodup_append'.mpr ⟨hl, hl', fun x hx hx' => hdisj x hx' hx⟩, fun x => ?_⟩
  rw [List.mem_append]
  exact ⟨hall x, fun hx => hx.elim (hlive x) (hlive' x)⟩

/-! ## Addresses -/

/-- The address of each cell, and the cell that each address was handed out for last. -/
structure Addresses where
  addr : ℕ → ℕ
  cellAt : ℕ → ℕ

namespace Addresses

variable {h h' : Heap α} {A : Addresses} {x p : ℕ}

/-- The cell that a pointer to `x` finds: `x` itself, or the one that has got its address since. -/
def found (A : Addresses) (x : ℕ) : ℕ := A.cellAt (A.addr x)

/-- `malloc` has returned `p` for the cell `x`. -/
def assign (A : Addresses) (x p : ℕ) : Addresses :=
  ⟨Function.update A.addr x p, Function.update A.cellAt p x⟩

/-- No live cell is at `p`, so that `malloc` may return it. -/
def Unused (A : Addresses) (h : Heap α) (p : ℕ) : Prop := ∀ x ∈ h.live, A.addr x ≠ p

instance : Decidable (A.Unused h p) := inferInstanceAs (Decidable (∀ x ∈ h.live, A.addr x ≠ p))

/-- Pointers to live cells find them. -/
def Sound (A : Addresses) (h : Heap α) : Prop := ∀ x ∈ h.live, A.found x = x

theorem found_assign (y : ℕ) :
    (A.assign x p).found y = Function.update A.cellAt p x (Function.update A.addr x p y) := rfl

/-- A pointer to another cell at the address finds the new one. -/
theorem found_assign_of_addr {y : ℕ} (hxy : y ≠ x) (hp : A.addr y = p) : (A.assign x p).found y = x := by
  rw [found_assign, Function.update_of_ne hxy, hp, Function.update_self]

theorem Sound.mono (hA : A.Sound h) (hsub : h'.live ⊆ h.live) : A.Sound h' := fun x hx => hA x (hsub hx)

/-- The first name not yet handed out gets an unused address. -/
theorem Sound.assign (hA : A.Sound h) (hp : A.Unused h p) (hlive : h'.live ⊆ insert h.brk h.live) :
    (A.assign h.brk p).Sound h' := by
  intro x hx
  rcases Finset.mem_insert.mp (hlive hx) with rfl | hx
  · rw [found_assign, Function.update_self, Function.update_self]
  · rw [found_assign, Function.update_of_ne (h.live_lt x hx).ne, Function.update_of_ne (hp x hx)]
    exact hA x hx

/-- The address of a cell that is freed is not in use any more. -/
theorem Sound.unused_free (hA : A.Sound h) (hx : x ∈ h.live) : A.Unused (h.free x) (A.addr x) := by
  intro y hy haddr
  obtain ⟨hne, hy⟩ := (h.mem_free_live x y).mp hy
  exact hne ((hA y hy).symm.trans ((congrArg A.cellAt haddr).trans (hA x hx)))

end Addresses

end Heap
