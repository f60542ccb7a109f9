import Mathlib.Data.List.Basic
import Mathlib.Data.List.Nodup

/-!
# Linked lists in memory

A linked list is a start pointer and a successor function `nxt`; `Chain nxt p l` says that following
`nxt` from `p` visits the nodes `l` and ends at `none`. Insertion and removal are stated for a
successor function that agrees with the old one except where the pointers are changed, so that they
serve both directions of a doubly linked list.
-/

namespace Links

variable {ι : Type*} {nxt nxt' prv prv' : ι → Option ι} {p first last : Option ι}
  {x : ι} {l l₁ l₂ : List ι}

/-- Each node of `l` points to the one after it, the last one to nothing. -/
def Linked (nxt : ι → Option ι) : List ι → Prop
  | [] => True
  | x :: l => nxt x = l.head? ∧ Linked nxt l

/-- Following `nxt` from `p` visits the nodes `l`, in order, and ends. -/
structure Chain (nxt : ι → Option ι) (p : Option ι) (l : List ι) : Prop where
  head : p = l.head?
  linked : Linked nxt l

/-- Following `nxt` from `first` and `prv` from `last` visits the same nodes in opposite orders. -/
structure DChain (nxt prv : ι → Option ι) (first last : Option ι) (l : List ι) : Prop where
  forward : Chain nxt first l
  backward : Chain prv last l.reverse

theorem Linked.congr (h : Linked nxt l) (hsame : ∀ y ∈ l, nxt' y = nxt y) : Linked nxt' l := by
  induction l with
  | nil => trivial
  | cons x l ih =>
    exact ⟨(hsame x (by simp)).trans h.1, ih h.2 fun y hy => hsame y (List.mem_cons_of_mem _ hy)⟩

theorem Chain.congr (h : Chain nxt p l) (hsame : ∀ y ∈ l, nxt' y = nxt y) : Chain nxt' p l :=
  ⟨h.head, h.linked.congr hsame⟩

theorem Chain.nil : Chain nxt none [] := ⟨rfl, trivial⟩

theorem Chain.cons (h : Chain nxt p l) (hx : nxt x = p) : Chain nxt (some x) (x :: l) :=
  ⟨rfl, hx.trans h.head, h.linked⟩

/-- The rest of a list, from the pointer held by one of its nodes. -/
theorem Linked.tail (h : Linked nxt (l₁ ++ x :: l₂)) : Chain nxt (nxt x) l₂ := by
  induction l₁ with
  | nil => exact ⟨h.1, h.2⟩
  | cons y l₁ ih => exact ih h.2

/-- Insertion of `x` after the nodes `l₁`. -/
theorem Linked.insert (h : Linked nxt (l₁ ++ l₂)) (hnd : (l₁ ++ l₂).Nodup)
    (hx : nxt' x = l₂.head?) (hlast : ∀ y ∈ l₁.getLast?, nxt' y = some x)
    (hsame : ∀ y ∈ l₁ ++ l₂, y ∉ l₁.getLast? → nxt' y = nxt y) :
    Linked nxt' (l₁ ++ x :: l₂) := by
  induction l₁ with
  | nil => exact ⟨hx, h.congr fun y hy => hsame y hy (by simp)⟩
  | cons a l₁ ih =>
    obtain ⟨ha, hnd⟩ := List.nodup_cons.mp hnd
    cases l₁ with
    | nil =>
      refine ⟨hlast a (by simp), hx, h.2.congr fun y hy => hsame y (List.mem_cons_of_mem _ hy) ?_⟩
      rintro hy'
      obtain rfl : a = y := by simpa using hy'
      exact ha hy
    | cons b l₁ =>
      have hgl : (a :: b :: l₁).getLast? = (b :: l₁).getLast? := List.getLast?_cons_cons
      rw [hgl] at hlast hsame
      refine ⟨?_, ih h.2 hnd hlast fun y hy => hsame y (List.mem_cons_of_mem _ hy)⟩
      have hne : a ∉ (b :: l₁).getLast? := fun hm =>
        ha (List.mem_append_left _ (List.mem_of_getLast? hm))
      exact (hsame a (by simp) hne).trans h.1

/-- Removal of the node `x` that follows the nodes `l₁`. -/
theorem Linked.remove (h : Linked nxt (l₁ ++ x :: l₂)) (hnd : (l₁ ++ x :: l₂).Nodup)
    (hlast : ∀ y ∈ l₁.getLast?, nxt' y = nxt x)
    (hsame : ∀ y ∈ l₁ ++ l₂, y ∉ l₁.getLast? → nxt' y = nxt y) :
    Linked nxt' (l₁ ++ l₂) := by
  induction l₁ with
  | nil => exact h.2.congr fun y hy => hsame y hy (by simp)
  | cons a l₁ ih =>
    obtain ⟨ha, hnd⟩ := List.nodup_cons.mp hnd
    cases l₁ with
    | nil =>
      refine ⟨(hlast a (by simp)).trans h.2.1,
        h.2.2.congr fun y hy => hsame y (List.mem_cons_of_mem _ hy) ?_⟩
      rintro hy'
      obtain rfl : a = y := by simpa using hy'
      exact ha (List.mem_cons_of_mem _ hy)
    | cons b l₁ =>
      have hgl : (a :: b :: l₁).getLast? = (b :: l₁).getLast? := List.getLast?_cons_cons
      rw [hgl] at hlast hsame
      refine ⟨?_, ih h.2 hnd hlast fun y hy => hsame y (List.mem_cons_of_mem _ hy)⟩
      have hne : a ∉ (b :: l₁).getLast? := fun hm =>
        ha (List.mem_append_left _ (List.mem_of_getLast? hm))
      exact (hsame a (by simp) hne).trans h.1

/-! ## Doubly linked lists -/

/-- Insertion of `x` between `l₁` and `l₂`: the pointers of `x`, of its two neighbours and of the ends
    are set, all others are kept. -/
theorem DChain.insert (h : DChain nxt prv first last (l₁ ++ l₂)) (hnd : (l₁ ++ l₂).Nodup)
    (hx : nxt' x = l₂.head?) (hx' : prv' x = l₁.getLast?)
    (hn : ∀ y ∈ l₁.getLast?, nxt' y = some x) (hp : ∀ y ∈ l₂.head?, prv' y = some x)
    (hns : ∀ y ∈ l₁ ++ l₂, y ∉ l₁.getLast? → nxt' y = nxt y)
    (hps : ∀ y ∈ l₁ ++ l₂, y ∉ l₂.head? → prv' y = prv y) :
    DChain nxt' prv' (l₁ ++ x :: l₂).head? (l₁ ++ x :: l₂).getLast? (l₁ ++ x :: l₂) := by
  have hb := h.backward.linked
  rw [List.reverse_append] at hb
  have hrev : (l₁ ++ x :: l₂).reverse = l₂.reverse ++ x :: l₁.reverse := by simp
  refine ⟨⟨rfl, h.forward.linked.insert hnd hx hn hns⟩, ?_, ?_⟩
  · rw [List.head?_reverse]
  · rw [hrev]
    refine hb.insert ?_ (by rw [hx', List.head?_reverse]) ?_ ?_
    · rw [← List.reverse_append]
      exact List.nodup_reverse.mpr hnd
    · rwa [List.getLast?_reverse]
    · intro y hy
      rw [List.getLast?_reverse]
      refine hps y ?_
      simpa [or_comm] using hy

/-- Removal of `x`, between `l₁` and `l₂`. -/
theorem DChain.remove (h : DChain nxt prv first last (l₁ ++ x :: l₂))
    (hnd : (l₁ ++ x :: l₂).Nodup)
    (hn : ∀ y ∈ l₁.getLast?, nxt' y = nxt x) (hp : ∀ y ∈ l₂.head?, prv' y = prv x)
    (hns : ∀ y ∈ l₁ ++ l₂, y ∉ l₁.getLast? → nxt' y = nxt y)
    (hps : ∀ y ∈ l₁ ++ l₂, y ∉ l₂.head? → prv' y = prv y) :
    DChain nxt' prv' (l₁ ++ l₂).head? (l₁ ++ l₂).getLast? (l₁ ++ l₂) := by
  have hrev : (l₁ ++ x :: l₂).reverse = l₂.reverse ++ x :: l₁.reverse := by simp
  have hb := h.backward.linked
  rw [hrev] at hb
  refine ⟨⟨rfl, h.forward.linked.remove hnd hn hns⟩, ?_, ?_⟩
  · rw [List.head?_reverse]
  · rw [List.reverse_append]
    refine hb.remove ?_ ?_ ?_
    · rw [← hrev]
      exact List.nodup_reverse.mpr hnd
    · rwa [List.getLast?_reverse]
    · intro y hy
      rw [List.getLast?_reverse]
      refine hps y ?_
      simpa [or_comm] using hy

theorem DChain.last_eq (h : DChain nxt prv first last l) : last = l.getLast? := by
  rw [h.backward.head, List.head?_reverse]

/-- The successor of a node is the first node after it, its predecessor the last one before it. -/
theorem DChain.neighbours (h : DChain nxt prv first last (l₁ ++ x :: l₂)) :
    nxt x = l₂.head? ∧ prv x = l₁.getLast? := by
  have hrev : (l₁ ++ x :: l₂).reverse = l₂.reverse ++ x :: l₁.reverse := by simp
  have hb := h.backward.linked
  rw [hrev] at hb
  refine ⟨h.forward.linked.tail.head, ?_⟩
  rw [hb.tail.head, List.head?_reverse]

theorem DChain.congr (h : DChain nxt prv first last l) (hn : ∀ y ∈ l, nxt' y = nxt y)
    (hp : ∀ y ∈ l, prv' y = prv y) : DChain nxt' prv' first last l :=
  ⟨h.forward.congr hn, h.backward.congr fun y hy => hp y (List.mem_reverse.mp hy)⟩

/-! ## Walking along a list -/

/-- The search loop `while (cur && !stop(cur)) { prev = cur; cur = cur->next; }`: where it ends, as the
    pair of `prev` and `cur`. At most `fuel` pointers are followed; `none` if that is not enough. -/
def walk (nxt : ι → Option ι) (stop : ι → Bool) : ℕ → Option ι → Option ι →
    Option (Option ι × Option ι)
  | 0, _, _ => none
  | _ + 1, prev, none => some (prev, none)
  | fuel + 1, prev, some cur =>
    if stop cur then some (prev, some cur) else walk nxt stop fuel (some cur) (nxt cur)

/-- With more fuel than nodes the walk ends at the first node where it is to stop. -/
theorem walk_eq (stop : ι → Bool) (prev : Option ι) {fuel : ℕ} (h : Chain nxt p l)
    (hf : l.length < fuel) :
    ∃ l₁ l₂, l = l₁ ++ l₂ ∧ (∀ x ∈ l₁, stop x = false) ∧ (∀ x ∈ l₂.head?, stop x = true) ∧
      walk nxt stop fuel prev p = some (l₁.getLast?.or prev, l₂.head?) := by
  induction l generalizing p fuel prev with
  | nil =>
    obtain ⟨fuel, rfl⟩ := Nat.exists_eq_add_of_lt hf
    rw [h.head]
    exact ⟨[], [], rfl, by simp, by simp, rfl⟩
  | cons x l ih =>
    obtain ⟨fuel, rfl⟩ : ∃ k, fuel = k + 1 := Nat.exists_eq_succ_of_ne_zero (by omega)
    rw [h.head]
    cases hs : stop x with
    | true => exact ⟨[], x :: l, rfl, by simp, by simpa using hs, by simp [walk, hs]⟩
    | false =>
      obtain ⟨l₁, l₂, hl, h₁, h₂, hw⟩ :=
        ih (some x) ⟨h.linked.1, h.linked.2⟩ (Nat.lt_of_succ_lt_succ hf)
      refine ⟨x :: l₁, l₂, by rw [hl, List.cons_append], ?_, h₂, ?_⟩
      · intro y hy
        rcases List.mem_cons.mp hy with rfl | hy
        · exact hs
        · exact h₁ y hy
      · simp only [List.head?_cons, walk, hs, Bool.false_eq_true, if_false, hw]
        cases l₁ with
        | nil => rfl
        | cons y l₁ => rw [List.getLast?_cons_cons, List.getLast?_cons, Option.some_or, Option.some_or]

/-- The nodes that are visited when at most `fuel` pointers are followed from `p`. -/
def collect (nxt : ι → Option ι) : ℕ → Option ι → List ι
  | 0, _ => []
  | _ + 1, none => []
  | fuel + 1, some x => x :: collect nxt fuel (nxt x)

/-- With enough fuel the nodes visited are those of the list. -/
theorem Chain.collect_eq {fuel : ℕ} (h : Chain nxt p l) (hf : l.length < fuel) :
    collect nxt fuel p = l := by
  induction l generalizing p fuel with
  | nil =>
    obtain ⟨fuel, rfl⟩ := Nat.exists_eq_add_of_lt hf
    rw [h.head]
    rfl
  | cons x l ih =>
    obtain ⟨fuel, rfl⟩ : ∃ k, fuel = k + 1 := Nat.exists_eq_succ_of_ne_zero (by omega)
    rw [h.head]
    exact congrArg (x :: ·) (ih ⟨h.linked.1, h.linked.2⟩ (Nat.lt_of_succ_lt_succ hf))

end Links
