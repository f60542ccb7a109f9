import Mathlib.Data.List.Induction

/-!
# The value left by the last write of a log

A log of operations is executed on a store. An observation of the store that some operations set and
the others leave alone is, at the end, what the last operation of the first kind set it to.
-/

namespace LastWrite

variable {σ ε α : Type*}

/-- The last entry of the log that satisfies `p`. -/
def last (p : ε → Bool) (log : List ε) : Option ε := log.reverse.find? p

theorem last_concat (p : ε → Bool) (log : List ε) (e : ε) :
    last p (log ++ [e]) = if p e then some e else last p log := by
  rw [last, List.reverse_concat, List.find?_cons]
  cases p e <;> rfl

/-- Executing a log: the observation `get` is the value of the last entry that sets it, or the initial
    one if no entry does. -/
theorem get_foldl {exec : σ → ε → σ} {get : σ → α} {p : ε → Bool} {val : ε → α} (log : List ε)
    (hset : ∀ e ∈ log, p e = true → ∀ s, get (exec s e) = val e)
    (hkeep : ∀ e ∈ log, p e = false → ∀ s, get (exec s e) = get s) (s : σ) :
    get (log.foldl exec s) = ((last p log).map val).getD (get s) := by
  induction log using List.reverseRecOn with
  | nil => rfl
  | append_singleton log e ih =>
    have he : e ∈ log ++ [e] := by simp
    have ih := ih (fun e h => hset e (List.mem_append_left _ h))
      fun e h => hkeep e (List.mem_append_left _ h)
    rw [List.foldl_append, List.foldl_cons, List.foldl_nil, last_concat]
    cases hp : p e with
    | true => rw [hset e he hp]; rfl
    | false => rw [hkeep e he hp, ih]; rfl

/-- Entries that leave the observation alone do so one after the other. -/
theorem get_foldl_of_forall {exec : σ → ε → σ} {get : σ → α} {p : ε → Bool} (log : List ε)
    (hkeep : ∀ e ∈ log, p e = false → ∀ s, get (exec s e) = get s) (hp : ∀ e ∈ log, p e = false) (s : σ) :
    get (log.foldl exec s) = get s := by
  induction log generalizing s with
  | nil => rfl
  | cons e log ih =>
    rw [List.foldl_cons, ih (fun e' h => hkeep e' (List.mem_cons_of_mem _ h))
      fun e' h => hp e' (List.mem_cons_of_mem _ h)]
    exact hkeep e (List.mem_cons_self ..) (hp e (List.mem_cons_self ..)) s

/-- A block of writes of which at most one sets the observation. What is observed in the middle of the block has
    been so before it or will be so after it. -/
theorem get_before_or_after {exec : σ → ε → σ} (get : σ → α) {p : ε → Bool} (done rest : List ε)
    (hkeep : ∀ e ∈ done ++ rest, p e = false → ∀ s, get (exec s e) = get s)
    (honce : (done ++ rest).countP p ≤ 1) (s : σ) :
    get (done.foldl exec s) = get s ∨ get (done.foldl exec s) = get ((done ++ rest).foldl exec s) := by
  rw [List.countP_append] at honce
  have hzero : done.countP p = 0 ∨ rest.countP p = 0 := by omega
  rcases hzero with hdone | hrest
  · left
    refine get_foldl_of_forall done (fun e h => hkeep e (List.mem_append_left _ h)) (fun e h => ?_) s
    simpa using List.countP_eq_zero.mp hdone e h
  · right
    rw [List.foldl_append]
    refine (get_foldl_of_forall rest (fun e h => hkeep e (List.mem_append_right _ h)) (fun e h => ?_) _).symm
    simpa using List.countP_eq_zero.mp hrest e h

end LastWrite
