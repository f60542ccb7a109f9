import Afdx.Proofs.QueueProofs
import Afdx.QueueCalls

/-!
# The circular queue refines a bounded first-in first-out queue

With `r` the successful reservations and `d` the effective disposals, the slots in use are those of the
counters from `d` to `r`, at most `SIZE_QUEUE - 1` of them. Every sequence of calls returns what a bounded
queue of these slots returns.
-/

namespace Afdx

open Ring

variable {n r d : ℕ} {q q' : Queue}

/-- `next_nqnode_out` returns the oldest slot in use, if any. -/
theorem nextNqnodeOut_eq (h : q.Counts n r d) : nextNqnodeOut q = (slots n r d).head? := by
  rcases h.le.eq_or_lt with rfl | hlt
  · rw [nextNqnodeOut_of_eq h, slots_self]
    rfl
  · rw [nextNqnodeOut_of_lt h hlt, slots_of_lt hlt]
    rfl

/-- One call, in terms of the counters and of the slots in use. -/
theorem Queue.Counts.call (h : q.Counts n r d) {c : QueueCall} (hc : q.call n c = some q') :
    ∃ r' d', r' = r + (if c.reserves then 1 else 0) ∧ d' = d + (if c.disposes then 1 else 0) ∧
      q'.Counts n r' d' ∧ Fifo.step (n - 1) (slots n r d) c.fifoCall = some (slots n r' d') := by
  have hlt := h.lt
  have hle := h.le
  cases c with
  | nextNqnodeIn node =>
    simp only [Queue.call] at hc
    split at hc <;> [rename_i hnode; cases hc]
    obtain rfl := Option.some.inj hc
    by_cases hroom : r + 1 < d + n
    · rw [nextNqnodeIn_of_lt h hroom] at hnode ⊢
      obtain rfl := hnode
      refine ⟨r + 1, d, rfl, rfl, ⟨rfl, h.outPtr, by omega, by omega⟩, ?_⟩
      have hlen : (slots n r d).length < n - 1 := by rw [length_slots]; omega
      simp only [QueueCall.fifoCall, Fifo.step]
      rw [if_pos ⟨hlen, mod_not_mem_slots hlt⟩, slots_succ hle]
    · have hfull : r + 1 = d + n := by omega
      rw [nextNqnodeIn_of_eq h hfull] at hnode ⊢
      obtain rfl := hnode
      refine ⟨r, d, rfl, rfl, ⟨h.inPtr, h.outPtr, hle, hlt⟩, ?_⟩
      have hlen : (slots n r d).length = n - 1 := by rw [length_slots]; omega
      simp only [QueueCall.fifoCall, Fifo.step]
      rw [if_pos hlen]
  | nextNqnodeOut node =>
    simp only [Queue.call] at hc
    obtain ⟨q₁, hs, hc⟩ := Option.bind_eq_some_iff.mp hc
    split at hc <;> [rename_i hnode; cases hc]
    obtain rfl := Option.some.inj hc
    obtain ⟨h₁, -⟩ := h.semWait hs
    refine ⟨r, d, rfl, rfl, h₁, ?_⟩
    rw [nextNqnodeOut_eq h₁] at hnode
    simp only [QueueCall.fifoCall, Fifo.step]
    rw [if_pos hnode.symm]
  | disposeLastNqnode moved =>
    simp only [Queue.call] at hc
    split at hc <;> [rename_i hmoved; cases hc]
    obtain rfl := Option.some.inj hc
    rcases hle.eq_or_lt with rfl | hdr
    · have hnot : ¬ q.outPtr ≠ q.inPtr := h.outPtr_ne_inPtr.not.mpr (lt_irrefl d)
      obtain rfl : false = moved := by rw [← hmoved, decide_eq_false hnot]
      refine ⟨d, d, rfl, rfl, by rwa [disposeLastNqnode_of_eq h], ?_⟩
      rw [slots_self]
      rfl
    · obtain rfl : true = moved := by rw [← hmoved, decide_eq_true (h.outPtr_ne_inPtr.mpr hdr)]
      refine ⟨r, d + 1, rfl, rfl, ?_, ?_⟩
      · rw [disposeLastNqnode_of_lt h hdr]
        exact ⟨h.inPtr, rfl, by omega, by omega⟩
      · rw [slots_of_lt hdr]
        rfl

theorem reserved_append (calls : List QueueCall) (c : QueueCall) :
    reserved (calls ++ [c]) = reserved calls + if c.reserves then 1 else 0 := by
  rw [reserved, List.countP_append, List.countP_singleton, reserved]

theorem disposed_append (calls : List QueueCall) (c : QueueCall) :
    disposed (calls ++ [c]) = disposed calls + if c.disposes then 1 else 0 := by
  rw [disposed, List.countP_append, List.countP_singleton, disposed]

/-- The indices count reservations and disposals, and the calls return what the calls of a bounded queue of
    `SIZE_QUEUE - 1` slots return. -/
theorem counts_of_calls (hn : 0 < n) {calls : List QueueCall}
    (h : Lts.run (Queue.call n) initQueue calls = some q) :
    q.Counts n (reserved calls) (disposed calls) ∧
      Lts.run (Fifo.step (n - 1)) [] (calls.map QueueCall.fifoCall) =
        some (slots n (reserved calls) (disposed calls)) := by
  refine Lts.run_induction (I := fun calls q => q.Counts n (reserved calls) (disposed calls) ∧
    Lts.run (Fifo.step (n - 1)) [] (calls.map QueueCall.fifoCall) =
      some (slots n (reserved calls) (disposed calls))) h ⟨initQueue_counts hn, rfl⟩ ?_
  rintro calls q c q' ⟨hcounts, hrun⟩ hc
  obtain ⟨r', d', hr, hd, hcounts', hfifo⟩ := hcounts.call hc
  rw [reserved_append, disposed_append, ← hr, ← hd]
  refine ⟨hcounts', ?_⟩
  rw [List.map_append, Lts.run_append, hrun, Option.bind_some]
  exact (Lts.run_cons_of_step hfifo []).trans (Lts.run_nil _)

/-- For every `SIZE_QUEUE` and every sequence of calls, in any order: the indices are the numbers of
    reservations and of disposals modulo `SIZE_QUEUE`, and the calls refine a bounded queue of slots.
    `next_nqnode_in` fails exactly when `SIZE_QUEUE - 1` slots are in use, and then leaves the indices as they
    are, and otherwise returns one that is not in use; `next_nqnode_out` returns the oldest one in use;
    `dispose_last_nqnode` does nothing when none is. -/
theorem calls_refine_fifo (n : ℕ+) {calls : List QueueCall}
    (h : Lts.run (Queue.call n) initQueue calls = some q) :
    (disposed calls ≤ reserved calls ∧ reserved calls - disposed calls ≤ n - 1 ∧
      q.inPtr = reserved calls % n ∧ q.outPtr = disposed calls % n) ∧
    Lts.run (Fifo.step (n - 1)) [] (calls.map QueueCall.fifoCall) =
      some (slots n (reserved calls) (disposed calls)) ∧
    (reserved calls - disposed calls = n - 1 →
      (nextNqnodeIn n q).1 = none ∧ (nextNqnodeIn n q).2.inPtr = q.inPtr ∧
        (nextNqnodeIn n q).2.outPtr = q.outPtr ∧ (nextNqnodeIn n q).2.nodes = q.nodes) ∧
    (reserved calls - disposed calls ≠ n - 1 →
      (nextNqnodeIn n q).1 = some (reserved calls % n) ∧
        reserved calls % n ∉ slots n (reserved calls) (disposed calls)) ∧
    (∀ q', semWait q = some q' →
      nextNqnodeOut q' = (if disposed calls < reserved calls then some (disposed calls % n) else none) ∧
        q'.inPtr = q.inPtr ∧ q'.outPtr = q.outPtr) ∧
    (reserved calls = disposed calls → disposeLastNqnode n q = q) := by
  obtain ⟨hcounts, hfifo⟩ := counts_of_calls n.pos h
  have hle := hcounts.le
  have hlt := hcounts.lt
  refine ⟨⟨hle, by omega, hcounts.inPtr, hcounts.outPtr⟩, hfifo, fun hfull => ?_, fun hroom => ?_,
    fun q' hs => ?_, fun heq => ?_⟩
  · rw [nextNqnodeIn_of_eq hcounts (by omega)]
    exact ⟨rfl, rfl, rfl, rfl⟩
  · rw [nextNqnodeIn_of_lt hcounts (by omega)]
    exact ⟨rfl, mod_not_mem_slots hlt⟩
  · obtain ⟨hcounts', hptrs⟩ := hcounts.semWait hs
    refine ⟨?_, hptrs⟩
    split
    · rename_i hdr
      exact nextNqnodeOut_of_lt hcounts' hdr
    · rename_i hdr
      have heq : reserved calls = disposed calls := by omega
      rw [heq] at hcounts'
      exact nextNqnodeOut_of_eq hcounts'
  · rw [heq] at hcounts
    exact disposeLastNqnode_of_eq hcounts

/-- Three slots: the queue is filled, looked at twice, emptied beyond the end, and wraps around. -/
def wrapCalls : List QueueCall :=
  [.nextNqnodeIn (some 0), .nextNqnodeIn (some 1), .nextNqnodeIn none, .nextNqnodeOut (some 0),
    .nextNqnodeOut (some 0), .disposeLastNqnode true, .disposeLastNqnode true, .disposeLastNqnode false,
    .nextNqnodeOut none, .nextNqnodeIn (some 2), .nextNqnodeIn (some 0)]

theorem calls_refine_fifo_wrapCalls :
    ∃ q, Lts.run (Queue.call (3 : ℕ+)) initQueue wrapCalls = some q ∧
      Lts.run (Fifo.step ((3 : ℕ+) - 1 : ℕ)) [] (wrapCalls.map QueueCall.fifoCall) = some [2, 0] ∧
      (nextNqnodeIn (3 : ℕ+) q).1 = none ∧ (nextNqnodeIn (3 : ℕ+) q).2.inPtr = q.inPtr ∧
      (nextNqnodeIn (3 : ℕ+) q).2.outPtr = q.outPtr := by
  obtain ⟨q, hrun, -⟩ := Lts.exists_run_of_map (Queue.call (3 : ℕ+)) initQueue wrapCalls (fun _ => true)
    (by decide)
  obtain ⟨-, hfifo, hfull, -⟩ := calls_refine_fifo 3 hrun
  obtain ⟨hnull, hin, hout, -⟩ := hfull (by decide)
  exact ⟨q, hrun, hfifo, hnull, hin, hout⟩

end Afdx
