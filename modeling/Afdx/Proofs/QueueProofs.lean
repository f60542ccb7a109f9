import Afdx.Lib.Ring
import Afdx.Queue

/-!
# The circular queue as a window between two counters

With `r` the slots handed out by `next_nqnode_in` and `d` the slots given back by
`dispose_last_nqnode`, the indices are `r` and `d` modulo `SIZE_QUEUE` and at most `SIZE_QUEUE - 1`
slots are out. Each function of the queue is described once in terms of the two counters.
-/

namespace Afdx

variable {n r d : ℕ} {q q' : Queue}

@[simp] theorem Queue.modifyNode_self (q : Queue) (slot : ℕ) (f : Nqnode → Nqnode) :
    (q.modifyNode slot f).nodes slot = f (q.nodes slot) := Function.update_self ..

theorem Queue.modifyNode_of_ne {q : Queue} {slot i : ℕ} (h : i ≠ slot) (f : Nqnode → Nqnode) :
    (q.modifyNode slot f).nodes i = q.nodes i := Function.update_of_ne h ..

theorem nextNqnodeIn_nodes (n : ℕ) (q : Queue) : (nextNqnodeIn n q).2.nodes = q.nodes := by
  simp only [nextNqnodeIn]
  split <;> rfl

theorem nextNqnodeIn_nrNodesQueue (n : ℕ) (q : Queue) :
    (nextNqnodeIn n q).2.nrNodesQueue = q.nrNodesQueue + 1 := by
  simp only [nextNqnodeIn]
  split <;> rfl

theorem disposeLastNqnode_nodes (n : ℕ) (q : Queue) : (disposeLastNqnode n q).nodes = q.nodes := by
  unfold disposeLastNqnode
  split <;> rfl

theorem disposeLastNqnode_nrNodesQueue (n : ℕ) (q : Queue) :
    (disposeLastNqnode n q).nrNodesQueue = q.nrNodesQueue := by
  unfold disposeLastNqnode
  split <;> rfl

/-- The indices of `q` are those of `r` slots handed out and `d` of them given back. -/
structure Queue.Counts (n : ℕ) (q : Queue) (r d : ℕ) : Prop where
  inPtr : q.inPtr = r % n
  outPtr : q.outPtr = d % n
  le : d ≤ r
  lt : r < d + n

theorem initQueue_counts (hn : 0 < n) : initQueue.Counts n 0 0 :=
  ⟨(Nat.zero_mod n).symm, (Nat.zero_mod n).symm, le_rfl, by omega⟩

/-- The two indices are apart exactly if a slot is out. -/
theorem Queue.Counts.outPtr_ne_inPtr (h : q.Counts n r d) : q.outPtr ≠ q.inPtr ↔ d < r := by
  rw [h.inPtr, h.outPtr]
  constructor
  · intro hne
    exact lt_of_le_of_ne h.le fun he => hne (by rw [he])
  · intro hlt
    exact Ring.mod_ne_of_lt hlt h.lt

theorem semWait_eq_some (h : semWait q = some q') :
    0 < q.nrNodesQueue ∧ q' = { q with nrNodesQueue := q.nrNodesQueue - 1 } := by
  unfold semWait at h
  split at h <;> cases h
  exact ⟨by omega, rfl⟩

/-- `sem_wait` does not block while the semaphore is positive. -/
theorem semWait_of_pos (h : 0 < q.nrNodesQueue) :
    semWait q = some { q with nrNodesQueue := q.nrNodesQueue - 1 } := by
  rw [semWait, if_neg (by omega)]

/-- `sem_wait` does not move the indices. -/
theorem Queue.Counts.semWait (h : q.Counts n r d) (hs : Afdx.semWait q = some q') :
    q'.Counts n r d ∧ q'.inPtr = q.inPtr ∧ q'.outPtr = q.outPtr := by
  obtain ⟨-, rfl⟩ := semWait_eq_some hs
  exact ⟨⟨h.inPtr, h.outPtr, h.le, h.lt⟩, rfl, rfl⟩

/-- `next_nqnode_in` hands out slot `r` unless `SIZE_QUEUE - 1` slots are out. -/
theorem nextNqnodeIn_of_lt (h : q.Counts n r d) (hlt : r + 1 < d + n) :
    nextNqnodeIn n q =
      (some (r % n), { q with inPtr := (r + 1) % n, nrNodesQueue := q.nrNodesQueue + 1 }) := by
  have hne : (r % n + 1) % n ≠ d % n := fun he => by
    have := (Ring.full_iff h.le h.lt).mp he
    omega
  rw [nextNqnodeIn, h.inPtr, h.outPtr, if_neg hne, Ring.succ_mod]

/-- `next_nqnode_in` fails when `SIZE_QUEUE - 1` slots are out, and still raises the semaphore. -/
theorem nextNqnodeIn_of_eq (h : q.Counts n r d) (he : r + 1 = d + n) :
    nextNqnodeIn n q = (none, { q with nrNodesQueue := q.nrNodesQueue + 1 }) := by
  rw [nextNqnodeIn, h.inPtr, h.outPtr, if_pos ((Ring.full_iff h.le h.lt).mpr he)]

/-- `next_nqnode_out` returns the oldest slot that is out. -/
theorem nextNqnodeOut_of_lt (h : q.Counts n r d) (hlt : d < r) :
    nextNqnodeOut q = some (d % n) := by
  rw [nextNqnodeOut, if_pos (h.outPtr_ne_inPtr.mpr hlt), h.outPtr]

/-- `next_nqnode_out` returns `NULL` when no slot is out. -/
theorem nextNqnodeOut_of_eq (h : q.Counts n r r) : nextNqnodeOut q = none := by
  rw [nextNqnodeOut, if_neg (h.outPtr_ne_inPtr.not.mpr (lt_irrefl r))]

/-- `dispose_last_nqnode` gives the oldest slot back. -/
theorem disposeLastNqnode_of_lt (h : q.Counts n r d) (hlt : d < r) :
    disposeLastNqnode n q = { q with outPtr := (d + 1) % n } := by
  rw [disposeLastNqnode, if_pos (h.outPtr_ne_inPtr.mpr hlt), h.outPtr, Ring.succ_mod]

/-- `dispose_last_nqnode` does nothing when no slot is out. -/
theorem disposeLastNqnode_of_eq (h : q.Counts n r r) : disposeLastNqnode n q = q := by
  rw [disposeLastNqnode, if_neg (h.outPtr_ne_inPtr.not.mpr (lt_irrefl r))]

end Afdx
