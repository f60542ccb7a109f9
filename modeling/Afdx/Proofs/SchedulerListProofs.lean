import Afdx.Proofs.CadenceProofs

/-!
# The scheduler's list refines an ordered list

On the list of nodes that the pointers represent, `insert_node` places a node by its time, `remove_node`
erases it and `pop` takes the head. What the links of a node held before it is inserted does not matter:
`insert_node` overwrites both.
-/

namespace Afdx

namespace Sched

variable {st : Sched} {l : List ℕ} {x : ℕ}

/-- Following `next` from `first` and `prev` from `last` visits the nodes `l` in opposite orders, each once,
    and no node is due before the one that it follows. -/
structure WellFormed (st : Sched) (l : List ℕ) : Prop where
  repr : Repr st l
  sorted : Sorted st l

/-- The node `x` placed behind the nodes of `l` that are due no later than it. -/
def placed (st : Sched) (x : ℕ) (l : List ℕ) : List ℕ :=
  Ordered.place (fun y => tmGe (st.nextTime x) (st.nextTime y)) x l

theorem WellFormed.insertNode (h : WellFormed st l) (hx : x ∉ l) (hlive : x ∈ st.nodes.live) :
    ∃ st', Afdx.insertNode st x = some st' ∧ WellFormed st' (st.placed x l) ∧ SameNodes st st' := by
  obtain ⟨st', l₁, l₂, hins, rfl, hle, hgt, hr, hs⟩ := h.repr.insertNode hx hlive
  have htime : ∀ y, st'.nextTime y = st.nextTime y := fun y => congrArg Payload.nextTime (hs.payload y)
  have hsorted : Sorted st' (l₁ ++ l₂) := h.sorted.congr fun y _ => htime y
  have hsorted₂ : Sorted st l₂ := (List.pairwise_append.mp h.sorted).2.1
  -- a node behind the first one that is due later is due later, too
  have hlater : ∀ y ∈ l₂, tmGe (st.nextTime x) (st.nextTime y) = false := by
    cases l₂ with
    | nil => simp
    | cons z l₂ =>
      have hz : tmGe (st.nextTime x) (st.nextTime z) = false := hgt z rfl
      intro y hy
      have hzy : tmGe (st.nextTime y) (st.nextTime z) = true :=
        Ordered.le_of_head (r := st.NoLater) hsorted₂ (by rintro _ ⟨⟩; exact tmGe_refl _) y hy
      by_contra hne
      have hxz := tmGe_trans (Bool.not_eq_false _ ▸ hne) hzy
      rw [hz] at hxz
      cases hxz
  have hplaced : st.placed x (l₁ ++ l₂) = l₁ ++ x :: l₂ := Ordered.place_append hle hlater
  rw [hplaced]
  refine ⟨st', hins, ⟨hr, hsorted.insert ?_ ?_⟩, hs⟩
  · intro y hy
    rw [htime, htime]
    exact hle y hy
  · intro y hy
    rw [htime, htime]
    exact hgt y hy

theorem WellFormed.removeNode (h : WellFormed st l) (hx : x ∈ l) :
    WellFormed (Afdx.removeNode st x) (l.erase x) ∧ SameNodes st (Afdx.removeNode st x) := by
  obtain ⟨l₁, l₂, rfl⟩ := List.append_of_mem hx
  have hnd := (List.nodup_cons.mp (List.nodup_middle.mp h.repr.nodup)).1
  have hx₁ : x ∉ l₁ := fun hm => hnd (List.mem_append_left _ hm)
  obtain ⟨hr, hs⟩ := h.repr.removeNode
  rw [List.erase_append_right _ hx₁, List.erase_cons_head]
  exact ⟨⟨hr, h.sorted.remove.congr fun y _ => congrArg Payload.nextTime (hs.payload y)⟩, hs⟩

theorem WellFormed.pop (h : WellFormed st l) :
    ∃ st', Afdx.pop st = (l.head?, st') ∧ WellFormed st' l.tail ∧ SameNodes st st' := by
  cases l with
  | nil =>
    have hfirst : st.first = none := h.repr.first_eq
    refine ⟨st, ?_, h, .refl st⟩
    simp only [Afdx.pop, hfirst]
    rfl
  | cons x l =>
    obtain ⟨st', hpop, hr, hs⟩ := h.repr.pop
    have hsorted : Sorted st l := (List.pairwise_cons.mp h.sorted).2
    exact ⟨st', hpop, ⟨hr, hsorted.congr fun y _ => congrArg Payload.nextTime (hs.payload y)⟩, hs⟩

end Sched

namespace Scheduling

open Sched

/-- The operations of `scheduler.c` on a well-formed list are those of an ordered list, and leave the
    contents of all nodes alone. The list is well-formed in every state that calls of `schedule_ts` and
    `unschedule` and the re-arming of `scheduler_run` lead to, in any order. -/
theorem list_refined :
    (∀ st l x, WellFormed st l → x ∉ l → x ∈ st.nodes.live →
      ∃ st', insertNode st x = some st' ∧ WellFormed st' (st.placed x l) ∧ SameNodes st st') ∧
    (∀ st l x, WellFormed st l → x ∈ l →
      WellFormed (removeNode st x) (l.erase x) ∧ SameNodes st (removeNode st x)) ∧
    (∀ st l, WellFormed st l →
      ∃ st', pop st = (l.head?, st') ∧ WellFormed st' l.tail ∧ SameNodes st st') ∧
    ∀ s, Lts.Reachable Scheduling.step .init s → ∃ l, WellFormed s.sched l := by
  refine ⟨fun _ _ _ h hx hlive => h.insertNode hx hlive, fun _ _ _ h hx => h.removeNode hx,
    fun _ _ h => h.pop, fun s hs => ?_⟩
  obtain ⟨l, hI⟩ := inv_of_reachable hs
  exact ⟨l, hI.repr, hI.sorted⟩

/-- Three nodes with intervals of one, two and three seconds, of which the second has still to be inserted. -/
def twoOfThreeRun : List SchedulingLabel :=
  [.newNode .serveSchedulerQuery 0 ⟨1, 0⟩ (tenths 0), .insert 0, .newNode .serveSchedulerQuery 1 ⟨2, 0⟩ (tenths 0),
    .newNode .serveSchedulerQuery 2 ⟨3, 0⟩ (tenths 0), .insert 2]

theorem list_refined_twoOfThreeRun :
    ∃ s, Lts.run Scheduling.step .init twoOfThreeRun = some s ∧ (∃ l, WellFormed s.sched l) ∧
      (∃ st', insertNode s.sched 1 = some st' ∧ WellFormed st' [0, 1, 2]) ∧
      WellFormed (removeNode s.sched 2) [0] ∧ ∃ st', pop s.sched = (some 0, st') ∧ WellFormed st' [2] := by
  obtain ⟨s, hrun, hp⟩ := Lts.exists_run_of_map Scheduling.step .init twoOfThreeRun
    (fun s => decide ((s.sched.first = some 0 ∧ (s.sched.nodes.cell 0).next = some 2 ∧
      (s.sched.nodes.cell 2).next = none) ∧ (s.sched.last = some 2 ∧ (s.sched.nodes.cell 2).prev = some 0 ∧
      (s.sched.nodes.cell 0).prev = none) ∧ tmGe (s.sched.nextTime 2) (s.sched.nextTime 0) = true ∧
      s.sched.nodes.live = {0, 1, 2} ∧ s.sched.placed 1 [0, 2] = [0, 1, 2])) (by decide)
  obtain ⟨⟨hfirst, hnext, hnext'⟩, ⟨hlast, hprev, hprev'⟩, hle, hlive, hplaced⟩ := of_decide_eq_true hp
  have hlist : WellFormed s.sched [0, 2] := {
    repr := {
      chain := ⟨⟨hfirst, hnext, hnext', trivial⟩, hlast, hprev, hprev', trivial⟩
      nodup := by decide
      live := by
        rw [hlive]
        decide }
    sorted := by simpa [Sorted, NoLater] using hle }
  obtain ⟨hinsert, hremove, hpop, hreachable⟩ := list_refined
  obtain ⟨st, hins, hwf, -⟩ := hinsert s.sched [0, 2] 1 hlist (by decide) (by rw [hlive]; decide)
  obtain ⟨st', hpopped, hwf', -⟩ := hpop s.sched [0, 2] hlist
  exact ⟨s, hrun, hreachable s ⟨_, hrun⟩, ⟨st, hins, hplaced ▸ hwf⟩,
    (hremove s.sched [0, 2] 2 hlist (by decide)).1, st', hpopped, hwf'⟩

end Scheduling

end Afdx
