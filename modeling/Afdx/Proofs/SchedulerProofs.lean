import Afdx.Scheduler

/-!
# The scheduler's list as a list

What each operation of `scheduler.c` does to the list of nodes that the pointers represent. All of them
but `rearmFirst` leave the contents of every node (interval, time, action, data) alone.
-/

namespace Afdx

open Links

namespace Sched

variable {st st' : Sched} {l l₁ l₂ : List ℕ} {x : ℕ}

@[simp] theorem modify_first (f : SchedulerNode → SchedulerNode) :
    (st.modify x f).first = st.first := rfl

@[simp] theorem modify_last (f : SchedulerNode → SchedulerNode) :
    (st.modify x f).last = st.last := rfl

theorem modify_cell (f : SchedulerNode → SchedulerNode) (y : ℕ) :
    (st.modify x f).nodes.cell y = if y = x then f (st.nodes.cell y) else st.nodes.cell y :=
  st.nodes.modify_cell x y f

/-- The two states hold the same nodes, up to their links. -/
structure SameNodes (st st' : Sched) : Prop where
  live : st'.nodes.live = st.nodes.live
  brk : st'.nodes.brk = st.nodes.brk
  payload : ∀ x, st'.payload x = st.payload x

theorem SameNodes.refl (st : Sched) : SameNodes st st := ⟨rfl, rfl, fun _ => rfl⟩

theorem SameNodes.trans {st'' : Sched} (h : SameNodes st st') (h' : SameNodes st' st'') :
    SameNodes st st'' :=
  ⟨h'.live.trans h.live, h'.brk.trans h.brk, fun x => (h'.payload x).trans (h.payload x)⟩

/-- A store into a node that keeps its contents. -/
theorem SameNodes.modify (h : SameNodes st st') (x : ℕ) {f : SchedulerNode → SchedulerNode}
    (hf : ∀ c, (f c).payload = c.payload) : SameNodes st (st'.modify x f) := by
  refine ⟨h.live, h.brk, fun y => (?_ : _ = st'.payload y).trans (h.payload y)⟩
  simp only [Sched.payload, modify_cell]
  split_ifs with hy
  · exact hf _
  · rfl

/-- A store into `first` and `last`. -/
theorem SameNodes.ends (h : SameNodes st st') (first last : Option ℕ) :
    SameNodes st ⟨st'.nodes, first, last⟩ := ⟨h.live, h.brk, h.payload⟩

theorem repr_init : Repr .init [] := ⟨⟨.nil, .nil⟩, List.nodup_nil, by simp⟩

theorem Repr.length_lt (h : Repr st l) : l.length < st.nodes.brk + 1 :=
  Nat.lt_succ_of_le (Heap.length_le_brk h.nodup h.live)

theorem Repr.first_eq (h : Repr st l) : st.first = l.head? := h.chain.forward.head

theorem Repr.list_eq (h : Repr st l) : st.list = l := h.chain.forward.collect_eq h.length_lt

/-! ## Insertion -/

/-- The node `x` is linked in between `l₁` and `l₂`: the pointers that differ are those of `x`, of its
    neighbours, and the ends of the list. -/
structure LinkedIn (st : Sched) (l₁ : List ℕ) (x : ℕ) (l₂ : List ℕ) (st' : Sched) : Prop where
  same : SameNodes st st'
  first : st'.first = (l₁ ++ x :: l₂).head?
  last : st'.last = (l₁ ++ x :: l₂).getLast?
  next : ∀ y, (st'.nodes.cell y).next =
    if y = x then l₂.head? else if y ∈ l₁.getLast? then some x else (st.nodes.cell y).next
  prev : ∀ y, (st'.nodes.cell y).prev =
    if y = x then l₁.getLast? else if y ∈ l₂.head? then some x else (st.nodes.cell y).prev

theorem Repr.link (h : Repr st (l₁ ++ l₂)) (hx : x ∉ l₁ ++ l₂) (hlive : x ∈ st.nodes.live)
    (hin : LinkedIn st l₁ x l₂ st') : Repr st' (l₁ ++ x :: l₂) := by
  have hne : ∀ y ∈ l₁ ++ l₂, y ≠ x := fun y hy hyx => hx (hyx ▸ hy)
  refine ⟨?_, ?_, ?_⟩
  · rw [hin.first, hin.last]
    refine h.chain.insert h.nodup (by simp [hin.next]) (by simp [hin.prev]) ?_ ?_ ?_ ?_
    · intro y hy
      rw [hin.next, if_neg (hne y (List.mem_append_left _ (List.mem_of_getLast? hy))), if_pos hy]
    · intro y hy
      rw [hin.prev, if_neg (hne y (List.mem_append_right _ (List.mem_of_head? hy))), if_pos hy]
    · intro y hy hy'
      rw [hin.next, if_neg (hne y hy), if_neg hy']
    · intro y hy hy'
      rw [hin.prev, if_neg (hne y hy), if_neg hy']
  · exact (List.nodup_middle).mpr (List.nodup_cons.mpr ⟨hx, h.nodup⟩)
  · intro y hy
    rw [hin.same.live]
    rcases List.mem_cons.mp (List.perm_middle.mem_iff.mp hy) with rfl | hy
    · exact hlive
    · exact h.live y hy

/-- The search of `insert_node` for the first node that is due later than `x`: that node, and the one
    before it. -/
def later (st : Sched) (x : ℕ) : Option (Option ℕ × Option ℕ) :=
  walk (fun y => (st.nodes.cell y).next)
    (fun y => !tmGe (st.nodes.cell x).nextTime (st.nodes.cell y).nextTime) (st.nodes.brk + 1) none st.first

/-- No node is due later than `x`: it goes to the end of the list. -/
theorem Repr.insertNode_last (h : Repr st l) (hx : x ∉ l) (hw : st.later x = some (l.getLast?, none)) :
    ∃ st', Afdx.insertNode st x = some st' ∧ LinkedIn st l x [] st' := by
  have hlast := h.chain.last_eq
  have hfirst := h.first_eq
  have hrefl := SameNodes.refl st
  unfold later at hw
  unfold Afdx.insertNode
  simp only [hw]
  cases hl : l.getLast? with
  | none =>
    obtain rfl := List.getLast?_eq_none_iff.mp hl
    rw [List.head?_nil] at hfirst
    rw [List.getLast?_nil] at hlast
    simp only [modify_first, modify_last, hfirst, hlast]
    refine ⟨_, rfl, ?_, rfl, rfl, fun y => ?_, fun y => ?_⟩
    · refine (((hrefl.modify _ ?_).ends _ _).modify _ ?_).ends _ _ <;> exact fun _ => rfl
    · by_cases hy : y = x <;> simp [modify_cell, hy]
    · by_cases hy : y = x <;> simp [modify_cell, hy]
  | some lastNode =>
    have hlx : lastNode ≠ x := fun hy => hx (hy ▸ List.mem_of_getLast? hl)
    obtain ⟨firstNode, hfn⟩ : ∃ a, l.head? = some a := by
      cases l with
      | nil => simp at hl
      | cons a _ => exact ⟨a, rfl⟩
    rw [hfn] at hfirst
    rw [hl] at hlast
    simp only [modify_first, modify_last, hfirst, hlast]
    refine ⟨_, rfl, ?_, ?_, ?_, fun y => ?_, fun y => ?_⟩
    · refine (((hrefl.modify _ ?_).modify _ ?_).ends _ _).modify _ ?_ <;> exact fun _ => rfl
    · simp [List.head?_append, hfn]
    · simp
    · by_cases hy : y = x
      · simp [modify_cell, hy]
      · by_cases hy' : y = lastNode
        · simp [modify_cell, hy', hlx, hl]
        · simp [modify_cell, hy, hy', hl, Ne.symm hy']
    · by_cases hy : y = x
      · simp [modify_cell, hy, hlx.symm, hl]
      · by_cases hy' : y = lastNode <;> simp [modify_cell, hy, hy', hlx]

/-- The node goes before `nextNode`, the first one that is due later. -/
theorem Repr.insertNode_before {nextNode : ℕ} (h : Repr st (l₁ ++ nextNode :: l₂))
    (hx : x ∉ l₁ ++ nextNode :: l₂) (hw : st.later x = some (l₁.getLast?, some nextNode)) :
    ∃ st', Afdx.insertNode st x = some st' ∧ LinkedIn st l₁ x (nextNode :: l₂) st' := by
  have hnx : nextNode ≠ x := fun hn => hx (hn ▸ by simp)
  have hlast := h.chain.last_eq
  have hfirst := h.first_eq
  have hrefl := SameNodes.refl st
  unfold later at hw
  unfold Afdx.insertNode
  simp only [hw]
  cases hl₁ : l₁.getLast? with
  | none =>
    obtain rfl := List.getLast?_eq_none_iff.mp hl₁
    refine ⟨_, rfl, ?_, rfl, hlast.trans (by simp), fun y => ?_, fun y => ?_⟩
    · refine ((hrefl.modify _ ?_).modify _ ?_).ends _ _ <;> exact fun _ => rfl
    · by_cases hy : y = x
      · simp [modify_cell, hy, hnx.symm]
      · by_cases hy' : y = nextNode <;> simp [modify_cell, hy, hy', hnx]
    · by_cases hy : y = x
      · simp [modify_cell, hy, hnx.symm]
      · by_cases hy' : y = nextNode
        · simp [modify_cell, hy', hnx]
        · simp [modify_cell, hy, hy', Ne.symm hy']
  | some prevNode =>
    have hpx : prevNode ≠ x := fun hp => hx (hp ▸ List.mem_append_left _ (List.mem_of_getLast? hl₁))
    have hpn : prevNode ≠ nextNode := by
      rintro rfl
      exact (List.nodup_append.mp h.nodup).2.2 _ (List.mem_of_getLast? hl₁) _ (by simp) rfl
    refine ⟨_, rfl, ?_, ?_, ?_, fun y => ?_, fun y => ?_⟩
    · refine ((hrefl.modify _ ?_).modify _ ?_).modify _ ?_ <;> exact fun _ => rfl
    · simp only [modify_first, hfirst]
      cases l₁ with
      | nil => simp at hl₁
      | cons a _ => rfl
    · simp only [modify_last, hlast]
      simp
    · by_cases hy : y = x
      · simp [modify_cell, hy, hpx.symm, hnx.symm]
      · by_cases hy' : y = prevNode
        · simp [modify_cell, hy', hpx, hl₁]
        · by_cases hy'' : y = nextNode
          · simp [modify_cell, hy'', hpn.symm, hpn, hnx, hl₁]
          · simp [modify_cell, hy, hy', hy'', hl₁, Ne.symm hy']
    · by_cases hy : y = x
      · simp [modify_cell, hy, hpx.symm, hnx.symm, hl₁]
      · by_cases hy' : y = prevNode
        · simp [modify_cell, hy', hpx, hpn, hpn.symm]
        · by_cases hy'' : y = nextNode
          · simp [modify_cell, hy'', hpn.symm, hnx]
          · simp [modify_cell, hy, hy', hy'', Ne.symm hy'']

/-- `insert_node` puts the node behind all nodes that are due no later than it up to the first one
    that is due later. -/
theorem Repr.insertNode (h : Repr st l) (hx : x ∉ l) (hlive : x ∈ st.nodes.live) :
    ∃ st' l₁ l₂, Afdx.insertNode st x = some st' ∧ l = l₁ ++ l₂ ∧
      (∀ y ∈ l₁, tmGe (st.payload x).nextTime (st.payload y).nextTime = true) ∧
      (∀ y ∈ l₂.head?, tmGe (st.payload x).nextTime (st.payload y).nextTime = false) ∧
      Repr st' (l₁ ++ x :: l₂) ∧ SameNodes st st' := by
  obtain ⟨l₁, l₂, rfl, h₁, h₂, hw⟩ := walk_eq
    (fun y => !tmGe (st.nodes.cell x).nextTime (st.nodes.cell y).nextTime) none h.chain.forward
    h.length_lt
  have hle : ∀ y ∈ l₁, tmGe (st.payload x).nextTime (st.payload y).nextTime = true := fun y hy => by
    simpa [Sched.payload, SchedulerNode.payload] using h₁ y hy
  have hlt : ∀ y ∈ l₂.head?, tmGe (st.payload x).nextTime (st.payload y).nextTime = false :=
    fun y hy => by simpa [Sched.payload, SchedulerNode.payload] using h₂ y hy
  have hlater : st.later x = some (l₁.getLast?, l₂.head?) := by rw [later, hw, Option.or_none]
  have hin : ∃ st', Afdx.insertNode st x = some st' ∧ LinkedIn st l₁ x l₂ st' := by
    cases l₂ with
    | nil =>
      rw [List.append_nil] at h hx
      exact h.insertNode_last hx hlater
    | cons nextNode l₂ => exact h.insertNode_before hx hlater
  obtain ⟨st', hst', hin⟩ := hin
  exact ⟨st', l₁, l₂, hst', rfl, hle, hlt, h.link hx hlive hin, hin.same⟩

/-! ## Removal -/

theorem Repr.unlink (h : Repr st (l₁ ++ x :: l₂)) (hs : SameNodes st st')
    (hfirst : st'.first = (l₁ ++ l₂).head?) (hlast : st'.last = (l₁ ++ l₂).getLast?)
    (hnext : ∀ y ∈ l₁ ++ l₂, (st'.nodes.cell y).next =
      if y ∈ l₁.getLast? then l₂.head? else (st.nodes.cell y).next)
    (hprev : ∀ y ∈ l₁ ++ l₂, (st'.nodes.cell y).prev =
      if y ∈ l₂.head? then l₁.getLast? else (st.nodes.cell y).prev) :
    Repr st' (l₁ ++ l₂) := by
  obtain ⟨hn, hp⟩ := h.chain.neighbours
  refine ⟨?_, ?_, ?_⟩
  · rw [hfirst, hlast]
    refine h.chain.remove h.nodup ?_ ?_ ?_ ?_
    · intro y hy
      rw [hnext y (List.mem_append_left _ (List.mem_of_getLast? hy)), if_pos hy, hn]
    · intro y hy
      rw [hprev y (List.mem_append_right _ (List.mem_of_head? hy)), if_pos hy, hp]
    · intro y hy hy'
      rw [hnext y hy, if_neg hy']
    · intro y hy hy'
      rw [hprev y hy, if_neg hy']
  · exact (List.nodup_cons.mp (List.nodup_middle.mp h.nodup)).2
  · intro y hy
    rw [hs.live]
    exact h.live y (List.perm_middle.mem_iff.mpr (List.mem_cons_of_mem _ hy))

/-- `remove_node` takes the node out of the list. -/
theorem Repr.removeNode (h : Repr st (l₁ ++ x :: l₂)) :
    Repr (Afdx.removeNode st x) (l₁ ++ l₂) ∧ SameNodes st (Afdx.removeNode st x) := by
  obtain ⟨hn, hp⟩ := h.chain.neighbours
  have hfirst := h.first_eq
  have hlast := h.chain.last_eq
  have hdisj := (List.nodup_append.mp (List.nodup_cons.mp (List.nodup_middle.mp h.nodup)).2).2.2
  have hrefl := SameNodes.refl st
  unfold Afdx.removeNode
  cases hl₁ : l₁.getLast? with
  | none =>
    obtain rfl := List.getLast?_eq_none_iff.mp hl₁
    simp only [hn, hp, hl₁]
    cases l₂ with
    | nil => exact ⟨h.unlink (hrefl.ends _ _) rfl rfl (by simp) (by simp), hrefl.ends _ _⟩
    | cons nextNode l₂ =>
      have hs : SameNodes st ((⟨st.nodes, some nextNode, st.last⟩ : Sched).modify nextNode
          fun c => { c with prev := none }) := (hrefl.ends _ _).modify _ fun _ => rfl
      refine ⟨h.unlink hs rfl (hlast.trans (by simp)) (fun y _ => ?_) fun y _ => ?_, hs⟩
      · by_cases hy : y = nextNode <;> simp [modify_cell, hy]
      · by_cases hy : y = nextNode
        · simp [modify_cell, hy]
        · simp [modify_cell, hy, Ne.symm hy]
  | some prevNode =>
    have hpx : x ≠ prevNode := by
      rintro rfl
      exact (List.nodup_append.mp h.nodup).2.2 _ (List.mem_of_getLast? hl₁) _ (by simp) rfl
    simp only [hn, hp, hl₁, modify_cell, if_neg hpx]
    cases l₂ with
    | nil =>
      have hs : SameNodes st ⟨(st.modify prevNode fun c => { c with next := none }).nodes, st.first,
          some prevNode⟩ := by
        refine (hrefl.modify _ ?_).ends _ _
        exact fun _ => rfl
      refine ⟨h.unlink hs (hfirst.trans ?_) (by simp [hl₁]) (fun y _ => ?_) fun y _ => ?_, hs⟩
      · cases l₁ with
        | nil => simp at hl₁
        | cons a _ => simp
      · by_cases hy : y = prevNode
        · simp [modify_cell, hy, hl₁]
        · simp [modify_cell, hy, hl₁, Ne.symm hy]
      · by_cases hy : y = prevNode <;> simp [modify_cell, hy]
    | cons nextNode l₂ =>
      have hpn : prevNode ≠ nextNode := hdisj _ (List.mem_of_getLast? hl₁) _ (by simp)
      have hs : SameNodes st ((st.modify prevNode fun c => { c with next := some nextNode }).modify
          nextNode fun c => { c with prev := some prevNode }) := by
        refine (hrefl.modify _ ?_).modify _ ?_ <;> exact fun _ => rfl
      refine ⟨h.unlink hs (hfirst.trans ?_) (hlast.trans (by simp)) (fun y _ => ?_) fun y _ => ?_, hs⟩
      · cases l₁ with
        | nil => simp at hl₁
        | cons a _ => rfl
      · by_cases hy : y = prevNode
        · simp [modify_cell, hy, hl₁, hpn]
        · by_cases hy' : y = nextNode
          · simp [modify_cell, hy', hl₁, hpn, hpn.symm]
          · simp [modify_cell, hy, hy', hl₁, Ne.symm hy]
      · by_cases hy : y = nextNode
        · simp [modify_cell, hy, hl₁]
        · by_cases hy' : y = prevNode
          · simp [modify_cell, hy', hpn, hpn.symm]
          · simp [modify_cell, hy, hy', Ne.symm hy]

/-- `pop` takes the first node out of the list. -/
theorem Repr.pop (h : Repr st (x :: l)) :
    ∃ st', Afdx.pop st = (some x, st') ∧ Repr st' l ∧ SameNodes st st' := by
  have hnil : Repr st ([] ++ x :: l) := h
  have hn : (st.nodes.cell x).next = l.head? := hnil.chain.neighbours.1
  have hfirst : st.first = some x := h.first_eq
  have hlast := h.chain.last_eq
  have hrefl := SameNodes.refl st
  unfold Afdx.pop
  simp only [hfirst, hn]
  cases l with
  | nil =>
    have hs := hrefl.ends none none
    exact ⟨_, rfl, hnil.unlink hs rfl rfl (by simp) (by simp), hs⟩
  | cons nextNode l =>
    have hs : SameNodes st ((⟨st.nodes, some nextNode, st.last⟩ : Sched).modify nextNode
        fun c => { c with prev := none }) := (hrefl.ends _ _).modify _ fun _ => rfl
    refine ⟨_, rfl, hnil.unlink hs rfl (hlast.trans (by simp)) (fun y _ => ?_) fun y _ => ?_,
      hs⟩
    · by_cases hy : y = nextNode <;> simp [modify_cell, hy]
    · by_cases hy : y = nextNode
      · simp [modify_cell, hy]
      · simp [modify_cell, hy, Ne.symm hy]

/-! ## The operations that the threads call -/

/-- Writing a value into a node that no list reaches. -/
theorem Repr.congr (h : Repr st l) (hfirst : st'.first = st.first) (hlast : st'.last = st.last)
    (hcell : ∀ y ∈ l, (st'.nodes.cell y).next = (st.nodes.cell y).next ∧
      (st'.nodes.cell y).prev = (st.nodes.cell y).prev)
    (hlive : ∀ y ∈ l, y ∈ st'.nodes.live) : Repr st' l := by
  refine ⟨?_, h.nodup, hlive⟩
  rw [hfirst, hlast]
  exact h.chain.congr (fun y hy => (hcell y hy).1) fun y hy => (hcell y hy).2

/-- `unschedule` takes the node out of the list and frees it. -/
theorem Repr.unschedule (h : Repr st (l₁ ++ x :: l₂)) :
    Repr (Afdx.unschedule st x) (l₁ ++ l₂) ∧
      (Afdx.unschedule st x).nodes.live = st.nodes.live.erase x ∧
      (Afdx.unschedule st x).nodes.brk = st.nodes.brk ∧
      ∀ y, (Afdx.unschedule st x).payload y = st.payload y := by
  obtain ⟨hr, hs⟩ := h.removeNode
  refine ⟨hr.congr rfl rfl (fun y _ => ⟨rfl, rfl⟩) fun y hy => ?_, ?_, hs.brk, hs.payload⟩
  · refine (Heap.mem_free_live _ x y).mpr ⟨?_, hr.live y hy⟩
    rintro rfl
    exact (List.nodup_cons.mp (List.nodup_middle.mp h.nodup)).1 hy
  · exact congrArg (·.erase x) hs.live

/-- A new node with the contents `p` that is not in the list yet. -/
structure NewNode (st : Sched) (p : Payload) (st' : Sched) : Prop where
  live : st'.nodes.live = insert st.nodes.brk st.nodes.live
  brk : st'.nodes.brk = st.nodes.brk + 1
  self : st'.payload st.nodes.brk = p
  others : ∀ y, y ≠ st.nodes.brk → st'.payload y = st.payload y

/-- The part of `schedule_ts` before the lock leaves the list alone. -/
theorem Repr.newNode (h : Repr st l) (action : Action) (data : ℕ) (interval now : Timespec) :
    Repr (Afdx.newNode st action data interval now).2 l ∧
      NewNode st ⟨interval, tmIncr now interval, action, data⟩
        (Afdx.newNode st action data interval now).2 := by
  have hcell : ∀ y, y ≠ st.nodes.brk →
      (Afdx.newNode st action data interval now).2.nodes.cell y = st.nodes.cell y :=
    fun y hy => Heap.alloc_cell_of_ne _ _ hy
  refine ⟨h.congr rfl rfl (fun y hy => ?_) fun y hy => Finset.mem_insert_of_mem (h.live y hy),
    rfl, rfl, congrArg SchedulerNode.payload (Heap.alloc_cell_self _ _),
    fun y hy => congrArg SchedulerNode.payload (hcell y hy)⟩
  rw [hcell y (st.nodes.live_lt y (h.live y hy)).ne]
  exact ⟨rfl, rfl⟩

/-- The name of a new node is not in the list. -/
theorem Repr.brk_not_mem (h : Repr st l) : st.nodes.brk ∉ l := fun hb =>
  st.nodes.brk_not_mem_live (h.live _ hb)

/-- `schedule_ts` adds a new node that is due one interval after `now`. It signals if the new node
    is the first one. -/
theorem Repr.scheduleTs (h : Repr st l) (action : Action) (data : ℕ) (interval now : Timespec) :
    ∃ signal st' l₁ l₂, Afdx.scheduleTs st action data interval now =
        some (st.nodes.brk, signal, st') ∧ l = l₁ ++ l₂ ∧ (signal = true ↔ l₁ = []) ∧
      (∀ y ∈ l₁, tmGe (tmIncr now interval) (st.payload y).nextTime = true) ∧
      (∀ y ∈ l₂.head?, tmGe (tmIncr now interval) (st.payload y).nextTime = false) ∧
      Repr st' (l₁ ++ st.nodes.brk :: l₂) ∧ st'.nodes.live = insert st.nodes.brk st.nodes.live ∧
      st'.nodes.brk = st.nodes.brk + 1 ∧
      st'.payload st.nodes.brk = ⟨interval, tmIncr now interval, action, data⟩ ∧
      ∀ y, y ≠ st.nodes.brk → st'.payload y = st.payload y := by
  obtain ⟨hr, hnew⟩ := h.newNode action data interval now
  have hx := h.brk_not_mem
  have hlt : ∀ y ∈ l, y ≠ st.nodes.brk := fun y hy hyb => hx (hyb ▸ hy)
  obtain ⟨st', l₁, l₂, hins, rfl, hle, hgt, hr', hs⟩ := hr.insertNode hx
    (hnew.live ▸ Finset.mem_insert_self _ _)
  rw [hnew.self] at hle hgt
  refine ⟨decide (st'.first ≠ st.first), st', l₁, l₂, ?_, rfl, ?_, ?_, ?_, hr', hs.live.trans hnew.live,
    hs.brk.trans hnew.brk, (hs.payload _).trans hnew.self,
    fun y hy => (hs.payload y).trans (hnew.others y hy)⟩
  · have hins' : Afdx.insertNode (Afdx.newNode st action data interval now).2
        (Afdx.newNode st action data interval now).1 = some st' := hins
    simp only [Afdx.scheduleTs, hins', Option.map_some]
    rfl
  · rw [decide_eq_true_iff, hr'.first_eq, h.first_eq]
    cases l₁ with
    | nil =>
      refine iff_of_true ?_ rfl
      intro heq
      exact hx (List.mem_of_head? heq.symm)
    | cons a l₁ => simp
  · intro y hy
    rw [← hnew.others y (hlt y (List.mem_append_left _ hy))]
    exact hle y hy
  · intro y hy
    rw [← hnew.others y (hlt y (List.mem_append_right _ (List.mem_of_head? hy)))]
    exact hgt y hy

/-- Nothing is due: `scheduler_run` leaves its inner loop. -/
theorem Repr.rearmFirst_none (h : Repr st l) (now : Timespec)
    (hdue : ∀ y ∈ l.head?, tmGe now (st.payload y).nextTime = false) :
    rearmFirst st now = some (none, st) := by
  unfold rearmFirst
  rw [h.first_eq]
  cases l with
  | nil => rfl
  | cons x l =>
    have hx : tmGe now (st.nodes.cell x).nextTime = false := hdue x rfl
    simp [hx]

/-- The new time depends on the contents of the node only. -/
theorem rearmedTime_congr (now : Timespec) {c c' : SchedulerNode} (h : c'.payload = c.payload) :
    rearmedTime now c' = rearmedTime now c := by
  have hi : c'.interval = c.interval := congrArg Payload.interval h
  have ht : c'.nextTime = c.nextTime := congrArg Payload.nextTime h
  simp only [rearmedTime, hi, ht]

/-- Re-arming `x`, the node in front of `l`, at `now`: it goes between `l₁` and `l₂`. -/
structure Rearm (now : Timespec) (st : Sched) (x : ℕ) (l : List ℕ) (st' : Sched) (l₁ l₂ : List ℕ) :
    Prop where
  split : l = l₁ ++ l₂
  repr : Repr st' (l₁ ++ x :: l₂)
  live : st'.nodes.live = st.nodes.live
  brk : st'.nodes.brk = st.nodes.brk
  self : st'.payload x = { st.payload x with nextTime := rearmedTime now (st.nodes.cell x) }
  others : ∀ y, y ≠ x → st'.payload y = st.payload y
  before : ∀ y ∈ l₁, tmGe (rearmedTime now (st.nodes.cell x)) (st.nextTime y) = true
  after : ∀ y ∈ l₂.head?, tmGe (rearmedTime now (st.nodes.cell x)) (st.nextTime y) = false

/-- The first node is due: it is moved behind the nodes due no later than its new time, which is the
    only thing that changes in it. -/
theorem Repr.rearmFirst_some (h : Repr st (x :: l)) (now : Timespec)
    (hdue : tmGe now (st.payload x).nextTime = true) :
    ∃ st' l₁ l₂, rearmFirst st now = some (some x, st') ∧ Rearm now st x l st' l₁ l₂ := by
  obtain ⟨st₁, hpop, hr₁, hs₁⟩ := h.pop
  obtain ⟨hxl, -⟩ := List.nodup_cons.mp h.nodup
  let st₂ := st₁.modify x fun c => { c with nextTime := rearmedTime now c }
  have hr₂ : Repr st₂ l := by
    refine hr₁.congr rfl rfl (fun y _ => ?_) hr₁.live
    simp only [st₂, modify_cell]
    split_ifs <;> exact ⟨rfl, rfl⟩
  have hcellx : st₁.payload x = st.payload x := hs₁.payload x
  have hrearm := rearmedTime_congr now hcellx
  have hpayx : st₂.payload x = { st.payload x with nextTime := rearmedTime now (st.nodes.cell x) } := by
    rw [← hrearm, ← hcellx]
    simp [st₂, Sched.payload, SchedulerNode.payload, modify_cell]
  have hpay : ∀ y, y ≠ x → st₂.payload y = st.payload y := fun y hy => by
    rw [← hs₁.payload]
    simp [st₂, Sched.payload, modify_cell, hy]
  have hne : ∀ y ∈ l, y ≠ x := fun y hy hyx => hxl (hyx ▸ hy)
  obtain ⟨st', l₁, l₂, hins, rfl, hle, hgt, hr', hs⟩ := hr₂.insertNode hxl
    (by rw [show st₂.nodes.live = st₁.nodes.live from rfl, hs₁.live]; exact h.live x (by simp))
  rw [hpayx] at hle hgt
  refine ⟨st', l₁, l₂, ?_, {
    split := rfl
    repr := hr'
    live := hs.live.trans hs₁.live
    brk := hs.brk.trans hs₁.brk
    self := (hs.payload x).trans hpayx
    others := fun y hy => (hs.payload y).trans (hpay y hy)
    before := ?_
    after := ?_ }⟩
  · have hx : tmGe now (st.nodes.cell x).nextTime = true := hdue
    have hfirst : st.first = some x := h.first_eq
    simp only [rearmFirst, hfirst, hx, if_true, hpop]
    exact congrArg (Option.map _) hins
  · intro y hy
    have hy' := hle y hy
    rwa [hpay y (hne y (List.mem_append_left _ hy))] at hy'
  · intro y hy
    have hy' := hgt y hy
    rwa [hpay y (hne y (List.mem_append_right _ (List.mem_of_head? hy)))] at hy'

end Sched

end Afdx
