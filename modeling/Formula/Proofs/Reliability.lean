import Formula.Proofs.Cells
import Formula.Proofs.Uses

/-!
# What can be relied on of a context

However a context has been used, and whatever of that has failed, the next use finds a stack
and a heap within their capacities (`Sized.use`). Between two uses that empty the context

* the stack is one of last in, first out: what lies on it stays there as long as the depth
  does not go below where it lies (`suffix_useAll`);
* cells keep their values, as the heap only grows (`grown_useAll`), so that what a slot was
  given out for is what is found when it is looked up.

Together this is `Context.Reliable`, and it holds behind all sequences of uses
(`useAll_reliable`).
-/

namespace Formula.Context

open Program

variable {c : Context} {u : Use} {n : Nat}

/-! ## Capacities -/

/-- No use changes the capacities. -/
theorem capacities_useAll (c : Context) (uses : List Use) :
    (c.useAll uses).capacities = c.capacities := by
  have hreset := congrArg capacities (reset_useAll c uses)
  exact hreset

/-- A use keeps a context within its capacities, and takes as many cells as its answer says. -/
theorem Sized.use (h : c.Sized n) (u : Use) :
    (c.use u).Sized ((if u.restarts then 0 else n) + c.cellsOf u) := by
  have hdoes := c.does u
  rw [cellsOf.eq_def]
  generalize c.answer u = a at hdoes ⊢
  generalize c.use u = c' at hdoes ⊢
  cases hdoes with
  | pushed s hroom => exact h.put hroom
  | popped hstack =>
    refine ⟨Nat.le_of_succ_le ?_, h.size_le, h.size_eq⟩
    have hdepth := h.depth_le
    rwa [depth, hstack] at hdepth
  | noRoom | nothing | noCell | noCellForValue => exact h
  | stored v hcell | noRoomForValue v hcell => exact h.cell hcell v
  | pushedValue v hcell hroom => exact (h.cell hcell v).put hroom
  | reset => exact ⟨Nat.zero_le _, Nat.zero_le _, rfl⟩
  | run p s =>
    have hrun := p.sized_run c s
    rwa [← Nat.zero_add (List.countP _ _)] at hrun

/-- Any number of uses leave the context within its capacities, with as many cells in use as
    they have taken. -/
theorem Sized.useAll (h : c.Sized n) (uses : List Use) :
    (c.useAll uses).Sized (c.taken n uses) := by
  induction uses generalizing c n with
  | nil => exact h
  | cons u uses ih => exact ih (h.use u)

/-! ## Last in, first out -/

/-- What lies under the top is left there by a use that does not take it off. -/
theorem suffix_use {base : List Slot} (hu : u.restarts = false) (h : base <:+ c.stack)
    (hdepth : base.length ≤ (c.use u).depth) : base <:+ (c.use u).stack := by
  have hdoes := c.does u
  generalize c.answer u = a at hdoes
  generalize c.use u = c' at hdoes hdepth ⊢
  cases hdoes with
  | pushed | pushedValue => exact h.trans (List.suffix_cons ..)
  | popped hstack =>
    rw [hstack] at h
    rcases List.suffix_cons_iff.1 h with rfl | h
    · exact absurd hdepth (Nat.not_succ_le_self _)
    · exact h
  | noRoom | nothing | noCell | noCellForValue | stored | noRoomForValue => exact h
  | reset | run => cases hu

/-- What lies at the bottom of the stack stays there as long as there is so much on it. -/
theorem suffix_useAll {base : List Slot} {later : List Use}
    (hlater : ∀ u ∈ later, u.restarts = false)
    (hdepth : ∀ prior, prior <+: later → base.length ≤ (c.useAll prior).depth)
    (h : base <:+ c.stack) : base <:+ (c.useAll later).stack := by
  induction later generalizing c with
  | nil => exact h
  | cons u later ih =>
    have huse := suffix_use (hlater u List.mem_cons_self) h
      (hdepth [u] (List.prefix_append [u] later))
    exact ih (fun v hv => hlater v (List.mem_cons_of_mem _ hv))
      (fun prior hprior => hdepth (u :: prior) (List.prefix_cons_inj u |>.2 hprior)) huse

/-- The uses take nothing off the stack that lies there, and do not empty the context. -/
def Above (c : Context) (later : List Use) : Prop :=
  (∀ u ∈ later, u.restarts = false) ∧
    ∀ prior, prior <+: later → c.depth ≤ (c.useAll prior).depth

/-- Behind uses that have taken off all that they have put there, and nothing else, the stack
    is the same. -/
theorem Above.stack_eq {later : List Use} (h : c.Above later)
    (hdepth : (c.useAll later).depth = c.depth) : (c.useAll later).stack = c.stack :=
  ((suffix_useAll h.1 h.2 (List.suffix_refl _)).eq_of_length hdepth.symm).symm

/-- A slot that could be pushed is on top. -/
theorem stack_push (s : Slot) (h : c.answer (.push s) = .done) :
    (c.use (.push s)).stack = s :: c.stack := by
  have hdoes := c.does (.push s)
  rw [h] at hdoes
  generalize c.use (.push s) = c' at hdoes ⊢
  cases hdoes
  rfl

/-- The slot on top is taken off. -/
theorem pop_of_stack {s : Slot} {below : List Slot} (h : c.stack = s :: below) :
    c.answer .pop = .slot s ∧ (c.use .pop).stack = below := by
  have hdoes := c.does .pop
  generalize c.answer .pop = a at hdoes ⊢
  generalize c.use .pop = c' at hdoes ⊢
  cases hdoes with
  | popped hstack =>
    cases hstack.symm.trans h
    exact ⟨rfl, rfl⟩
  | nothing hstack => cases hstack.symm.trans h

/-! ## Cells -/

/-- A value that could be pushed is in a fresh cell, the slot of which is on top. -/
theorem heap_pushValue (v : Value) (h : c.answer (.pushValue v) = .done) :
    (c.use (.pushValue v)).stack = .scratch c.heap.size :: c.stack ∧
      (c.use (.pushValue v)).heap = c.heap.push v := by
  have hdoes := c.does (.pushValue v)
  rw [h] at hdoes
  generalize c.use (.pushValue v) = c' at hdoes ⊢
  cases hdoes
  exact ⟨rfl, rfl⟩

/-- A cell that could be taken is a fresh one. -/
theorem heap_alloc {v : Value} {s : Slot} (h : c.answer (.alloc v) = .slot s) :
    s = .scratch c.heap.size ∧ (c.use (.alloc v)).heap = c.heap.push v := by
  have hdoes := c.does (.alloc v)
  rw [h] at hdoes
  generalize c.use (.alloc v) = c' at hdoes ⊢
  cases hdoes
  exact ⟨rfl, rfl⟩

/-- Until the context is emptied, cells keep their values. -/
theorem grown_use (hu : u.restarts = false) : Grown c.heap (c.use u).heap := by
  have hdoes := c.does u
  generalize c.answer u = a at hdoes
  generalize c.use u = c' at hdoes ⊢
  cases hdoes with
  | pushed | noRoom | popped | nothing | noCell | noCellForValue => exact .refl _
  | stored v | pushedValue v | noRoomForValue v => exact grown_push _ v
  | reset | run => cases hu

/-- Cells keep their values, whatever is done with a context that is not emptied. -/
theorem grown_useAll {later : List Use} (hlater : ∀ u ∈ later, u.restarts = false) :
    Grown c.heap (c.useAll later).heap := by
  induction later generalizing c with
  | nil => exact .refl _
  | cons u later ih =>
    exact (grown_use (hlater u List.mem_cons_self)).trans
      (ih fun v hv => hlater v (List.mem_cons_of_mem _ hv))

/-- A cell that has been taken is found again behind uses that do not empty the context. -/
theorem lookup_of_heap_push {v : Value} {heap : Array Value} (hheap : c.heap = heap.push v)
    {later : List Use} (hlater : ∀ u ∈ later, u.restarts = false) {σ : Type} (p : Program σ) :
    p.lookup (c.useAll later) (.scratch heap.size) = .ok v := by
  have hcell : c.heap[heap.size]? = some v := by rw [hheap, Array.getElem?_push_size]
  rw [lookup]
  simp only [grown_useAll hlater hcell]
  rfl

/-- A slot of a cell that was not taken dangles. -/
theorem lookup_of_size_le {σ : Type} (p : Program σ) {i : Nat} (h : c.heap.size ≤ i) :
    p.lookup c (.scratch i) = .error .danglingSlot := by
  rw [lookup]
  simp only [Array.getElem?_eq_none h]
  rfl

/-- The slot that is given out for a value referred to nothing before. -/
theorem lookup_of_alloc {v : Value} {s : Slot} (h : c.answer (.alloc v) = .slot s) {σ : Type}
    (p : Program σ) : p.lookup c s = .error .danglingSlot := by
  rw [(heap_alloc h).1]
  exact lookup_of_size_le p (Nat.le_refl _)

/-! ## Both -/

/-- What can be relied on of a context of which `n` cells have been taken since it was last
    emptied. -/
structure Reliable (c : Context) (n : Nat) : Prop where
  depth_le : c.depth ≤ c.capacities.stack
  size_le : c.heap.size ≤ c.capacities.heap
  /-- A slot can be put on the stack until that is full. -/
  push (s : Slot) :
    if c.depth < c.capacities.stack then
      c.answer (.push s) = .done ∧ (c.use (.push s)).depth = c.depth + 1
    else c.answer (.push s) = .fault (.stackOverflow c.capacities.stack) ∧ c.use (.push s) = c
  /-- A slot can be taken off the stack until that is empty. -/
  pop :
    if c.depth = 0 then c.answer .pop = .fault .stackUnderflow ∧ c.use .pop = c
    else (∃ s, c.answer .pop = .slot s) ∧ (c.use .pop).depth + 1 = c.depth
  /-- What is put on the stack is taken off it when all has been taken off that was put there
      later, and what was there before is there again. -/
  lifo (s : Slot) (later : List Use) :
    c.answer (.push s) = .done → (c.use (.push s)).Above later →
      let c' := (c.use (.push s)).useAll later
      c'.depth = c.depth + 1 → c'.answer .pop = .slot s ∧ (c'.use .pop).stack = c.stack
  /-- The same for the slot of a value, which can be looked up then. -/
  lifo_value (v : Value) (later : List Use) :
    c.answer (.pushValue v) = .done → (c.use (.pushValue v)).Above later →
      let c' := (c.use (.pushValue v)).useAll later
      c'.depth = c.depth + 1 →
        ∃ s, c'.answer .pop = .slot s ∧ (c'.use .pop).stack = c.stack ∧
          ∀ (σ : Type) (p : Program σ), p.lookup c' s = .ok v
  /-- A reset leaves nothing on the stack, and no more does a run that ends with a value. -/
  emptied : (c.use .reset).depth = 0 ∧ ∀ (σ : Type) (p : Program σ) (s : σ) (v : Value),
    c.answer (.run p s) = .result (.ok v) → (c.use (.run p s)).depth = 0
  /-- A value can be put into a cell until all are taken. -/
  alloc (v : Value) :
    c.answer (.alloc v) =
      if n < c.capacities.heap then .slot (.scratch n) else .fault (.heapExhausted c.capacities.heap)
  /-- The slot that is given out for a value referred to nothing before, -/
  fresh (v : Value) (s : Slot) : c.answer (.alloc v) = .slot s →
    ∀ (σ : Type) (p : Program σ), p.lookup c s = .error .danglingSlot
  /-- refers to that value until the context is emptied, and is not given out again so long. -/
  kept (v : Value) (s : Slot) (later : List Use) :
    c.answer (.alloc v) = .slot s → (∀ u ∈ later, u.restarts = false) →
      let c' := (c.use (.alloc v)).useAll later
      (∀ (σ : Type) (p : Program σ), p.lookup c' s = .ok v) ∧
        ∀ w, c'.answer (.alloc w) ≠ .slot s
  /-- Slots of cells that have been taken refer to something, and other slots to nothing. -/
  scratch {σ : Type} (p : Program σ) (i : Nat) :
    if i < n then ∃ v, p.lookup c (.scratch i) = .ok v
    else p.lookup c (.scratch i) = .error .danglingSlot
  /-- The slot of an instruction that pushes no constant refers to nothing. -/
  const {σ : Type} (p : Program σ) (i : Nat) :
    (∀ o v, p.code[i]? ≠ some ⟨o, .const v⟩) → p.lookup c (.const i) = .error .danglingSlot

/-- A context that is within its capacities does what it promises: what it answers to each use
    tells whether there is room, what is pushed is popped in reverse, cells are fresh and keep
    their values, and nothing else is looked up in them. -/
theorem Sized.reliable (h : c.Sized n) : c.Reliable n where
  depth_le := h.depth_le
  size_le := h.size_le
  push s := by
    have hdoes := c.does (.push s)
    generalize c.answer (.push s) = a at hdoes ⊢
    generalize c.use (.push s) = c' at hdoes ⊢
    cases hdoes with
    | pushed _ hroom =>
      rw [if_pos hroom]
      exact ⟨rfl, rfl⟩
    | noRoom _ hroom =>
      rw [if_neg hroom]
      exact ⟨rfl, rfl⟩
  pop := by
    have hdoes := c.does .pop
    generalize c.answer .pop = a at hdoes ⊢
    generalize c.use .pop = c' at hdoes ⊢
    cases hdoes with
    | popped hstack =>
      have hdepth : c.depth = _ + 1 := congrArg List.length hstack
      rw [if_neg (by rw [hdepth]; exact Nat.succ_ne_zero _)]
      exact ⟨⟨_, rfl⟩, hdepth.symm⟩
    | nothing hstack =>
      have hdepth : c.depth = 0 := congrArg List.length hstack
      rw [if_pos hdepth]
      exact ⟨rfl, rfl⟩
  lifo s later hanswer habove := by
    intro c' hdepth
    have hpush := stack_push s hanswer
    have hstack : c'.stack = s :: c.stack := by
      rw [← hpush]
      exact habove.stack_eq (hdepth.trans (congrArg List.length hpush).symm)
    exact pop_of_stack hstack
  lifo_value v later hanswer habove := by
    intro c' hdepth
    obtain ⟨hpush, hheap⟩ := heap_pushValue v hanswer
    have hstack : c'.stack = .scratch c.heap.size :: c.stack := by
      rw [← hpush]
      exact habove.stack_eq (hdepth.trans (congrArg List.length hpush).symm)
    obtain ⟨hpop, hbelow⟩ := pop_of_stack hstack
    exact ⟨_, hpop, hbelow, fun σ p => lookup_of_heap_push hheap habove.1 p⟩
  emptied := ⟨rfl, fun σ p s v h => p.depth_run_of_ok (Answer.result.inj h)⟩
  alloc v := by
    have hdoes := c.does (.alloc v)
    generalize c.answer (.alloc v) = a at hdoes ⊢
    generalize c.use (.alloc v) = c' at hdoes
    rw [← h.size_eq]
    cases hdoes with
    | stored _ hcell => rw [if_pos hcell]
    | noCell _ hcell => rw [if_neg hcell]
  fresh v s hanswer σ p := lookup_of_alloc hanswer p
  kept v s later hanswer hlater := by
    obtain ⟨rfl, hheap⟩ := heap_alloc hanswer
    have hlookup {σ : Type} (p : Program σ) := lookup_of_heap_push hheap hlater p
    refine ⟨fun σ p => hlookup p, fun w hw => ?_⟩
    -- The slot is in use, and what is given out is not.
    have hdangling := lookup_of_alloc hw ({} : Program Unit)
    rw [hlookup] at hdangling
    cases hdangling
  scratch p i := by
    rw [← h.size_eq]
    split
    · next hi =>
      refine ⟨c.heap[i], ?_⟩
      rw [lookup]
      simp only [Array.getElem?_eq_getElem hi]
      rfl
    · next hi => exact lookup_of_size_le p (Nat.le_of_not_lt hi)
  const p i hi := by
    have hnone : p.const? i = none := by
      rw [const?]
      split
      · next o v hcode => exact absurd hcode (hi o v)
      · rfl
    rw [lookup, hnone]
    rfl

/-- Whatever is done with a new context, and whatever of that fails, the context is within its
    capacities, its stack is one of last in, first out, and the slots of its cells refer to
    what was put there since it was last emptied, be it by a reset or by a run, and to nothing
    else. -/
theorem useAll_reliable (capacities : Capacities) (data : Value) (uses : List Use) :
    let new : Context := { capacities, data }
    (new.useAll uses).capacities = capacities ∧
      (new.useAll uses).Reliable (new.taken 0 uses) :=
  have hnew : Sized { capacities, data } 0 := ⟨Nat.zero_le _, Nat.zero_le _, rfl⟩
  ⟨capacities_useAll _ uses, (hnew.useAll uses).reliable⟩

end Formula.Context
