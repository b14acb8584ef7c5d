import Formula.Semantics.Actions
import Mathlib.Data.List.Forall2

/-!
# Steps of the machine

What the operations of a context and the instructions of a program do, said once
for all that is proved about runs. A stack is described by the slots that have
been put on it, in the order in which they were (`Context.put`), and a slot by the
value that it refers to (`Program.Refers`), which stays the same however the heap
grows (`Refers.mono`).

* Instructions behind each other are executed behind each other, and so are their
  actions (`steps_append`, `actionsFrom_append`).
* Taking slots off the stack gives those that were put there last
  (`popMany_put`), and their values (`values_of_refers`).
-/

namespace Formula

variable {σ : Type}

namespace Context

/-- The context with slots put on its stack, the last of them on top, and another
    heap. -/
def put (c : Context) (slots : List Slot) (heap : Array Value) : Context :=
  { c with stack := slots.reverse ++ c.stack, heap := heap }

/-- What the host sees of the context at a depth of the stack. -/
def viewAt (c : Context) (depth : Nat) : View := ⟨c.capacities, depth, c.data⟩

variable (c : Context) (slots : List Slot) (heap : Array Value)

@[simp] theorem put_heap : (c.put slots heap).heap = heap := rfl

@[simp] theorem put_capacities : (c.put slots heap).capacities = c.capacities := rfl

@[simp] theorem viewAt_put : (c.put slots heap).viewAt = c.viewAt := rfl

@[simp] theorem depth_reset : c.reset.depth = 0 := rfl

@[simp] theorem heap_reset : c.reset.heap = #[] := rfl

@[simp] theorem capacities_reset : c.reset.capacities = c.capacities := rfl

@[simp] theorem depth_put : (c.put slots heap).depth = c.depth + slots.length := by
  simp [put, depth, Nat.add_comm]

@[simp] theorem put_put (slots' : List Slot) (heap' : Array Value) :
    (c.put slots heap).put slots' heap' = c.put (slots ++ slots') heap' := by
  simp [put]

/-- Slots that were put on a stack are taken off it in their order. -/
theorem popMany_reverse (above : List Slot) :
    popMany slots.length above { c with stack := slots ++ c.stack } =
      .ok (slots.reverse ++ above) c := by
  induction slots generalizing above with
  | nil => rfl
  | cons s slots ih =>
    rw [List.length_cons, popMany]
    show popMany slots.length (s :: above) { c with stack := slots ++ c.stack } = _
    rw [ih, List.reverse_cons, List.append_assoc]
    rfl

/-- The slots that were put on a stack last are taken off it. -/
theorem popMany_put :
    popMany slots.length [] (c.put slots heap) = .ok slots (c.put [] heap) := by
  -- The stack has its top at the front, so the slots lie on it the other way round.
  have h := popMany_reverse (c.put [] heap) slots.reverse []
  rwa [List.length_reverse, List.reverse_reverse, List.append_nil] at h

end Context

namespace Run

variable (c : Context) (o : Nat) (s : σ)

/-- A slot is put on the stack if there is room for it. -/
theorem onContext_push (slot : Slot) :
    onContext o (Context.push slot) ⟨c, s⟩ =
      if c.depth < c.capacities.stack then .ok () ⟨c.put [slot] c.heap, s⟩
      else .error ⟨o, .fault (.stackOverflow c.capacities.stack)⟩ ⟨c, s⟩ := by
  rw [onContext, Context.push]
  by_cases h : c.depth < c.capacities.stack <;> simp [h, Context.put]

/-- A value takes a cell and then an entry of the stack; if there is none the cell stays
    taken. -/
theorem onContext_pushValue (v : Value) :
    onContext o (Context.pushValue v) ⟨c, s⟩ =
      if c.heap.size < c.capacities.heap then
        if c.depth < c.capacities.stack then
          .ok () ⟨c.put [.scratch c.heap.size] (c.heap.push v), s⟩
        else .error ⟨o, .fault (.stackOverflow c.capacities.stack)⟩ ⟨c.put [] (c.heap.push v), s⟩
      else .error ⟨o, .fault (.heapExhausted c.capacities.heap)⟩ ⟨c, s⟩ := by
  simp only [onContext, Context.pushValue, bind, EStateM.bind, Context.alloc, Context.push,
    Context.depth]
  by_cases hh : c.heap.size < c.capacities.heap
  · by_cases hs : c.stack.length < c.capacities.stack <;> simp [hh, hs, Context.put]
  · simp [hh]

end Run

namespace Program

variable {p : Program σ}

/-! ## Slots and their values -/

/-- Looking up a slot fails only if it dangles. -/
theorem eq_danglingSlot_of_lookup {c : Context} {slot : Slot} {f : Fault}
    (h : p.lookup c slot = .error f) : f = .danglingSlot := by
  have helim {x : Option Value} (hx : x.elim (.error .danglingSlot) .ok = Except.error f) :
      f = .danglingSlot := by
    cases x <;> cases hx
    rfl
  cases slot <;> exact helim h

/-- The slots refer to the values, one to one, when the heap is `heap`. -/
def Refers (p : Program σ) (heap : Array Value) (slots : List Slot) (vs : List Value) : Prop :=
  List.Forall₂ (fun s v => p.lookup { heap := heap } s = .ok v) slots vs

/-- Cells keep their values when the heap grows. -/
def Grown (heap heap' : Array Value) : Prop :=
  ∀ ⦃i : Nat⦄ ⦃v : Value⦄, heap[i]? = some v → heap'[i]? = some v

theorem Grown.refl (heap : Array Value) : Grown heap heap := fun _ _ h => h

theorem Grown.trans {heap heap' heap'' : Array Value} (h : Grown heap heap')
    (h' : Grown heap' heap'') : Grown heap heap'' := fun _ _ hi => h' (h hi)

theorem grown_push (heap : Array Value) (v : Value) : Grown heap (heap.push v) := by
  intro i w hi
  have hlt : i < heap.size := (Array.getElem?_eq_some_iff.1 hi).1
  rw [Array.getElem?_push_lt hlt, ← hi, Array.getElem?_eq_getElem hlt]

/-- A slot that refers to a value does so when the heap grows. -/
theorem lookup_grown {heap heap' : Array Value} (hg : Grown heap heap') {s : Slot} {v : Value}
    (h : p.lookup { heap := heap } s = .ok v) : p.lookup { heap := heap' } s = .ok v := by
  cases s with
  | const i => exact h
  | scratch i =>
    rw [lookup] at h ⊢
    rcases hi : heap[i]? with _ | w
    · rw [hi] at h
      cases h
    · rw [hi] at h
      rw [hg hi]
      exact h

/-- Slots that refer to values do so when the heap grows. -/
theorem Refers.mono {heap heap' : Array Value} (hg : Grown heap heap') {slots : List Slot}
    {vs : List Value} (h : p.Refers heap slots vs) : p.Refers heap' slots vs :=
  List.Forall₂.imp (fun _ _ => lookup_grown hg) h

theorem Refers.append {heap : Array Value} {slots slots' : List Slot} {vs vs' : List Value}
    (h : p.Refers heap slots vs) (h' : p.Refers heap slots' vs') :
    p.Refers heap (slots ++ slots') (vs ++ vs') :=
  List.rel_append h h'

/-- The value of a slot is looked up without changing the machine. -/
theorem value_of_lookup {c : Context} {slot : Slot} {v : Value}
    (h : p.lookup { heap := c.heap } slot = .ok v) (o : Nat) (s : σ) :
    Run.value p o slot ⟨c, s⟩ = .ok v ⟨c, s⟩ := by
  have h : p.lookup c slot = .ok v := by cases slot <;> exact h
  rw [Run.value]
  simp only [h]

/-- The values of several slots are looked up without changing the machine. -/
theorem values_of_refers {c : Context} {slots : List Slot} {vs : List Value}
    (h : p.Refers c.heap slots vs) (o : Nat) (s : σ) :
    slots.mapM (Run.value p o) ⟨c, s⟩ = .ok vs ⟨c, s⟩ := by
  induction h with
  | nil => rfl
  | cons hv _ ih =>
    rw [List.mapM_cons]
    simp only [bind, EStateM.bind, value_of_lookup hv, ih]
    rfl

/-! ## Instructions in their places -/

/-- The instructions stand in the program, the first of them at `pc`. -/
def At (p : Program σ) (pc : Nat) (is : List (Instruction σ)) : Prop :=
  is <+: p.code.toList.drop pc

theorem at_zero (p : Program σ) : p.At 0 p.code.toList := List.prefix_refl _

theorem At.left {pc : Nat} {is js : List (Instruction σ)} (h : p.At pc (is ++ js)) :
    p.At pc is :=
  (List.prefix_append is js).trans h

theorem At.right {pc : Nat} {is js : List (Instruction σ)} (h : p.At pc (is ++ js)) :
    p.At (pc + is.length) js := by
  obtain ⟨ks, hk⟩ := h
  refine ⟨ks, ?_⟩
  rw [← List.drop_drop, ← hk, List.append_assoc, List.drop_left]

/-- A constant is found in the program, whatever the heap is. -/
theorem At.const {pc o : Nat} {v : Value} (h : p.At pc [⟨o, .const v⟩]) (heap : Array Value) :
    p.lookup { heap := heap } (.const pc) = .ok v := by
  obtain ⟨ks, hk⟩ := h
  have hi : p.code[pc]? = some ⟨o, .const v⟩ := by
    have := congrArg (·[0]?) hk
    simpa using this.symm
  simp [lookup, const?, hi]

/-! ## Instructions behind each other -/

/-- Instructions are executed behind others, from what these leave, unless they fail. -/
theorem steps_append (pc : Nat) (is js : List (Instruction σ)) (m : Machine σ) :
    p.steps pc (is ++ js) m =
      match p.steps pc is m with
      | .ok _ m => p.steps (pc + is.length) js m
      | .error e m => .error e m := by
  induction is generalizing pc m with
  | nil => rfl
  | cons i is ih =>
    rw [List.cons_append, steps, steps, List.length_cons, Nat.add_comm is.length,
      ← Nat.add_assoc]
    simp only [bind, EStateM.bind]
    rcases p.step pc i m with ⟨_, m⟩ | ⟨e, m⟩
    · exact ih (pc + 1) m
    · rfl

/-- The instructions that are executed are those of the first part and, if it does not fail,
    those of the second. -/
theorem traceFrom_append (pc : Nat) (is js : List (Instruction σ)) (m : Machine σ) :
    p.traceFrom pc m (is ++ js) =
      p.traceFrom pc m is ++
        match p.steps pc is m with
        | .ok _ m => p.traceFrom (pc + is.length) m js
        | .error .. => [] := by
  induction is generalizing pc m with
  | nil => rfl
  | cons i is ih =>
    rw [List.cons_append, steps, List.length_cons, Nat.add_comm is.length, ← Nat.add_assoc]
    simp only [traceFrom, bind, EStateM.bind]
    rcases p.step pc i m with ⟨_, m⟩ | ⟨e, m⟩
    · simp only [ih, List.cons_append]
    · simp

/-- The host is asked for what the first part asks for and, if it does not fail, for what the
    second does. -/
theorem actionsFrom_append (pc : Nat) (is js : List (Instruction σ)) (m : Machine σ) :
    p.actionsFrom pc m (is ++ js) =
      p.actionsFrom pc m is ++
        match p.steps pc is m with
        | .ok _ m => p.actionsFrom (pc + is.length) m js
        | .error .. => [] := by
  rw [actionsFrom, traceFrom_append, List.filterMap_append]
  split <;> rfl

theorem steps_singleton (pc : Nat) (i : Instruction σ) (m : Machine σ) :
    p.steps pc [i] m = p.step pc i m := by
  simp only [steps, bind, EStateM.bind]
  rcases p.step pc i m with _ | _ <;> rfl

theorem traceFrom_singleton (pc : Nat) (i : Instruction σ) (m : Machine σ) :
    p.traceFrom pc m [i] = [⟨pc, i, m⟩] := by
  rw [traceFrom]
  rcases p.step pc i m with _ | _ <;> rfl

theorem actionsFrom_singleton (pc : Nat) (i : Instruction σ) (m : Machine σ) :
    p.actionsFrom pc m [i] = (Executed.action? p ⟨pc, i, m⟩).toList := by
  rw [actionsFrom, traceFrom_singleton, List.filterMap_cons]
  rcases Executed.action? p ⟨pc, i, m⟩ with _ | a <;> rfl

end Program

end Formula
