import Formula.Machine.Answers

/-!
# What uses of a context do

All that a use can be answered with, and the context that it leaves with each answer
(`Context.Does`). What is proved about uses is proved from this, case by case, and not from
how the operations are written (`Context.does`).
-/

namespace Formula.Context

/-- The use can be answered with `a`, and leaves `c'` then. -/
inductive Does (c : Context) : (u : Use) → (a : Answer) → (c' : Context) → Prop
  | pushed (s : Slot) : c.depth < c.capacities.stack →
      Does c (.push s) .done { c with stack := s :: c.stack }
  | noRoom (s : Slot) : ¬ c.depth < c.capacities.stack →
      Does c (.push s) (.fault (.stackOverflow c.capacities.stack)) c
  | popped {s : Slot} {below : List Slot} : c.stack = s :: below →
      Does c .pop (.slot s) { c with stack := below }
  | nothing : c.stack = [] → Does c .pop (.fault .stackUnderflow) c
  | stored (v : Value) : c.heap.size < c.capacities.heap →
      Does c (.alloc v) (.slot (.scratch c.heap.size)) { c with heap := c.heap.push v }
  | noCell (v : Value) : ¬ c.heap.size < c.capacities.heap →
      Does c (.alloc v) (.fault (.heapExhausted c.capacities.heap)) c
  | pushedValue (v : Value) : c.heap.size < c.capacities.heap → c.depth < c.capacities.stack →
      Does c (.pushValue v) .done
        { c with stack := .scratch c.heap.size :: c.stack, heap := c.heap.push v }
  | noCellForValue (v : Value) : ¬ c.heap.size < c.capacities.heap →
      Does c (.pushValue v) (.fault (.heapExhausted c.capacities.heap)) c
  /-- The value has got its cell already. -/
  | noRoomForValue (v : Value) : c.heap.size < c.capacities.heap →
      ¬ c.depth < c.capacities.stack →
      Does c (.pushValue v) (.fault (.stackOverflow c.capacities.stack))
        { c with heap := c.heap.push v }
  | reset : Does c .reset .done c.reset
  | run {σ : Type} (p : Program σ) (s : σ) :
      Does c (.run p s) (.result (p.run c s).result) (p.run c s).context

/-- Every use does one of these. -/
theorem does (c : Context) (u : Use) : c.Does u (c.answer u) (c.use u) := by
  cases u with
  | push s =>
    by_cases hroom : c.depth < c.capacities.stack
    · have hpush : push s c = .ok () { c with stack := s :: c.stack } := if_pos hroom
      rw [answer, use, hpush]
      exact .pushed s hroom
    · have hpush : push s c = .error (.stackOverflow c.capacities.stack) c := if_neg hroom
      rw [answer, use, hpush]
      exact .noRoom s hroom
  | pop =>
    obtain ⟨_ | ⟨s, below⟩, heap, capacities, data⟩ := c
    · exact .nothing rfl
    · exact .popped rfl
  | alloc v =>
    by_cases hcell : c.heap.size < c.capacities.heap
    · have halloc : alloc v c = .ok (.scratch c.heap.size) { c with heap := c.heap.push v } :=
        if_pos hcell
      rw [answer, use, halloc]
      exact .stored v hcell
    · have halloc : alloc v c = .error (.heapExhausted c.capacities.heap) c := if_neg hcell
      rw [answer, use, halloc]
      exact .noCell v hcell
  | pushValue v =>
    by_cases hcell : c.heap.size < c.capacities.heap
    · have hpushValue : pushValue v c =
          push (.scratch c.heap.size) { c with heap := c.heap.push v } := by
        simp only [pushValue, bind, EStateM.bind, alloc, if_pos hcell]
      rw [answer, use, hpushValue]
      by_cases hroom : c.depth < c.capacities.stack
      · rw [push, if_pos (by exact hroom)]
        exact .pushedValue v hcell hroom
      · rw [push, if_neg (by exact hroom)]
        exact .noRoomForValue v hcell hroom
    · have hpushValue : pushValue v c = .error (.heapExhausted c.capacities.heap) c := by
        simp only [pushValue, bind, EStateM.bind, alloc, if_neg hcell]
      rw [answer, use, hpushValue]
      exact .noCellForValue v hcell
  | reset => exact .reset
  | run p s => exact .run p s

end Formula.Context
