import Formula.Machine.Answers
import Formula.Proofs.Keeping
import Formula.Proofs.Stepping

/-!
# Cells that runs take

A run keeps the stack and the heap of its context within their capacities, however it ends, and
takes as many cells as instructions of it have put a result into one (`sized_run`). All that
an instruction does before it puts its result somewhere takes from the stack at most, and no
cell (`Spares`); so it is enough to look at the last thing that it does (`Takes`).
-/

namespace Formula

/-- The stack and the heap are within their capacities, and `n` cells are in use. -/
structure Context.Sized (c : Context) (n : Nat) : Prop where
  depth_le : c.depth ≤ c.capacities.stack
  size_le : c.heap.size ≤ c.capacities.heap
  size_eq : c.heap.size = n

/-- The error is not that the stack is full. -/
def Error.IsNoOverflow (e : Error) : Prop := ∀ k, e.cause ≠ .fault (.stackOverflow k)

variable {σ α β : Type}

/-! ## Computations that put nothing into the context -/

/-- There is no more left on the stack than in `m`, the cells are the same, and nothing has
    overflowed. -/
structure Spared (m : Machine σ) (r : EStateM.Result Error (Machine σ) α) : Prop where
  depth_le : (stateLeft r).context.depth ≤ m.context.depth
  heap_eq : (stateLeft r).context.heap = m.context.heap
  capacities_eq : (stateLeft r).context.capacities = m.context.capacities
  noOverflow : ∀ e m', r = .error e m' → e.IsNoOverflow

namespace Spared

variable {m : Machine σ}

theorem ok {a : α} {s : σ} : Spared m (.ok a ⟨m.context, s⟩) :=
  ⟨Nat.le_refl _, rfl, rfl, fun _ _ h => by cases h⟩

theorem error {e : Error} {s : σ} (he : e.IsNoOverflow) :
    Spared m (.error e ⟨m.context, s⟩ : EStateM.Result Error (Machine σ) α) :=
  ⟨Nat.le_refl _, rfl, rfl, fun _ _ h => by cases h; exact he⟩

end Spared

/-- The computation puts nothing into the context. -/
def Spares (x : Run σ α) : Prop := ∀ m, Spared m (x m)

namespace Spares

theorem pure (a : α) : Spares (Pure.pure a : Run σ α) := fun _ => .ok

/-- Two computations that spare the context do so one after the other. -/
theorem bind {x : Run σ α} {f : α → Run σ β} (hx : Spares x) (hf : ∀ a, Spares (f a)) :
    Spares (x >>= f) := by
  intro m
  have hx := hx m
  simp only [Bind.bind, EStateM.bind]
  generalize x m = r at hx ⊢
  rcases r with ⟨a, m'⟩ | ⟨e, m'⟩
  · have hf := hf a m'
    exact ⟨Nat.le_trans hf.depth_le hx.depth_le, hf.heap_eq.trans hx.heap_eq,
      hf.capacities_eq.trans hx.capacities_eq, hf.noOverflow⟩
  · refine ⟨hx.depth_le, hx.heap_eq, hx.capacities_eq, fun e' m₁ h => ?_⟩
    cases h
    exact hx.noOverflow e m' rfl

theorem mapM {f : α → Run σ β} (hf : ∀ a, Spares (f a)) (as : List α) : Spares (as.mapM f) := by
  induction as with
  | nil => exact .pure []
  | cons a as ih =>
    rw [List.mapM_cons]
    exact (hf a).bind fun b => ih.bind fun bs => .pure (b :: bs)

end Spares

namespace Run

variable (o : Nat)

/-- Taking slots off gives room back and takes none. -/
theorem spares_popMany (n : Nat) (above : List Slot) :
    Spares (σ := σ) (onContext o (Context.popMany n above)) := by
  rintro ⟨c, s⟩
  induction n generalizing c above with
  | zero => exact .ok
  | succ n ih =>
    obtain ⟨_ | ⟨slot, below⟩, heap, capacities, data⟩ := c
    · exact .error (e := ⟨o, .fault .stackUnderflow⟩) fun _ h => by cases h
    · have hbelow := ih (slot :: above) ⟨below, heap, capacities, data⟩
      exact ⟨Nat.le_trans hbelow.depth_le (Nat.le_succ _), hbelow.heap_eq, hbelow.capacities_eq,
        hbelow.noOverflow⟩

theorem spares_pop : Spares (σ := σ) (onContext o Context.pop) := by
  rintro ⟨⟨_ | ⟨slot, below⟩, heap, capacities, data⟩, s⟩
  · exact .error (e := ⟨o, .fault .stackUnderflow⟩) fun _ h => by cases h
  · exact ⟨Nat.le_succ _, rfl, rfl, fun _ _ h => by cases h⟩

/-- The host does not see to the context. -/
theorem spares_onHost (cause : String → OperationError) (x : View → EStateM String σ α) :
    Spares (onHost o cause x) := by
  rintro ⟨c, s⟩
  rw [onHost]
  rcases x c.view s with ⟨a, s'⟩ | ⟨reason, s'⟩
  · exact .ok
  · exact .error fun _ h => by cases h

theorem spares_read (x : Variable σ) : Spares (read x) := fun _ => .ok

/-- A slot is looked up without taking it off. -/
theorem spares_value (p : Program σ) (slot : Slot) : Spares (value p o slot) := by
  intro m
  rw [value]
  rcases hlookup : p.lookup m.context slot with f | v
  · refine .error fun k h => ?_
    cases h
    cases Program.eq_danglingSlot_of_lookup hlookup
  · exact .ok

theorem spares_result (x : Except OperationError Value) : Spares (σ := σ) (result o x) := by
  intro m
  cases x with
  | ok v => exact .ok
  | error e => exact .error fun _ h => by cases h

end Run

/-! ## Putting a result somewhere -/

namespace Context.Sized

variable {c : Context} {n : Nat}

/-- What spares the context leaves it within its capacities, with as many cells in use. -/
theorem left {m : Machine σ} (h : m.context.Sized n) {r : EStateM.Result Error (Machine σ) α}
    (hr : Spared m r) : (stateLeft r).context.Sized n where
  depth_le := by
    rw [hr.capacities_eq]
    exact Nat.le_trans hr.depth_le h.depth_le
  size_le := by
    rw [hr.capacities_eq, hr.heap_eq]
    exact h.size_le
  size_eq := hr.heap_eq ▸ h.size_eq

/-- A slot may be pushed where there is room for it. -/
theorem put (h : c.Sized n) {slot : Slot} (hroom : c.depth < c.capacities.stack) :
    (c.put [slot] c.heap).Sized n where
  depth_le := by
    rw [depth_put]
    exact hroom
  size_le := h.size_le
  size_eq := h.size_eq

/-- A cell may be taken where there is one left. -/
theorem cell (h : c.Sized n) (hcell : c.heap.size < c.capacities.heap) (v : Value) :
    (c.put [] (c.heap.push v)).Sized (n + 1) where
  depth_le := h.depth_le
  size_le := by
    rw [put_heap, Array.size_push]
    exact hcell
  size_eq := by rw [put_heap, Array.size_push, h.size_eq]

end Context.Sized

/-- However the computation ends, the context is within its capacities, and as many cells have
    been taken as `cells` tells from its end. -/
def Takes (cells : EStateM.Result Error (Machine σ) Unit → Nat) (x : Run σ Unit) : Prop :=
  ∀ ⦃m : Machine σ⦄ ⦃n : Nat⦄, m.context.Sized n →
    (stateLeft (x m)).context.Sized (n + cells (x m))

namespace Takes

/-- What spares the context takes no cell: the count is that of what follows. -/
theorem bind {cells : EStateM.Result Error (Machine σ) Unit → Nat}
    (hcells : ∀ e m, e.IsNoOverflow → cells (.error e m) = 0) {x : Run σ α} (hx : Spares x)
    {f : α → Run σ Unit} (hf : ∀ a, Takes cells (f a)) : Takes cells (x >>= f) := by
  intro m n h
  have hspared := hx m
  have hleft := h.left hspared
  simp only [Bind.bind, EStateM.bind]
  generalize x m = r at hspared hleft ⊢
  rcases r with ⟨a, m'⟩ | ⟨e, m'⟩
  · exact hf a hleft
  · rw [hcells e m' (hspared.noOverflow e m' rfl)]
    exact hleft

/-- A slot is put on the stack. -/
theorem push (o : Nat) (slot : Slot) :
    Takes (fun _ => 0) (Run.onContext o (Context.push slot) : Run σ Unit) := by
  rintro ⟨c, s⟩ n h
  rw [Run.onContext_push]
  split
  · next hroom => exact h.put hroom
  · exact h

/-- A value is put into a cell, and its slot on the stack. -/
theorem pushValue (o : Nat) (v : Value) :
    Takes (fun r => (tookCell r).toNat) (Run.onContext o (Context.pushValue v) : Run σ Unit) := by
  rintro ⟨c, s⟩ n h
  simp only [Run.onContext_pushValue]
  split
  · next hcell =>
    split
    · next hroom => exact (h.cell hcell v).put hroom
    · exact h.cell hcell v
  · exact h

end Takes

/-- An error that is no overflow has taken no cell. -/
theorem tookCell_error {e : Error} (m : Machine σ) (h : e.IsNoOverflow) :
    tookCell (.error e m : EStateM.Result Error (Machine σ) α) = false := by
  obtain ⟨o, cause⟩ := e
  rw [tookCell.eq_def]
  split
  · next heq => cases heq
  · next heq =>
    cases heq
    exact absurd rfl (h _)
  · rfl

/-! ## Instructions -/

namespace Program

open Run

variable (p : Program σ)

/-- An instruction takes a cell if it gets to where its result has one. -/
theorem sized_step (pc : Nat) (i : Instruction σ) {m : Machine σ} {n : Nat}
    (h : m.context.Sized n) :
    (stateLeft (p.step pc i m)).context.Sized
      (n + (Executed.takesCell p ⟨pc, i, m⟩).toNat) := by
  obtain ⟨o, op⟩ := i
  have hvalue := spares_value o p
  -- The slots of constants and of values that are stored are there; other results need a cell.
  have hnone (e : Error) (m : Machine σ) (_ : e.IsNoOverflow) :
      (fun _ => 0) (.error e m : EStateM.Result Error (Machine σ) Unit) = 0 := rfl
  have hcell (e : Error) (m : Machine σ) (he : e.IsNoOverflow) :
      (tookCell (.error e m : EStateM.Result Error (Machine σ) Unit)).toNat = 0 := by
    rw [tookCell_error m he]
    rfl
  cases op with
  | const v => exact Takes.push o _ h
  | load b => exact Takes.bind hcell (spares_read b.target) (Takes.pushValue o) h
  | store b =>
    exact Takes.bind hnone (spares_pop o) (fun s => .bind hnone (hvalue s) fun v =>
      .bind hnone (spares_onHost o _ _) fun _ => .push o s) h
  | binary op =>
    exact Takes.bind hcell (spares_pop o) (fun right => .bind hcell (spares_pop o) fun left =>
      .bind hcell (hvalue left) fun x => .bind hcell (hvalue right) fun y =>
        .bind hcell (spares_result o _) (Takes.pushValue o)) h
  | unary op =>
    exact Takes.bind hcell (spares_pop o) (fun s => .bind hcell (hvalue s) fun x =>
      .bind hcell (spares_result o _) (Takes.pushValue o)) h
  | call name f argc receiver =>
    exact Takes.bind hcell (spares_popMany o argc []) (fun slots =>
      .bind hcell (.mapM hvalue slots) fun args =>
        .bind hcell (spares_onHost o _ _) (Takes.pushValue o)) h

/-- Instructions take as many cells as there are among them that take one. -/
theorem sized_steps (pc : Nat) (is : List (Instruction σ)) {m : Machine σ} {n : Nat}
    (h : m.context.Sized n) :
    (stateLeft (p.steps pc is m)).context.Sized
      (n + (p.traceFrom pc m is).countP (·.takesCell p)) := by
  induction is generalizing pc m n with
  | nil => exact h
  | cons i is ih =>
    have hi := p.sized_step pc i h
    have hcount (xs : List (Executed σ)) :
        n + (Executed.takesCell p ⟨pc, i, m⟩).toNat + xs.countP (·.takesCell p) =
          n + (⟨pc, i, m⟩ :: xs).countP (·.takesCell p) := by
      rw [List.countP_cons, Nat.add_assoc, Nat.add_comm (Bool.toNat _)]
      cases Executed.takesCell p ⟨pc, i, m⟩ <;> rfl
    rw [traceFrom, steps, ← hcount]
    simp only [bind, EStateM.bind]
    generalize p.step pc i m = r at hi ⊢
    rcases r with ⟨_, m'⟩ | ⟨e, m'⟩
    · exact ih (pc + 1) hi
    · exact hi

theorem spares_finish : Spares p.finish := by
  intro m
  rw [finish]
  split
  · exact ((spares_pop _).bind (spares_value _ p)) m
  · exact .error fun _ h => by cases h

/-- However a run ends, its context is within its capacities, and as many cells have been taken
    as there are instructions that took one. -/
theorem sized_run (c : Context) (s : σ) :
    (p.run c s).context.Sized ((p.trace c s).countP (·.takesCell p)) := by
  have hsteps := p.sized_steps 0 p.code.toList (m := ⟨c.reset, s⟩) (n := 0)
    ⟨Nat.zero_le _, Nat.zero_le _, rfl⟩
  rw [Nat.zero_add] at hsteps
  have hexecute : (stateLeft (p.execute ⟨c.reset, s⟩)).context.Sized
      ((p.trace c s).countP (·.takesCell p)) := by
    rw [execute]
    simp only [bind, EStateM.bind]
    generalize p.steps 0 p.code.toList ⟨c.reset, s⟩ = r at hsteps ⊢
    rcases r with ⟨_, m⟩ | ⟨e, m⟩
    · exact hsteps.left (p.spares_finish m)
    · exact hsteps
  rwa [left_run] at hexecute

/-- Behind a result the stack is empty. -/
theorem depth_of_finish {m m' : Machine σ} {v : Value} (h : p.finish m = .ok v m') :
    m'.context.depth = 0 := by
  obtain ⟨⟨_ | ⟨slot, _ | _⟩, heap, capacities, data⟩, s⟩ := m
  · cases h
  · have hvalue : value p p.lastOffset slot ⟨⟨[], heap, capacities, data⟩, s⟩ = .ok v m' := h
    rw [value] at hvalue
    split at hvalue <;> cases hvalue
    rfl
  · cases h

/-- A run that ends with a value leaves nothing on the stack. -/
theorem depth_run_of_ok {c : Context} {s : σ} {v : Value} (h : (p.run c s).result = .ok v) :
    (p.run c s).context.depth = 0 := by
  simp only [run, execute, bind, EStateM.bind] at h ⊢
  generalize p.steps 0 p.code.toList ⟨c.reset, s⟩ = r at h ⊢
  rcases r with ⟨_, m⟩ | ⟨e, m⟩
  · simp only at h ⊢
    have hfinish := @depth_of_finish _ p m
    generalize p.finish m = r at h hfinish ⊢
    rcases r with ⟨w, m'⟩ | ⟨e, m'⟩
    · exact hfinish rfl
    · cases h
  · cases h

end Program

end Formula
