import Formula.History

/-!
# What runs leave as it is

A part of a state is kept by a computation if it is the same behind it as before it,
whether the computation succeeds or fails (`Keeps`). Computations behind each other
keep what each of them keeps, so it is enough to look at the operations.

* What the application gave to a context, its capacities and its data, is kept by
  whatever is done with the context (`reset_useAll`).
* A part of the host's state is kept by instructions whose variables and functions keep
  it, if none of them is a store (`Op.Leaves`, `keeps_steps`).
-/

namespace Formula

/-- The part `π` of the state is the same behind `x`, however `x` ends. -/
def Keeps {ε σ α γ : Type} (π : σ → γ) (x : EStateM ε σ α) : Prop :=
  ∀ s, π (stateLeft (x s)) = π s

namespace Keeps

variable {ε σ α β γ : Type} {π : σ → γ}

theorem pure (a : α) : Keeps π (Pure.pure a : EStateM ε σ α) := fun _ => rfl

/-- What both parts keep, the whole keeps. -/
theorem bind {x : EStateM ε σ α} {f : α → EStateM ε σ β} (hx : Keeps π x)
    (hf : ∀ a, Keeps π (f a)) : Keeps π (x >>= f) := by
  intro s
  have hx := hx s
  simp only [Bind.bind, EStateM.bind]
  generalize x s = r at hx ⊢
  rcases r with ⟨a, s'⟩ | ⟨e, s'⟩
  · exact (hf a s').trans hx
  · exact hx

/-- What is kept for each element is kept for a list of them. -/
theorem mapM {f : α → EStateM ε σ β} (hf : ∀ a, Keeps π (f a)) (as : List α) :
    Keeps π (as.mapM f) := by
  induction as with
  | nil => exact .pure []
  | cons a as ih =>
    rw [List.mapM_cons]
    exact (hf a).bind fun b => ih.bind fun bs => .pure (b :: bs)

end Keeps

variable {σ α γ : Type}

/-! ## Operations of a context -/

namespace Context

theorem keeps_push (s : Slot) : Keeps reset (push s) := by
  intro c
  rw [push]
  split <;> rfl

theorem keeps_pop : Keeps reset pop := by
  intro c
  rw [pop]
  split <;> rfl

theorem keeps_popMany (n : Nat) (above : List Slot) : Keeps reset (popMany n above) := by
  induction n generalizing above with
  | zero => exact .pure above
  | succ n ih => exact keeps_pop.bind fun s => ih (s :: above)

theorem keeps_alloc (v : Value) : Keeps reset (alloc v) := by
  intro c
  rw [alloc]
  split <;> rfl

theorem keeps_pushValue (v : Value) : Keeps reset (pushValue v) :=
  (keeps_alloc v).bind keeps_push

end Context

/-! ## Operations of the machine -/

namespace Run

variable (o : Nat)

/-- What is kept in the context is kept in the machine. -/
theorem keeps_onContext {π : Context → γ} {x : EStateM Fault Context α} (h : Keeps π x) :
    Keeps (fun m : Machine σ => π m.context) (onContext o x) := by
  intro ⟨c, s⟩
  have h := h c
  rw [onContext]
  generalize x c = r at h ⊢
  rcases r with ⟨a, c'⟩ | ⟨f, c'⟩ <;> exact h

/-- The host is not touched by what concerns the context alone. -/
theorem keeps_host_onContext (π : σ → γ) (x : EStateM Fault Context α) :
    Keeps (fun m : Machine σ => π m.host) (onContext o x) := by
  intro ⟨c, s⟩
  rw [onContext]
  rcases x c with ⟨a, c'⟩ | ⟨f, c'⟩ <;> rfl

/-- What the host keeps for every view it is given is kept in the machine. -/
theorem keeps_onHost {π : σ → γ} (cause : String → OperationError)
    {x : View → EStateM String σ α} (h : ∀ view, Keeps π (x view)) :
    Keeps (fun m : Machine σ => π m.host) (onHost o cause x) := by
  intro ⟨c, s⟩
  have h := h c.view s
  rw [onHost]
  generalize x c.view s = r at h ⊢
  rcases r with ⟨a, s'⟩ | ⟨reason, s'⟩ <;> exact h

/-- The context is not touched by the host. -/
theorem keeps_context_onHost (π : Context → γ) (cause : String → OperationError)
    (x : View → EStateM String σ α) :
    Keeps (fun m : Machine σ => π m.context) (onHost o cause x) := by
  intro ⟨c, s⟩
  rw [onHost]
  rcases x c.view s with ⟨a, s'⟩ | ⟨reason, s'⟩ <;> rfl

theorem keeps_value (π : Machine σ → γ) (p : Program σ) (s : Slot) : Keeps π (value p o s) := by
  intro m
  rw [value]
  split <;> rfl

theorem keeps_result (π : Machine σ → γ) (x : Except OperationError Value) :
    Keeps π (result o x) := by
  intro m
  cases x <;> rfl

end Run

/-! ## Instructions -/

/-- The variables and functions of an instruction keep the part `π` of the state of the
    host, and it is no store. -/
def Op.Leaves (π : σ → γ) : Op σ → Prop
  | .const _ | .binary _ | .unary _ => True
  | .load b => ∀ view s, π (b.target.read view s).2 = π s
  | .store _ => False
  | .call _ f _ receiver => ∀ view args, Keeps π (f view args (receiver.map (·.target)))

namespace Program

open Run

variable (p : Program σ)

/-- An instruction keeps what is kept by each of the things it may do: by using the context
    within its capacities, by reading its variable, by writing to it and by calling its
    function. -/
theorem keeps_step {π : Machine σ → γ} {i : Instruction σ}
    (hcontext : ∀ {α : Type} {x : EStateM Fault Context α}, Keeps Context.reset x →
      Keeps π (onContext i.offset x))
    (hread : ∀ b, i.op = .load b → Keeps π (read b.target))
    (hwrite : ∀ b v, i.op = .store b →
      Keeps π (onHost i.offset (.readOnly b.name) (b.target.write · v)))
    (hcall : ∀ name f argc receiver args, i.op = .call name f argc receiver →
      Keeps π (onHost i.offset (.functionFailed name) (f · args (receiver.map (·.target)))))
    (pc : Nat) : Keeps π (p.step pc i) := by
  obtain ⟨o, op⟩ := i
  have hpop := hcontext Context.keeps_pop
  have hpush (s : Slot) := hcontext (Context.keeps_push s)
  have hpushValue (v : Value) := hcontext (Context.keeps_pushValue v)
  cases op with
  | const v => exact hpush _
  | load b => exact (hread b rfl).bind hpushValue
  | store b =>
    exact hpop.bind fun s => (keeps_value o π p s).bind fun v =>
      (hwrite b v rfl).bind fun _ => hpush s
  | binary op =>
    exact hpop.bind fun right => hpop.bind fun left => (keeps_value o π p left).bind fun x =>
      (keeps_value o π p right).bind fun y => (keeps_result o π _).bind hpushValue
  | unary op =>
    exact hpop.bind fun s => (keeps_value o π p s).bind fun x =>
      (keeps_result o π _).bind hpushValue
  | call name f argc receiver =>
    exact (hcontext (Context.keeps_popMany argc [])).bind fun slots =>
      (Keeps.mapM (keeps_value o π p) slots).bind fun args =>
        (hcall name f argc receiver args rfl).bind hpushValue

/-- Instructions keep the part of the host's state that their variables and functions
    keep. -/
theorem keeps_steps {π : σ → γ} {is : List (Instruction σ)} (h : ∀ i ∈ is, i.op.Leaves π)
    (pc : Nat) : Keeps (fun m : Machine σ => π m.host) (p.steps pc is) := by
  induction is generalizing pc with
  | nil => exact .pure ()
  | cons i is ih =>
    have hi := h i List.mem_cons_self
    refine Keeps.bind (p.keeps_step (fun _ => keeps_host_onContext _ π _) (fun b hb => ?_)
      (fun b v hb => ?_) (fun name f argc receiver args hf => ?_) pc)
      fun _ => ih (fun j hj => h j (List.mem_cons_of_mem _ hj)) (pc + 1)
    · rw [hb] at hi
      exact fun m => hi m.context.view m.host
    · -- A store is not among the instructions.
      rw [hb] at hi
      exact hi.elim
    · rw [hf] at hi
      exact keeps_onHost _ _ fun view => hi view args

/-- The result is taken off by using the context alone. -/
theorem keeps_finish {π : Machine σ → γ}
    (hcontext : ∀ {o : Nat} {α : Type} {x : EStateM Fault Context α}, Keeps Context.reset x →
      Keeps π (onContext o x)) : Keeps π p.finish := by
  intro m
  rw [finish]
  split
  · exact ((hcontext Context.keeps_pop).bind fun s => keeps_value _ π p s) m
  · rfl

/-- What a run leaves is what is left where it ends. -/
theorem left_run (c : Context) (s : σ) :
    stateLeft (p.execute ⟨c.reset, s⟩) = ⟨(p.run c s).context, (p.run c s).host⟩ := by
  rw [run]
  rcases p.execute ⟨c.reset, s⟩ with ⟨v, m⟩ | ⟨e, m⟩ <;> rfl

/-! ## Contexts that have been used -/

/-- A run keeps the capacities and the data of its context. -/
theorem reset_run (c : Context) (s : σ) : (p.run c s).context.reset = c.reset := by
  -- Other than for the host, this is so for all instructions, as none of them resets.
  have hsteps (pc : Nat) (is : List (Instruction σ)) :
      Keeps (fun m : Machine σ => m.context.reset) (p.steps pc is) := by
    induction is generalizing pc with
    | nil => exact .pure ()
    | cons i is ih =>
      exact Keeps.bind (p.keeps_step (keeps_onContext _) (fun _ _ _ => rfl)
        (fun _ _ _ => keeps_context_onHost _ _ _ _)
        (fun _ _ _ _ _ _ => keeps_context_onHost _ _ _ _) pc) fun _ => ih (pc + 1)
  have hkeeps : Keeps (fun m : Machine σ => m.context.reset) p.execute :=
    (hsteps 0 p.code.toList).bind fun _ => p.keeps_finish (keeps_onContext _)
  have h := hkeeps ⟨c.reset, s⟩
  rwa [left_run] at h

end Program

namespace Context

/-- However a context has been used, resetting it gives what resetting it before gives. -/
theorem reset_useAll (c : Context) (uses : List Use) : (c.useAll uses).reset = c.reset := by
  induction uses generalizing c with
  | nil => rfl
  | cons u uses ih =>
    have huse : (c.use u).reset = c.reset := by
      cases u with
      | push s => exact keeps_push s c
      | pop => exact keeps_pop c
      | alloc v => exact keeps_alloc v c
      | pushValue v => exact keeps_pushValue v c
      | reset => rfl
      | run p s => exact p.reset_run c s
    exact (ih _).trans huse

end Context

end Formula
