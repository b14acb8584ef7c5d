import Formula.Machine.Run

/-!
# What programs fail with

Computations behind each other fail with what one of them fails with (`FailsWith`). So
every instruction fails at its own place, with a fault or with one of the causes that its
operation has (`Op.CanFail`), and a run fails with what one of its instructions fails with
(`run_error`).
-/

namespace Formula

/-- If `x` fails, `P` is true of the error. -/
def FailsWith {ε σ α : Type} (P : ε → Prop) (x : EStateM ε σ α) : Prop :=
  ∀ ⦃s : σ⦄ ⦃e : ε⦄ ⦃s' : σ⦄, x s = .error e s' → P e

namespace FailsWith

variable {ε σ α β : Type} {P Q : ε → Prop}

theorem pure (a : α) : FailsWith P (Pure.pure a : EStateM ε σ α) := fun _ _ _ h => by cases h

/-- If both parts can fail with nothing else, neither can the whole. -/
theorem bind {x : EStateM ε σ α} {f : α → EStateM ε σ β} (hx : FailsWith P x)
    (hf : ∀ a, FailsWith P (f a)) : FailsWith P (x >>= f) := by
  intro s e s' h
  simp only [Bind.bind, EStateM.bind] at h
  split at h
  · exact hf _ h
  · rename_i e' _ hx'
    cases h
    exact hx hx'

theorem mapM {f : α → EStateM ε σ β} (hf : ∀ a, FailsWith P (f a)) (as : List α) :
    FailsWith P (as.mapM f) := by
  induction as with
  | nil => exact .pure []
  | cons a as ih =>
    rw [List.mapM_cons]
    exact (hf a).bind fun b => ih.bind fun bs => .pure (b :: bs)

theorem imp {x : EStateM ε σ α} (hx : FailsWith P x) (hPQ : ∀ e, P e → Q e) : FailsWith Q x :=
  fun _ _ _ h => hPQ _ (hx h)

end FailsWith

variable {σ α : Type}

/-! ## Operations of the machine -/

namespace Run

variable {P : Error → Prop} {o : Nat}

/-- In the context only faults are met. -/
theorem failsWith_onContext (h : ∀ f, P ⟨o, .fault f⟩) (x : EStateM Fault Context α) :
    FailsWith P (onContext o x : Run σ α) := by
  intro ⟨c, s⟩ e m' he
  rw [onContext] at he
  split at he <;> cases he
  exact h _

/-- The host refuses with a reason, which is put into the cause. -/
theorem failsWith_onHost {cause : String → OperationError}
    (h : ∀ reason, P ⟨o, .operation (cause reason)⟩) (x : View → EStateM String σ α) :
    FailsWith P (onHost o cause x) := by
  intro ⟨c, s⟩ e m' he
  rw [onHost] at he
  split at he <;> cases he
  exact h _

theorem failsWith_read (x : Variable σ) : FailsWith P (read x) := fun _ _ _ h => by cases h

/-- A slot that dangles is a fault. -/
theorem failsWith_value (h : ∀ f, P ⟨o, .fault f⟩) (p : Program σ) (s : Slot) :
    FailsWith P (value p o s) := by
  intro m e m' he
  rw [value] at he
  split at he <;> cases he
  exact h _

/-- An operation fails with the error it gives. -/
theorem failsWith_result {x : Except OperationError Value}
    (h : ∀ e, x = .error e → P ⟨o, .operation e⟩) : FailsWith P (result o x : Run σ Value) := by
  intro m e m' he
  cases x <;> cases he
  exact h _ rfl

end Run

/-! ## Instructions -/

/-- An operation can fail with the cause: with a fault, or by refusing its operands, or as
    the host refuses an assignment or a call. -/
def Op.CanFail (op : Op σ) : Cause → Prop
  | .fault _ => True
  | .operation e =>
    match op with
    | .const _ | .load _ => False
    | .store b => ∃ reason, e = .readOnly b.name reason
    | .binary op => ∃ x y, op.applyBinary x y = .error e
    | .unary op => ∃ x, op.applyUnary x = .error e
    | .call name _ _ _ => ∃ reason, e = .functionFailed name reason
  | .reading _ | .linking _ => False

/-- The error is reported at the instruction, with a cause that this can fail with. -/
def Instruction.CanFail (i : Instruction σ) (e : Error) : Prop :=
  e.offset = i.offset ∧ i.op.CanFail e.cause

namespace Program

open Run

variable (p : Program σ)

/-- An instruction fails with what it can fail with, at its own place: with a fault, with the
    error of its operator, or as its variable or function refuses. -/
theorem failsWith_step (pc : Nat) (i : Instruction σ) : FailsWith i.CanFail (p.step pc i) := by
  obtain ⟨o, op⟩ := i
  have hfault (f : Fault) : Instruction.CanFail ⟨o, op⟩ ⟨o, .fault f⟩ := ⟨rfl, trivial⟩
  have hcontext {α : Type} (x : EStateM Fault Context α) :
      FailsWith (Instruction.CanFail ⟨o, op⟩) (onContext o x : Run σ α) :=
    failsWith_onContext hfault x
  have hvalue := failsWith_value hfault p
  cases op with
  | const v => exact hcontext _
  | load b => exact (failsWith_read _).bind fun v => hcontext _
  | store b =>
    exact (hcontext _).bind fun s => (hvalue s).bind fun v =>
      (failsWith_onHost (fun reason => ⟨rfl, reason, rfl⟩) _).bind fun _ => hcontext _
  | binary op =>
    exact (hcontext _).bind fun right => (hcontext _).bind fun left => (hvalue left).bind
      fun x => (hvalue right).bind fun y =>
        (failsWith_result fun e he => ⟨rfl, x, y, he⟩).bind fun v => hcontext _
  | unary op =>
    exact (hcontext _).bind fun s => (hvalue s).bind fun x =>
      (failsWith_result fun e he => ⟨rfl, x, he⟩).bind fun v => hcontext _
  | call name f argc receiver =>
    exact (hcontext _).bind fun slots => (FailsWith.mapM hvalue slots).bind fun args =>
      (failsWith_onHost (fun reason => ⟨rfl, reason, rfl⟩) _).bind fun v => hcontext _

/-- A list of instructions fails as one of them can. -/
theorem failsWith_steps (pc : Nat) (is : List (Instruction σ)) :
    FailsWith (fun e => ∃ i ∈ is, i.CanFail e) (p.steps pc is) := by
  induction is generalizing pc with
  | nil => exact .pure ()
  | cons i is ih =>
    refine ((p.failsWith_step pc i).imp fun e he => ⟨i, List.mem_cons_self, he⟩).bind fun _ =>
      (ih (pc + 1)).imp fun e he => ?_
    obtain ⟨j, hj, he⟩ := he
    exact ⟨j, List.mem_cons_of_mem _ hj, he⟩

/-- When the result is taken off, only faults are met, at the last instruction. -/
theorem failsWith_finish {P : Error → Prop} (hP : ∀ f, P ⟨p.lastOffset, .fault f⟩) :
    FailsWith P p.finish := by
  intro m e m' h
  rw [finish] at h
  split at h
  · exact ((failsWith_onContext hP _).bind fun s => failsWith_value hP p s) h
  · cases h
    exact hP _

/-- A run of a program that has instructions fails with what one of them can fail with. -/
theorem run_error {p : Program σ} (hp : p.code.toList ≠ []) {c : Context} {s : σ} {e : Error}
    (h : (p.run c s).result = .error e) : ∃ i ∈ p.code.toList, i.CanFail e := by
  -- What is wrong at the end is reported at the last instruction.
  have hlast (f : Fault) : ∃ i ∈ p.code.toList, i.CanFail ⟨p.lastOffset, .fault f⟩ := by
    refine ⟨p.code.toList.getLast hp, List.getLast_mem hp, ?_, trivial⟩
    rw [lastOffset, ← Array.getLast?_toList, List.getLast?_eq_some_getLast hp]
    rfl
  have hfails : FailsWith (fun e => ∃ i ∈ p.code.toList, i.CanFail e) p.execute :=
    (p.failsWith_steps 0 _).bind fun _ => p.failsWith_finish hlast
  rw [run] at h
  split at h <;> cases h
  exact hfails ‹_›

end Program

end Formula
