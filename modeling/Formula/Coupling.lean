import Formula.History
import Mathlib.Data.List.Forall2

/-!
# Two computations side by side

Two computations on states of their own are *coupled* along a relation between the states
if, from states that are related, they end in the same way, with the same value or the same
error, and leave related states (`Coupled`). Computations behind each other are coupled if
each of them is.
-/

namespace Formula

/-- The same value or the same error, and related states. -/
inductive Matched {ε σ σ' α : Type} (R : σ → σ' → Prop) :
    EStateM.Result ε σ α → EStateM.Result ε σ' α → Prop
  | ok {a : α} {s : σ} {s' : σ'} : R s s' → Matched R (.ok a s) (.ok a s')
  | error {e : ε} {s : σ} {s' : σ'} : R s s' → Matched R (.error e s) (.error e s')

namespace Matched

variable {ε σ σ' α : Type} {R S : σ → σ' → Prop} {x : EStateM.Result ε σ α}
  {x' : EStateM.Result ε σ' α}

theorem stateLeft (h : Matched R x x') : R (stateLeft x) (stateLeft x') := by
  cases h <;> assumption

theorem of_stateLeft (h : Matched R x x') (hs : S (Formula.stateLeft x) (Formula.stateLeft x')) :
    Matched S x x' := by
  cases h
  · exact .ok hs
  · exact .error hs

end Matched

/-- From related states, two computations end in the same way and leave related states. -/
def Coupled {ε σ σ' α : Type} (R : σ → σ' → Prop) (x : EStateM ε σ α) (x' : EStateM ε σ' α) :
    Prop :=
  ∀ ⦃s : σ⦄ ⦃s' : σ'⦄, R s s' → Matched R (x s) (x' s')

namespace Coupled

variable {ε σ σ' α β : Type} {R : σ → σ' → Prop}

theorem pure (a : α) : Coupled R (Pure.pure a : EStateM ε σ α) (Pure.pure a) :=
  fun _ _ h => .ok h

/-- Coupled computations may be followed by what is coupled for every result. -/
theorem bind {x : EStateM ε σ α} {x' : EStateM ε σ' α} {f : α → EStateM ε σ β}
    {f' : α → EStateM ε σ' β} (hx : Coupled R x x') (hf : ∀ a, Coupled R (f a) (f' a)) :
    Coupled R (x >>= f) (x' >>= f') := by
  intro s s' h
  have hx := hx h
  simp only [Bind.bind, EStateM.bind]
  generalize x s = r at hx ⊢
  generalize x' s' = r' at hx ⊢
  cases hx with
  | ok h => exact hf _ h
  | error h => exact .error h

/-- A list is gone through side by side, whatever its length. -/
theorem mapM {f : α → EStateM ε σ β} {f' : α → EStateM ε σ' β}
    (hf : ∀ a, Coupled R (f a) (f' a)) (as : List α) : Coupled R (as.mapM f) (as.mapM f') := by
  induction as with
  | nil => exact .pure []
  | cons a as ih =>
    rw [List.mapM_cons, List.mapM_cons]
    exact (hf a).bind fun b => ih.bind fun bs => .pure (b :: bs)

end Coupled

/-! ## Operations of the machine -/

/-- The same context, and related states of the hosts. -/
def SameContext {σ σ' : Type} (R : σ → σ' → Prop) (m : Machine σ) (m' : Machine σ') : Prop :=
  m.context = m'.context ∧ R m.host m'.host

namespace Run

variable {σ σ' α : Type} {R : σ → σ' → Prop} (o : Nat)

/-- What concerns the context alone is the same on both sides. -/
theorem coupled_onContext (x : EStateM Fault Context α) :
    Coupled (SameContext R) (onContext o x) (onContext o x) := by
  rintro ⟨c, s⟩ ⟨_, s'⟩ ⟨rfl, h⟩
  simp only [onContext]
  rcases x c with ⟨a, c'⟩ | ⟨f, c'⟩
  · exact .ok ⟨rfl, h⟩
  · exact .error ⟨rfl, h⟩

/-- A question to the hosts is answered alike and leaves the same context. -/
theorem coupled_onHost (cause : String → OperationError) {x : View → EStateM String σ α}
    {x' : View → EStateM String σ' α} (hx : ∀ view, Coupled R (x view) (x' view)) :
    Coupled (SameContext R) (onHost o cause x) (onHost o cause x') := by
  rintro ⟨c, s⟩ ⟨_, s'⟩ ⟨rfl, h⟩
  have hx := hx c.view h
  simp only [onHost]
  generalize x c.view s = r at hx ⊢
  generalize x' c.view s' = r' at hx ⊢
  cases hx with
  | ok h => exact .ok ⟨rfl, h⟩
  | error h => exact .error ⟨rfl, h⟩

/-- Variables that tell the same value and leave related states are read alike. -/
theorem coupled_read {x : Variable σ} {x' : Variable σ'}
    (hx : ∀ view s s', R s s' →
      (x.read view s).1 = (x'.read view s').1 ∧ R (x.read view s).2 (x'.read view s').2) :
    Coupled (SameContext R) (read x) (read x') := by
  rintro ⟨c, s⟩ ⟨_, s'⟩ ⟨rfl, h⟩
  obtain ⟨hv, hs⟩ := hx c.view s s' h
  show Matched _ (.ok (x.read c.view s).1 (Machine.mk c (x.read c.view s).2))
    (.ok (x'.read c.view s').1 (Machine.mk c (x'.read c.view s').2))
  rw [hv]
  exact .ok ⟨rfl, hs⟩

/-- A slot is looked up alike where the programs have the same constants. -/
theorem coupled_value {p : Program σ} {p' : Program σ'}
    (hp : ∀ c slot, p.lookup c slot = p'.lookup c slot) (slot : Slot) :
    Coupled (SameContext R) (value p o slot) (value p' o slot) := by
  rintro ⟨c, s⟩ ⟨_, s'⟩ ⟨rfl, h⟩
  simp only [value, hp]
  split
  · exact .ok ⟨rfl, h⟩
  · exact .error ⟨rfl, h⟩

theorem coupled_result (x : Except OperationError Value) :
    Coupled (SameContext R) (result o x) (result o x) := by
  rintro ⟨c, s⟩ ⟨_, s'⟩ ⟨rfl, h⟩
  cases x with
  | ok v => exact .ok ⟨rfl, h⟩
  | error e => exact .error ⟨rfl, h⟩

end Run

/-! ## Instructions -/

/-- Two operations do the same to the context and what is related to the hosts. -/
inductive Op.Coupled {σ σ' : Type} (R : σ → σ' → Prop) : Op σ → Op σ' → Prop
  | const (v : Value) : Coupled R (.const v) (.const v)
  | load {b : Binding σ} {b' : Binding σ'} :
      (∀ view s s', R s s' → (b.target.read view s).1 = (b'.target.read view s').1 ∧
        R (b.target.read view s).2 (b'.target.read view s').2) →
      Coupled R (.load b) (.load b')
  | store {b : Binding σ} {b' : Binding σ'} : b.name = b'.name →
      (∀ view v, Formula.Coupled R (b.target.write view v) (b'.target.write view v)) →
      Coupled R (.store b) (.store b')
  | binary (op : Opcode) : Coupled R (.binary op) (.binary op)
  | unary (op : Opcode) : Coupled R (.unary op) (.unary op)
  | call {name : String} {f : Function σ} {f' : Function σ'} {argc : Nat}
      {receiver : Option (Binding σ)} {receiver' : Option (Binding σ')} :
      (∀ view args, Formula.Coupled R (f view args (receiver.map (·.target)))
        (f' view args (receiver'.map (·.target)))) →
      Coupled R (.call name f argc receiver) (.call name f' argc receiver')

/-- Two instructions are reported at the same place and do the same. -/
def Instruction.Coupled {σ σ' : Type} (R : σ → σ' → Prop) (i : Instruction σ)
    (i' : Instruction σ') : Prop :=
  i.offset = i'.offset ∧ i.op.Coupled R i'.op

/-- The constant that an operation pushes. -/
def Op.const? {σ : Type} : Op σ → Option Value
  | .const v => some v
  | _ => none

namespace Program

open Run

variable {σ σ' : Type} {R : σ → σ' → Prop} {p : Program σ} {p' : Program σ'}

/-- A constant is found at its place among those of the instructions. -/
theorem const?_eq_getElem? (p : Program σ) (index : Nat) :
    p.const? index = (p.code.toList.map (·.op.const?))[index]?.join := by
  rw [const?, List.getElem?_map, Array.getElem?_toList]
  rcases p.code[index]? with _ | ⟨o, op⟩
  · rfl
  · cases op <;> rfl

theorem lastOffset_eq_getLast? (p : Program σ) :
    p.lastOffset = ((p.code.toList.map (·.offset)).getLast?).getD 0 := by
  rw [lastOffset, List.getLast?_map, Array.getLast?_toList]
  cases p.code.back? <;> rfl

/-- The instructions of two programs do the same, one by one. -/
def Coupled (R : σ → σ' → Prop) (p : Program σ) (p' : Program σ') : Prop :=
  List.Forall₂ (Instruction.Coupled R) p.code.toList p'.code.toList

/-- What does not tell coupled instructions apart does not tell the programs apart. -/
theorem Coupled.map_eq (h : p.Coupled R p') {γ : Type} {f : Instruction σ → γ}
    {f' : Instruction σ' → γ} (hf : ∀ i i', i.Coupled R i' → f i = f' i') :
    p.code.toList.map f = p'.code.toList.map f' := by
  rw [← List.forall₂_eq_eq_eq, List.forall₂_map_left_iff, List.forall₂_map_right_iff]
  exact h.imp hf

theorem Coupled.lastOffset_eq (h : p.Coupled R p') : p.lastOffset = p'.lastOffset := by
  rw [lastOffset_eq_getLast?, lastOffset_eq_getLast?, h.map_eq fun i i' hi => hi.1]

/-- A slot refers to the same value in coupled programs: they have the same constants. -/
theorem Coupled.lookup_eq (h : p.Coupled R p') (c : Context) (slot : Slot) :
    p.lookup c slot = p'.lookup c slot := by
  have hconst (index : Nat) : p.const? index = p'.const? index := by
    rw [const?_eq_getElem?, const?_eq_getElem?, h.map_eq]
    rintro ⟨o, op⟩ ⟨o', op'⟩ ⟨_, hop⟩
    cases hop <;> rfl
  cases slot with
  | const index => simp only [lookup, hconst]
  | scratch index => rfl

section Step

variable (hp : ∀ c slot, p.lookup c slot = p'.lookup c slot)

include hp

/-- Coupled instructions, executed side by side, end in the same way, with the same context and
    related hosts. -/
theorem coupled_step (pc : Nat) {i : Instruction σ} {i' : Instruction σ'} (hi : i.Coupled R i') :
    Formula.Coupled (SameContext R) (p.step pc i) (p'.step pc i') := by
  obtain ⟨o, op⟩ := i
  obtain ⟨_, op'⟩ := i'
  obtain ⟨rfl, hop⟩ := hi
  have hvalue := @coupled_value _ _ R o _ _ hp
  cases hop with
  | const v => exact coupled_onContext ..
  | load hread => exact (coupled_read hread).bind fun v => coupled_onContext ..
  | store hname hwrite =>
    simp only [step, hname]
    exact (coupled_onContext ..).bind fun s => (hvalue s).bind fun v =>
      (coupled_onHost o _ fun view => hwrite view v).bind fun _ => coupled_onContext ..
  | binary op =>
    exact (coupled_onContext ..).bind fun right => (coupled_onContext ..).bind fun left =>
      (hvalue left).bind fun x => (hvalue right).bind fun y => (coupled_result ..).bind
        fun v => coupled_onContext ..
  | unary op =>
    exact (coupled_onContext ..).bind fun s => (hvalue s).bind fun x =>
      (coupled_result ..).bind fun v => coupled_onContext ..
  | call hcall =>
    exact (coupled_onContext ..).bind fun slots =>
      (Formula.Coupled.mapM hvalue slots).bind fun args =>
        (coupled_onHost o _ fun view => hcall view args).bind fun v => coupled_onContext ..

/-- Lists of coupled instructions, executed from the first to the last, end in the same way,
    too. -/
theorem coupled_steps (pc : Nat) {is : List (Instruction σ)} {is' : List (Instruction σ')}
    (h : List.Forall₂ (Instruction.Coupled R) is is') :
    Formula.Coupled (SameContext R) (p.steps pc is) (p'.steps pc is') := by
  induction h generalizing pc with
  | nil => exact .pure ()
  | cons hi _ ih => exact (coupled_step hp pc hi).bind fun _ => ih (pc + 1)

/-- The result is taken off alike if both programs end at the same place. -/
theorem coupled_finish (ho : p.lastOffset = p'.lastOffset) :
    Formula.Coupled (SameContext R) p.finish p'.finish := by
  rintro ⟨c, s⟩ ⟨_, s'⟩ ⟨rfl, h⟩
  simp only [finish, ho]
  split
  · exact ((coupled_onContext ..).bind fun s => coupled_value _ hp s) ⟨rfl, h⟩
  · exact .error ⟨rfl, h⟩

end Step

/-- Programs whose instructions do the same, one by one, have the same result in contexts
    with the same capacities and data, and leave related states of their hosts. -/
theorem Coupled.run (h : p.Coupled R p') {c c' : Context} (hc : c.reset = c'.reset) {s : σ}
    {s' : σ'} (hs : R s s') :
    (p.run c s).result = (p'.run c' s').result ∧ R (p.run c s).host (p'.run c' s').host := by
  have hexecute : Formula.Coupled (SameContext R) p.execute p'.execute :=
    (coupled_steps h.lookup_eq 0 h).bind fun _ => coupled_finish h.lookup_eq h.lastOffset_eq
  have hrun : Matched (SameContext R) (p.execute ⟨c.reset, s⟩) (p'.execute ⟨c'.reset, s'⟩) :=
    hexecute ⟨hc, hs⟩
  rw [Program.run, Program.run]
  generalize p.execute ⟨c.reset, s⟩ = r at hrun ⊢
  generalize p'.execute ⟨c'.reset, s'⟩ = r' at hrun ⊢
  cases hrun with
  | ok h => exact ⟨rfl, h.2⟩
  | error h => exact ⟨rfl, h.2⟩

end Program

end Formula
