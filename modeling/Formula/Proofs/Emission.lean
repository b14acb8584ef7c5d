import Formula.Proofs.Generation
import Formula.Syntax.Nodes
import Mathlib.Data.List.Forall2

/-!
# The nodes behind the instructions

A program is computed step by step: each of its instructions is that of a node of the
formula (`Expr.Emits`), in the order in which the nodes are computed (`Expr.steps`), which
is post-order. The receiver of a method is no step, as it is only looked up. So whatever
holds of the instructions of nodes holds of programs (`Statement.exists_emits`), and the
constants of a program are the literals of its formula, in their order
(`Statement.forall₂_literals`).
-/

namespace Formula

variable {σ : Type} {host : Host σ} {is : List (Instruction σ)}

namespace Expr

/-! ## Steps -/

mutual

/-- The nodes of an expression that are computed, each behind those it is computed from. -/
def steps : Expr → List Expr
  | .number o n => [.number o n]
  | .text o s => [.text o s]
  | .reference o r => [.reference o r]
  | .unary o op x => steps x ++ [.unary o op x]
  | .binary o op l r => steps l ++ steps r ++ [.binary o op l r]
  | .call o name args => stepsAll args ++ [.call o name args]
  | .method o e name args => stepsAll args ++ [.method o e name args]

/-- The nodes of several expressions that are computed. -/
def stepsAll : List Expr → List Expr
  | [] => []
  | e :: es => steps e ++ stepsAll es

end

mutual

/-- What is computed is a node of the expression. -/
theorem steps_subset_nodes : (e : Expr) → e.steps ⊆ e.nodes
  | .number .. | .text .. | .reference .. => List.Subset.refl _
  | .unary _ _ x => by
    have hx := steps_subset_nodes x
    grind [steps, nodes]
  | .binary _ _ l r => by
    have hl := steps_subset_nodes l
    have hr := steps_subset_nodes r
    grind [steps, nodes]
  | .call _ _ args | .method _ _ _ args => by
    have hargs := stepsAll_subset_nodesAll args
    grind [steps, nodes]

theorem stepsAll_subset_nodesAll : (es : List Expr) → stepsAll es ⊆ nodesAll es
  | [] => List.Subset.refl _
  | e :: es =>
    List.append_subset.2
      ⟨List.Subset.trans (steps_subset_nodes e) (List.subset_append_left ..),
        List.Subset.trans (stepsAll_subset_nodesAll es) (List.subset_append_right ..)⟩

end

/-! ## Instructions -/

/-- The instruction is the one that the node itself is computed or assigned to with. -/
def Emits (host : Host σ) : Expr → Instruction σ → Prop
  | .number o n, i => ∃ v, host.literal o n = .ok v ∧ i = ⟨o, .const v⟩
  | .text o s, i => i = ⟨o, .const (.text s)⟩
  | .reference o r, i => ∃ b, host.bind o r = .ok b ∧ (i = ⟨o, .load b⟩ ∨ i = ⟨o, .store b⟩)
  | .unary o op _, i => i = ⟨o, .unary (.unary op)⟩
  | .binary o op _ _, i => i = ⟨o, .binary (.binary op)⟩
  | .call o name args, i =>
    ∃ f, host.function o name = .ok f ∧ i = ⟨o, .call name f args.length none⟩
  | .method o e name args, i =>
    ∃ o' r b f, e = .reference o' r ∧ host.bind o' r = .ok b ∧ host.function o name = .ok f ∧
      i = ⟨o, .call name f args.length (some b)⟩

/-- A literal is a number, whatever its unit. -/
theorem exists_number_of_literal {o : Nat} {n : Numeral} {v : Value}
    (h : host.literal o n = .ok v) : ∃ x, v = .number x := by
  unfold Host.literal at h
  split at h
  · cases h
    exact ⟨_, rfl⟩
  · split at h <;> cases h
    exact ⟨_, rfl⟩

/-- A method that can be linked is called on a reference that is bound. -/
theorem receiver_ok {o : Nat} {name : String} {e : Expr} {b : Binding σ}
    (h : e.receiver host o name = .ok b) : ∃ o' r, e = .reference o' r ∧ host.bind o' r = .ok b := by
  cases e with
  | reference o' r => exact ⟨o', r, rfl, h⟩
  | _ => cases h

/-- As each expression emits the instructions of its steps, so does a list of them. -/
theorem emits_of_codeAll {es : List Expr}
    (h : ∀ e ∈ es, ∀ is, e.code host = .ok is → List.Forall₂ (Emits host) e.steps is)
    (his : codeAll host es = .ok is) : List.Forall₂ (Emits host) (stepsAll es) is := by
  induction es generalizing is with
  | nil =>
    cases his
    exact .nil
  | cons e es ih =>
    obtain ⟨he, hes⟩ := List.forall_mem_cons.1 h
    obtain ⟨first, hfirst, his⟩ := exists_of_bind_eq_ok his
    obtain ⟨rest, hrest, his⟩ := exists_of_bind_eq_ok his
    cases his
    exact List.rel_append (he first hfirst) (ih hes hrest)

/-- The code of an expression has the instructions of its steps. -/
theorem emits_of_code (e : Expr) (his : e.code host = .ok is) :
    List.Forall₂ (Emits host) e.steps is := by
  induction e using Expr.induction generalizing is with
  | number o n =>
    obtain ⟨v, hv, his⟩ := exists_of_bind_eq_ok his
    cases his
    exact .cons ⟨v, hv, rfl⟩ .nil
  | text o s =>
    cases his
    exact .cons rfl .nil
  | reference o r =>
    obtain ⟨b, hb, his⟩ := exists_of_bind_eq_ok his
    cases his
    exact .cons ⟨b, hb, .inl rfl⟩ .nil
  | unary o op x ih =>
    obtain ⟨before, hbefore, his⟩ := exists_of_bind_eq_ok his
    cases his
    exact List.rel_append (ih hbefore) (.cons rfl .nil)
  | binary o op l r ihl ihr =>
    obtain ⟨left, hleft, his⟩ := exists_of_bind_eq_ok his
    obtain ⟨right, hright, his⟩ := exists_of_bind_eq_ok his
    cases his
    exact List.rel_append (List.rel_append (ihl hleft) (ihr hright)) (.cons rfl .nil)
  | call o name args ih =>
    obtain ⟨before, hbefore, his⟩ := exists_of_bind_eq_ok his
    obtain ⟨f, hf, his⟩ := exists_of_bind_eq_ok his
    cases his
    exact List.rel_append (emits_of_codeAll (fun e he _ => ih e he) hbefore)
      (.cons ⟨f, hf, rfl⟩ .nil)
  | method o e name args _ ih =>
    obtain ⟨b, hb, his⟩ := exists_of_bind_eq_ok his
    obtain ⟨before, hbefore, his⟩ := exists_of_bind_eq_ok his
    obtain ⟨f, hf, his⟩ := exists_of_bind_eq_ok his
    cases his
    obtain ⟨o', r, he, hb⟩ := receiver_ok hb
    exact List.rel_append (emits_of_codeAll (fun e he _ => ih e he) hbefore)
      (.cons ⟨o', r, b, f, he, hb, hf, rfl⟩ .nil)

/-! ## Literals -/

/-- As each expression computes all its literals in order, so does a list of them. -/
theorem literals_stepsAll {es : List Expr}
    (h : ∀ e ∈ es, ∀ is, e.code host = .ok is →
      e.steps.filter isLiteral = e.nodes.filter isLiteral)
    (his : codeAll host es = .ok is) :
    (stepsAll es).filter isLiteral = (nodesAll es).filter isLiteral := by
  induction es generalizing is with
  | nil => rfl
  | cons e es ih =>
    obtain ⟨he, hes⟩ := List.forall_mem_cons.1 h
    obtain ⟨first, hfirst, his⟩ := exists_of_bind_eq_ok his
    obtain ⟨rest, hrest, -⟩ := exists_of_bind_eq_ok his
    rw [stepsAll, nodesAll, List.filter_append, List.filter_append, he first hfirst,
      ih hes hrest]

/-- No literal is left out of the steps of an expression that can be compiled. -/
theorem literals_steps (e : Expr) (his : e.code host = .ok is) :
    e.steps.filter isLiteral = e.nodes.filter isLiteral := by
  induction e using Expr.induction generalizing is with
  | number | text | reference => rfl
  | unary o op x ih =>
    obtain ⟨before, hbefore, -⟩ := exists_of_bind_eq_ok his
    simp [steps, nodes, isLiteral, ih hbefore]
  | binary o op l r ihl ihr =>
    obtain ⟨left, hleft, his⟩ := exists_of_bind_eq_ok his
    obtain ⟨right, hright, -⟩ := exists_of_bind_eq_ok his
    simp [steps, nodes, isLiteral, ihl hleft, ihr hright]
  | call o name args ih =>
    obtain ⟨before, hbefore, -⟩ := exists_of_bind_eq_ok his
    simp [steps, nodes, isLiteral, literals_stepsAll (fun e he _ => ih e he) hbefore]
  | method o e name args _ ih =>
    obtain ⟨b, hb, his⟩ := exists_of_bind_eq_ok his
    obtain ⟨before, hbefore, -⟩ := exists_of_bind_eq_ok his
    -- A receiver that can be looked up is a reference, so no literal is lost with it.
    obtain ⟨o', r, rfl, -⟩ := receiver_ok hb
    simp [steps, nodes, isLiteral, literals_stepsAll (fun e he _ => ih e he) hbefore]

end Expr

namespace Statement

/-- The nodes of a formula that are computed, the target of an assignment after its value. -/
def steps : Statement → List Expr
  | .expression e => e.steps
  | .assignment _ o r e => e.steps ++ [.reference o r]

/-- What is computed, or assigned to, is a node of the formula. -/
theorem steps_subset_nodes (s : Statement) : s.steps ⊆ s.nodes := by
  cases s with
  | expression e => exact e.steps_subset_nodes
  | assignment _ o r e =>
    have he := e.steps_subset_nodes
    grind [steps, nodes]

/-- Something is computed in every formula. -/
theorem steps_ne_nil (s : Statement) : s.steps ≠ [] := by
  cases s with
  | expression e => cases e <;> simp [steps, Expr.steps]
  | assignment => simp [steps]

/-- The code of a formula has the instructions of its steps. -/
theorem emits_of_code {s : Statement} (his : s.code host = .ok is) :
    List.Forall₂ (Expr.Emits host) s.steps is := by
  cases s with
  | expression e => exact e.emits_of_code his
  | assignment _ o r e =>
    obtain ⟨before, hbefore, his⟩ := exists_of_bind_eq_ok his
    obtain ⟨b, hb, his⟩ := exists_of_bind_eq_ok his
    cases his
    exact List.rel_append (e.emits_of_code hbefore) (.cons ⟨b, hb, .inr rfl⟩ .nil)

/-- Every instruction is that of a node. -/
theorem exists_emits {s : Statement} (his : s.code host = .ok is) :
    ∀ i ∈ is, ∃ x ∈ s.nodes, x.Emits host i := by
  intro i hi
  obtain ⟨k, hk, rfl⟩ := List.getElem_of_mem hi
  have hemits := emits_of_code his
  have hk' : k < s.steps.length := hemits.length_eq ▸ hk
  exact ⟨_, s.steps_subset_nodes (List.getElem_mem hk'), hemits.get hk' hk⟩

/-- No literal is left out of the steps of a formula that can be compiled. -/
theorem literals_steps {s : Statement} (his : s.code host = .ok is) :
    s.steps.filter Expr.isLiteral = s.nodes.filter Expr.isLiteral := by
  cases s with
  | expression e => exact e.literals_steps his
  | assignment _ o r e =>
    obtain ⟨before, hbefore, -⟩ := exists_of_bind_eq_ok his
    simp [steps, nodes, Expr.isLiteral, e.literals_steps hbefore]

/-- What is seen of the literals of a formula is related, one by one, to what is seen of its
    instructions if it is for every literal and its instruction. -/
theorem forall₂_literals {α β : Type} {R : α → β → Prop} {f : Expr → Option α}
    {g : Instruction σ → Option β} (hf : ∀ x, x.isLiteral = false → f x = none)
    (hfg : ∀ x i, x.Emits host i → Option.Rel R (f x) (g i)) {s : Statement}
    (his : s.code host = .ok is) : List.Forall₂ R (s.nodes.filterMap f) (is.filterMap g) := by
  rw [← Expr.filterMap_filter_isLiteral hf, ← literals_steps his,
    Expr.filterMap_filter_isLiteral hf]
  exact List.rel_filterMap (fun x i => hfg x i) (emits_of_code his)

end Statement

end Formula
