import Formula.Token

/-!
# Syntax trees

A formula is an expression, or the assignment of one to a reference. Every node
knows the place in the formula that it is reported at: the token itself for a
leaf, the sign for an operator and an assignment, the name for a call.

Parentheses leave no node, and `A.f(x)` is the call of the method `f` on `A`.
-/

namespace Formula

/-- An expression. -/
inductive Expr
  | number (offset : Nat) (n : Numeral)
  | text (offset : Nat) (s : String)
  | reference (offset : Nat) (r : Reference)
  | unary (offset : Nat) (op : UnaryOp) (operand : Expr)
  | binary (offset : Nat) (op : BinaryOp) (left right : Expr)
  | call (offset : Nat) (function : String) (args : List Expr)
  | method (offset : Nat) (receiver : Expr) (name : String) (args : List Expr)

/-- A formula. -/
inductive Statement
  | expression (e : Expr)
  | assignment (offset targetOffset : Nat) (target : Reference) (value : Expr)

namespace Expr

/-- The place at which an expression is reported. -/
def offset : Expr → Nat
  | number o _ | text o _ | reference o _ | unary o _ _ | binary o _ _ _ | call o _ _
  | method o _ _ _ => o

section Induction

variable {P : Expr → Prop}
  (number : ∀ o n, P (number o n)) (text : ∀ o s, P (text o s))
  (reference : ∀ o r, P (reference o r))
  (unary : ∀ o op e, P e → P (unary o op e))
  (binary : ∀ o op l r, P l → P r → P (binary o op l r))
  (call : ∀ o f args, (∀ a ∈ args, P a) → P (call o f args))
  (method : ∀ o e f args, P e → (∀ a ∈ args, P a) → P (method o e f args))

include number text reference unary binary call method in
/-- Induction over expressions, with the hypothesis for each argument of a call. -/
@[elab_as_elim]
theorem induction (e : Expr) : P e :=
  Expr.rec (motive_1 := P) (motive_2 := fun es => ∀ a ∈ es, P a)
    number text reference unary binary call method
    (fun _ h => absurd h List.not_mem_nil)
    (fun _ _ hd tl _ h => (List.mem_cons.1 h).elim (fun h => h ▸ hd) (tl _)) e

end Induction

end Expr

end Formula
