import Formula.Syntax.Grammar
import Formula.Syntax.Nodes

/-!
# Literals of a formula

The numbers and texts of a tree are those among the tokens that it is read from, in their
order and in their places (`IsStatement.literals`).
-/

namespace Formula

/-- The expression that a number or a text among the lexemes is. -/
def Lexeme.literal? (t : Lexeme) : Option Expr :=
  match t.token with
  | .number n => some (.number t.offset n)
  | .text s => some (.text t.offset s)
  | _ => none

namespace Syntax

mutual

/-- The numbers and texts among the lexemes are those of the expression, in order. -/
theorem IsBelow.literals {depth level : Nat} {ts : List Lexeme} {e : Expr} :
    IsBelow depth level ts e → ts.filterMap Lexeme.literal? = e.nodes.filter Expr.isLiteral
  | .operand h => h.literals
  | .up h => h.literals
  | .binary hl hr => by
    simp [Expr.nodes, List.filterMap_cons, Expr.isLiteral, Lexeme.literal?, hl.literals,
      hr.literals]

theorem IsOperand.literals {depth : Nat} {ts : List Lexeme} {e : Expr} :
    IsOperand depth ts e → ts.filterMap Lexeme.literal? = e.nodes.filter Expr.isLiteral
  | .negate h | .not h => by
    simp [Expr.nodes, List.filterMap_cons, Expr.isLiteral, Lexeme.literal?, h.literals]
  | .postfixed h => h.literals

theorem IsPostfix.literals {depth : Nat} {ts : List Lexeme} {e : Expr} :
    IsPostfix depth ts e → ts.filterMap Lexeme.literal? = e.nodes.filter Expr.isLiteral
  | .primary h => h.literals
  | .method h hargs => by
    simp [Expr.nodes, List.filterMap_cons, Expr.isLiteral, Lexeme.literal?, h.literals,
      hargs.literals]

theorem IsPrimary.literals {depth : Nat} {ts : List Lexeme} {e : Expr} :
    IsPrimary depth ts e → ts.filterMap Lexeme.literal? = e.nodes.filter Expr.isLiteral
  | .number | .text | .name | .field => rfl
  | .call hargs | .fieldCall hargs => by
    simp [Expr.nodes, List.filterMap_cons, Expr.isLiteral, Lexeme.literal?, hargs.literals]
  | .group h => by
    simp [List.filterMap_cons, Lexeme.literal?, h.literals]

theorem IsArguments.literals {depth : Nat} {ts : List Lexeme} {args : List Expr} :
    IsArguments depth ts args →
      ts.filterMap Lexeme.literal? = (Expr.nodesAll args).filter Expr.isLiteral
  | .none => rfl
  | .some h => by
    simp [List.filterMap_cons, Lexeme.literal?, h.literals]

theorem IsList.literals {depth : Nat} {ts : List Lexeme} {es : List Expr} :
    IsList depth ts es → ts.filterMap Lexeme.literal? = (Expr.nodesAll es).filter Expr.isLiteral
  | .last h => by
    simp [Expr.nodesAll, h.literals]
  | .cons h hes => by
    simp [Expr.nodesAll, List.filterMap_cons, Lexeme.literal?, h.literals, hes.literals]

end

/-- The literals of the tree of a formula are those among its tokens. -/
theorem IsStatement.literals {depth : Nat} {ts : List Lexeme} {s : Statement}
    (h : IsStatement depth ts s) :
    ts.filterMap Lexeme.literal? = s.nodes.filter Expr.isLiteral := by
  cases h with
  | expression h => exact IsBelow.literals h
  | assignName h | assignField h =>
    simp [Statement.nodes, List.filterMap_cons, Expr.isLiteral, Lexeme.literal?, IsBelow.literals h]

/-- What is seen of literals is the same in the tree of a formula and among its tokens. -/
theorem IsStatement.filterMap_literals {depth : Nat} {ts : List Lexeme} {s : Statement}
    (h : IsStatement depth ts s) {α : Type} {f : Lexeme → Option α} {g : Expr → Option α}
    (hf : ∀ t, f t = t.literal?.bind g) (hg : ∀ x, x.isLiteral = false → g x = none) :
    ts.filterMap f = s.nodes.filterMap g := by
  rw [funext hf, ← List.filterMap_filterMap, h.literals, Expr.filterMap_filter_isLiteral hg]

end Syntax

end Formula
