import Formula.Arena
import Formula.Syntax

/-!
# Laying a tree out in an arena

The nodes of a formula are put into an arena from left to right, each behind its
children: the operands or the receiver first, then the arguments, then the node
itself. So the last node laid out for an expression is that of the expression,
and that of the formula is the last of all.
-/

namespace Formula

namespace Expr

mutual

/-- The arena with the nodes of an expression behind its own, the last of them
    that of the expression itself. -/
def layOut : Expr → (a : Arena) → { b : Arena // a.size < b.size }
  | .number offset n, a =>
    ⟨a.push ⟨offset, .number n⟩ fun _ h => absurd h List.not_mem_nil,
      Arena.lt_size_push (Nat.le_refl _)⟩
  | .text offset s, a =>
    ⟨a.push ⟨offset, .text s⟩ fun _ h => absurd h List.not_mem_nil,
      Arena.lt_size_push (Nat.le_refl _)⟩
  | .reference offset r, a =>
    ⟨a.push ⟨offset, .reference r⟩ fun _ h => absurd h List.not_mem_nil,
      Arena.lt_size_push (Nat.le_refl _)⟩
  | .unary offset op x, a =>
    let b := layOut x a
    ⟨b.1.push ⟨offset, .unary op (b.1.size - 1)⟩ fun c h => by
        have := b.2
        rw [List.mem_singleton.1 h]
        omega,
      Arena.lt_size_push (Nat.le_of_lt b.2)⟩
  | .binary offset op l r, a =>
    let b := layOut l a
    let left := b.1.size - 1
    let c := layOut r b.1
    ⟨c.1.push ⟨offset, .binary op left (c.1.size - 1)⟩ fun i h => by
        have := b.2
        have := c.2
        rcases List.mem_cons.1 h with rfl | h
        · omega
        · rw [List.mem_singleton.1 h]
          omega,
      Arena.lt_size_push (Nat.le_of_lt (Nat.lt_trans b.2 c.2))⟩
  | .call offset f args, a =>
    let b := layOutAll args a
    ⟨b.1.1.push ⟨offset, .call f b.1.2⟩ b.2.2, Arena.lt_size_push b.2.1⟩
  | .method offset receiver name args, a =>
    let b := layOut receiver a
    let place := b.1.size - 1
    let c := layOutAll args b.1
    ⟨c.1.1.push ⟨offset, .method place name c.1.2⟩ fun i h => by
        have := b.2
        have := c.2.1
        rcases List.mem_cons.1 h with rfl | h
        · omega
        · exact c.2.2 i h,
      Arena.lt_size_push (Nat.le_trans (Nat.le_of_lt b.2) c.2.1)⟩

/-- The arena with the nodes of several expressions behind its own, and the places
    of the expressions. -/
def layOutAll : List Expr → (a : Arena) →
    { b : Arena × List Nat // a.size ≤ b.1.size ∧ ∀ i ∈ b.2, i < b.1.size }
  | [], a => ⟨(a, []), Nat.le_refl _, fun _ h => absurd h List.not_mem_nil⟩
  | e :: es, a =>
    let b := layOut e a
    let place := b.1.size - 1
    let c := layOutAll es b.1
    ⟨(c.1.1, place :: c.1.2), Nat.le_trans (Nat.le_of_lt b.2) c.2.1, fun i h => by
      have := b.2
      have := c.2.1
      rcases List.mem_cons.1 h with rfl | h
      · exact Nat.lt_of_lt_of_le (Nat.sub_lt (by omega) Nat.one_pos) c.2.1
      · exact c.2.2 i h⟩

end

end Expr

/-- The arena of a formula, with its root marked. -/
def Statement.arena : Statement → Arena
  | .expression e =>
    let b := e.layOut {}
    b.1.withRoot (b.1.size - 1) (Nat.sub_one_lt_of_lt b.2)
  | .assignment offset targetOffset target value =>
    let a := (Expr.reference targetOffset target).layOut {}
    let place := a.1.size - 1
    let b := value.layOut a.1
    let c := b.1.push ⟨offset, .assign place (b.1.size - 1)⟩ fun i h => by
      have := a.2
      have := b.2
      rcases List.mem_cons.1 h with rfl | h
      · omega
      · rw [List.mem_singleton.1 h]
        omega
    c.withRoot (c.size - 1) (Nat.sub_one_lt_of_lt (Arena.lt_size_push (Nat.le_refl _)))

end Formula
