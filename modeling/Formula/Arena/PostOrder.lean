import Formula.Arena
import Formula.Syntax

/-!
# Post-order

The nodes of a tree in post-order: those of its children from left to right, and then
its root. It is said of expressions, and of the places of an arena, whose trees can be
read off it (`Arena.expr?`). Where nodes are shared, the trees under them are the same,
and their places come up again.
-/

namespace Formula

namespace Expr

mutual

/-- The nodes of an expression in post-order. -/
def postOrder : Expr → List Expr
  | .number o n => [.number o n]
  | .text o s => [.text o s]
  | .reference o r => [.reference o r]
  | .unary o op x => postOrder x ++ [.unary o op x]
  | .binary o op l r => postOrder l ++ (postOrder r ++ [.binary o op l r])
  | .call o name args => postOrderAll args ++ [.call o name args]
  | .method o e name args => postOrder e ++ (postOrderAll args ++ [.method o e name args])

/-- The nodes of several expressions, those of each in post-order. -/
def postOrderAll : List Expr → List Expr
  | [] => []
  | e :: es => postOrder e ++ postOrderAll es

end

end Expr

/-- The expression that a node makes of those of its children. An assignment is none. -/
def Node.expr? (n : Node) (children : List Expr) : Option Expr :=
  match n.shape, children with
  | .number x, [] => some (.number n.offset x)
  | .text s, [] => some (.text n.offset s)
  | .reference r, [] => some (.reference n.offset r)
  | .unary op _, [x] => some (.unary n.offset op x)
  | .binary op _ _, [l, r] => some (.binary n.offset op l r)
  | .call name _, args => some (.call n.offset name args)
  | .method _ name _, e :: args => some (.method n.offset e name args)
  | _, _ => none

namespace Arena

/-- The children of all nodes, in the order of the nodes. -/
def children (a : Arena) : List Nat := a.nodes.toList.flatMap Node.children

/-- The places of the tree under a node in post-order. -/
def postOrder (a : Arena) (place : Nat) : List Nat :=
  match h : a.nodes[place]? with
  | none => []
  | some n =>
    n.children.attach.flatMap (fun c =>
      have := lt_of_mem_children h c.2
      a.postOrder c.1) ++ [place]
termination_by place

/-- The expression under a node, if there is one. -/
def expr? (a : Arena) (place : Nat) : Option Expr :=
  match h : a.nodes[place]? with
  | none => none
  | some n => do
    let es ← n.children.attach.mapM fun c =>
      have := lt_of_mem_children h c.2
      a.expr? c.1
    n.expr? es
termination_by place

variable {a : Arena} {place : Nat} {n : Node}

/-- A node is listed behind its children, each with all below it. -/
theorem postOrder_of_getElem? (h : a.nodes[place]? = some n) :
    a.postOrder place = n.children.flatMap a.postOrder ++ [place] := by
  rw [postOrder]
  split
  · simp_all
  · rename_i m hm
    obtain rfl : m = n := by simpa [h] using hm.symm
    simp

/-- The expression of a node is made from those of its children. -/
theorem expr?_of_getElem? (h : a.nodes[place]? = some n) :
    a.expr? place = n.children.mapM a.expr? >>= n.expr? := by
  rw [expr?]
  split
  · simp_all
  · rename_i m hm
    obtain rfl : m = n := by simpa [h] using hm.symm
    rw [List.mapM_subtype (g := a.expr?) fun _ _ => rfl, List.unattach_attach]

end Arena

end Formula
