import Formula.Token

/-!
# Arenas

An arena holds the nodes of a tree in a row; a node names its children by their
place in it. The children of a node stand before it (`Arena.children_lt`), so
that there are no cycles, but several nodes may share a child. An arena may hold
more than one tree; one of its nodes can be marked as the root (`Arena.root_lt`).
-/

namespace Formula

/-- What a node of an arena is, its children given by their places. -/
inductive Shape
  | number (n : Numeral)
  | text (s : String)
  | reference (r : Reference)
  | unary (op : UnaryOp) (operand : Nat)
  | binary (op : BinaryOp) (left right : Nat)
  | call (function : String) (args : List Nat)
  | method (receiver : Nat) (name : String) (args : List Nat)
  | assign (target value : Nat)

/-- A node and the place in the formula that it is reported at. -/
structure Node where
  offset : Nat
  shape : Shape

/-- The children of a node in the order of the formula. -/
def Node.children (n : Node) : List Nat :=
  match n.shape with
  | .number _ | .text _ | .reference _ => []
  | .unary _ x => [x]
  | .binary _ l r => [l, r]
  | .call _ args => args
  | .method receiver _ args => receiver :: args
  | .assign target value => [target, value]

/-- Nodes in a row, each behind its children. -/
structure Arena where
  nodes : Array Node := #[]
  /-- The root, if one is marked. -/
  root : Option Nat := none
  /-- Children stand before their parents. -/
  children_lt : ∀ (i : Nat) (h : i < nodes.size), ∀ c ∈ nodes[i].children, c < i := by simp
  /-- The root is one of the nodes. -/
  root_lt : ∀ i ∈ root, i < nodes.size := by simp

namespace Arena

/-- The number of nodes. -/
def size (a : Arena) : Nat := a.nodes.size

/-- The arena with a node behind the others. -/
def push (a : Arena) (n : Node) (h : ∀ c ∈ n.children, c < a.size) : Arena where
  nodes := a.nodes.push n
  root := a.root
  children_lt i hi c hc := by
    rw [Array.getElem_push] at hc
    split at hc
    · exact a.children_lt i ‹_› c hc
    · have := h c hc
      rw [Array.size_push] at hi
      simp only [size] at this
      omega
  root_lt i hi := by
    rw [Array.size_push]
    exact Nat.lt_succ_of_lt (a.root_lt i hi)

@[simp] theorem size_push (a : Arena) (n : Node) (h : ∀ c ∈ n.children, c < a.size) :
    (a.push n h).size = a.size + 1 := by
  simp [push, size]

theorem lt_size_push {a b : Arena} {n : Node} {h : ∀ c ∈ n.children, c < b.size}
    (hab : a.size ≤ b.size) : a.size < (b.push n h).size := by
  rw [size_push]
  omega

/-- The arena with a node marked as its root. -/
def withRoot (a : Arena) (root : Nat) (h : root < a.size) : Arena where
  nodes := a.nodes
  root := some root
  children_lt := a.children_lt
  root_lt _ hroot := Option.mem_some.1 hroot ▸ h

/-- A child stands before its parent. -/
theorem lt_of_mem_children {a : Arena} {i c : Nat} {n : Node} (hn : a.nodes[i]? = some n)
    (hc : c ∈ n.children) : c < i := by
  obtain ⟨h, rfl⟩ := Array.getElem?_eq_some_iff.1 hn
  exact a.children_lt i h c hc

end Arena

end Formula
