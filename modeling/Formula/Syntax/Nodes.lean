import Formula.Syntax

/-!
# Nodes of a tree

The expressions that a formula is made of.
-/

namespace Formula

/-- The names in a token. -/
def Token.names : Token → List String
  | .name n => [n]
  | .field o f => [o, f]
  | _ => []

namespace Expr

mutual

/-- The nodes of an expression, each before those under it. -/
def nodes : Expr → List Expr
  | .number o n => [.number o n]
  | .text o s => [.text o s]
  | .reference o r => [.reference o r]
  | .unary o op x => .unary o op x :: nodes x
  | .binary o op l r => .binary o op l r :: (nodes l ++ nodes r)
  | .call o name args => .call o name args :: nodesAll args
  | .method o e name args => .method o e name args :: (nodes e ++ nodesAll args)

/-- The nodes of several expressions. -/
def nodesAll : List Expr → List Expr
  | [] => []
  | e :: es => nodes e ++ nodesAll es

end

theorem mem_nodes_self (e : Expr) : e ∈ e.nodes := by
  cases e <;> simp [nodes]

mutual

/-- What is under a node of an expression is under the expression. -/
theorem nodes_subset_of_mem {x : Expr} : (e : Expr) → x ∈ e.nodes → x.nodes ⊆ e.nodes
  | .number .., h | .text .., h | .reference .., h => by
    rw [List.mem_singleton.1 h]
    exact List.Subset.refl _
  | .unary _ _ y, h => by
    rcases List.mem_cons.1 h with rfl | h
    · exact List.Subset.refl _
    · exact List.Subset.trans (nodes_subset_of_mem y h) (List.subset_cons_self ..)
  | .binary _ _ l r, h => by
    rcases List.mem_cons.1 h with rfl | h
    · exact List.Subset.refl _
    · refine List.Subset.trans ?_ (List.subset_cons_self ..)
      rcases List.mem_append.1 h with h | h
      · exact List.Subset.trans (nodes_subset_of_mem l h) (List.subset_append_left ..)
      · exact List.Subset.trans (nodes_subset_of_mem r h) (List.subset_append_right ..)
  | .call _ _ args, h => by
    rcases List.mem_cons.1 h with rfl | h
    · exact List.Subset.refl _
    · exact List.Subset.trans (nodes_subset_of_mem_nodesAll args h) (List.subset_cons_self ..)
  | .method _ e _ args, h => by
    rcases List.mem_cons.1 h with rfl | h
    · exact List.Subset.refl _
    · refine List.Subset.trans ?_ (List.subset_cons_self ..)
      rcases List.mem_append.1 h with h | h
      · exact List.Subset.trans (nodes_subset_of_mem e h) (List.subset_append_left ..)
      · exact List.Subset.trans (nodes_subset_of_mem_nodesAll args h) (List.subset_append_right ..)

theorem nodes_subset_of_mem_nodesAll {x : Expr} :
    (es : List Expr) → x ∈ nodesAll es → x.nodes ⊆ nodesAll es
  | [], h => absurd h List.not_mem_nil
  | e :: es, h => by
    rcases List.mem_append.1 h with h | h
    · exact List.Subset.trans (nodes_subset_of_mem e h) (List.subset_append_left ..)
    · exact List.Subset.trans (nodes_subset_of_mem_nodesAll es h) (List.subset_append_right ..)

end

/-- Whether an expression is a number or a text. -/
def isLiteral : Expr → Bool
  | .number .. | .text .. => true
  | _ => false

/-- What is seen of literals only is seen of the literals. -/
theorem filterMap_filter_isLiteral {α : Type} {f : Expr → Option α}
    (hf : ∀ x, x.isLiteral = false → f x = none) (xs : List Expr) :
    (xs.filter isLiteral).filterMap f = xs.filterMap f := by
  rw [List.filterMap_filter]
  congr 1
  funext x
  cases hx : x.isLiteral
  · exact (hf x hx).symm
  · rfl

/-- The method that an expression calls. -/
def method? : Expr → Option String
  | .method _ _ name _ => some name
  | _ => none

/-- The function that an expression calls, as a method or not. -/
def function? : Expr → Option String
  | .call _ name _ | .method _ _ name _ => some name
  | _ => none

/-- The names in a node itself. -/
def names : Expr → List String
  | .reference _ (.name n) => [n]
  | .reference _ (.field o f) => [o, f]
  | .call _ name _ | .method _ _ name _ => [name]
  | _ => []

/-- A reference is among the nodes. -/
def Mentions (xs : List Expr) (r : Reference) : Prop := ∃ o, .reference o r ∈ xs

/-- A function is called by one of the nodes. -/
def Calls (xs : List Expr) (name : String) : Prop := ∃ x ∈ xs, x.function? = some name

end Expr

/-- The nodes of a formula; the target of an assignment is one of them. -/
def Statement.nodes : Statement → List Expr
  | .expression e => e.nodes
  | .assignment _ o r e => .reference o r :: e.nodes

/-- What lies under a node of a formula is in the formula. -/
theorem Statement.nodes_subset_of_mem {x : Expr} {s : Statement} (h : x ∈ s.nodes) :
    x.nodes ⊆ s.nodes := by
  cases s with
  | expression e => exact Expr.nodes_subset_of_mem e h
  | assignment _ o r e =>
    rcases List.mem_cons.1 h with rfl | h
    · exact List.cons_subset_cons _ (List.nil_subset _)
    · exact List.Subset.trans (Expr.nodes_subset_of_mem e h) (List.subset_cons_self ..)

end Formula
