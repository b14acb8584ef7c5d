import Formula.Proofs.Generation
import Formula.Syntax.Nodes

/-!
# Formulas that cannot be linked

Where the code of a formula is an error, it is that of a node of the formula, for which
something is looked up that is not there (`Statement.exists_lacks`).
-/

namespace Formula

variable {σ : Type} {host : Host σ} {err : Located LinkError}

namespace Expr

/-- What is looked up for the node itself is not there, which is the error. -/
def Lacks (host : Host σ) (err : Located LinkError) : Expr → Prop
  | .number o n => host.literal o n = .error err
  | .reference o r => host.bind o r = .error err
  | .call o name _ => host.function o name = .error err
  | .method o _ name _ => err = ⟨o, .invalidReceiver name⟩ ∨ host.function o name = .error err
  | .text .. | .unary .. | .binary .. => False

/-- A function that is not known is reported by its name. -/
theorem eq_of_function {o : Nat} {name : String} (h : host.function o name = .error err) :
    err = ⟨o, .unknownFunction name⟩ := by
  unfold Host.function at h
  split at h <;> cases h
  rfl

/-- What is missing for a list of expressions is missing for a node of one of them. -/
theorem exists_lacks_all {es : List Expr}
    (h : ∀ e ∈ es, e.code host = .error err → ∃ x ∈ e.nodes, x.Lacks host err)
    (herr : codeAll host es = .error err) : ∃ x ∈ nodesAll es, x.Lacks host err := by
  induction es with
  | nil => cases herr
  | cons e es ih =>
    obtain ⟨he, hes⟩ := List.forall_mem_cons.1 h
    rw [nodesAll]
    rcases of_bind_eq_error herr with herr | ⟨first, _, herr⟩
    · obtain ⟨x, hx, hlacks⟩ := he herr
      exact ⟨x, List.mem_append_left _ hx, hlacks⟩
    rcases of_bind_eq_error herr with herr | ⟨rest, _, herr⟩
    · obtain ⟨x, hx, hlacks⟩ := ih hes herr
      exact ⟨x, List.mem_append_right _ hx, hlacks⟩
    · cases herr

/-- What cannot be generated is lacking at a node. -/
theorem exists_lacks (e : Expr) (herr : e.code host = .error err) :
    ∃ x ∈ e.nodes, x.Lacks host err := by
  induction e using Expr.induction with
  | number o n =>
    rcases of_bind_eq_error herr with herr | ⟨v, _, herr⟩
    · exact ⟨_, mem_nodes_self _, herr⟩
    · cases herr
  | text o s => cases herr
  | reference o r =>
    rcases of_bind_eq_error herr with herr | ⟨b, _, herr⟩
    · exact ⟨_, mem_nodes_self _, herr⟩
    · cases herr
  | unary o op x ih =>
    rcases of_bind_eq_error herr with herr | ⟨before, _, herr⟩
    · obtain ⟨y, hy, hlacks⟩ := ih herr
      exact ⟨y, List.mem_cons_of_mem _ hy, hlacks⟩
    · cases herr
  | binary o op l r ihl ihr =>
    rw [nodes]
    rcases of_bind_eq_error herr with herr | ⟨left, _, herr⟩
    · obtain ⟨y, hy, hlacks⟩ := ihl herr
      exact ⟨y, List.mem_cons_of_mem _ (List.mem_append_left _ hy), hlacks⟩
    rcases of_bind_eq_error herr with herr | ⟨right, _, herr⟩
    · obtain ⟨y, hy, hlacks⟩ := ihr herr
      exact ⟨y, List.mem_cons_of_mem _ (List.mem_append_right _ hy), hlacks⟩
    · cases herr
  | call o name args ih =>
    rcases of_bind_eq_error herr with herr | ⟨before, _, herr⟩
    · obtain ⟨y, hy, hlacks⟩ := exists_lacks_all ih herr
      exact ⟨y, List.mem_cons_of_mem _ hy, hlacks⟩
    rcases of_bind_eq_error herr with herr | ⟨f, _, herr⟩
    · exact ⟨_, mem_nodes_self _, herr⟩
    · cases herr
  | method o e name args _ ih =>
    rw [nodes]
    rcases of_bind_eq_error herr with herr | ⟨b, _, herr⟩
    · -- A reference is lacking itself; anything else is no receiver.
      unfold receiver at herr
      split at herr
      · exact ⟨_, List.mem_cons_of_mem _ (List.mem_append_left _ (mem_nodes_self _)), herr⟩
      · cases herr
        exact ⟨_, List.mem_cons_self, .inl rfl⟩
    rcases of_bind_eq_error herr with herr | ⟨before, _, herr⟩
    · obtain ⟨y, hy, hlacks⟩ := exists_lacks_all ih herr
      exact ⟨y, List.mem_cons_of_mem _ (List.mem_append_right _ hy), hlacks⟩
    rcases of_bind_eq_error herr with herr | ⟨f, _, herr⟩
    · exact ⟨_, List.mem_cons_self, .inr herr⟩
    · cases herr

end Expr

/-- What cannot be generated for a formula is lacking at one of its nodes. -/
theorem Statement.exists_lacks {s : Statement} (herr : s.code host = .error err) :
    ∃ x ∈ s.nodes, x.Lacks host err := by
  cases s with
  | expression e => exact e.exists_lacks herr
  | assignment offset o r e =>
    rcases of_bind_eq_error herr with herr | ⟨before, _, herr⟩
    · obtain ⟨y, hy, hlacks⟩ := e.exists_lacks herr
      exact ⟨y, List.mem_cons_of_mem _ hy, hlacks⟩
    rcases of_bind_eq_error herr with herr | ⟨b, _, herr⟩
    · exact ⟨_, List.mem_cons_self, herr⟩
    · cases herr

end Formula
