import Formula.Program.Generate
import Formula.Syntax

/-!
# The code of a tree

The code of a tree by recursion, one sentence for each kind of node: the code of
its children from left to right, and then its own instruction. `Arena.code` says it
of a node of an arena, whatever shares its children; `Statement.code` of a formula.
-/

namespace Formula

variable {σ : Type}

namespace Arena

/-- The code of the tree under a node. -/
def code (a : Arena) (host : Host σ) (place : Nat) :
    Except (Located LinkError) (List (Instruction σ)) :=
  match h : a.nodes[place]? with
  | none => .ok []
  | some ⟨o, .number n⟩ => do return [⟨o, .const (← host.literal o n)⟩]
  | some ⟨o, .text s⟩ => .ok [⟨o, .const (.text s)⟩]
  | some ⟨o, .reference r⟩ => do return [⟨o, .load (← host.bind o r)⟩]
  | some ⟨o, .unary op x⟩ => do
    have := lt_of_mem_children (c := x) h (by simp [Node.children])
    return (← a.code host x) ++ [⟨o, .unary (.unary op)⟩]
  | some ⟨o, .binary op l r⟩ => do
    have := lt_of_mem_children (c := l) h (by simp [Node.children])
    have := lt_of_mem_children (c := r) h (by simp [Node.children])
    let left ← a.code host l
    let right ← a.code host r
    return left ++ right ++ [⟨o, .binary (.binary op)⟩]
  | some ⟨o, .call name args⟩ => do
    let codes ← args.attach.mapM fun x =>
      have := lt_of_mem_children h (by exact x.2)
      a.code host x.1
    let f ← host.function o name
    return codes.flatten ++ [⟨o, .call name f args.length none⟩]
  | some ⟨o, .method e name args⟩ => do
    let b ← a.receiver host e o name
    let codes ← args.attach.mapM fun x =>
      have := lt_of_mem_children h (List.mem_cons_of_mem _ x.2)
      a.code host x.1
    let f ← host.function o name
    return codes.flatten ++ [⟨o, .call name f args.length (some b)⟩]
  | some ⟨_, .assign target value⟩ => do
    have := lt_of_mem_children (c := value) h (by simp [Node.children])
    let before ← a.code host value
    let (o, b) ← a.target host target
    return before ++ [⟨o, .store b⟩]
termination_by place

end Arena

namespace Expr

/-- The binding of the receiver `e` of a method that is called at `offset`. -/
def receiver (host : Host σ) (offset : Nat) (method : String) (e : Expr) :
    Except (Located LinkError) (Binding σ) :=
  match e with
  | .reference o r => host.bind o r
  | _ => .error ⟨offset, .invalidReceiver method⟩

mutual

/-- The code of an expression. -/
def code (host : Host σ) : Expr → Except (Located LinkError) (List (Instruction σ))
  | .number o n => do return [⟨o, .const (← host.literal o n)⟩]
  | .text o s => .ok [⟨o, .const (.text s)⟩]
  | .reference o r => do return [⟨o, .load (← host.bind o r)⟩]
  | .unary o op x => do return (← code host x) ++ [⟨o, .unary (.unary op)⟩]
  | .binary o op l r => do
    let left ← code host l
    let right ← code host r
    return left ++ right ++ [⟨o, .binary (.binary op)⟩]
  | .call o name args => do
    let before ← codeAll host args
    let f ← host.function o name
    return before ++ [⟨o, .call name f args.length none⟩]
  | .method o e name args => do
    let b ← e.receiver host o name
    let before ← codeAll host args
    let f ← host.function o name
    return before ++ [⟨o, .call name f args.length (some b)⟩]

/-- The code of several expressions. -/
def codeAll (host : Host σ) : List Expr → Except (Located LinkError) (List (Instruction σ))
  | [] => .ok []
  | e :: es => do
    let first ← code host e
    return first ++ (← codeAll host es)

end

end Expr

/-- The code of a formula. -/
def Statement.code (host : Host σ) :
    Statement → Except (Located LinkError) (List (Instruction σ))
  | .expression e => e.code host
  | .assignment _ o r e => do
    let before ← e.code host
    return before ++ [⟨o, .store (← host.bind o r)⟩]

end Formula
