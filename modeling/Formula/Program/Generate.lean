import Formula.Arena
import Formula.Program

/-!
# Generating code

The program of an arena puts every operand on the stack before the instruction
that takes it; so it is the nodes of the tree under the root, each behind its
children, left to right. The receiver of a method and the target of an assignment
are not computed but looked up: the receiver before the arguments, the function
behind them, the target behind the value. The first name that the host does not
know ends the generation.

The generator does not recurse, as a chain of operators makes a tree that is as
deep as the formula is long. It keeps a list of tasks: a node is *entered*, which
puts its children in front of the list, and *left* when their code is there. It
ends because an arena has no cycles (`Arena.weight`).
-/

namespace Formula

variable {σ : Type}

/-! ## Looking up names -/

namespace Host

/-- The binding of a reference at `offset`. -/
def bind (host : Host σ) (offset : Nat) (r : Reference) :
    Except (Located LinkError) (Binding σ) :=
  match host.reference? r, r with
  | some x, _ => .ok ⟨r.text, x⟩
  | none, .name n => .error ⟨offset, .unknownVariable n⟩
  | none, .field o f => .error ⟨offset, .unknownField o f⟩

/-- The function that is called at `offset`. -/
def function (host : Host σ) (offset : Nat) (name : String) :
    Except (Located LinkError) (Function σ) :=
  match host.function? name with
  | some f => .ok f
  | none => .error ⟨offset, .unknownFunction name⟩

/-- The value of a numeral at `offset`. -/
def literal (host : Host σ) (offset : Nat) (n : Numeral) : Except (Located LinkError) Value :=
  match n.unit with
  | none => .ok (.number n.value)
  | some u =>
    match host.units.convert n.text u.index with
    | some x => .ok (.number x)
    | none => .error ⟨offset, .unknownUnit n.text u.name⟩

end Host

namespace Arena

/-- The binding of the receiver at a place, for the method called at `offset`. -/
def receiver (a : Arena) (host : Host σ) (place offset : Nat) (method : String) :
    Except (Located LinkError) (Binding σ) :=
  match a.nodes[place]? with
  | some ⟨offset, .reference r⟩ => host.bind offset r
  | _ => .error ⟨offset, .invalidReceiver method⟩

/-- The place in the formula and the binding of the target of an assignment. -/
def target (a : Arena) (host : Host σ) (place : Nat) :
    Except (Located LinkError) (Nat × Binding σ) :=
  match a.nodes[place]? with
  | some ⟨offset, .reference r⟩ => (host.bind offset r).map (offset, ·)
  | some n => .error ⟨n.offset, .invalidTarget⟩
  | none => .error ⟨0, .invalidTarget⟩

/-! ## Tasks -/

/-- Something to do at a node. -/
inductive Task
  /-- Give the code of the tree under the node. -/
  | enter (place : Nat)
  /-- Give the instruction of the node; the code of its children is there. -/
  | leave (place : Nat)

/-- The size of the tree under a node, in tasks. -/
def weight (a : Arena) (place : Nat) : Nat :=
  match h : a.nodes[place]? with
  | none => 1
  | some n =>
    n.children.attach.foldr (fun c w =>
      have := lt_of_mem_children h c.2
      a.weight c.1 + w) 2
termination_by place

/-- What a task takes until it is done with all that it leads to. -/
def Task.weight (a : Arena) : Task → Nat
  | enter place => a.weight place
  | leave _ => 1

/-- The tasks of entering several nodes. -/
def Task.enterAll (places : List Nat) : List Task := places.map enter

/-- The weight of a list of tasks. -/
def tasksWeight (a : Arena) : List Task → Nat
  | [] => 0
  | t :: ts => t.weight a + a.tasksWeight ts

theorem weight_of_getElem? {a : Arena} {place : Nat} {n : Node} (h : a.nodes[place]? = some n) :
    a.weight place = n.children.foldr (fun c w => a.weight c + w) 2 := by
  rw [weight]
  split
  · simp_all
  · rename_i m hm
    obtain rfl : m = n := by simpa [h] using hm.symm
    simp

/-- A node weighs something: it has to be entered. -/
theorem weight_pos (a : Arena) (place : Nat) : 0 < a.weight place := by
  have foldr_pos (cs : List Nat) : 0 < cs.foldr (fun c w => a.weight c + w) 2 := by
    cases cs with
    | nil => exact Nat.two_pos
    | cons c cs =>
      have : 2 ≤ cs.foldr (fun c w => a.weight c + w) 2 := by
        induction cs with
        | nil => exact Nat.le_refl _
        | cons c cs ih => exact Nat.le_trans ih (Nat.le_add_left _ _)
      rw [List.foldr_cons]
      omega
  rcases h : a.nodes[place]? with _ | n
  · rw [weight]
    split
    · exact Nat.one_pos
    · simp_all
  · rw [weight_of_getElem? h]
    exact foldr_pos _

theorem tasksWeight_append (a : Arena) (ts us : List Task) :
    a.tasksWeight (ts ++ us) = a.tasksWeight ts + a.tasksWeight us := by
  induction ts with
  | nil => simp [tasksWeight]
  | cons t ts ih => simp [tasksWeight, ih, Nat.add_assoc]

/-- To enter the children weighs two less than the node: it is entered itself, and left. -/
theorem tasksWeight_enterAll (a : Arena) (places : List Nat) :
    a.tasksWeight (Task.enterAll places) + 2 =
      places.foldr (fun c w => a.weight c + w) 2 := by
  induction places with
  | nil => rfl
  | cons c cs ih =>
    rw [List.foldr_cons, ← ih, Task.enterAll, List.map_cons, tasksWeight, Task.weight,
      Nat.add_assoc]
    rfl

/-- The code for `tasks`, behind what is in `p` already. `receivers` are those of the
    methods whose arguments are being generated, the innermost first. All tasks are of nodes,
    as they come from the root (`Arena.root_lt`) by way of children. -/
def emit (a : Arena) (host : Host σ) (tasks : List Task) (receivers : List (Binding σ))
    (p : Program σ) : Except (Located LinkError) (Program σ) :=
  match tasks with
  | [] => .ok p
  | .enter place :: tasks =>
    match _h : a.nodes[place]? with
    | none => a.emit host tasks receivers p
    | some ⟨offset, .number n⟩ =>
      match host.literal offset n with
      | .error e => .error e
      | .ok v => a.emit host tasks receivers (p.push offset (.const v))
    | some ⟨offset, .text s⟩ => a.emit host tasks receivers (p.push offset (.const (.text s)))
    | some ⟨offset, .reference r⟩ =>
      match host.bind offset r with
      | .error e => .error e
      | .ok b => a.emit host tasks receivers (p.push offset (.load b))
    | some ⟨_, .unary _ x⟩ => a.emit host (.enter x :: .leave place :: tasks) receivers p
    | some ⟨_, .binary _ l r⟩ =>
      a.emit host (.enter l :: .enter r :: .leave place :: tasks) receivers p
    | some ⟨_, .call _ args⟩ =>
      a.emit host (Task.enterAll args ++ .leave place :: tasks) receivers p
    | some ⟨offset, .method receiver name args⟩ =>
      match a.receiver host receiver offset name with
      | .error e => .error e
      | .ok b => a.emit host (Task.enterAll args ++ .leave place :: tasks) (b :: receivers) p
    | some ⟨_, .assign _ value⟩ =>
      a.emit host (.enter value :: .leave place :: tasks) receivers p
  | .leave place :: tasks =>
    match a.nodes[place]? with
    | some ⟨offset, .unary op _⟩ =>
      a.emit host tasks receivers (p.push offset (.unary (.unary op)))
    | some ⟨offset, .binary op _ _⟩ =>
      a.emit host tasks receivers (p.push offset (.binary (.binary op)))
    | some ⟨offset, .call name args⟩ =>
      match host.function offset name with
      | .error e => .error e
      | .ok f => a.emit host tasks receivers (p.push offset (.call name f args.length none))
    | some ⟨offset, .method _ name args⟩ =>
      match host.function offset name with
      | .error e => .error e
      | .ok f =>
        a.emit host tasks receivers.tail
          (p.push offset (.call name f args.length receivers.head?))
    | some ⟨_, .assign target _⟩ =>
      match a.target host target with
      | .error e => .error e
      | .ok (offset, b) => a.emit host tasks receivers (p.push offset (.store b))
    | _ => a.emit host tasks receivers p
termination_by a.tasksWeight tasks
decreasing_by
  all_goals simp only [tasksWeight, tasksWeight_append, Task.weight]
  all_goals try rw [weight_of_getElem? _h]
  all_goals try simp only [Node.children, List.foldr_cons, List.foldr_nil]
  all_goals try rw [← tasksWeight_enterAll]
  all_goals have := a.weight_pos place
  all_goals omega

end Arena

/-- Replaces a program by that of an arena, which is empty if no root is marked. The
    program is empty, too, if there is an error. -/
def Program.generate (p : Program σ) (host : Host σ) (a : Arena) :
    Program σ × Except (Located LinkError) Unit :=
  match a.root with
  | none => (p.clear, .ok ())
  | some root =>
    match a.emit host [.enter root] [] p.clear with
    | .ok p => (p, .ok ())
    | .error e => (p.clear, .error e)

end Formula
