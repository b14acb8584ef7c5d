import Formula.Evaluation
import Formula.Program.Code

/-!
# Generated code

The generator works through a list of tasks, the code of a tree is said by
recursion, and a formula is compiled by way of an arena. All three agree:

* entering a node gives the code of the tree under it, whatever else there is to
  do and whatever nodes share it (`emit_enter`);
* the code of the node that an expression is laid out at is the code of the
  expression (`code_layOut`), also when the arena has grown since;
* so the program of the arena of a formula is the code of the formula
  (`generate_arena`), and to compile is to read a formula and take its code
  (`compile_eq`).

Of what was in a program before, nothing is left, whether there is an error or not
(`generate_eq_code`).
-/

namespace Formula

variable {σ : Type}

/-- Steps behind each other succeed one by one. -/
theorem exists_of_bind_eq_ok {ε α β : Type} {x : Except ε α} {f : α → Except ε β} {b : β}
    (h : x >>= f = .ok b) : ∃ a, x = .ok a ∧ f a = .ok b := by
  cases x with
  | error e => cases h
  | ok a => exact ⟨a, rfl, h⟩

/-- Steps behind each other fail at the first that fails. -/
theorem of_bind_eq_error {ε α β : Type} {x : Except ε α} {f : α → Except ε β} {e : ε}
    (h : x >>= f = .error e) : x = .error e ∨ ∃ a, x = .ok a ∧ f a = .error e := by
  cases x with
  | error e' => cases h; exact .inl rfl
  | ok a => exact .inr ⟨a, rfl, h⟩

/-- A reference that the host knows is bound under its own text. -/
theorem Host.bind_of_reference? {host : Host σ} {r : Reference} {x : Variable σ}
    (h : host.reference? r = some x) (o : Nat) : host.bind o r = .ok ⟨r.text, x⟩ := by
  simp only [bind, h]

/-- The program with instructions behind its own. -/
def Program.append (p : Program σ) (is : List (Instruction σ)) : Program σ :=
  ⟨p.code ++ is.toArray⟩

@[simp] theorem Program.append_nil (p : Program σ) : p.append [] = p := by
  simp [append]

@[simp] theorem Program.append_append (p : Program σ) (is js : List (Instruction σ)) :
    (p.append is).append js = p.append (is ++ js) := by
  simp [append]

/-- One instruction is a list of one. -/
theorem Program.push_eq_append (p : Program σ) (o : Nat) (op : Op σ) :
    p.push o op = p.append [⟨o, op⟩] := by
  simp [append, push]

namespace Arena

/-! ## The code of a node -/

/-- The code of several nodes. -/
def codeAll (a : Arena) (host : Host σ) (places : List Nat) :
    Except (Located LinkError) (List (Instruction σ)) := do
  return (← places.mapM (a.code host)).flatten

/-- The code of a node, given that of its children. -/
def codeOf (a : Arena) (host : Host σ) : Node → Except (Located LinkError) (List (Instruction σ))
  | ⟨o, .number n⟩ => do return [⟨o, .const (← host.literal o n)⟩]
  | ⟨o, .text s⟩ => .ok [⟨o, .const (.text s)⟩]
  | ⟨o, .reference r⟩ => do return [⟨o, .load (← host.bind o r)⟩]
  | ⟨o, .unary op x⟩ => do return (← a.code host x) ++ [⟨o, .unary (.unary op)⟩]
  | ⟨o, .binary op l r⟩ => do
    let left ← a.code host l
    let right ← a.code host r
    return left ++ right ++ [⟨o, .binary (.binary op)⟩]
  | ⟨o, .call name args⟩ => do
    let before ← a.codeAll host args
    let f ← host.function o name
    return before ++ [⟨o, .call name f args.length none⟩]
  | ⟨o, .method e name args⟩ => do
    let b ← a.receiver host e o name
    let before ← a.codeAll host args
    let f ← host.function o name
    return before ++ [⟨o, .call name f args.length (some b)⟩]
  | ⟨_, .assign target value⟩ => do
    let before ← a.code host value
    let (o, b) ← a.target host target
    return before ++ [⟨o, .store b⟩]

variable {a : Arena} {host : Host σ}

theorem codeAll_cons (c : Nat) (cs : List Nat) :
    a.codeAll host (c :: cs) = do
      let first ← a.code host c
      return first ++ (← a.codeAll host cs) := by
  simp [codeAll]

theorem code_eq_nil {place : Nat} (h : a.nodes[place]? = none) : a.code host place = .ok [] := by
  rw [code]
  split
  · rfl
  all_goals rename_i hn; rw [hn] at h; cases h

/-- The code of a place is that of the node there. -/
theorem code_eq_codeOf {place : Nat} {n : Node} (h : a.nodes[place]? = some n) :
    a.code host place = a.codeOf host n := by
  rw [code]
  split
  all_goals rename_i hn; rw [hn] at h; cases h
  case h_7 | h_8 =>
    rw [List.mapM_subtype (g := a.code host) fun _ _ => rfl]
    simp [codeOf, codeAll]
  all_goals rfl

/-! ## Tasks -/

/-- Entering nodes one after the other gives their code. -/
theorem emit_enterAll {places : List Nat}
    (h : ∀ c ∈ places, ∀ (tasks : List Task) (rs : List (Binding σ)) (p : Program σ),
      a.emit host (.enter c :: tasks) rs p =
        a.code host c >>= fun is => a.emit host tasks rs (p.append is))
    (tasks : List Task) (rs : List (Binding σ)) (p : Program σ) :
    a.emit host (Task.enterAll places ++ tasks) rs p =
      a.codeAll host places >>= fun is => a.emit host tasks rs (p.append is) := by
  induction places generalizing p with
  | nil => simp [Task.enterAll, codeAll]
  | cons c cs ih =>
    have ih := ih fun d hd => h d (List.mem_cons_of_mem _ hd)
    rw [Task.enterAll, List.map_cons, List.cons_append, h c List.mem_cons_self, codeAll_cons]
    simp only [Task.enterAll] at ih
    simp [ih]

/-- Entering a node gives the code of the tree under it. -/
theorem emit_enter (place : Nat) (tasks : List Task) (rs : List (Binding σ)) (p : Program σ) :
    a.emit host (.enter place :: tasks) rs p =
      a.code host place >>= fun is => a.emit host tasks rs (p.append is) := by
  induction place using Nat.strongRecOn generalizing tasks rs p with
  | ind place ih =>
    rcases hn : a.nodes[place]? with _ | n
    · rw [code_eq_nil hn, emit]
      split <;> rename_i hn' <;> rw [hn] at hn' <;> cases hn'
      exact congrArg _ p.append_nil.symm
    · have ih {c : Nat} (hc : c ∈ n.children) := ih c (lt_of_mem_children hn hc)
      rw [code_eq_codeOf hn, emit]
      split <;> rename_i hn' <;> rw [hn] at hn' <;> cases hn'
      · -- A number.
        simp only [codeOf, Program.push_eq_append]
        rcases host.literal _ _ with _ | _ <;> rfl
      · -- A text.
        rw [Program.push_eq_append]
        rfl
      · -- A reference.
        simp only [codeOf, Program.push_eq_append]
        rcases host.bind _ _ with _ | _ <;> rfl
      · -- A prefix operator.
        rw [ih (by simp [Node.children])]
        simp [codeOf, emit, hn, Program.push_eq_append]
      · -- A binary operator.
        rw [ih (by simp [Node.children])]
        simp only [codeOf, bind_assoc]
        refine bind_congr fun left => ?_
        rw [ih (by simp [Node.children])]
        simp [emit, hn, Program.push_eq_append]
      · -- A call.
        rw [emit_enterAll (fun c hc => ih (by simpa [Node.children] using hc))]
        simp only [codeOf, bind_assoc]
        refine bind_congr fun before => ?_
        rw [emit, hn]
        simp only [Program.push_eq_append, Program.append_append]
        rcases host.function _ _ with _ | _ <;> rfl
      · -- A method: its receiver waits while the arguments are entered.
        simp only [codeOf, bind_assoc]
        rcases a.receiver host _ _ _ with _ | b
        · rfl
        show a.emit host _ (b :: rs) p = a.codeAll host _ >>= _
        rw [emit_enterAll (fun c hc => ih (by simp [Node.children, hc]))]
        refine bind_congr fun before => ?_
        rw [emit, hn]
        simp only [Program.push_eq_append, Program.append_append]
        rcases host.function _ _ with _ | _ <;> rfl
      · -- An assignment.
        rw [ih (by simp [Node.children])]
        simp only [codeOf, bind_assoc]
        refine bind_congr fun before => ?_
        rw [emit, hn]
        simp only [Program.push_eq_append, Program.append_append]
        rcases a.target host _ with _ | _ <;> rfl

/-! ## Grown arenas -/

/-- `b` has all nodes of `a` in their places. -/
def Extends (a b : Arena) : Prop :=
  ∀ ⦃i : Nat⦄ ⦃n : Node⦄, a.nodes[i]? = some n → b.nodes[i]? = some n

theorem Extends.refl (a : Arena) : a.Extends a := fun _ _ h => h

theorem Extends.trans {a b c : Arena} (hab : a.Extends b) (hbc : b.Extends c) : a.Extends c :=
  fun _ _ h => hbc (hab h)

/-- An arena is extended by one with another node. -/
theorem extends_of_nodes_eq_push {a b : Arena} {n : Node} (h : b.nodes = a.nodes.push n) :
    a.Extends b := by
  intro i m hi
  have hlt : i < a.nodes.size := (Array.getElem?_eq_some_iff.1 hi).1
  rw [h, Array.getElem?_push_lt hlt, ← hi, Array.getElem?_eq_getElem hlt]

end Arena

namespace Expr

/-! ## The code of laid out trees -/

/-- The last node that is laid out for an expression, and the arena before it. -/
def last : Expr → Arena → Arena × Node
  | number o n, a => (a, ⟨o, .number n⟩)
  | text o s, a => (a, ⟨o, .text s⟩)
  | reference o r, a => (a, ⟨o, .reference r⟩)
  | unary o op x, a =>
    let b := (layOut x a).1
    (b, ⟨o, .unary op (b.size - 1)⟩)
  | binary o op l r, a =>
    let b := (layOut l a).1
    let c := (layOut r b).1
    (c, ⟨o, .binary op (b.size - 1) (c.size - 1)⟩)
  | call o f args, a =>
    let b := (layOutAll args a).1
    (b.1, ⟨o, .call f b.2⟩)
  | method o e name args, a =>
    let b := (layOut e a).1
    let c := (layOutAll args b).1
    (c.1, ⟨o, .method (b.size - 1) name c.2⟩)

/-- The children of the last node are in the arena before it: each is the last node of an
    operand that was laid out. -/
theorem children_last_lt (e : Expr) (a : Arena) :
    ∀ c ∈ (e.last a).2.children, c < (e.last a).1.size := by
  intro c hc
  cases e with
  | number | text | reference => exact absurd hc List.not_mem_nil
  | unary o op x =>
    have hx := (layOut x a).2
    rw [List.mem_singleton.1 hc]
    exact Nat.sub_lt (Nat.zero_lt_of_lt hx) Nat.one_pos
  | binary o op l r =>
    have hl := (layOut l a).2
    have hr := (layOut r (layOut l a).1).2
    rcases List.mem_cons.1 hc with rfl | hc
    · exact Nat.lt_of_le_of_lt (Nat.sub_le ..) hr
    · rw [List.mem_singleton.1 hc]
      exact Nat.sub_lt (Nat.zero_lt_of_lt hr) Nat.one_pos
  | call o f args => exact (layOutAll args a).2.2 c hc
  | method o e name args =>
    have he := (layOut e a).2
    have hargs := (layOutAll args (layOut e a).1).2
    rcases List.mem_cons.1 hc with rfl | hc
    · exact Nat.lt_of_lt_of_le (Nat.sub_lt (Nat.zero_lt_of_lt he) Nat.one_pos) hargs.1
    · exact hargs.2 c hc

/-- The last node is laid out behind those of its operands. -/
theorem layOut_eq_push (e : Expr) (a : Arena) :
    (e.layOut a).1 = (e.last a).1.push (e.last a).2 (e.children_last_lt a) := by
  cases e <;> rw [layOut] <;> rfl

/-- What is there before the last node is there behind it. -/
theorem extends_layOut_last (e : Expr) (a : Arena) : (e.last a).1.Extends (e.layOut a).1 := by
  rw [layOut_eq_push]
  exact Arena.extends_of_nodes_eq_push rfl

/-- The last node stands at the end. -/
theorem getElem?_layOut (e : Expr) (a : Arena) :
    (e.layOut a).1.nodes[(e.layOut a).1.size - 1]? = some (e.last a).2 := by
  rw [layOut_eq_push, Arena.size_push, Nat.add_sub_cancel]
  exact Array.getElem?_push_size

/-- Laying out several expressions leaves the nodes that are there in their places. -/
theorem extends_layOutAll {es : List Expr} (h : ∀ e ∈ es, ∀ a : Arena, a.Extends (e.layOut a).1)
    (a : Arena) : a.Extends (layOutAll es a).1.1 := by
  induction es generalizing a with
  | nil => rw [layOutAll]; exact .refl a
  | cons e es ih =>
    rw [layOutAll]
    exact (h e List.mem_cons_self a).trans (ih (fun d hd => h d (List.mem_cons_of_mem _ hd)) _)

/-- Laying out an expression leaves all nodes in their places. -/
theorem extends_layOut (e : Expr) (a : Arena) : a.Extends (e.layOut a).1 := by
  refine .trans ?_ (e.extends_layOut_last a)
  induction e using Expr.induction generalizing a with
  | number | text | reference => exact .refl a
  | unary _ _ x ih => exact (ih a).trans (x.extends_layOut_last a)
  | binary _ _ l r ihl ihr =>
    exact ((ihl a).trans (l.extends_layOut_last a)).trans ((ihr _).trans (r.extends_layOut_last _))
  | call _ _ _ ih =>
    exact extends_layOutAll (fun e he a => (ih e he a).trans (e.extends_layOut_last a)) a
  | method _ e _ _ ihe ih =>
    exact ((ihe a).trans (e.extends_layOut_last a)).trans
      (extends_layOutAll (fun e he a => (ih e he a).trans (e.extends_layOut_last a)) _)

/-- There is a root for each of them. -/
theorem length_layOutAll (es : List Expr) (a : Arena) :
    (layOutAll es a).1.2.length = es.length := by
  induction es generalizing a with
  | nil => rw [layOutAll]; rfl
  | cons e es ih => rw [layOutAll]; exact congrArg (· + 1) (ih _)

/-- The receiver of a method is found where it was laid out. -/
theorem receiver_layOut (e : Expr) {a b : Arena} (hb : (e.layOut a).1.Extends b) (o : Nat)
    (name : String) :
    b.receiver host ((e.layOut a).1.size - 1) o name = e.receiver host o name := by
  rw [Arena.receiver, hb (e.getElem?_layOut a)]
  cases e <;> rfl

/-- As the code of each root is that of its expression, so is that of all roots together, in
    every larger arena. -/
theorem codeAll_layOutAll {es : List Expr}
    (h : ∀ e ∈ es, ∀ a b : Arena, (e.layOut a).1.Extends b →
      b.code host ((e.layOut a).1.size - 1) = e.code host)
    {a b : Arena} (hb : (layOutAll es a).1.1.Extends b) :
    b.codeAll host (layOutAll es a).1.2 = codeAll host es := by
  induction es generalizing a with
  | nil => rw [layOutAll, codeAll]; rfl
  | cons e es ih =>
    rw [layOutAll] at hb ⊢
    have he := h e List.mem_cons_self a b
      ((extends_layOutAll (fun e _ => e.extends_layOut) _).trans hb)
    rw [Arena.codeAll_cons, codeAll, he, ih (fun d hd => h d (List.mem_cons_of_mem _ hd)) hb]

/-- The code of the node at which an expression is laid out is the code of the
    expression. -/
theorem code_layOut (e : Expr) (a b : Arena) (hb : (e.layOut a).1.Extends b) :
    b.code host ((e.layOut a).1.size - 1) = e.code host := by
  induction e using Expr.induction generalizing a b with
  | number | text | reference =>
    rw [Arena.code_eq_codeOf (hb (getElem?_layOut ..)), last, Arena.codeOf, code]
  | unary _ _ _ ih =>
    have hn := hb (getElem?_layOut ..)
    have hlast := (extends_layOut_last ..).trans hb
    rw [Arena.code_eq_codeOf hn, last, Arena.codeOf, code, ih a b hlast]
  | binary _ _ l r ihl ihr =>
    have hn := hb (getElem?_layOut ..)
    have hlast := (extends_layOut_last ..).trans hb
    rw [Arena.code_eq_codeOf hn, last, Arena.codeOf, code,
      ihl a b ((r.extends_layOut _).trans hlast), ihr _ b hlast]
  | call _ _ args ih =>
    have hn := hb (getElem?_layOut ..)
    have hlast := (extends_layOut_last ..).trans hb
    rw [Arena.code_eq_codeOf hn, last, Arena.codeOf, code, codeAll_layOutAll ih hlast,
      length_layOutAll]
  | method _ e _ args _ ih =>
    have hn := hb (getElem?_layOut ..)
    have hlast := (extends_layOut_last ..).trans hb
    have he := (extends_layOutAll (fun e (_ : e ∈ args) => e.extends_layOut) _).trans hlast
    rw [Arena.code_eq_codeOf hn, last, Arena.codeOf, code, receiver_layOut e he,
      codeAll_layOutAll ih hlast, length_layOutAll]

end Expr

/-! ## Programs -/

/-- The generator makes the code of the root, or an empty program if there is an error. -/
theorem Program.generate_of_root {a : Arena} {root : Nat} (h : a.root = some root)
    (p : Program σ) (host : Host σ) :
    p.generate host a =
      match a.code host root with
      | .ok is => (⟨is.toArray⟩, .ok ())
      | .error e => ({}, .error e) := by
  rw [generate, h]
  simp only [Arena.emit_enter]
  rcases a.code host root with e | is
  · rfl
  · simp [Arena.emit, clear, append, bind, Except.bind]

/-! ## Formulas -/

/-- The code of the root of the arena of a formula is the code of the formula. -/
theorem Statement.code_arena (s : Statement) (host : Host σ) :
    ∃ root, s.arena.root = some root ∧ s.arena.code host root = s.code host := by
  cases s with
  | expression e => exact ⟨_, rfl, e.code_layOut {} _ (Arena.Extends.refl _)⟩
  | assignment o targetOffset r e =>
    let a := ((Expr.reference targetOffset r).layOut {}).1
    let b := (e.layOut a).1
    have hb : b.Extends (Statement.assignment o targetOffset r e).arena :=
      Arena.extends_of_nodes_eq_push rfl
    -- The arena ends with the node of the assignment, behind those of its value.
    have hn : (Statement.assignment o targetOffset r e).arena.nodes[b.size]? =
        some ⟨o, .assign (a.size - 1) (b.size - 1)⟩ := Array.getElem?_push_size
    have htarget := hb (e.extends_layOut a (Expr.getElem?_layOut (.reference targetOffset r) {}))
    refine ⟨b.size, congrArg some (by rw [Arena.size_push]; rfl), ?_⟩
    rw [Arena.code_eq_codeOf hn, Arena.codeOf, Arena.target, htarget, code,
      e.code_layOut a _ hb]
    rcases e.code host with _ | _ <;> rcases h : host.bind targetOffset r with _ | _ <;>
      simp [Expr.last, h] <;> rfl

/-- The program of the arena of a formula is the code of the formula, whatever was
    in the program before. -/
theorem Program.generate_arena (p : Program σ) (host : Host σ) (s : Statement) :
    p.generate host s.arena =
      match s.code host with
      | .ok is => (⟨is.toArray⟩, .ok ())
      | .error e => ({}, .error e) := by
  obtain ⟨root, hroot, hcode⟩ := s.code_arena host
  rw [generate_of_root hroot, hcode]

/-- What the generator makes of the arena of a formula is the code of the formula. -/
theorem Program.code_of_generate {q p : Program σ} {host : Host σ} {s : Statement}
    (hp : q.generate host s.arena = (p, .ok ())) : s.code host = .ok p.code.toList := by
  rw [generate_arena] at hp
  rcases h : s.code host with e | is <;> rw [h] at hp <;> cases hp
  rfl

/-- To compile is to read a formula and take its code. -/
theorem compile_eq (host : Host σ) (settings : Settings) (source : String) :
    compile host settings source =
      match Statement.read host.units.names settings source with
      | .error e => .error (e.map .reading)
      | .ok s =>
        match s.code host with
        | .error e => .error (e.map .linking)
        | .ok is => .ok ⟨is.toArray⟩ := by
  rw [compile, Program.compile]
  rcases Statement.read host.units.names settings source with e | s
  · rfl
  · simp only [Program.generate_arena]
    rcases s.code host with e | is <;> rfl

/-- Whatever the program was before, the generator makes it the code of the root of the
    arena, which is said by recursion: its instructions if there is no error, and none
    otherwise. Without a root there are none, either. So a formula is compiled into a
    program that was used before as into a new one. -/
theorem Program.generate_eq_code (p : Program σ) (host : Host σ) (a : Arena) :
    p.generate host a =
      (match a.root with
      | none => ({}, .ok ())
      | some root =>
        match a.code host root with
        | .ok is => (⟨is.toArray⟩, .ok ())
        | .error e => ({}, .error e)) ∧
    ∀ (settings : Settings) (source : String),
      p.compile host settings source =
        match Formula.compile host settings source with
        | .ok q => (q, .ok ())
        | .error e => ({}, .error e) := by
  constructor
  · rcases hroot : a.root with _ | root
    · rw [generate, hroot]
      rfl
    · exact generate_of_root hroot p host
  · intro settings source
    rw [compile_eq, compile]
    rcases Statement.read host.units.names settings source with e | s
    · rfl
    · simp only [generate_arena]
      rcases s.code host with e | is <;> rfl

end Formula
