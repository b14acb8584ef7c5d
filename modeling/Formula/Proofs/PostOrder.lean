import Formula.Arena.PostOrder
import Formula.Proofs.Linking
import Formula.Proofs.Parsing.Building
import Mathlib.Data.List.Intervals

/-!
# The arena of a formula is one tree in post-order

Every expression of a formula is laid out in a block of its own: the blocks of its children
behind each other, and then its node (`Arena.Block`). The place of the node is the last one
of the block, and there are no others in it than those of the tree. From this follows, block
by block, what is said of an arena as a whole (`Statement.arena_of_ofLexemes`).
-/

namespace Formula

open List (Ico)

namespace Arena

/-! ## Blocks -/

mutual

/-- An expression is laid out from the place `start` on, its node at `place`. -/
inductive Block (a : Arena) : Expr → (start place : Nat) → Prop
  | number {o start : Nat} {n : Numeral} :
      a.nodes[start]? = some ⟨o, .number n⟩ → Block a (.number o n) start start
  | text {o start : Nat} {s : String} :
      a.nodes[start]? = some ⟨o, .text s⟩ → Block a (.text o s) start start
  | reference {o start : Nat} {r : Reference} :
      a.nodes[start]? = some ⟨o, .reference r⟩ → Block a (.reference o r) start start
  | unary {o start place x' : Nat} {op : UnaryOp} {x : Expr} :
      Blocks a [x] start place [x'] → a.nodes[place]? = some ⟨o, .unary op x'⟩ →
      Block a (.unary o op x) start place
  | binary {o start place l' r' : Nat} {op : BinaryOp} {l r : Expr} :
      Blocks a [l, r] start place [l', r'] → a.nodes[place]? = some ⟨o, .binary op l' r'⟩ →
      Block a (.binary o op l r) start place
  | call {o start place : Nat} {name : String} {args : List Expr} {places : List Nat} :
      Blocks a args start place places → a.nodes[place]? = some ⟨o, .call name places⟩ →
      Block a (.call o name args) start place
  | method {o start place e' : Nat} {name : String} {e : Expr} {args : List Expr}
      {places : List Nat} :
      Blocks a (e :: args) start place (e' :: places) →
      a.nodes[place]? = some ⟨o, .method e' name places⟩ →
      Block a (.method o e name args) start place

/-- Expressions are laid out behind each other from `start` up to `stop`, their nodes at the
    places. -/
inductive Blocks (a : Arena) : List Expr → (start stop : Nat) → (places : List Nat) → Prop
  | nil {start : Nat} : Blocks a [] start start []
  | cons {start place stop : Nat} {e : Expr} {es : List Expr} {places : List Nat} :
      Block a e start place → Blocks a es (place + 1) stop places →
      Blocks a (e :: es) start stop (place :: places)

end

variable {a : Arena} {e : Expr} {es : List Expr} {start place stop : Nat} {places : List Nat}

mutual

theorem Block.start_le {e : Expr} {start place : Nat} : a.Block e start place → start ≤ place
  | .number _ | .text _ | .reference _ => Nat.le_refl _
  | .unary h _ | .binary h _ | .call h _ | .method h _ => h.start_le

theorem Blocks.start_le {es : List Expr} {start stop : Nat} {places : List Nat} :
    a.Blocks es start stop places → start ≤ stop
  | .nil => Nat.le_refl _
  | .cons he hes => Nat.le_trans (Nat.le_succ_of_le he.start_le) hes.start_le

end

/-! ## What is in a block -/

/-- A node behind the blocks of its children. -/
theorem postOrder_of_children {n : Node} (hn : a.nodes[place]? = some n) (hle : start ≤ place)
    (h : n.children.flatMap a.postOrder = Ico start place) :
    a.postOrder place = Ico start (place + 1) := by
  rw [postOrder_of_getElem? hn, h, ← List.Ico.succ_top hle]

mutual

/-- A block is the tree under its node in post-order. -/
theorem Block.postOrder {e : Expr} {start place : Nat} :
    a.Block e start place → a.postOrder place = Ico start (place + 1)
  | .number hn | .text hn | .reference hn =>
    postOrder_of_children hn (Nat.le_refl _) List.Ico.self_empty.symm
  | .unary h hn | .binary h hn | .call h hn | .method h hn =>
    postOrder_of_children hn h.start_le h.postOrder

/-- Expressions that are laid out behind each other are listed in the order of their places. -/
theorem Blocks.postOrder {es : List Expr} {start stop : Nat} {places : List Nat} :
    a.Blocks es start stop places → places.flatMap a.postOrder = Ico start stop
  | .nil => List.Ico.self_empty.symm
  | .cons he hes => by
    rw [List.flatMap_cons, he.postOrder, hes.postOrder]
    exact List.Ico.append_consecutive (Nat.le_succ_of_le he.start_le) hes.start_le

end

mutual

/-- The tree under the node of an expression is the expression. -/
theorem Block.expr? {e : Expr} {start place : Nat} :
    a.Block e start place → a.expr? place = some e
  | .number hn | .text hn | .reference hn => by rw [expr?_of_getElem? hn]; rfl
  | .unary h hn | .binary h hn | .call h hn | .method h hn => by
    rw [expr?_of_getElem? hn, Node.children, h.mapM_expr?]
    rfl

/-- The expressions can be read off the arena again. -/
theorem Blocks.mapM_expr? {es : List Expr} {start stop : Nat} {places : List Nat} :
    a.Blocks es start stop places → places.mapM a.expr? = some es
  | .nil => rfl
  | .cons he hes => by
    rw [List.mapM_cons, he.expr?, hes.mapM_expr?]
    rfl

end

/-- The children of the node at a place. -/
def childrenAt (a : Arena) (place : Nat) : List Nat := (a.nodes[place]?.elim [] Node.children)

theorem childrenAt_of_getElem? {n : Node} (hn : a.nodes[place]? = some n) :
    a.childrenAt place = n.children := by
  rw [childrenAt, hn]
  rfl

/-- The children of all nodes, in the order of the nodes. -/
theorem children_eq_flatMap (a : Arena) :
    a.children = (List.range a.size).flatMap a.childrenAt := by
  rw [children, List.flatMap_def, List.flatMap_def]
  refine congrArg _ (List.ext_getElem (by simp [size]) fun i hi _ => ?_)
  have hlt : i < a.nodes.size := by simpa using hi
  simp [childrenAt_of_getElem? (Array.getElem?_eq_getElem hlt)]

/-- A node behind the blocks of its children. -/
theorem children_perm {n : Node} (hn : a.nodes[place]? = some n) (hle : start ≤ place)
    (h : ((Ico start place).flatMap a.childrenAt ++ n.children).Perm (Ico start place)) :
    ((Ico start (place + 1)).flatMap a.childrenAt).Perm (Ico start place) := by
  rwa [List.Ico.succ_top hle, List.flatMap_append, List.flatMap_singleton,
    childrenAt_of_getElem? hn]

mutual

/-- In a block, every place but that of its node is once a child. -/
theorem Block.children_perm {e : Expr} {start place : Nat} :
    a.Block e start place →
      ((Ico start (place + 1)).flatMap a.childrenAt).Perm (Ico start place)
  | .number hn | .text hn | .reference hn =>
    Arena.children_perm hn (Nat.le_refl _) (by simp [Node.children])
  | .unary h hn | .binary h hn | .call h hn | .method h hn =>
    Arena.children_perm hn h.start_le h.children_perm

/-- Within a range where expressions are laid out, every place is a child once, or the root of
    one of them. -/
theorem Blocks.children_perm {es : List Expr} {start stop : Nat} {places : List Nat} :
    a.Blocks es start stop places →
      ((Ico start stop).flatMap a.childrenAt ++ places).Perm (Ico start stop)
  | .nil => by simp
  | @Blocks.cons _ start place stop _ _ places he hes => by
    have hle := he.start_le
    have hspan : Ico start stop = Ico start (place + 1) ++ Ico (place + 1) stop :=
      (List.Ico.append_consecutive (Nat.le_succ_of_le hle) hes.start_le).symm
    -- The place of the first expression is the one that its own block leaves out.
    have hrest := List.perm_middle.trans (hes.children_perm.cons place)
    have h := he.children_perm.append hrest
    rw [hspan, List.flatMap_append, List.append_assoc]
    rwa [List.append_cons (Ico start place), ← List.Ico.succ_top hle] at h

end

/-- One more expression behind those that a range holds. -/
theorem map_expr?_of_children (hle : start ≤ place) (he : a.expr? place = some e) (es : List Expr)
    (h : (Ico start place).map a.expr? = es.map some) :
    (Ico start (place + 1)).map a.expr? = (es ++ [e]).map some := by
  rw [List.Ico.succ_top hle, List.map_append, List.map_append, h, List.map_singleton, he]
  rfl

mutual

/-- The trees under the nodes of a block are those of the expression in post-order. -/
theorem Block.map_expr? {e : Expr} {start place : Nat} :
    a.Block e start place → (Ico start (place + 1)).map a.expr? = e.postOrder.map some
  | h@(.number _) | h@(.text _) | h@(.reference _) =>
    map_expr?_of_children h.start_le h.expr? [] (by simp)
  | h@(.unary hs _) | h@(.binary hs _) | h@(.call hs _) | h@(.method hs _) => by
    rw [map_expr?_of_children h.start_le h.expr? _ hs.map_expr?]
    simp [Expr.postOrder, Expr.postOrderAll]

/-- The places of a range hold the subexpressions of all, each behind its own. -/
theorem Blocks.map_expr? {es : List Expr} {start stop : Nat} {places : List Nat} :
    a.Blocks es start stop places →
      (Ico start stop).map a.expr? = (Expr.postOrderAll es).map some
  | .nil => by simp [Expr.postOrderAll]
  | .cons he hes => by
    rw [← List.Ico.append_consecutive (Nat.le_succ_of_le he.start_le) hes.start_le,
      List.map_append, he.map_expr?, hes.map_expr?, ← List.map_append]
    rfl

end

end Arena

namespace Expr

/-! ## What is laid out -/

variable {a b : Arena}

/-- The last node is one more. -/
theorem size_layOut (e : Expr) (a : Arena) : (e.layOut a).1.size = (e.last a).1.size + 1 := by
  rw [layOut_eq_push, Arena.size_push]

/-- The node of an expression stands where the arena of all before it ends. -/
theorem getElem?_last {e : Expr} (hb : (e.layOut a).1.Extends b) :
    b.nodes[(e.last a).1.size]? = some (e.last a).2 := by
  have hn := hb (e.getElem?_layOut a)
  rwa [size_layOut, Nat.add_sub_cancel] at hn

/-- Laid out one after the other, expressions stand behind each other in every larger arena. -/
theorem blocks_layOutAll {es : List Expr}
    (h : ∀ e ∈ es, ∀ a b : Arena, (e.layOut a).1.Extends b → b.Block e a.size (e.last a).1.size)
    (hb : (layOutAll es a).1.1.Extends b) :
    b.Blocks es a.size (layOutAll es a).1.1.size (layOutAll es a).1.2 := by
  induction es generalizing a with
  | nil =>
    rw [layOutAll]
    exact .nil
  | cons e es ih =>
    rw [layOutAll] at hb ⊢
    have he := h e List.mem_cons_self a b
      ((extends_layOutAll (fun e _ => e.extends_layOut) _).trans hb)
    have hes := ih (fun d hd => h d (List.mem_cons_of_mem _ hd)) hb
    have hplace : (e.last a).1.size = (e.layOut a).1.size - 1 := by
      rw [size_layOut, Nat.add_sub_cancel]
    have hnext : (e.layOut a).1.size - 1 + 1 = (e.layOut a).1.size :=
      Nat.sub_add_cancel (Nat.zero_lt_of_lt (e.layOut a).2)
    exact .cons (hplace ▸ he) (by rwa [hnext])

/-- An expression is laid out in a block that begins where the arena ended. -/
theorem block_layOut (e : Expr) (a b : Arena) (hb : (e.layOut a).1.Extends b) :
    b.Block e a.size (e.last a).1.size := by
  induction e using Expr.induction generalizing a b with
  | number => exact .number (getElem?_last hb)
  | text => exact .text (getElem?_last hb)
  | reference => exact .reference (getElem?_last hb)
  | unary o op x ih =>
    have hx : b.Blocks [x] a.size _ _ := blocks_layOutAll (by simpa using ih)
      (by simp only [layOutAll]; exact (extends_layOut_last ..).trans hb)
    simp only [layOutAll] at hx
    exact .unary hx (getElem?_last hb)
  | binary o op l r ihl ihr =>
    have hx : b.Blocks [l, r] a.size _ _ := blocks_layOutAll (by simpa using ⟨ihl, ihr⟩)
      (by simp only [layOutAll]; exact (extends_layOut_last ..).trans hb)
    simp only [layOutAll] at hx
    exact .binary hx (getElem?_last hb)
  | call o f args ih =>
    exact .call (blocks_layOutAll ih ((extends_layOut_last ..).trans hb)) (getElem?_last hb)
  | method o e f args ihe ih =>
    have hx : b.Blocks (e :: args) a.size _ _ :=
      blocks_layOutAll (List.forall_mem_cons.2 ⟨ihe, ih⟩)
        (by simp only [layOutAll]; exact (extends_layOut_last ..).trans hb)
    simp only [layOutAll] at hx
    exact .method hx (getElem?_last hb)

end Expr

/-! ## Formulas -/

namespace Arena

variable {a : Arena} {root : Nat}

/-- The children of the node of a block are laid out before it, from the start of the block
    on. -/
theorem Block.exists_blocks {e : Expr} {start place : Nat} (h : a.Block e start place) :
    ∃ n es, a.nodes[place]? = some n ∧ a.Blocks es start place n.children := by
  cases h with
  | number hn | text hn | reference hn => exact ⟨_, [], hn, .nil⟩
  | unary h hn | binary h hn | call h hn | method h hn => exact ⟨_, _, hn, h⟩

/-- An arena is one tree in post-order if there is nothing in it but a node and the blocks of
    its children. -/
theorem Blocks.whole {n : Node} {es : List Expr} (h : a.Blocks es 0 root n.children)
    (hn : a.nodes[root]? = some n) (hsize : root + 1 = a.size) :
    a.postOrder root = List.range (root + 1) ∧ a.children.Perm (List.range root) := by
  have hpost := postOrder_of_children hn h.start_le h.postOrder
  have hperm := Arena.children_perm hn h.start_le (by exact h.children_perm)
  simp only [List.Ico.zero_bot] at hpost hperm
  exact ⟨hpost, by rwa [children_eq_flatMap, ← hsize]⟩

end Arena

namespace Expr

/-- There is no assignment where expressions are. -/
theorem not_assign {a : Arena} {stop place o target value : Nat} {es : List Expr}
    (h : (List.range stop).map a.expr? = es.map some) (hplace : place < stop) :
    a.nodes[place]? ≠ some ⟨o, .assign target value⟩ := by
  intro hn
  have hmem : a.expr? place ∈ es.map some := h ▸ List.mem_map_of_mem (List.mem_range.2 hplace)
  obtain ⟨e, -, he⟩ := List.mem_map.1 hmem
  rw [Arena.expr?_of_getElem? hn] at he
  rcases hes : (Node.mk o (.assign target value)).children.mapM a.expr? with _ | es <;>
    rw [hes] at he <;> cases he

end Expr

namespace Statement

/-- The arena of an expression is a block. -/
theorem block_arena (e : Expr) :
    ∃ root, (expression e).arena.root = some root ∧ root + 1 = (expression e).arena.size ∧
      (expression e).arena.Block e 0 root := by
  refine ⟨(e.last {}).1.size, ?_, (e.size_layOut {}).symm,
    e.block_layOut {} _ (Arena.Extends.refl _)⟩
  show some ((e.layOut {}).1.size - 1) = _
  rw [Expr.size_layOut, Nat.add_sub_cancel]

/-- The arena of an assignment is the block of its target, that of its value, and its node. -/
theorem blocks_arena (o targetOffset : Nat) (target : Reference) (value : Expr) :
    let a := (assignment o targetOffset target value).arena
    ∃ root, a.root = some root ∧ root + 1 = a.size ∧
      a.nodes[root]? = some ⟨o, .assign 0 (root - 1)⟩ ∧
      a.Blocks [.reference targetOffset target, value] 0 root [0, root - 1] := by
  intro a
  let before := ((Expr.reference targetOffset target).layOut {}).1
  have hbehind : (value.layOut before).1.Extends a := Arena.extends_of_nodes_eq_push rfl
  have htarget : a.Block (.reference targetOffset target) 0 0 :=
    Expr.block_layOut _ {} a ((value.extends_layOut before).trans hbehind)
  have hvalue : a.Block value 1 (value.last before).1.size := value.block_layOut before a hbehind
  have hsize : (value.layOut before).1.size = (value.last before).1.size + 1 :=
    value.size_layOut before
  have hroot : a.size = (value.layOut before).1.size + 1 := by
    rw [Arena.size]
    exact Array.size_push _
  refine ⟨(value.layOut before).1.size, ?_, hroot.symm, Array.getElem?_push_size, ?_⟩
  · show some (a.size - 1) = _
    rw [hroot, Nat.add_sub_cancel]
  · rw [hsize, Nat.add_sub_cancel]
    exact .cons htarget (.cons hvalue .nil)

/-- Only references are targets of assignments, so none is rejected. -/
theorem code_ne_invalidTarget {σ : Type} (st : Statement) (host : Host σ) (o : Nat) :
    st.code host ≠ .error ⟨o, .invalidTarget⟩ := by
  intro herr
  obtain ⟨x, -, hlacks⟩ := st.exists_lacks herr
  have hfunction {o' : Nat} {name : String} :
      host.function o' name ≠ .error ⟨o, .invalidTarget⟩ := by
    intro h
    cases Expr.eq_of_function h
  cases x with
  | number o' n =>
    simp only [Expr.Lacks, Host.literal] at hlacks
    split at hlacks
    · cases hlacks
    · split at hlacks <;> cases hlacks
  | reference o' r =>
    simp only [Expr.Lacks, Host.bind] at hlacks
    split at hlacks <;> cases hlacks
  | call => exact hfunction hlacks
  | method =>
    rcases hlacks with h | h
    · cases h
    · exact hfunction h
  | text | unary | binary => exact hlacks

/-- In the arena of a formula the target of an assignment is a reference. -/
theorem generate_ne_invalidTarget {σ : Type} (st : Statement) (p : Program σ) (host : Host σ)
    (o : Nat) : (p.generate host st.arena).2 ≠ .error ⟨o, .invalidTarget⟩ := by
  rw [Program.generate_arena]
  rcases hcode : st.code host with e | is
  · rintro ⟨⟩
    exact st.code_ne_invalidTarget host o hcode
  · exact fun h => by cases h

/-- No compilation ends for want of something to assign to, whatever the formula and the host
    are: the parser admits only references there. -/
theorem compile_ne_invalidTarget {σ : Type} (p : Program σ) (host : Host σ)
    (settings : Settings) (source : String) (o : Nat) :
    (p.compile host settings source).2 ≠ .error ⟨o, .linking .invalidTarget⟩ := by
  rw [Program.compile]
  rcases Statement.read host.units.names settings source with e | st
  · exact fun h => by cases h
  · have hst := st.generate_ne_invalidTarget p host o
    intro h
    change (p.generate host st.arena).2.mapError (Located.map Cause.linking) = _ at h
    generalize (p.generate host st.arena).2 = result at h hst
    cases result with
    | ok => cases h
    | error e =>
      obtain ⟨o', cause⟩ := e
      cases h
      exact hst rfl

variable {stop depth : Nat} {ts : List Lexeme} {st : Statement}

/-- The arena of a formula that is read from tokens is exactly one tree, in post-order. The
    root is the last node, and all nodes are those that a parser puts behind each other.
    Children stand before their parents, and every node but the root is the child of one node,
    once. Read in the order of their places, the nodes are those of the formula in post-order:
    the operands or the receiver, the arguments, and then the node. Only the root can be an
    assignment; its target is a reference and has no other parent. So there is no formula, and
    no text, that cannot be compiled because something else than a reference is assigned to. -/
theorem arena_of_ofLexemes (h : Statement.ofLexemes stop depth ts = .ok st) :
    (∃ root, st.arena.root = some root ∧ root + 1 = st.arena.size ∧
      (∃ s, Parser.parse stop depth ts = some (.ok root, s) ∧ s.nodes = st.arena.nodes) ∧
      (∀ (i : Nat) (n : Node), st.arena.nodes[i]? = some n → ∀ c ∈ n.children, c < i) ∧
      (∀ i, st.arena.children.count i = if i < root then 1 else 0) ∧
      st.arena.postOrder root = List.range (root + 1) ∧
      (match st with
        | .expression e => (List.range (root + 1)).map st.arena.expr? = e.postOrder.map some
        | .assignment o targetOffset target value =>
          st.arena.nodes[root]? = some ⟨o, .assign 0 (root - 1)⟩ ∧
          (List.range root).map st.arena.expr? =
            (.reference targetOffset target :: value.postOrder).map some) ∧
      ∀ (i o target value : Nat), st.arena.nodes[i]? = some ⟨o, .assign target value⟩ →
        i = root ∧ (∃ o' r, st.arena.nodes[target]? = some ⟨o', .reference r⟩) ∧
          st.arena.children.count target = 1) ∧
    ∀ (σ : Type) (p : Program σ) (host : Host σ) (o : Nat),
      (p.generate host st.arena).2 ≠ .error ⟨o, .invalidTarget⟩ ∧
      ∀ (settings : Settings) (source : String),
        (p.compile host settings source).2 ≠ .error ⟨o, .linking .invalidTarget⟩ := by
  refine ⟨?_, fun σ p host o => ⟨st.generate_ne_invalidTarget p host o,
    fun settings source => compile_ne_invalidTarget p host settings source o⟩⟩
  have hbuilt {root : Nat} (hsize : root + 1 = st.arena.size) :
      ∃ s, Parser.parse stop depth ts = some (.ok root, s) ∧ s.nodes = st.arena.nodes := by
    obtain ⟨s, hs, hnodes⟩ := Parser.parse_of_ofLexemes h
    exact ⟨s, by rw [hs, ← hsize, Nat.add_sub_cancel], hnodes⟩
  have hcount {l : List Nat} {root : Nat} (h : l.Perm (List.range root)) (i : Nat) :
      l.count i = if i < root then 1 else 0 := by
    rw [h.count_eq, List.nodup_range.count]
    simp only [List.mem_range]
  cases st with
  | expression e =>
    obtain ⟨root, hroot, hsize, hblock⟩ := block_arena e
    obtain ⟨n, es, hn, hes⟩ := hblock.exists_blocks
    obtain ⟨hpost, hperm⟩ := hes.whole hn hsize
    have hexprs := hblock.map_expr?
    rw [List.Ico.zero_bot] at hexprs
    refine ⟨root, hroot, hsize, hbuilt hsize, fun i n hi _ => Arena.lt_of_mem_children hi,
      hcount hperm, hpost, hexprs, fun i o target value hi => ?_⟩
    have hlt : i < root + 1 := hsize ▸ (Array.getElem?_eq_some_iff.1 hi).1
    exact absurd hi (Expr.not_assign hexprs hlt)
  | assignment o targetOffset target value =>
    obtain ⟨root, hroot, hsize, hn, hblocks⟩ := blocks_arena o targetOffset target value
    obtain ⟨hpost, hperm⟩ := hblocks.whole hn hsize
    have hexprs := hblocks.map_expr?
    rw [List.Ico.zero_bot] at hexprs
    refine ⟨root, hroot, hsize, hbuilt hsize, fun i n hi _ => Arena.lt_of_mem_children hi,
      hcount hperm, hpost, ⟨hn, by simpa [Expr.postOrderAll, Expr.postOrder] using hexprs⟩,
      fun i o' target' value' hi => ?_⟩
    -- Before the root there are only expressions, and the root is this assignment.
    have hlt : i < root + 1 := hsize ▸ (Array.getElem?_eq_some_iff.1 hi).1
    rcases Nat.lt_succ_iff_lt_or_eq.1 hlt with hlt | rfl
    · exact absurd hi (Expr.not_assign hexprs hlt)
    · rw [hn] at hi
      cases hi
      cases hblocks with
      | cons htarget hvalue =>
        cases htarget with
        | reference htarget =>
          exact ⟨rfl, ⟨_, _, htarget⟩, by rw [hcount hperm]; exact if_pos hvalue.start_le⟩

theorem arena_of_ofLexemes_assignment :
    let st : Statement := .assignment 2 0 (.name "a") (.reference 4 (.name "b"))
    ofLexemes 5 8 [⟨.name "a", 0⟩, ⟨.assign, 2⟩, ⟨.name "b", 4⟩] = .ok st ∧
      st.arena.nodes[2]? = some ⟨2, .assign 0 1⟩ ∧ st.arena.postOrder 2 = [0, 1, 2] := by
  intro st
  have hread : ofLexemes 5 8 [⟨.name "a", 0⟩, ⟨.assign, 2⟩, ⟨.name "b", 4⟩] = .ok st := by cbv
  obtain ⟨⟨root, hroot, -, -, -, -, hpost, ⟨hn, -⟩, -⟩, -⟩ := arena_of_ofLexemes hread
  obtain rfl : root = 2 := Option.some.inj (hroot.symm.trans rfl)
  exact ⟨hread, hn, hpost⟩

end Statement

end Formula
