import Formula.Parser
import Formula.Proofs.Generation
import Formula.Proofs.Parsing.Depth
import Mathlib

/-!
# What a parser builds

A parser puts nodes behind each other while a reader of `Formula.Syntax` makes a tree, which
is laid out in an arena afterwards. The outcome is the same (`Reads`): both stop at the same
error, or leave the same lexemes, and then the nodes of the parser are those of the arena with
the tree laid out behind what was there before (`Placed`). What is left of the limit at the
depth of the parser is the depth that the reader descends on (`operand_parses`).

So parsing a formula ends in what its lexemes are read as (`exists_leaves`).
-/

namespace Formula.Parser

open Syntax (Reader binaryBelow)
open Bounds

variable {α β : Type}

/-! ## Readers and parsers -/

/-- What a reader says, with what is left as a plain list. -/
def forget {p : List Lexeme → Prop}
    (x : Except (Located SyntaxError) (α × { rest : List Lexeme // p rest })) :
    Except (Located SyntaxError) (α × List Lexeme) :=
  x.map fun (a, rest) => (a, rest.1)

/-- The outcome of a parser is what a reader says, and what has been read is built. -/
inductive Reads (built : α → β → Array Node → Prop) (depth : Nat) :
    Except (Located SyntaxError) (α × List Lexeme) →
      Option (Except (Located SyntaxError) β × State) → Prop
  | ok {a : α} {b : β} {s : State} {rest : List Lexeme} :
      s.depth = depth → s.rest = rest → built a b s.nodes →
      Reads built depth (.ok (a, rest)) (some (.ok b, s))
  | error {e : Located SyntaxError} {s : State} : Reads built depth (.error e) (some (.error e, s))

/-- A parser builds what a reader reads, behind the nodes of any arena. -/
def Parses (built : Arena → α → β → Array Node → Prop) (depth : Nat) (x : Parser β)
    (read : Reader α) : Prop :=
  ∀ ⦃s : State⦄ ⦃a : Arena⦄, s.depth = depth → s.nodes = a.nodes →
    Reads (built a) depth (forget (read s.rest)) (x.outcome s)

section Binding

variable {γ : Type} {x : Parser β} {s : State} {depth : Nat}

/-- Where the reader fails the parser does, and nothing that follows matters. -/
theorem Reads.bind_error {built : α → β → Array Node → Prop} {e : Located SyntaxError}
    (h : Reads built depth (.error e) (x.outcome s)) :
    ∃ s', ∀ f : β → Parser γ, (x >>= f).outcome s = some (.error e, s') := by
  simp only [outcome_bind]
  generalize x.outcome s = o at h
  cases h
  exact ⟨_, fun _ => rfl⟩

/-- What fails makes all behind it fail. -/
theorem Reads.error_bind {δ : Type} {built : α → β → Array Node → Prop}
    {built' : δ → γ → Array Node → Prop} {e : Located SyntaxError} {f : β → Parser γ}
    (h : Reads built depth (.error e) (x.outcome s)) :
    Reads built' depth (.error e) ((x >>= f).outcome s) := by
  obtain ⟨s', hs'⟩ := h.bind_error
  rw [hs']
  exact .error

/-- Where it gives something the parser has built this, and goes on behind it. -/
theorem Reads.bind_ok {built : α → β → Array Node → Prop} {a : α} {rest : List Lexeme}
    (h : Reads built depth (.ok (a, rest)) (x.outcome s)) :
    ∃ b s', s'.depth = depth ∧ s'.rest = rest ∧ built a b s'.nodes ∧
      ∀ f : β → Parser γ, (x >>= f).outcome s = (f b).outcome s' := by
  simp only [outcome_bind]
  generalize x.outcome s = o at h
  cases h with
  | ok hdepth hrest hbuilt => exact ⟨_, _, hdepth, hrest, hbuilt, fun _ => rfl⟩

theorem Parses.reads {built : Arena → α → β → Array Node → Prop} {read : Reader α}
    (h : Parses built depth x read) {a : Arena} (hdepth : s.depth = depth)
    (hnodes : s.nodes = a.nodes) {r : Except (Located SyntaxError) (α × Syntax.Shorter s.rest)}
    (hread : read s.rest = r) : Reads (built a) depth (forget r) (x.outcome s) :=
  hread ▸ h hdepth hnodes

end Binding

/-! ## Nodes -/

/-- What has been read is there without a node. -/
def Noted (a : Arena) (x y : α) (nodes : Array Node) : Prop := x = y ∧ nodes = a.nodes

/-- The expression is laid out behind the nodes of the arena, its own node at `place`. -/
def Placed (a : Arena) (e : Expr) (place : Nat) (nodes : Array Node) : Prop :=
  place = (e.layOut a).1.size - 1 ∧ nodes = (e.layOut a).1.nodes

/-- The expressions are laid out behind the nodes of the arena, their nodes at the places. -/
def PlacedAll (a : Arena) (es : List Expr) (places : List Nat) (nodes : Array Node) : Prop :=
  places = (Expr.layOutAll es a).1.2 ∧ nodes = (Expr.layOutAll es a).1.1.nodes

/-- The last node of an expression is pushed behind those of its operands. -/
theorem Placed.push {a : Arena} {e : Expr} {nodes : Array Node} (h : nodes = (e.last a).1.nodes) :
    Placed a e nodes.size (nodes.push (e.last a).2) := by
  rw [Placed, Expr.layOut_eq_push, Arena.size_push, Nat.add_sub_cancel, h]
  exact ⟨rfl, rfl⟩

theorem placedAll_nil (a : Arena) : PlacedAll a [] [] a.nodes := by
  rw [PlacedAll, Expr.layOutAll]
  exact ⟨rfl, rfl⟩

/-- One more expression is laid out behind those before it. -/
theorem PlacedAll.concat {a : Arena} {es : List Expr} {e : Expr} {places : List Nat} {place : Nat}
    {nodes : Array Node} (hes : places = (Expr.layOutAll es a).1.2)
    (he : Placed (Expr.layOutAll es a).1.1 e place nodes) :
    PlacedAll a (es ++ [e]) (places ++ [place]) nodes := by
  induction es generalizing a places with
  | nil =>
    rw [Expr.layOutAll] at hes he
    obtain ⟨rfl, rfl⟩ := he
    subst hes
    simp only [PlacedAll, List.nil_append, Expr.layOutAll, and_self]
  | cons d es ih =>
    rw [Expr.layOutAll] at hes he
    subst hes
    obtain ⟨hplaces, hnodes⟩ := ih rfl he
    simp only [PlacedAll, List.cons_append, Expr.layOutAll, ← hplaces, ← hnodes, and_self]

variable {stop limit depth : Nat} {s : State} {a : Arena}

/-! ## Binary operators -/

section Operators

variable {level : Nat} {expr : Reader Expr}

/-- Operators of one level are folded to the left, and the node of each is pushed behind that
    of its right operand. -/
theorem chain_reads (h : Parses Placed depth (below ⟨stop, limit⟩ level) expr) {m place : Nat}
    {left : Expr} {ts : List Lexeme} (hts : ts.length < m) (hdepth : s.depth = depth)
    (hrest : s.rest = ts) (hleft : Placed a left place s.nodes) :
    Reads (Placed a) depth (forget (Syntax.chain level expr left ts hts))
      ((chain ⟨stop, limit⟩ level place).outcome s) := by
  rw [chain]
  fun_induction Syntax.chain level expr left ts hts generalizing s place with
  | case1 left hts =>
    rw [outcome_takeIf?_bind_none _ (by simp [hrest])]
    exact .ok hdepth hrest hleft
  | case2 left t behind hts ht =>
    rw [outcome_takeIf?_bind_none _ (by simp [hrest, operatorOf?, ht])]
    exact .ok hdepth hrest hleft
  | case3 left t behind hts op ht e hright =>
    rw [outcome_takeIf?_bind_some (a := (t.offset, op)) _ hrest (by rw [operatorOf?, ht]; rfl)]
    exact (h.reads (s := { s with rest := behind }) hdepth hleft.2 hright).error_bind
  | case4 left t behind hts op ht right rest hright _ _ ih =>
    rw [outcome_takeIf?_bind_some (a := (t.offset, op)) _ hrest (by rw [operatorOf?, ht]; rfl)]
    obtain ⟨rfl, hnodes⟩ := hleft
    obtain ⟨place', s', hdepth', hrest', ⟨rfl, hnodes'⟩, hs'⟩ :=
      (h.reads (s := { s with rest := behind }) hdepth hnodes hright).bind_ok
    -- The node of the operator comes behind those of both operands.
    rw [hs', outcome_push_bind, chain]
    exact ih hdepth' hrest' (Placed.push (e := .binary t.offset op left right) hnodes')

/-- A level of operators is built behind its first operand. -/
theorem leftAssociative_parses (h : Parses Placed depth (below ⟨stop, limit⟩ level) expr) :
    Parses Placed depth (below ⟨stop, limit⟩ (level + 1)) (Syntax.leftAssociative level expr) := by
  intro s a hdepth hnodes
  rw [below, Syntax.leftAssociative]
  rcases hleft : expr s.rest with e | ⟨left, rest⟩
  · exact (h.reads hdepth hnodes hleft).error_bind
  · obtain ⟨place, s', hdepth', hrest', hplaced, hs'⟩ := (h.reads hdepth hnodes hleft).bind_ok
    rw [hs']
    exact chain_reads h rest.2 hdepth' hrest' hplaced

/-- If operands are built, so are all levels of operators. -/
theorem below_parses (h : Parses Placed depth (operand ⟨stop, limit⟩) expr) (level : Nat) :
    Parses Placed depth (below ⟨stop, limit⟩ level) (binaryBelow expr level) := by
  induction level with
  | zero =>
    rw [below]
    exact h
  | succ level ih => exact leftAssociative_parses ih

theorem expression_parses (h : Parses Placed depth (operand ⟨stop, limit⟩) expr) :
    Parses Placed depth (below ⟨stop, limit⟩ BinaryOp.levels) (Syntax.expression expr) :=
  below_parses h _

end Operators

/-! ## Arguments and methods -/

theorem closing?_eq_none {t : Lexeme} (h : t.token ≠ .closing) : closing? t = none := by
  simp only [closing?]

theorem opening?_eq_none {t : Lexeme} (h : t.token ≠ .opening) : opening? t = none := by
  simp only [opening?]

/-- A token comes next, or something else does. -/
theorem next_cases (token : Token) (ts : List Lexeme) :
    (∃ t behind, ts = t :: behind ∧ t.token = token) ∨ ∀ t ∈ ts.head?, t.token ≠ token := by
  rcases ts with _ | ⟨t, behind⟩
  · exact .inr fun _ h => by cases h
  · by_cases ht : t.token = token
    · exact .inl ⟨t, behind, rfl, ht⟩
    · exact .inr (by rintro _ ⟨⟩; exact ht)

theorem methodName_parses :
    Parses Noted depth (methodName stop) (Syntax.methodName stop) := by
  intro s a hdepth hnodes
  rw [methodName]
  obtain ⟨_ | ⟨⟨t, offset⟩, behind⟩, nodes, _, deepest⟩ := s
  · rw [outcome_take_bind_nil _ _ rfl]
    exact .error
  · rw [outcome_take_bind _ _ rfl]
    cases t with
    | name name => exact .ok hdepth rfl ⟨rfl, hnodes⟩
    | _ => exact .error

theorem opening_parses : Parses Noted depth (opening stop) (Syntax.opening stop) := by
  intro s a hdepth hnodes
  rw [opening]
  obtain ⟨_ | ⟨⟨t, offset⟩, behind⟩, nodes, _, deepest⟩ := s
  · rw [outcome_take_bind_nil _ _ rfl]
    exact .error
  · rw [outcome_take_bind _ _ rfl]
    cases t with
    | opening => exact .ok hdepth rfl ⟨rfl, hnodes⟩
    | _ => exact .error

section Arguments

variable {expr : Reader Expr} (h : Parses Placed depth (below ⟨stop, limit⟩ BinaryOp.levels) expr)

include h

/-- Reader and parser keep the earlier arguments with the nearest of them first; they are laid
    out in the order of the formula. -/
theorem moreArguments_reads {m : Nat} {earlier : List Expr} {places : List Nat} {ts : List Lexeme}
    (hts : ts.length ≤ m) (hdepth : s.depth = depth) (hrest : s.rest = ts)
    (hearlier : PlacedAll a earlier.reverse places.reverse s.nodes) :
    Reads (PlacedAll a) depth (forget (Syntax.moreArguments stop expr earlier ts hts))
      ((moreArguments ⟨stop, limit⟩ places).outcome s) := by
  rw [moreArguments]
  fun_induction Syntax.moreArguments stop expr earlier ts hts generalizing s places with
  | case1 earlier ts hts e harg =>
    subst hrest
    exact (h.reads hdepth hearlier.2 harg).error_bind
  | case2 earlier ts hts arg rest harg hrest' =>
    subst hrest
    obtain ⟨place, s', hdepth', hbehind, hplaced, hs'⟩ := (h.reads hdepth hearlier.2 harg).bind_ok
    rw [hs', outcome_next_bind_nil _ (hbehind.trans hrest')]
    exact .error
  | case3 earlier ts hts arg rest harg t behind hrest' _ ht ih =>
    subst hrest
    obtain ⟨place, s', hdepth', hbehind, hplaced, hs'⟩ := (h.reads hdepth hearlier.2 harg).bind_ok
    rw [hs', outcome_next_bind _ (hbehind.trans hrest')]
    simp only [ht]
    rw [moreArguments]
    refine ih hdepth' rfl ?_
    rw [List.reverse_cons, List.reverse_cons]
    exact .concat hearlier.1 hplaced
  | case4 earlier ts hts arg rest harg t behind hrest' _ ht =>
    subst hrest
    obtain ⟨place, s', hdepth', hbehind, hplaced, hs'⟩ := (h.reads hdepth hearlier.2 harg).bind_ok
    rw [hs', outcome_next_bind _ (hbehind.trans hrest')]
    simp only [ht]
    refine .ok hdepth' rfl ?_
    rw [List.reverse_cons, List.reverse_cons]
    exact .concat hearlier.1 hplaced
  | case5 earlier ts hts arg rest harg t behind hrest' _ hcomma hclosing =>
    subst hrest
    obtain ⟨place, s', hdepth', hbehind, hplaced, hs'⟩ := (h.reads hdepth hearlier.2 harg).bind_ok
    rw [hs', outcome_next_bind _ (hbehind.trans hrest')]
    simp only []
    exact .error

theorem arguments_parses :
    Parses PlacedAll depth (arguments ⟨stop, limit⟩) (Syntax.arguments stop expr) := by
  intro s a hdepth hnodes
  rw [arguments]
  obtain ⟨rest, nodes, _, deepest⟩ := s
  rcases next_cases .closing rest with ⟨t, behind, rfl, ht⟩ | hrest
  · rw [outcome_takeIf?_bind_some (a := ()) _ rfl (by rw [closing?, ht])]
    simp only [Syntax.arguments, ht]
    exact .ok hdepth rfl (hnodes ▸ placedAll_nil a)
  · rw [outcome_takeIf?_bind_none _ fun t ht => closing?_eq_none (hrest t ht),
      Syntax.arguments_of_ne hrest]
    exact moreArguments_reads h (Nat.le_refl _) hdepth rfl (hnodes ▸ placedAll_nil a)

/-- A call is built behind its arguments. -/
theorem call_reads {b : Arena} (call : List Expr → Expr) (node : List Nat → Node)
    (hdepth : s.depth = depth) (hnodes : s.nodes = b.nodes)
    (hlast : ∀ args, (call args).last a =
      ((Expr.layOutAll args b).1.1, node (Expr.layOutAll args b).1.2)) :
    Reads (Placed a) depth
      ((forget (Syntax.arguments stop expr s.rest)).map fun (args, rest) => (call args, rest))
      ((arguments ⟨stop, limit⟩ >>= fun args => push (node args)).outcome s) := by
  rcases hargs : Syntax.arguments stop expr s.rest with e | ⟨args, rest⟩
  · exact ((arguments_parses h).reads hdepth hnodes hargs).error_bind
  · obtain ⟨_, s', hdepth', hrest', ⟨rfl, hnodes'⟩, hs'⟩ :=
      ((arguments_parses h).reads hdepth hnodes hargs).bind_ok
    rw [hs']
    have hpush : Placed a (call args) s'.nodes.size (s'.nodes.push ((call args).last a).2) :=
      .push (by rw [hlast, hnodes'])
    rw [hlast] at hpush
    exact .ok hdepth' hrest' hpush

/-- The call of a method is built behind its receiver and its arguments. -/
theorem method_reads {receiver : Expr} {place : Nat} (hdepth : s.depth = depth)
    (hreceiver : Placed a receiver place s.nodes) :
    Reads (Placed a) depth (forget (Syntax.method stop expr receiver s.rest))
      ((method ⟨stop, limit⟩ place).outcome s) := by
  rw [method, Syntax.method]
  obtain ⟨rfl, hnodes⟩ := hreceiver
  rcases hname : Syntax.methodName stop s.rest with e | ⟨⟨offset, name⟩, ⟨_, _⟩⟩
  · exact (methodName_parses.reads hdepth hnodes hname).error_bind
  obtain ⟨_, s₁, hdepth₁, rfl, ⟨rfl, hnodes₁⟩, hs₁⟩ :=
    (methodName_parses.reads hdepth hnodes hname).bind_ok
  rw [hs₁]
  dsimp only
  rcases hopening : Syntax.opening stop s₁.rest with e | ⟨⟨⟩, ⟨_, _⟩⟩
  · exact (opening_parses.reads hdepth₁ hnodes₁ hopening).error_bind
  obtain ⟨_, s₂, hdepth₂, rfl, ⟨-, hnodes₂⟩, hs₂⟩ :=
    (opening_parses.reads hdepth₁ hnodes₁ hopening).bind_ok
  rw [hs₂]
  dsimp only
  have hreads := call_reads h (a := a) (.method offset receiver name)
    (fun args => ⟨offset, .method _ name args⟩) hdepth₂ hnodes₂ fun args => rfl
  rcases hargs : Syntax.arguments stop expr s₂.rest with e | ⟨args, ⟨_, _⟩⟩ <;>
    rw [hargs] at hreads <;> exact hreads

/-- Calls of methods are built behind each other, each with the one before it as its
    receiver. -/
theorem methods_reads {m place : Nat} {receiver : Expr} {ts : List Lexeme} (hts : ts.length < m)
    (hdepth : s.depth = depth) (hrest : s.rest = ts) (hreceiver : Placed a receiver place s.nodes) :
    Reads (Placed a) depth (forget (Syntax.methods stop expr receiver ts hts))
      ((methods ⟨stop, limit⟩ place).outcome s) := by
  rw [methods]
  fun_induction Syntax.methods stop expr receiver ts hts generalizing s place with
  | case1 receiver hts =>
    rw [outcome_takeIf?_bind_none _ (by simp [hrest])]
    exact .ok hdepth hrest hreceiver
  | case2 receiver t behind hts ht e hcall =>
    rw [outcome_takeIf?_bind_some (a := ()) _ hrest (by rw [dot?, ht])]
    have hreads := method_reads (s := { s with rest := behind }) h hdepth hreceiver
    rw [hcall] at hreads
    exact hreads.error_bind
  | case3 receiver t behind hts ht call rest hcall _ _ ih =>
    rw [outcome_takeIf?_bind_some (a := ()) _ hrest (by rw [dot?, ht])]
    have hreads := method_reads (s := { s with rest := behind }) h hdepth hreceiver
    rw [hcall] at hreads
    obtain ⟨place', s', hdepth', hrest', hplaced, hs'⟩ := hreads.bind_ok
    rw [hs', methods]
    exact ih hdepth' hrest' hplaced
  | case4 receiver t behind hts ht =>
    rw [outcome_takeIf?_bind_none _ (by simp [hrest, dot?])]
    exact .ok hdepth hrest hreceiver

/-! ## Operands -/

/-- A group is built as what is in it: parentheses have no node. -/
theorem group_parses : Parses Placed depth (group ⟨stop, limit⟩) (Syntax.group stop expr) := by
  intro s a hdepth hnodes
  rw [group]
  rcases hinner : expr s.rest with e | ⟨inner, ⟨behind, hbehind⟩⟩
  · rw [Syntax.group_of_error hinner]
    exact (h.reads hdepth hnodes hinner).error_bind
  obtain ⟨place, s', hdepth', rfl, hplaced, hs'⟩ := (h.reads hdepth hnodes hinner).bind_ok
  rw [hs', closing, bind_assoc]
  rcases hrest : s'.rest with _ | ⟨t, behind⟩
  · simp only [hrest] at hinner
    rw [outcome_next_bind_nil _ hrest, Syntax.group_of_end hinner]
    exact .error
  · simp only [hrest] at hinner
    rw [outcome_next_bind _ hrest]
    by_cases ht : t.token = .closing
    · simp only [Syntax.group_of_closing hinner ht, ht]
      exact .ok hdepth' rfl hplaced
    · rw [Syntax.group_of_ne hinner ht]
      simp only []
      exact .error

/-- Literals and references are nodes of their own; a call is pushed behind its arguments, and
    on a field behind its receiver too, at the place of the member. -/
theorem primary_parses :
    Parses Placed depth (primary ⟨stop, limit⟩) (Syntax.primary stop expr) := by
  intro s a hdepth hnodes
  rw [primary]
  obtain ⟨_ | ⟨⟨t, offset⟩, behind⟩, nodes, _, deepest⟩ := s
  · rw [outcome_take_bind_nil _ _ rfl]
    exact .error
  rw [outcome_take_bind _ _ rfl]
  cases t with
  | number n => exact .ok hdepth rfl (Placed.push (e := .number offset n) hnodes)
  | text t => exact .ok hdepth rfl (Placed.push (e := .text offset t) hnodes)
  | name name =>
    rcases next_cases .opening behind with ⟨t, behind, rfl, ht⟩ | hbehind
    · dsimp only
      rw [outcome_takeIf?_bind_some (a := ()) _ rfl (by rw [opening?, ht])]
      have hreads := call_reads h (s := ⟨behind, nodes, _, deepest⟩) (a := a)
        (.call offset name) (fun args => ⟨offset, .call name args⟩) hdepth hnodes
        fun args => rfl
      simp only [Syntax.primary, Syntax.arguments?, ht]
      rcases hargs : Syntax.arguments stop expr behind with e | ⟨args, ⟨_, _⟩⟩ <;>
        rw [hargs] at hreads <;> exact hreads
    · dsimp only
      rw [outcome_takeIf?_bind_none _ fun t ht => opening?_eq_none (hbehind t ht)]
      simp only [Syntax.primary, Syntax.arguments?_of_ne stop hbehind]
      exact .ok hdepth rfl (Placed.push (e := .reference offset (.name name)) hnodes)
  | field object name =>
    rcases next_cases .opening behind with ⟨t, behind, rfl, ht⟩ | hbehind
    · dsimp only
      rw [outcome_takeIf?_bind_some (a := ()) _ rfl (by rw [opening?, ht])]
      dsimp only
      rw [outcome_push_bind]
      obtain ⟨hplace, hobject⟩ :=
        Placed.push (a := a) (e := .reference offset (.name object)) hnodes
      -- The node of the object is there before its method has arguments.
      have hreads := call_reads h (s := ⟨behind, nodes.push _, _, deepest⟩) (a := a)
        (.method (offset + object.utf8ByteSize + 1) (.reference offset (.name object)) name)
        (fun args => ⟨offset + object.utf8ByteSize + 1, .method _ name args⟩) hdepth hobject
        fun args => rfl
      simp only [Syntax.primary, Syntax.arguments?, ht]
      rw [← hplace] at hreads
      rcases hargs : Syntax.arguments stop expr behind with e | ⟨args, ⟨_, _⟩⟩ <;>
        rw [hargs] at hreads <;> exact hreads
    · dsimp only
      rw [outcome_takeIf?_bind_none _ fun t ht => opening?_eq_none (hbehind t ht)]
      simp only [Syntax.primary, Syntax.arguments?_of_ne stop hbehind]
      exact .ok hdepth rfl (Placed.push (e := .reference offset (.field object name)) hnodes)
  | opening =>
    have hreads := group_parses h (s := ⟨behind, nodes, _, deepest⟩) hdepth hnodes
    simp only [Syntax.primary]
    rcases hgroup : Syntax.group stop expr behind with e | ⟨inner, ⟨_, _⟩⟩ <;>
      rw [hgroup] at hreads <;> exact hreads
  | operator | not | assign | closing | comma | dot => exact .error

end Arguments

/-- A prefix is pushed behind its operand; without one it is a primary with the calls of
    methods that follow. -/
theorem prefixed_parses {k : Nat}
    (h : Parses Placed depth (operand ⟨stop, limit⟩) (Syntax.operand stop k)) :
    Parses Placed depth (prefixed ⟨stop, limit⟩) (Syntax.operand stop (k + 1)) := by
  have hexpr := expression_parses h
  intro s a hdepth hnodes
  rw [prefixed]
  obtain ⟨_ | ⟨t, behind⟩, nodes, _, deepest⟩ := s
  · rw [outcome_takeIf?_bind_none _ (by simp)]
    exact ((primary_parses hexpr).reads hdepth hnodes rfl).error_bind
  simp only [Syntax.operand]
  split
  · rename_i op hop
    rw [outcome_takeIf?_bind_some (a := (t.offset, op)) _ rfl (by rw [prefixOp?, hop]; rfl)]
    have hreads := h (s := ⟨behind, nodes, _, deepest⟩) hdepth hnodes
    rcases hinner : Syntax.operand stop k behind with e | ⟨inner, rest⟩ <;> rw [hinner] at hreads
    · exact hreads.error_bind
    · obtain ⟨_, s', hdepth', hrest', ⟨rfl, hnodes'⟩, hs'⟩ := hreads.bind_ok
      rw [hs']
      exact .ok hdepth' hrest' (Placed.push (e := .unary t.offset op inner) hnodes')
  · rename_i hop
    rw [outcome_takeIf?_bind_none _ (by simp [prefixOp?, hop])]
    have hprimary := primary_parses hexpr
    dsimp only
    split
    · rename_i e he
      exact (hprimary.reads (s := ⟨t :: behind, nodes, _, deepest⟩) hdepth hnodes he).error_bind
    · rename_i receiver rest hreceiver
      obtain ⟨place, s', hdepth', hrest', hplaced, hs'⟩ :=
        (hprimary.reads (s := ⟨t :: behind, nodes, _, deepest⟩) hdepth hnodes hreceiver).bind_ok
      rw [hs']
      exact methods_reads hexpr rest.2 hdepth' hrest' hplaced

/-- Where an operand ends, the depth is as before. -/
theorem Reads.left {built : α → β → Array Node → Prop}
    {r : Except (Located SyntaxError) (α × List Lexeme)}
    {o : Option (Except (Located SyntaxError) β × State)} (h : Reads built (depth + 1) r o) :
    Reads built depth r (o.map fun (r, s) => (r, { s with depth := s.depth - 1 })) := by
  cases h with
  | ok hdepth hrest hbuilt => exact .ok (by simp [hdepth]) hrest hbuilt
  | error => exact .error

/-- An operand is built as it is read under what is left of the limit. -/
theorem operand_parses {k : Nat} (hlimit : depth + k = limit) :
    Parses Placed depth (operand ⟨stop, limit⟩) (Syntax.operand stop k) := by
  induction k generalizing depth with
  | zero =>
    intro s a hdepth _
    -- No depth is left, and the counter has come to the limit.
    rw [outcome_operand, if_pos (by omega)]
    obtain ⟨_ | ⟨t, behind⟩, nodes, _, deepest⟩ := s <;> exact .error
  | succ k ih =>
    intro s a hdepth hnodes
    rw [outcome_operand, if_neg (by omega)]
    have hreads : Reads (Placed a) (depth + 1) _ _ :=
      prefixed_parses (ih (by omega)) (s := s.entered) (congrArg (· + 1) hdepth) hnodes
    exact hreads.left

/-! ## Formulas -/

/-- Parsing `ts` ends in the state `s`, with what they are read as: the same error, or the
    root of the formula, whose nodes have been built. -/
structure Leaves (stop limit : Nat) (ts : List Lexeme) (s : State) : Prop where
  ends : parse stop limit ts =
    some ((Statement.ofLexemes stop limit ts).map fun st => st.arena.size - 1, s)
  nodes : ∀ st, Statement.ofLexemes stop limit ts = .ok st → s.nodes = st.arena.nodes

/-- A formula is built: the nodes are those of its arena, the last of them its root. -/
def Built (st : Statement) (root : Nat) (nodes : Array Node) : Prop :=
  root = st.arena.size - 1 ∧ nodes = st.arena.nodes

theorem nodes_arena_assignment (offset targetOffset : Nat) (target : Reference) (value : Expr) :
    let a := (Expr.reference targetOffset target).layOut {}
    let b := value.layOut a.1
    (Statement.assignment offset targetOffset target value).arena.nodes =
      b.1.nodes.push ⟨offset, .assign (a.1.size - 1) (b.1.size - 1)⟩ := rfl

/-- A formula that does not begin with an assignment is an expression. -/
theorem ofLexemes_of_target?_none {ts : List Lexeme} (h : target? ts = none) :
    Statement.ofLexemes stop depth ts = (Expr.ofLexemes stop depth ts).map .expression := by
  unfold Statement.ofLexemes
  split
  · cases h
  · cases h
  · rfl

theorem ofLexemes_of_target?_some {ts : List Lexeme} {offset assign : Nat} {r : Reference}
    (h : target? ts = some (offset, r, assign)) :
    ∃ t u behind, ts = t :: u :: behind ∧ Statement.ofLexemes stop depth ts =
      (Expr.ofLexemes stop depth behind).map (.assignment assign offset r) := by
  unfold target? at h
  split at h <;> cases h <;> exact ⟨_, _, _, rfl, rfl⟩

/-- An expression is laid out at the beginning of an arena, or behind a target. -/
theorem root_reads (stop limit : Nat) (ts : List Lexeme) :
    ∃ (f : Expr → Statement) (us : List Lexeme),
      Statement.ofLexemes stop limit ts = (Expr.ofLexemes stop limit us).map f ∧
      Reads (fun e => Built (f e)) 0 (forget (Syntax.expression (Syntax.operand stop limit) us))
        ((root stop limit).outcome { rest := ts }) := by
  have hbelow : Parses Placed 0 (below ⟨stop, limit⟩ BinaryOp.levels) _ :=
    expression_parses (operand_parses (Nat.zero_add limit))
  rw [root, outcome_bind, outcome_get]
  dsimp only
  rcases htarget : target? ts with _ | ⟨offset, r, assign⟩
  · have hreads : Reads (Placed {}) 0 _ _ := hbelow (s := { rest := ts }) rfl rfl
    exact ⟨.expression, ts, ofLexemes_of_target?_none htarget, hreads⟩
  · obtain ⟨t, u, behind, rfl, hformula⟩ := ofLexemes_of_target?_some htarget
    refine ⟨.assignment assign offset r, behind, hformula, ?_⟩
    dsimp only
    -- The target has the first place, and the value is laid out behind it.
    rw [outcome_next_bind _ rfl, outcome_next_bind _ rfl, outcome_push_bind]
    obtain ⟨hplace, htarget⟩ := Placed.push (a := {}) (e := .reference offset r) rfl
    have hreads := hbelow (s := { rest := behind, nodes := #[].push ⟨offset, .reference r⟩ }) rfl
      htarget
    rcases hvalue : Syntax.expression (Syntax.operand stop limit) behind with e | ⟨value, rest⟩ <;>
      rw [hvalue] at hreads
    · dsimp only
      exact hreads.error_bind
    · obtain ⟨_, s', hdepth', hrest', ⟨rfl, hnodes'⟩, hs'⟩ := hreads.bind_ok
      dsimp only
      rw [hs']
      refine .ok hdepth' hrest' ?_
      rw [Built, Arena.size, nodes_arena_assignment, Array.size_push, Nat.add_sub_cancel, ← hnodes',
        ← hplace]
      exact ⟨rfl, rfl⟩

/-- A parser that fails as the reader does leaves nothing else to say. -/
theorem leaves_of_error {ts : List Lexeme} {e : Located SyntaxError}
    (hread : Statement.ofLexemes stop limit ts = .error e)
    (hparse : parse stop limit ts = some (.error e, s)) : Leaves stop limit ts s where
  ends := by rw [hread, hparse]; rfl
  nodes st h := by rw [hread] at h; cases h

/-- A parser that has built the formula has read it. -/
theorem leaves_of_ok {ts : List Lexeme} {st : Statement} {root : Nat}
    (hread : Statement.ofLexemes stop limit ts = .ok st)
    (hparse : parse stop limit ts = some (.ok root, s)) (hbuilt : Built st root s.nodes) :
    Leaves stop limit ts s where
  ends := by rw [hread, hparse, hbuilt.1]; rfl
  nodes st' h := by rw [hread] at h; cases h; exact hbuilt.2

/-- What a parser gets to and builds is what its lexemes are read as. -/
theorem exists_leaves (stop limit : Nat) (ts : List Lexeme) : ∃ s, Leaves stop limit ts s := by
  obtain ⟨f, us, hformula, hreads⟩ := root_reads stop limit ts
  rw [Expr.ofLexemes] at hformula
  rcases hexpr : Syntax.expression (Syntax.operand stop limit) us with
    e | ⟨e, ⟨_ | ⟨t, behind⟩, _⟩⟩ <;> rw [hexpr] at hreads hformula
  · obtain ⟨s, hs⟩ := hreads.bind_error
    exact ⟨s, leaves_of_error hformula (hs _)⟩
  · obtain ⟨root, s, -, hrest, hbuilt, hs⟩ := hreads.bind_ok
    refine ⟨s, leaves_of_ok hformula ?_ hbuilt⟩
    rw [parse, statement, hs, outcome_next_bind_nil _ hrest, outcome_pure]
  · obtain ⟨root, s, -, hrest, -, hs⟩ := hreads.bind_ok
    refine ⟨{ s with rest := behind }, leaves_of_error hformula ?_⟩
    rw [parse, statement, hs, outcome_next_bind _ hrest]
    rfl

/-- The nodes of a formula are those that the parser has put behind each other. -/
theorem parse_of_ofLexemes {ts : List Lexeme} {st : Statement}
    (h : Statement.ofLexemes stop limit ts = .ok st) :
    ∃ s, parse stop limit ts = some (.ok (st.arena.size - 1), s) ∧ s.nodes = st.arena.nodes := by
  obtain ⟨s, hs⟩ := exists_leaves stop limit ts
  exact ⟨s, by rw [hs.ends, h]; rfl, hs.nodes st h⟩

end Formula.Parser
