import Formula.Arena
import Formula.Syntax.Reading

/-!
# Parsing with a state

The readers of `Formula.Syntax` hand each other what is left to read and the expressions
that they have read. A parser keeps all of it in one place (`Parser.State`): it takes the
lexemes off the front one by one, puts a node into the row of nodes as soon as its children
are there, and counts how many operands it is within. The counter is all that the limit is
compared with; it goes up where an operand begins and down where it ends, with or without
an error (`Parser.Bounds.operand`).

A parser that has no outcome does not end.
-/

namespace Formula

/-- What a parser works on. -/
structure Parser.State where
  /-- The lexemes that are left. -/
  rest : List Lexeme
  /-- The nodes so far. -/
  nodes : Array Node := #[]
  /-- The number of operands that have begun and not ended. -/
  depth : Nat := 0
  /-- The greatest depth so far. -/
  deepest : Nat := 0

/-- What a parser keeps to. -/
structure Parser.Bounds where
  /-- The length of the formula, where errors at its end are reported. -/
  stop : Nat
  /-- The depth that operands may reach. -/
  limit : Nat

/-- Something that a parser does. An error leaves the state as it is at that moment. -/
abbrev Parser (α : Type) := ExceptT (Located SyntaxError) (StateT Parser.State Option) α

namespace Parser

variable {α : Type}

/-- Where an error is reported that concerns what comes next. -/
def State.place (stop : Nat) (s : State) : Nat := s.rest.head?.elim stop (·.offset)

/-- What a parser ends with, and the state that it leaves. -/
def outcome (x : Parser α) (s : State) : Option (Except (Located SyntaxError) α × State) :=
  x.run.run s

/-! ## Lexemes and nodes -/

/-- Fails at `offset`. -/
def fail (offset : Nat) (cause : SyntaxError) : Parser α := throw ⟨offset, cause⟩

/-- Reports a lexeme that cannot stand where it stands. -/
def unexpected (expected : Option Expectation) (t : Lexeme) : Parser α :=
  fail t.offset (.unexpectedToken expected t.token)

/-- Takes the next lexeme, if there is one and it is as asked; what is found in it. -/
def takeIf? (find? : Lexeme → Option α) : Parser (Option α) := do
  let s ← get
  match s.rest with
  | [] => return none
  | t :: rest =>
    match find? t with
    | none => return none
    | some a =>
      set { s with rest }
      return some a

/-- Takes the next lexeme. -/
def next : Parser (Option Lexeme) := takeIf? some

/-- Takes the next lexeme, which has to be there. -/
def take (stop : Nat) : Parser Lexeme := do
  match ← next with
  | none => fail stop .unexpectedEnd
  | some t => return t

/-- Puts a node behind the others; its place. -/
def push (n : Node) : Parser Nat := do
  let s ← get
  set { s with nodes := s.nodes.push n }
  return s.nodes.size

/-- An opening parenthesis. -/
def opening? (t : Lexeme) : Option Unit :=
  match t.token with
  | .opening => some ()
  | _ => none

/-- A closing parenthesis. -/
def closing? (t : Lexeme) : Option Unit :=
  match t.token with
  | .closing => some ()
  | _ => none

/-- A dot. -/
def dot? (t : Lexeme) : Option Unit :=
  match t.token with
  | .dot => some ()
  | _ => none

/-- A prefix operator and its place. -/
def prefixOp? (t : Lexeme) : Option (Nat × UnaryOp) :=
  (Syntax.prefixOp? t.token).map (t.offset, ·)

/-- An operator of a level and its place. -/
def operatorOf? (level : Nat) (t : Lexeme) : Option (Nat × BinaryOp) :=
  (Syntax.operatorOf? level t.token).map (t.offset, ·)

/-- The name of a method and its place. -/
def methodName (stop : Nat) : Parser (Nat × String) := do
  let t ← take stop
  match t.token with
  | .name name => return (t.offset, name)
  | _ => unexpected (some .methodName) t

/-- An opening parenthesis that has to be there. -/
def opening (stop : Nat) : Parser Unit := do
  let t ← take stop
  match t.token with
  | .opening => return ()
  | _ => unexpected (some .opening) t

/-- The closing parenthesis of a group. -/
def closing (stop : Nat) : Parser Unit := do
  match ← next with
  | none => fail stop .unclosedParenthesis
  | some t =>
    match t.token with
    | .closing => return ()
    | _ => unexpected (some .closing) t

/-! ## Depth -/

/-- Begins an operand, unless it lies too deeply. -/
def descend (stop limit : Nat) : Parser Unit := do
  let s ← get
  if limit ≤ s.depth then fail (s.place stop) .nestedTooDeeply
  else set { s with depth := s.depth + 1, deepest := max s.deepest (s.depth + 1) }

/-- Ends an operand. -/
def ascend : StateT State Option Unit := modify fun s => { s with depth := s.depth - 1 }

/-! ## Expressions -/

namespace Bounds

mutual

/-- An operand, which is one level further down. -/
def operand (b : Bounds) : Parser Nat :=
  (do
    match ← (descend b.stop b.limit).run with
    | .error e => return .error e
    | .ok () =>
      let result ← (b |>.prefixed).run
      ascend
      return result : StateT State Option (Except (Located SyntaxError) Nat))
partial_fixpoint

/-- An operand whose level has been entered. -/
def prefixed (b : Bounds) : Parser Nat := do
  match ← takeIf? prefixOp? with
  | some (offset, op) =>
    let inner ← b |>.operand
    push ⟨offset, .unary op inner⟩
  | none =>
    let receiver ← b |>.primary
    b |>.methods receiver
partial_fixpoint

/-- The calls of methods that follow `receiver`. -/
def methods (b : Bounds) (receiver : Nat) : Parser Nat := do
  match ← takeIf? dot? with
  | none => return receiver
  | some () =>
    let call ← b |>.method receiver
    b |>.methods call
partial_fixpoint

/-- The call of a method on `receiver`, behind the dot. -/
def method (b : Bounds) (receiver : Nat) : Parser Nat := do
  let (offset, name) ← methodName b.stop
  opening b.stop
  let args ← b |>.arguments
  push ⟨offset, .method receiver name args⟩
partial_fixpoint

/-- A literal, a reference, a call or a group. -/
def primary (b : Bounds) : Parser Nat := do
  let t ← take b.stop
  match t.token with
  | .number n => push ⟨t.offset, .number n⟩
  | .text s => push ⟨t.offset, .text s⟩
  | .name name =>
    match ← takeIf? opening? with
    | none => push ⟨t.offset, .reference (.name name)⟩
    | some () =>
      let args ← b |>.arguments
      push ⟨t.offset, .call name args⟩
  | .field object name =>
    match ← takeIf? opening? with
    | none => push ⟨t.offset, .reference (.field object name)⟩
    | some () =>
      let receiver ← push ⟨t.offset, .reference (.name object)⟩
      let args ← b |>.arguments
      push ⟨t.offset + object.utf8ByteSize + 1, .method receiver name args⟩
  | .opening => b |>.group
  | _ => unexpected none t
partial_fixpoint

/-- An expression and the closing parenthesis behind it. -/
def group (b : Bounds) : Parser Nat := do
  let inner ← b |>.below BinaryOp.levels
  closing b.stop
  return inner
partial_fixpoint

/-- The arguments behind an opening parenthesis. -/
def arguments (b : Bounds) : Parser (List Nat) := do
  match ← takeIf? closing? with
  | some () => return []
  | none => b |>.moreArguments []
partial_fixpoint

/-- The arguments up to the closing parenthesis, behind those already read, the nearest of
    these first. -/
def moreArguments (b : Bounds) (earlier : List Nat) : Parser (List Nat) := do
  let arg ← b |>.below BinaryOp.levels
  match ← next with
  | none => fail b.stop .unclosedParenthesis
  | some t =>
    match t.token with
    | .comma => b |>.moreArguments (arg :: earlier)
    | .closing => return (arg :: earlier).reverse
    | _ => unexpected (some .commaOrClosing) t
partial_fixpoint

/-- An expression with operators of the levels below `n` alone. -/
def below (b : Bounds) (n : Nat) : Parser Nat := do
  match n with
  | 0 => b |>.operand
  | level + 1 =>
    let left ← b |>.below level
    b |>.chain level left
partial_fixpoint

/-- The operands that follow `left` behind operators of a level, folded to the left. -/
def chain (b : Bounds) (level left : Nat) : Parser Nat := do
  match ← takeIf? (operatorOf? level) with
  | none => return left
  | some (offset, op) =>
    let right ← b |>.below level
    let place ← push ⟨offset, .binary op left right⟩
    b |>.chain level place
partial_fixpoint

end

end Bounds

/-! ## Formulas -/

/-- The target of an assignment with its place, and the place of the sign of assignment, if
    these come first. -/
def target? : List Lexeme → Option (Nat × Reference × Nat)
  | ⟨.name name, target⟩ :: ⟨.assign, offset⟩ :: _ => some (target, .name name, offset)
  | ⟨.field object name, target⟩ :: ⟨.assign, offset⟩ :: _ =>
    some (target, .field object name, offset)
  | _ => none

/-- An assignment or an expression. -/
def root (stop limit : Nat) : Parser Nat := do
  let s ← get
  match target? s.rest with
  | none => Bounds.below ⟨stop, limit⟩ BinaryOp.levels
  | some (offset, r, assign) =>
    let _ ← next
    let _ ← next
    let target ← push ⟨offset, .reference r⟩
    let value ← Bounds.below ⟨stop, limit⟩ BinaryOp.levels
    push ⟨assign, .assign target value⟩

/-- A formula, which ends where the lexemes do; its root. -/
def statement (stop limit : Nat) : Parser Nat := do
  let place ← root stop limit
  match ← next with
  | none => return place
  | some t => fail t.offset (.trailingTokens t.token)

/-- Parses lexemes from the beginning. -/
def parse (stop limit : Nat) (ts : List Lexeme) :
    Option (Except (Located SyntaxError) Nat × State) :=
  (statement stop limit).outcome { rest := ts }

/-! ## Outcomes -/

section Outcomes

variable {β : Type} {s : State} {t : Lexeme} {rest : List Lexeme}

theorem outcome_pure (a : α) (s : State) : (pure a : Parser α).outcome s = some (.ok a, s) := rfl

theorem outcome_push (n : Node) (s : State) :
    (push n).outcome s = some (.ok s.nodes.size, { s with nodes := s.nodes.push n }) := rfl

theorem outcome_get (s : State) : (get : Parser State).outcome s = some (.ok s, s) := rfl

/-- A parser goes on from the state that the one before it has left. -/
theorem outcome_bind (x : Parser α) (f : α → Parser β) (s : State) :
    (x >>= f).outcome s =
      match x.outcome s with
      | none => none
      | some (.error e, s) => some (.error e, s)
      | some (.ok a, s) => (f a).outcome s := by
  show Option.bind (x.outcome s) _ = _
  rcases x.outcome s with _ | ⟨_ | _, _⟩ <;> rfl

theorem outcome_push_bind (n : Node) (f : Nat → Parser β) (s : State) :
    (push n >>= f).outcome s =
      (f s.nodes.size).outcome { s with nodes := s.nodes.push n } := by
  rw [outcome_bind, outcome_push]

/-- A token is taken if it is one that is looked for, and only then. -/
theorem outcome_takeIf? (find? : Lexeme → Option α) (s : State) :
    (takeIf? find?).outcome s =
      match s.rest with
      | [] => some (.ok none, s)
      | t :: rest =>
        match find? t with
        | none => some (.ok none, s)
        | some a => some (.ok (some a), { s with rest }) := by
  rw [takeIf?, outcome_bind, outcome_get]
  dsimp only
  rcases s.rest with _ | ⟨t, rest⟩
  · rfl
  · dsimp only
    rcases find? t with _ | a <;> rfl

/-- Going on behind a token that is looked for. -/
theorem outcome_takeIf?_bind_some {find? : Lexeme → Option α} {a : α} (f : Option α → Parser β)
    (hs : s.rest = t :: rest) (ha : find? t = some a) :
    (takeIf? find? >>= f).outcome s = (f (some a)).outcome { s with rest } := by
  simp only [outcome_bind, outcome_takeIf?, hs, ha]

/-- Going on where none of the tokens that are looked for comes next. -/
theorem outcome_takeIf?_bind_none {find? : Lexeme → Option α} (f : Option α → Parser β)
    (hs : ∀ t ∈ s.rest.head?, find? t = none) :
    (takeIf? find? >>= f).outcome s = (f none).outcome s := by
  rw [outcome_bind, outcome_takeIf?]
  rcases hrest : s.rest with _ | ⟨t, rest⟩
  · rfl
  · rw [hrest] at hs
    simp only [hs t rfl]

theorem outcome_next_bind (f : Option Lexeme → Parser β) (hs : s.rest = t :: rest) :
    (next >>= f).outcome s = (f (some t)).outcome { s with rest } :=
  outcome_takeIf?_bind_some f hs rfl

theorem outcome_next_bind_nil (f : Option Lexeme → Parser β) (hs : s.rest = []) :
    (next >>= f).outcome s = (f none).outcome s :=
  outcome_takeIf?_bind_none f (by simp [hs])

theorem outcome_take_bind (stop : Nat) (f : Lexeme → Parser β) (hs : s.rest = t :: rest) :
    (take stop >>= f).outcome s = (f t).outcome { s with rest } := by
  rw [take, bind_assoc, outcome_next_bind _ hs]
  rfl

/-- A token that must be there is missed at the end of the input. -/
theorem outcome_take_bind_nil (stop : Nat) (f : Lexeme → Parser β) (hs : s.rest = []) :
    (take stop >>= f).outcome s = some (.error ⟨stop, .unexpectedEnd⟩, s) := by
  rw [take, bind_assoc, outcome_next_bind_nil _ hs]
  rfl

/-- The state in which an operand begins. -/
def State.entered (s : State) : State :=
  { s with depth := s.depth + 1, deepest := max s.deepest (s.depth + 1) }

/-- The counter is increased unless it has reached the limit. -/
theorem outcome_descend (stop limit : Nat) (s : State) :
    (descend stop limit).outcome s =
      if limit ≤ s.depth then some (.error ⟨s.place stop, .nestedTooDeeply⟩, s)
      else some (.ok (), s.entered) := by
  rw [descend, outcome_bind, outcome_get]
  dsimp only
  split <;> rfl

/-- An operand counts one level for itself, and gives it back however it ends. -/
theorem outcome_operand (stop limit : Nat) (s : State) :
    (Bounds.operand ⟨stop, limit⟩).outcome s =
      if limit ≤ s.depth then some (.error ⟨s.place stop, .nestedTooDeeply⟩, s)
      else ((Bounds.prefixed ⟨stop, limit⟩).outcome s.entered).map fun (r, s) =>
        (r, { s with depth := s.depth - 1 }) := by
  rw [Bounds.operand]
  show Option.bind ((descend stop limit).outcome s) _ = _
  rw [outcome_descend]
  split
  · rfl
  · show Option.bind ((Bounds.prefixed ⟨stop, limit⟩).outcome _) _ = _
    rcases (Bounds.prefixed ⟨stop, limit⟩).outcome _ with _ | ⟨r, s⟩ <;> rfl

end Outcomes

end Parser

end Formula
