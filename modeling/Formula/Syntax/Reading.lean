import Formula.Error
import Formula.Syntax

/-!
# Reading a formula

A formula is read from its lexemes by descent. There are six levels of binary
operators, each associating to the left; below them an operand is a chain of
prefix operators before a literal, a reference, a call or a group in
parentheses, and calls of methods may follow it.

Every operand is read under a limit on how deeply operands may lie within each
other: a prefix operator, a group and a list of arguments each take one level.
The limit is the argument that the recursion descends on (`operand`), so nothing
else has to bound it; chains of operators, methods and arguments are loops over
the lexemes, and every reader leaves fewer of them than it was given (`Shorter`).

`stop` is the length of the formula, where errors at its end are reported.
-/

namespace Formula.Syntax

/-- What is left of `ts` behind something that was read. -/
abbrev Shorter (ts : List Lexeme) := { rest : List Lexeme // rest.length < ts.length }

/-- A reader takes at least one lexeme, or fails. -/
abbrev Reader (α : Type) :=
  (ts : List Lexeme) → Except (Located SyntaxError) (α × Shorter ts)

/-- What is left, of fewer than `n` lexemes. -/
abbrev Fewer (n : Nat) := { rest : List Lexeme // rest.length < n }

/-- Reports a lexeme that cannot stand where it stands. -/
def unexpected {α : Type} (expected : Option Expectation) (t : Lexeme) :
    Except (Located SyntaxError) α :=
  .error ⟨t.offset, .unexpectedToken expected t.token⟩

/-! ## Binary operators -/

/-- The operator of a level that a token is. -/
def operatorOf? (level : Nat) : Token → Option BinaryOp
  | .operator op => if op.level = level then some op else none
  | _ => none

/-- The operands that follow `left` behind operators of a level, folded to the
    left. -/
def chain (level : Nat) (operand : Reader Expr) {n : Nat} (left : Expr) (ts : List Lexeme)
    (h : ts.length < n) : Except (Located SyntaxError) (Expr × Fewer n) :=
  match ts with
  | [] => .ok (left, ⟨[], h⟩)
  | t :: behind =>
    match operatorOf? level t.token with
    | none => .ok (left, ⟨t :: behind, h⟩)
    | some op =>
      match operand behind with
      | .error e => .error e
      | .ok (right, rest) =>
        have : rest.1.length < behind.length := rest.2
        chain level operand (.binary t.offset op left right) rest.1
          (by simp only [List.length_cons] at h; omega)
termination_by ts.length

/-- An operand, or several behind each other with operators of a level. -/
def leftAssociative (level : Nat) (operand : Reader Expr) : Reader Expr := fun ts =>
  match operand ts with
  | .error e => .error e
  | .ok (left, rest) => chain level operand left rest.1 rest.2

/-- An expression with operators of the levels below `n` alone. -/
def binaryBelow (operand : Reader Expr) : Nat → Reader Expr
  | 0 => operand
  | n + 1 => leftAssociative n (binaryBelow operand n)

/-- An expression, given how to read an operand. -/
def expression (operand : Reader Expr) : Reader Expr :=
  binaryBelow operand BinaryOp.levels

/-! ## Arguments and methods -/

/-- The arguments from `ts` up to the closing parenthesis, behind those already
    read, the nearest of these first. -/
def moreArguments (stop : Nat) (expression : Reader Expr) {n : Nat} (earlier : List Expr)
    (ts : List Lexeme) (h : ts.length ≤ n) :
    Except (Located SyntaxError) (List Expr × Fewer n) :=
  match expression ts with
  | .error e => .error e
  | .ok (arg, rest) =>
    match hr : rest.1 with
    | [] => .error ⟨stop, .unclosedParenthesis⟩
    | t :: behind =>
      have hb : behind.length + 1 < ts.length := by simpa [hr] using rest.2
      match t.token with
      | .comma => moreArguments stop expression (arg :: earlier) behind (by omega)
      | .closing => .ok ((arg :: earlier).reverse, ⟨behind, by omega⟩)
      | _ => unexpected (some .commaOrClosing) t
termination_by ts.length

/-- The arguments behind an opening parenthesis. -/
def arguments (stop : Nat) (expression : Reader Expr) : Reader (List Expr) := fun ts =>
  match ts with
  | [] => moreArguments stop expression [] [] (Nat.le_refl _)
  | t :: behind =>
    match t.token with
    | .closing => .ok ([], ⟨behind, by simp⟩)
    | _ => moreArguments stop expression [] (t :: behind) (Nat.le_refl _)

/-- The arguments at the front of `ts` with their parentheses, if there are any, and
    what is left. -/
def arguments? (stop : Nat) (expression : Reader Expr) (ts : List Lexeme) :
    Except (Located SyntaxError) (Option (List Expr) × Fewer (ts.length + 1)) :=
  match ts with
  | [] => .ok (none, ⟨[], by simp⟩)
  | t :: behind =>
    match t.token with
    | .opening =>
      match arguments stop expression behind with
      | .error e => .error e
      | .ok (args, rest) =>
        .ok (some args, ⟨rest.1, by have := rest.2; simp only [List.length_cons]; omega⟩)
    | _ => .ok (none, ⟨t :: behind, by simp⟩)

/-- The name of a method and its place. -/
def methodName (stop : Nat) : Reader (Nat × String) := fun ts =>
  match ts with
  | [] => .error ⟨stop, .unexpectedEnd⟩
  | t :: behind =>
    match t.token with
    | .name name => .ok ((t.offset, name), ⟨behind, by simp⟩)
    | _ => unexpected (some .methodName) t

/-- An opening parenthesis that has to be there. -/
def opening (stop : Nat) : Reader Unit := fun ts =>
  match ts with
  | [] => .error ⟨stop, .unexpectedEnd⟩
  | t :: behind =>
    match t.token with
    | .opening => .ok ((), ⟨behind, by simp⟩)
    | _ => unexpected (some .opening) t

/-- The call of a method on `receiver`, behind the dot. -/
def method (stop : Nat) (expression : Reader Expr) (receiver : Expr) : Reader Expr := fun ts =>
  match methodName stop ts with
  | .error e => .error e
  | .ok ((offset, name), behindName) =>
    match opening stop behindName.1 with
    | .error e => .error e
    | .ok ((), behindOpening) =>
      match arguments stop expression behindOpening.1 with
      | .error e => .error e
      | .ok (args, rest) =>
        .ok (.method offset receiver name args,
          ⟨rest.1, Nat.lt_trans rest.2 (Nat.lt_trans behindOpening.2 behindName.2)⟩)

/-- The calls of methods that follow `receiver`. -/
def methods (stop : Nat) (expression : Reader Expr) {n : Nat} (receiver : Expr)
    (ts : List Lexeme) (h : ts.length < n) : Except (Located SyntaxError) (Expr × Fewer n) :=
  match ts with
  | [] => .ok (receiver, ⟨[], h⟩)
  | t :: behind =>
    match t.token with
    | .dot =>
      match method stop expression receiver behind with
      | .error e => .error e
      | .ok (call, rest) =>
        have : rest.1.length < behind.length := rest.2
        methods stop expression call rest.1 (by simp only [List.length_cons] at h; omega)
    | _ => .ok (receiver, ⟨t :: behind, h⟩)
termination_by ts.length

/-! ## Operands -/

/-- An expression and the closing parenthesis behind it. -/
def group (stop : Nat) (expression : Reader Expr) : Reader Expr := fun ts =>
  match expression ts with
  | .error e => .error e
  | .ok (inner, rest) =>
    match hr : rest.1 with
    | [] => .error ⟨stop, .unclosedParenthesis⟩
    | t :: behind =>
      have hb : behind.length + 1 < ts.length := by simpa [hr] using rest.2
      match t.token with
      | .closing => .ok (inner, ⟨behind, by omega⟩)
      | _ => unexpected (some .closing) t

/-- A literal, a reference, a call or a group. -/
def primary (stop : Nat) (expression : Reader Expr) : Reader Expr := fun ts =>
  match ts with
  | [] => .error ⟨stop, .unexpectedEnd⟩
  | t :: behind =>
    match t.token with
    | .number n => .ok (.number t.offset n, ⟨behind, by simp⟩)
    | .text s => .ok (.text t.offset s, ⟨behind, by simp⟩)
    | .name name =>
      match arguments? stop expression behind with
      | .error e => .error e
      | .ok (none, rest) => .ok (.reference t.offset (.name name), rest)
      | .ok (some args, rest) => .ok (.call t.offset name args, rest)
    | .field object name =>
      match arguments? stop expression behind with
      | .error e => .error e
      | .ok (none, rest) => .ok (.reference t.offset (.field object name), rest)
      | .ok (some args, rest) =>
        .ok (.method (t.offset + object.utf8ByteSize + 1) (.reference t.offset (.name object))
          name args, rest)
    | .opening =>
      match group stop expression behind with
      | .error e => .error e
      | .ok (inner, rest) => .ok (inner, ⟨rest.1, Nat.lt_trans rest.2 (Nat.lt_succ_self _)⟩)
    | _ => unexpected none t

/-- The prefix operator that a token is. -/
def prefixOp? : Token → Option UnaryOp
  | .operator .sub => some .negate
  | .not => some .not
  | _ => none

/-- An operand within which operands may lie at most `depth` deep, itself counted. -/
def operand (stop : Nat) : (depth : Nat) → Reader Expr
  | 0, [] => .error ⟨stop, .nestedTooDeeply⟩
  | 0, t :: _ => .error ⟨t.offset, .nestedTooDeeply⟩
  | _ + 1, [] => .error ⟨stop, .unexpectedEnd⟩
  | depth + 1, t :: behind =>
    match prefixOp? t.token with
    | some op =>
      match operand stop depth behind with
      | .error e => .error e
      | .ok (inner, rest) =>
        .ok (.unary t.offset op inner,
          ⟨rest.1, by have := rest.2; simp only [List.length_cons]; omega⟩)
    | none =>
      let inner := expression (operand stop depth)
      match primary stop inner (t :: behind) with
      | .error e => .error e
      | .ok (receiver, rest) => methods stop inner receiver rest.1 rest.2

end Formula.Syntax

namespace Formula

open Syntax in
/-- The expression that all of `ts` make up. -/
def Expr.ofLexemes (stop depth : Nat) (ts : List Lexeme) : Except (Located SyntaxError) Expr :=
  match expression (operand stop depth) ts with
  | .error e => .error e
  | .ok (e, ⟨[], _⟩) => .ok e
  | .ok (_, ⟨t :: _, _⟩) => .error ⟨t.offset, .trailingTokens t.token⟩

/-- The formula that `ts` make up. It is an assignment if a reference and the sign
    of assignment come first. -/
def Statement.ofLexemes (stop depth : Nat) (ts : List Lexeme) :
    Except (Located SyntaxError) Statement :=
  match ts with
  | ⟨.name name, target⟩ :: ⟨.assign, offset⟩ :: behind =>
    (Expr.ofLexemes stop depth behind).map (.assignment offset target (.name name))
  | ⟨.field object name, target⟩ :: ⟨.assign, offset⟩ :: behind =>
    (Expr.ofLexemes stop depth behind).map (.assignment offset target (.field object name))
  | ts => (Expr.ofLexemes stop depth ts).map .expression

end Formula
