import Formula.Syntax.Reading

/-!
# The grammar

Which lexemes make up which formula, said without a reader:

    statement ::= reference '=' expression | expression
    expression ::= operands of the six levels of binary operators
    operand ::= prefix-operator operand | postfix
    postfix ::= primary | postfix '.' name arguments
    primary ::= literal | reference | name arguments | object '.' name arguments
              | '(' expression ')'
    arguments ::= '(' ')' | '(' expression {',' expression} ')'

An operand has a *depth*: it bounds how deeply operands lie within each other, the
operand itself counted. What stands in parentheses and behind a prefix operator
is one level down.
-/

namespace Formula.Syntax

mutual

/-- `ts` make up `e` with operators of the levels below `level` outside parentheses. -/
inductive IsBelow : (depth level : Nat) → List Lexeme → Expr → Prop
  | operand {depth : Nat} {ts : List Lexeme} {e : Expr} :
      IsOperand depth ts e → IsBelow depth 0 ts e
  | up {depth level : Nat} {ts : List Lexeme} {e : Expr} :
      IsBelow depth level ts e → IsBelow depth (level + 1) ts e
  | binary {depth : Nat} {ts us : List Lexeme} {l r : Expr} {op : BinaryOp} {offset : Nat} :
      IsBelow depth (op.level + 1) ts l → IsBelow depth op.level us r →
      IsBelow depth (op.level + 1) (ts ++ ⟨.operator op, offset⟩ :: us) (.binary offset op l r)

/-- `ts` make up the operand `e`. -/
inductive IsOperand : (depth : Nat) → List Lexeme → Expr → Prop
  | negate {depth offset : Nat} {ts : List Lexeme} {e : Expr} :
      IsOperand depth ts e →
      IsOperand (depth + 1) (⟨.operator .sub, offset⟩ :: ts) (.unary offset .negate e)
  | not {depth offset : Nat} {ts : List Lexeme} {e : Expr} :
      IsOperand depth ts e → IsOperand (depth + 1) (⟨.not, offset⟩ :: ts) (.unary offset .not e)
  | postfixed {depth : Nat} {ts : List Lexeme} {e : Expr} :
      IsPostfix depth ts e → IsOperand (depth + 1) ts e

/-- `ts` make up `e`, a primary with calls of methods behind it. -/
inductive IsPostfix : (depth : Nat) → List Lexeme → Expr → Prop
  | primary {depth : Nat} {ts : List Lexeme} {e : Expr} :
      IsPrimary depth ts e → IsPostfix depth ts e
  | method {depth dot offset : Nat} {ts us : List Lexeme} {e : Expr} {name : String}
      {args : List Expr} :
      IsPostfix depth ts e → IsArguments depth us args →
      IsPostfix depth (ts ++ ⟨.dot, dot⟩ :: ⟨.name name, offset⟩ :: us)
        (.method offset e name args)

/-- `ts` make up `e`, which neither an operator nor a method is part of outside
    parentheses. -/
inductive IsPrimary : (depth : Nat) → List Lexeme → Expr → Prop
  | number {depth offset : Nat} {n : Numeral} :
      IsPrimary depth [⟨.number n, offset⟩] (.number offset n)
  | text {depth offset : Nat} {s : String} :
      IsPrimary depth [⟨.text s, offset⟩] (.text offset s)
  | name {depth offset : Nat} {n : String} :
      IsPrimary depth [⟨.name n, offset⟩] (.reference offset (.name n))
  | field {depth offset : Nat} {o f : String} :
      IsPrimary depth [⟨.field o f, offset⟩] (.reference offset (.field o f))
  | call {depth offset : Nat} {ts : List Lexeme} {name : String} {args : List Expr} :
      IsArguments depth ts args →
      IsPrimary depth (⟨.name name, offset⟩ :: ts) (.call offset name args)
  | fieldCall {depth offset : Nat} {ts : List Lexeme} {o f : String} {args : List Expr} :
      IsArguments depth ts args →
      IsPrimary depth (⟨.field o f, offset⟩ :: ts)
        (.method (offset + o.utf8ByteSize + 1) (.reference offset (.name o)) f args)
  | group {depth left right : Nat} {ts : List Lexeme} {e : Expr} :
      IsBelow depth BinaryOp.levels ts e →
      IsPrimary depth (⟨.opening, left⟩ :: ts ++ [⟨.closing, right⟩]) e

/-- `ts` make up arguments with their parentheses. -/
inductive IsArguments : (depth : Nat) → List Lexeme → List Expr → Prop
  | none {depth left right : Nat} :
      IsArguments depth [⟨.opening, left⟩, ⟨.closing, right⟩] []
  | some {depth left right : Nat} {ts : List Lexeme} {args : List Expr} :
      IsList depth ts args →
      IsArguments depth (⟨.opening, left⟩ :: ts ++ [⟨.closing, right⟩]) args

/-- `ts` make up at least one expression, with commas between them. -/
inductive IsList : (depth : Nat) → List Lexeme → List Expr → Prop
  | last {depth : Nat} {ts : List Lexeme} {e : Expr} :
      IsBelow depth BinaryOp.levels ts e → IsList depth ts [e]
  | cons {depth comma : Nat} {ts us : List Lexeme} {e : Expr} {es : List Expr} :
      IsBelow depth BinaryOp.levels ts e → IsList depth us es →
      IsList depth (ts ++ ⟨.comma, comma⟩ :: us) (e :: es)

end

/-- `ts` make up the expression `e`. -/
def IsExpression (depth : Nat) (ts : List Lexeme) (e : Expr) : Prop :=
  IsBelow depth BinaryOp.levels ts e

/-- `ts` make up the formula `s`. -/
inductive IsStatement (depth : Nat) : List Lexeme → Statement → Prop
  | expression {ts : List Lexeme} {e : Expr} :
      IsExpression depth ts e → IsStatement depth ts (.expression e)
  | assignName {target offset : Nat} {n : String} {ts : List Lexeme} {e : Expr} :
      IsExpression depth ts e →
      IsStatement depth (⟨.name n, target⟩ :: ⟨.assign, offset⟩ :: ts)
        (.assignment offset target (.name n) e)
  | assignField {target offset : Nat} {o f : String} {ts : List Lexeme} {e : Expr} :
      IsExpression depth ts e →
      IsStatement depth (⟨.field o f, target⟩ :: ⟨.assign, offset⟩ :: ts)
        (.assignment offset target (.field o f) e)

end Formula.Syntax
