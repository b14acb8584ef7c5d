import Formula.Program

/-!
# Listings

A program written out, an instruction after the other: its place with at least
four digits, the place in the formula in a column of at least four, and what it
does. An instruction that reads a variable shows the type that the variable has
when the listing is made.
-/

namespace Formula

variable {σ : Type}

/-- An operation, written out while the host is in the state `s`. -/
def Op.display (s : σ) : Op σ → String
  | .const (.text t) => "PUSH_CONST '" ++ t ++ "'"
  | .const v => "PUSH_CONST " ++ v.display
  | .load b => "PUSH_VAR " ++ b.name ++ " (" ++ (b.target.kind s).name ++ ")"
  | .store b => "STORE " ++ b.name
  | .binary op | .unary op => op.mnemonic
  | .call name _ argc receiver =>
    "CALL " ++ name ++ "/" ++ toString argc ++ receiver.elim "" fun b => " ON " ++ b.name

/-- An instruction at a place of its program, written out. -/
def Instruction.line (s : σ) (index : Nat) (i : Instruction σ) : String :=
  let number := toString index
  let offset := toString i.offset
  "".pushn '0' (4 - number.length) ++ number ++ " @" ++ offset ++
    "".pushn ' ' (4 - offset.length) ++ " " ++ i.op.display s ++ "\n"

/-- How the line of an instruction begins: its place with at least four digits, and the place
    in the formula. -/
def Instruction.label (index : Nat) (i : Instruction σ) : String :=
  "".pushn '0' (4 - (toString index).length) ++ toString index ++ " @" ++ toString i.offset

/-- The text that an instruction shows as it is, between quotes. -/
def Instruction.text? (i : Instruction σ) : Option String :=
  match i.op with
  | .const (.text t) => some t
  | _ => none

/-- A program written out. -/
def Program.listing (p : Program σ) (s : σ) : String :=
  String.join (p.code.toList.zipIdx.map fun (i, index) => i.line s index)

end Formula
