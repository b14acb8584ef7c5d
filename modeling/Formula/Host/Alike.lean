import Formula.Coupling
import Formula.Evaluation
import Formula.History
import Formula.Syntax.Nodes
import Mathlib.Data.Option.Basic
import Mathlib.Data.List.Forall2

/-!
# Tables that a formula cannot tell apart

Two tables look alike to the nodes of a formula if the references among them stand for
cells of the same value that can be assigned to or not in both, or for nothing in both, and
if the functions that are called are the same (`Table.Alike`). What else there is in the
tables, and where they have their cells, does not matter; but a function could look at it.
Those that a formula can be said to be about depend on the cell that they are called on
alone (`Function.DependsOnReceiver`), and leave other cells of the formula as they are
(`Function.Spares`).

The programs of the formula are then the same but for where the cells are
(`Table.SameInstruction`).
-/

namespace Formula

variable {τ : Type}

namespace Table

/-- The tables that an application can make. It defines names, registers functions and sets
    up units; and it and the programs that it runs change the store, from which no cell is
    ever taken away. -/
inductive Built : Table τ → Prop
  | empty (own : τ) : Built { store := { own } }
  | define {t : Table τ} (name : String) (v : Value) (writable : Bool) :
      Built t → Built (t.define name v writable)
  | functions {t : Table τ} (functions : List (String × Function (Store τ))) :
      Built t → Built { t with functions }
  | units {t : Table τ} (units : UnitTable) : Built t → Built { t with units }
  | store {t : Table τ} (store : Store τ) :
      t.store.cells.size ≤ store.cells.size → Built t → Built { t with store }

/-- The cell of a name. -/
def cell? (t : Table τ) (name : String) : Option Cell :=
  (t.place? name).bind fun place => t.store.cells[place]?

/-- The nodes cannot tell the tables apart. -/
structure Alike (t t' : Table τ) (xs : List Expr) : Prop where
  cell {r : Reference} : Expr.Mentions xs r → t.cell? r.text = t'.cell? r.text
  function {name : String} :
    Expr.Calls xs name → t.functions.lookup name = t'.functions.lookup name

end Table

namespace Function

/-- What the function gives, and what it leaves of the cell that it is called on, depend on
    nothing in the store but this cell. -/
def DependsOnReceiver (f : Function (Store τ)) : Prop :=
  ∀ view args (on on' : Option Nat),
    Coupled (fun s s' : Store τ => on.map (s.cells[·]?) = on'.map (s'.cells[·]?))
      (f view args (on.map .cell)) (f view args (on'.map .cell))

/-- The function leaves a cell as it is if it is not called on it. -/
def Spares (f : Function (Store τ)) (place : Nat) : Prop :=
  ∀ view args (on : Option Nat) (s : Store τ), on ≠ some place →
    (stateLeft (f view args (on.map .cell) s)).cells[place]? = s.cells[place]?

end Function

namespace Table

/-- All that a function does to the tables, as far as the nodes can see, it does to the cell
    that it is called on. -/
structure Confines (t t' : Table τ) (xs : List Expr) (f : Function (Store τ)) : Prop where
  dependsOnReceiver : f.DependsOnReceiver
  spares {r : Reference} {place : Nat} : Expr.Mentions xs r →
    t.place? r.text = some place ∨ t'.place? r.text = some place → f.Spares place

/-- A cell that none of the references among the nodes has, and that the functions that are
    called leave as it is. -/
structure Aside (t : Table τ) (xs : List Expr) (place : Nat) : Prop where
  reference {r : Reference} : Expr.Mentions xs r → t.place? r.text ≠ some place
  function {name : String} {f : Function (Store τ)} :
    Expr.Calls xs name → t.functions.lookup name = some f → f.Spares place

/-! ## The same code -/

/-- The places of the cells of one reference in both tables. -/
def SamePlace (t t' : Table τ) (xs : List Expr) (place place' : Nat) : Prop :=
  ∃ r, Expr.Mentions xs r ∧ t.place? r.text = some place ∧ t'.place? r.text = some place'

/-- The cells of one reference in both tables. -/
inductive SameBinding (t t' : Table τ) (xs : List Expr) :
    Binding (Store τ) → Binding (Store τ) → Prop
  | cell {r : Reference} {place place' : Nat} : Expr.Mentions xs r →
      t.place? r.text = some place → t'.place? r.text = some place' →
      SameBinding t t' xs ⟨r.text, .cell place⟩ ⟨r.text, .cell place'⟩

/-- The same operation, on the cells of the same references. -/
inductive SameOp (t t' : Table τ) (xs : List Expr) : Op (Store τ) → Op (Store τ) → Prop
  | const (v : Value) : SameOp t t' xs (.const v) (.const v)
  | load {b b' : Binding (Store τ)} :
      SameBinding t t' xs b b' → SameOp t t' xs (.load b) (.load b')
  | store {b b' : Binding (Store τ)} :
      SameBinding t t' xs b b' → SameOp t t' xs (.store b) (.store b')
  | binary (op : Opcode) : SameOp t t' xs (.binary op) (.binary op)
  | unary (op : Opcode) : SameOp t t' xs (.unary op) (.unary op)
  | call {name : String} {f : Function (Store τ)} {argc : Nat}
      {receiver receiver' : Option (Binding (Store τ))} :
      Expr.Calls xs name → t.functions.lookup name = some f →
      t'.functions.lookup name = some f → Option.Rel (SameBinding t t' xs) receiver receiver' →
      SameOp t t' xs (.call name f argc receiver) (.call name f argc receiver')

/-- The same instruction at the same place of the formula. -/
def SameInstruction (t t' : Table τ) (xs : List Expr) (i i' : Instruction (Store τ)) : Prop :=
  i.offset = i'.offset ∧ SameOp t t' xs i.op i'.op

/-- The same instructions, one by one. -/
def SameProgram (t t' : Table τ) (xs : List Expr) (p p' : Program (Store τ)) : Prop :=
  List.Forall₂ (SameInstruction t t' xs) p.code.toList p'.code.toList

end Table

end Formula
