import Formula.Host.Units

/-!
# Tables

A table is a host for tools: its variables are *cells* that the table holds
itself, its functions are what is registered in it, and its units are a table of
units. A field of an object is the cell of the name `object.field`.

To define a name is to make a new cell for it. Programs hold on to the cells that
their names had when they were compiled: what is written to a cell reaches all
who hold it, but a later definition of the name does not concern them. Whether a
cell can be assigned to never changes; the table itself may write to all of them
(`Table.set`).

The state of the host is the row of all cells there ever were, and what the
registered functions keep for themselves, of a type `τ`.
-/

namespace Formula

variable {τ : Type}

/-- A place for a value. -/
structure Cell where
  value : Value
  /-- Whether formulas may assign to it. -/
  writable : Bool

/-- The state of a table. -/
structure Store (τ : Type) where
  /-- The cells in the order in which they were made. -/
  cells : Array Cell := #[]
  /-- What the functions keep. -/
  own : τ

namespace Store

/-- The value of the cell at a place. -/
def value (s : Store τ) (place : Nat) : Value := s.cells[place]?.elim .undefined Cell.value

/-- Whether the cell at a place can be assigned to. -/
def writable (s : Store τ) (place : Nat) : Bool := s.cells[place]?.any Cell.writable

/-- The store with the value of a cell replaced. -/
def replace (s : Store τ) (place : Nat) (v : Value) : Store τ :=
  { s with cells := s.cells.modify place fun c => { c with value := v } }

/-- The store with a new cell. -/
def add (s : Store τ) (c : Cell) : Store τ := { s with cells := s.cells.push c }

end Store

/-- The variable that a cell is. -/
def Variable.cell (place : Nat) : Variable (Store τ) where
  kind s := (s.value place).kind
  read _ := fun s => (s.value place, s)
  write _ v := fun s =>
    if s.writable place then .ok () (s.replace place v)
    else .error readOnlyReason s

/-- A host that holds its variables in cells. -/
structure Table (τ : Type) where
  /-- The cell of each name, in the order in which the names were first defined. -/
  names : List (String × Nat) := []
  /-- The functions, those registered last first. -/
  functions : List (String × Function (Store τ)) := []
  units : UnitTable := {}
  store : Store τ

namespace Table

/-- The place of the cell of a name. -/
def place? (t : Table τ) (name : String) : Option Nat := t.names.lookup name

/-- The value of a name. -/
def value? (t : Table τ) (name : String) : Option Value :=
  (t.place? name).map t.store.value

/-- The names with a place given to one of them; a new name comes last. -/
def assign (names : List (String × Nat)) (name : String) (place : Nat) : List (String × Nat) :=
  match names with
  | [] => [(name, place)]
  | (n, p) :: names =>
    if n = name then (name, place) :: names else (n, p) :: assign names name place

/-- Makes a new cell for a name. -/
def define (t : Table τ) (name : String) (v : Value) (writable : Bool) : Table τ :=
  { t with
    names := assign t.names name t.store.cells.size
    store := t.store.add ⟨v, writable⟩ }

theorem lookup_cons_eq {α : Type} (m : String) (a : α) (entries : List (String × α))
    (n : String) :
    ((m, a) :: entries).lookup n = if n = m then some a else entries.lookup n := by
  rw [List.lookup_cons]
  by_cases hn : n = m
  · rw [beq_iff_eq.2 hn, if_pos hn]
  · rw [beq_false_of_ne hn, if_neg hn]

/-- A name that is assigned stands for the place, and the others for what they stood for. -/
theorem lookup_assign_eq (names : List (String × Nat)) (name : String) (place : Nat)
    (n : String) :
    (assign names name place).lookup n = if n = name then some place else names.lookup n := by
  induction names with
  | nil => exact lookup_cons_eq ..
  | cons entry names ih =>
    obtain ⟨m, p⟩ := entry
    by_cases hm : m = name
    · subst hm
      rw [assign, if_pos rfl, lookup_cons_eq, lookup_cons_eq]
      by_cases hn : n = m <;> simp [hn]
    · rw [assign, if_neg hm, lookup_cons_eq, lookup_cons_eq, ih]
      by_cases hn : n = m
      · rw [if_pos hn, if_neg (hn ▸ hm), if_pos hn]
      · rw [if_neg hn, if_neg hn]

/-- A definition gives the name the next place. -/
theorem place?_define (t : Table τ) (name : String) (v : Value) (writable : Bool) (n : String) :
    (t.define name v writable).place? n =
      if n = name then some t.store.cells.size else t.place? n :=
  lookup_assign_eq ..

/-- Defines a variable that can be assigned to. -/
def withVariable (t : Table τ) (name : String) (v : Value) : Table τ := t.define name v true

/-- Defines a variable that cannot be assigned to. -/
def withConstant (t : Table τ) (name : String) (v : Value) : Table τ := t.define name v false

/-- Defines a field that can be assigned to. -/
def withField (t : Table τ) (object name : String) (v : Value) : Table τ :=
  t.define (Reference.field object name).text v true

/-- Registers a function. -/
def withFunction (t : Table τ) (name : String) (f : Function (Store τ)) : Table τ :=
  { t with functions := (name, f) :: t.functions }

/-- Writes to the cell of a name, or defines a variable if there is none. -/
def set (t : Table τ) (name : String) (v : Value) : Table τ :=
  match t.place? name with
  | some place => { t with store := t.store.replace place v }
  | none => t.withVariable name v

/-- Every name with its value. -/
def values (t : Table τ) : List (String × Value) :=
  t.names.map fun (name, place) => (name, t.store.value place)

/-- The value of a name is the one that stands beside it. -/
theorem lookup_values (t : Table τ) (name : String) : t.values.lookup name = t.value? name := by
  rw [values, value?, place?]
  induction t.names with
  | nil => rfl
  | cons entry names ih =>
    rw [List.map_cons, lookup_cons_eq, lookup_cons_eq, ih]
    split
    · rfl
    · rfl

/-- What the names of a formula stand for, at this moment. -/
def host (t : Table τ) : Host (Store τ) where
  reference? r := (t.place? r.text).map Variable.cell
  function? name := t.functions.lookup name
  units := t.units.units

end Table

end Formula
