import Formula.Token.Scan

/-!
# How formulas are spelled

Which texts spell which lexemes, said without scanning. A formula is a row of *spans*,
one for each lexeme, with *gaps* around them (`Segments`); nothing else is in it. A
span spells its token (`Spells`), and is as long as it can be: no token that stands
at the same place is longer (`Longest`).

Units are not part of this competition, as they may be any text: first the number is
as long as it can be, and then, if a unit occurs behind it and the blanks that follow
it, the longest such unit belongs to the number, too (`Cuts`).

A text that is no formula may still be one up to some place (`Reaches`).
-/

namespace Formula

open Text (byteLength isBlank)

/-- A number can be spelled like this where `separator` stands for the point. Only
    digits can have the separator behind them. -/
structure Spelling.Proper (separator : Char) (s : Spelling) : Prop where
  whole : ∀ c ∈ s.whole, c.isDigit
  fraction : ∀ mark digits, s.fraction = some (mark, digits) →
    (mark = '.' ∨ s.whole ≠ [] ∧ mark = separator) ∧ digits ≠ [] ∧ ∀ c ∈ digits, c.isDigit
  exponent : ∀ letter sign digits, s.exponent = some (letter, sign, digits) →
    (letter = 'e' ∨ letter = 'E') ∧ (sign = none ∨ sign = some '+' ∨ sign = some '-') ∧
      digits ≠ [] ∧ ∀ c ∈ digits, c.isDigit
  nonempty : s.whole ≠ [] ∨ s.fraction.isSome

namespace Token

/-- A letter or underscore, and letters, underscores and digits behind it. -/
def IsName (cs : List Char) : Prop :=
  ∃ c ds, cs = c :: ds ∧ isNameStart c ∧ ∀ d ∈ ds, isNamePart d

/-- `said` is what is meant by `body` between quotes. -/
inductive Says : (body said : List Char) → Prop
  | nil : Says [] []
  | escape {c : Char} {body said : List Char} :
      Says body said → Says ('\\' :: c :: body) (unescape c :: said)
  | plain {c : Char} {body said : List Char} :
      c ≠ '\\' → c ≠ '\'' → Says body said → Says (c :: body) (c :: said)

/-- `span` spells the token, which has no unit. -/
inductive Spells (separator : Char) : Token → (span : List Char) → Prop
  | number {s : Spelling} {value : Float} :
      s.Proper separator → Decimal.read? s.text = some value →
      Spells separator (.number ⟨value, String.ofList s.text, none⟩) s.written
  | name {n : String} : IsName n.toList → Spells separator (.name n) n.toList
  | field {o f : String} :
      IsName o.toList → IsName f.toList →
      Spells separator (.field o f) (o.toList ++ '.' :: f.toList)
  | text {body : List Char} {s : String} :
      Says body s.toList → Spells separator (.text s) ('\'' :: body ++ ['\''])
  | sign {sign : String} {token : Token} :
      (sign, token) ∈ signs → Spells separator token sign.toList

/-- No token that stands at the front of the text is longer than `span`. -/
def Longest (separator : Char) (span rest : List Char) : Prop :=
  ∀ ⦃token : Token⦄ ⦃other : List Char⦄, Spells separator token other →
    other <+: span ++ rest → other.length ≤ span.length

/-- The unit is a known one and stands at the front of `cs`, with no letter,
    underscore or digit behind it. -/
def UnitAt (units : List String) (u : UnitSuffix) (cs : List Char) : Prop :=
  units[u.index]? = some u.name ∧ u.name ≠ "" ∧ u.name.toList <+: cs ∧
    ∀ c ∈ (cs.drop u.name.toList.length).head?, ¬ isNamePart c

/-- The token is cut off the front of a text, from which `span` is taken and `rest`
    is left. -/
inductive Cuts (lx : Lexicon) : Token → (span rest : List Char) → Prop
  | plain {token : Token} {span rest : List Char} :
      Spells lx.separator token span → Longest lx.separator span rest →
      (∀ n, token = .number n → ∀ u, ¬ UnitAt lx.units u (rest.dropWhile isBlank)) →
      Cuts lx token span rest
  | quantity {value : Float} {text : String} {u : UnitSuffix} {written blanks rest : List Char} :
      Spells lx.separator (.number ⟨value, text, none⟩) written →
      Longest lx.separator written (blanks ++ u.name.toList ++ rest) →
      (∀ c ∈ blanks, isBlank c) → UnitAt lx.units u (u.name.toList ++ rest) →
      (∀ v, UnitAt lx.units v (u.name.toList ++ rest) →
        v.name.utf8ByteSize ≤ u.name.utf8ByteSize) →
      Cuts lx (.number ⟨value, text, some u⟩) (written ++ blanks ++ u.name.toList) rest

/-- The text, which starts `offset` bytes into the formula, is gaps and the spans of
    the lexemes in turn. -/
inductive Segments (lx : Lexicon) : (offset : Nat) → List Char → List Lexeme → Prop
  | last {offset : Nat} {gap : List Char} : (∀ c ∈ gap, isGap c) → Segments lx offset gap []
  | cons {offset : Nat} {gap span rest : List Char} {token : Token} {lexemes : List Lexeme} :
      (∀ c ∈ gap, isGap c) → Cuts lx token span rest →
      Segments lx (offset + byteLength gap + byteLength span) rest lexemes →
      Segments lx offset (gap ++ span ++ rest) (⟨token, offset + byteLength gap⟩ :: lexemes)

/-- Behind gaps and the spans of the lexemes in turn, `stop` bytes into the formula,
    `behind` is left of the text. -/
inductive Reaches (lx : Lexicon) :
    (offset : Nat) → List Char → List Lexeme → (stop : Nat) → (behind : List Char) → Prop
  | here {offset : Nat} {gap behind : List Char} : (∀ c ∈ gap, isGap c) →
      Reaches lx offset (gap ++ behind) [] (offset + byteLength gap) behind
  | cons {offset stop : Nat} {gap span rest behind : List Char} {token : Token}
      {lexemes : List Lexeme} :
      (∀ c ∈ gap, isGap c) → Cuts lx token span rest →
      Reaches lx (offset + byteLength gap + byteLength span) rest lexemes stop behind →
      Reaches lx offset (gap ++ span ++ rest) (⟨token, offset + byteLength gap⟩ :: lexemes)
        stop behind

end Token

end Formula
