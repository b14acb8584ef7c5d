import Formula.Token.Suffix

/-!
# Texts that are no formulas

Which texts cannot be cut, and where, said without scanning. Cutting arrives at a place
behind gaps and tokens that are taken one after the other (`Arrives`); it ends there if
what is left is rejected (`Rejects`):

* for its first character, if this is no gap and no token starts with it;
* for a quote that opens a text without an end: every quote behind it is escaped.
-/

namespace Formula.Token

open Text (byteLength)

/-- A token starts with `c` where `behind` follows it. Of `&` and `|` it takes two. -/
def StartsToken (c : Char) (behind : List Char) : Prop :=
  c.isAlphanum ∨
    c ∈ ['_', '\'', '=', '+', '-', '*', '/', '<', '>', '!', '(', ')', ',', '.'] ∨
    (c = '&' ∨ c = '|') ∧ behind.head? = some c

instance (c : Char) (behind : List Char) : Decidable (StartsToken c behind) :=
  inferInstanceAs (Decidable (_ ∨ _))

/-- Whether the character behind `cs` is escaped: by a backslash that is not escaped
    itself. -/
def escapes (cs : List Char) : Bool :=
  cs.foldl (fun escaped c => !escaped && c == '\\') false

/-- No quote closes the text. -/
def Unclosed (cs : List Char) : Prop :=
  ∀ front behind, cs = front ++ '\'' :: behind → escapes front

/-- What is left of a formula is rejected with an error. -/
inductive Rejects : List Char → SyntaxError → Prop
  | character {c : Char} {behind : List Char} :
      ¬ isGap c → ¬ StartsToken c behind → Rejects (c :: behind) (.unexpectedCharacter c)
  | text {behind : List Char} : Unclosed behind → Rejects ('\'' :: behind) .unterminatedText

/-- The token is the one that is taken off the front of a text, from which `span` is taken
    and `rest` is left. -/
inductive Takes (lx : Lexicon) : Token → (span rest : List Char) → Prop
  | word {token : Token} {span rest : List Char} :
      Spells lx.separator token span → Longest lx.separator span rest →
      (∀ n, token ≠ .number n) → Takes lx token span rest
  | number {n : Numeral} {span rest : List Char} :
      Measures lx n span rest → Takes lx (.number n) span rest

/-- Cutting arrives `stop` bytes into the formula, where `behind` is left of the text:
    before it there are only gaps and the lexemes that are taken. -/
inductive Arrives (lx : Lexicon) :
    (offset : Nat) → List Char → List Lexeme → (stop : Nat) → (behind : List Char) → Prop
  | here {offset : Nat} {gap behind : List Char} : (∀ c ∈ gap, isGap c) →
      Arrives lx offset (gap ++ behind) [] (offset + byteLength gap) behind
  | cons {offset stop : Nat} {gap span rest behind : List Char} {token : Token}
      {lexemes : List Lexeme} :
      (∀ c ∈ gap, isGap c) → Takes lx token span rest →
      Arrives lx (offset + byteLength gap + byteLength span) rest lexemes stop behind →
      Arrives lx offset (gap ++ span ++ rest) (⟨token, offset + byteLength gap⟩ :: lexemes)
        stop behind

end Formula.Token
