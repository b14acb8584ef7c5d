import Formula.Error
import Mathlib.Data.List.Forall2

/-!
# Formulas put together

What is found in a formula whose front is known: the lexemes of the front, and behind
them whatever is found in the rest alone, only further on (`joined`). Of two formulas that
differ in the length of their first token, the second may be the first one with all but
that token further on (`delayed`).

Also the ways in which a text may be quoted (`Quotes`). They differ from character to
character: what would end the text or escape the next character has to be escaped, a
line feed and a tab have names, and the letters of these names stand for themselves only
if they are not escaped.
-/

namespace Formula

/-- The same token, `n` bytes further on. -/
def Lexeme.shift (n : Nat) (t : Lexeme) : Lexeme := ⟨t.token, n + t.offset⟩

/-- The same error, `n` bytes further on. -/
def Located.shift {ε : Type} (n : Nat) (e : Located ε) : Located ε := ⟨n + e.offset, e.cause⟩

namespace Token

/-- What is found in a formula that begins with the lexemes `front`, if `found` is what is
    found in the text that starts `n` bytes into it. -/
def joined (front : List Lexeme) (n : Nat) (found : Except (Located SyntaxError) (List Lexeme)) :
    Except (Located SyntaxError) (List Lexeme) :=
  match found with
  | .ok lexemes => .ok (front ++ lexemes.map (Lexeme.shift n))
  | .error e => .error (e.shift n)

/-- The same result with all that is behind the first lexeme, an error too, `n` bytes further
    on. -/
def delayed (n : Nat) (found : Except (Located SyntaxError) (List Lexeme)) :
    Except (Located SyntaxError) (List Lexeme) :=
  match found with
  | .ok [] => .ok []
  | .ok (first :: lexemes) => .ok (first :: lexemes.map (Lexeme.shift n))
  | .error e => .error (e.shift n)

/-- `span` is a way to write the character between quotes. -/
inductive Writes : Char → (span : List Char) → Prop
  | plain {c : Char} : c ≠ '\'' → c ≠ '\\' → Writes c [c]
  | escaped {c : Char} : c ≠ 'n' → c ≠ 't' → Writes c ['\\', c]
  | lineFeed : Writes '\n' ['\\', 'n']
  | tab : Writes '\t' ['\\', 't']

/-- `literal` is a way to write the text `said` with its quotes. -/
def Quotes (literal said : String) : Prop :=
  ∃ spans, List.Forall₂ Writes said.toList spans ∧
    literal.toList = '\'' :: spans.flatten ++ ['\'']

end Token

end Formula
