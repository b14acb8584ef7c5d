import Formula.Evaluation
import Formula.Token.Segmentation

/-!
# Where errors are reported

An error belongs to a place in the text of the formula (`Error.Placed`): to a character
that no token starts with, to the quote before a text that is not closed, to the end of the
formula, to a token, or, where it concerns the call of a method on a plain name, to the
name of the method, which is in the middle of a token.
-/

namespace Formula

open Text (byteLength)

/-- At `o` stands the name of a method that is called on a name: behind the point in a
    field that an opening parenthesis follows. -/
def IsMemberStart (ts : List Lexeme) (method : String) (o : Nat) : Prop :=
  ∃ object start left, [⟨.field object method, start⟩, ⟨.opening, left⟩] <:+: ts ∧
    o = start + object.utf8ByteSize + 1

namespace Cause

/-- The cause is that something is missing, or lies too deeply. -/
def AtEnd : Cause → Prop
  | .reading e => e = .unexpectedEnd ∨ e = .unclosedParenthesis ∨ e = .nestedTooDeeply
  | _ => False

/-- The cause can be reported at a token. -/
def At (t : Token) : Cause → Prop
  | .reading (.unexpectedToken _ found) => found = t
  | .reading (.trailingTokens first) => first = t
  | .reading e => e = .nestedTooDeeply
  | .linking _ | .operation _ | .fault _ => True

/-- The cause concerns the call of a method: that it is not known or called on something
    else than a reference, that it fails, or that there is no room for what it gives. -/
def Concerns (method : String) : Cause → Prop
  | .linking (.unknownFunction name) | .linking (.invalidReceiver name) => name = method
  | .operation (.functionFailed name _) => name = method
  | .fault _ => True
  | _ => False

end Cause

/-- The error is reported in its place. -/
inductive Error.Placed (lx : Lexicon) (source : String) : Error → Prop
  /-- A character that the tokens before it lead to. -/
  | character {before : List Lexeme} {o : Nat} {c : Char} {behind : List Char} :
      Token.Reaches lx 0 source.toList before o (c :: behind) →
      Placed lx source ⟨o, .reading (.unexpectedCharacter c)⟩
  /-- A quote that the tokens before it lead to. -/
  | quote {before : List Lexeme} {o : Nat} {behind : List Char} :
      Token.Reaches lx 0 source.toList before o ('\'' :: behind) →
      Placed lx source ⟨o, .reading .unterminatedText⟩
  /-- The end of the formula. -/
  | stop {cause : Cause} : cause.AtEnd → Placed lx source ⟨source.utf8ByteSize, cause⟩
  /-- A token. -/
  | token {ts : List Lexeme} {t : Lexeme} {cause : Cause} :
      tokenize lx source = .ok ts → t ∈ ts → cause.At t.token →
      Placed lx source ⟨t.offset, cause⟩
  /-- The name of a method that is called on a name. -/
  | member {ts : List Lexeme} {method : String} {front behind : List Char} {cause : Cause} :
      tokenize lx source = .ok ts → IsMemberStart ts method (byteLength front) →
      source.toList = front ++ method.toList ++ behind → cause.Concerns method →
      Placed lx source ⟨byteLength front, cause⟩

/-- The error is reported between two characters of the text, or at its end, where
    something is missing or lies too deeply. -/
structure Error.Within (source : String) (e : Error) : Prop where
  boundary : Text.IsBoundary source.toList e.offset
  le : e.offset ≤ source.utf8ByteSize
  atEnd : e.offset = source.utf8ByteSize → e.cause.AtEnd

end Formula
