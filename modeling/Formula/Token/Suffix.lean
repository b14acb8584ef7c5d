import Formula.Token.Segmentation

/-!
# Numbers and their units

Which unit belongs to a number, said without scanning. First the number is spelled as
long as it can be. Behind the blanks that follow, if any, the known units compete that
stand there (`UnitAt`): the longest in bytes is taken, of equally long ones the last in
the list (`Preferred`). If no unit stands there, the number ends where its spelling ends,
and the blanks are not part of it (`Measures`).
-/

namespace Formula

open Text (isBlank)

/-- `u` is longer than `v`, or as long and not before it in the list. -/
def UnitSuffix.Outranks (u v : UnitSuffix) : Prop :=
  v.name.utf8ByteSize < u.name.utf8ByteSize ∨
    v.name.utf8ByteSize = u.name.utf8ByteSize ∧ v.index ≤ u.index

namespace Token

/-- The unit stands at the front of `cs` and outranks the others that do. -/
def Preferred (units : List String) (u : UnitSuffix) (cs : List Char) : Prop :=
  UnitAt units u cs ∧ ∀ v, UnitAt units v cs → u.Outranks v

/-- The number is cut off the front of a text, from which `span` is taken and `rest` is
    left. -/
inductive Measures (lx : Lexicon) : Numeral → (span rest : List Char) → Prop
  | bare {s : Spelling} {rest : List Char} :
      s.Proper lx.separator → Longest lx.separator s.written rest →
      (∀ u, ¬ UnitAt lx.units u (rest.dropWhile isBlank)) →
      Measures lx ⟨s.value, String.ofList s.text, none⟩ s.written rest
  | quantity {s : Spelling} {u : UnitSuffix} {behind rest : List Char} :
      s.Proper lx.separator → Longest lx.separator s.written behind →
      Preferred lx.units u (behind.dropWhile isBlank) →
      behind.dropWhile isBlank = u.name.toList ++ rest →
      Measures lx ⟨s.value, String.ofList s.text, some u⟩
        (s.written ++ behind.takeWhile isBlank ++ u.name.toList) rest

end Token

end Formula
