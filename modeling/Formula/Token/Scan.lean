import Formula.Error
import Formula.Text.Blank
import Formula.Text.Cursor
import Formula.Token.Spelling

/-!
# Cutting a formula into tokens

A formula is cut from left to right, each time taking the longest token there
is; spaces, tabs and line breaks between tokens are passed over.

* A name is a letter or underscore with the letters, underscores and digits
  behind it; two names joined by a point are one token, a field.
* A text stands in quotes. A backslash in it gives the character behind it, but
  `\n` and `\t` give a line feed and a tab.
* A number may be followed by one of the known units, after blanks of any kind.
  A unit only counts where no letter, underscore or digit follows it, and of
  several units the longest is taken, of those the last in the list. Without a
  unit the blanks do not belong to the number.

A token is given with the text it spans and the text that is left, and the two
together are what was read (`munch_split`).
-/

namespace Formula

open Text (byteLength isBlank occursAt)

/-- What a formula may be written with, besides the fixed signs. -/
structure Lexicon where
  /-- The names of the units. -/
  units : List String := []
  /-- The character that may stand for the point in a number. -/
  separator : Char := '.'

namespace Token

/-- Whether `c` may start a name. -/
def isNameStart (c : Char) : Bool := c.isAlpha || c == '_'

/-- Whether `c` may continue a name. -/
def isNamePart (c : Char) : Bool := c.isAlphanum || c == '_'

/-- Whether `c` is passed over between tokens. -/
def isGap (c : Char) : Bool :=
  c == ' ' || c == '\t' || c == '\r' || c == '\n' || c == '\x0c'

/-- A token cut off the front of a text. -/
structure Munch where
  token : Token
  /-- The text of the token. -/
  span : List Char
  /-- The text behind it. -/
  rest : List Char

/-! ## Numbers -/

/-- The units that stand at the front of `cs`, in the order of the list. -/
def unitsAt (units : List String) (cs : List Char) : List UnitSuffix :=
  (units.zipIdx.filter fun (unit, _) =>
    !unit.isEmpty && occursAt unit.toList (!isNamePart ·) cs).map
      fun (unit, index) => ⟨index, unit⟩

/-- The longer of two units, the second of equally long ones. -/
def longerUnit (best : Option UnitSuffix) (u : UnitSuffix) : Option UnitSuffix :=
  match best with
  | none => some u
  | some b => if b.name.utf8ByteSize ≤ u.name.utf8ByteSize then some u else some b

/-- The unit at the front of `cs`. -/
def unitAt? (units : List String) (cs : List Char) : Option UnitSuffix :=
  (unitsAt units cs).foldl longerUnit none

/-- The number at the front of `cs`, where one starts. -/
def munchNumber (lx : Lexicon) (cs : List Char) : Munch :=
  let (s, rest) := Spelling.scan lx.separator cs
  let blanks := rest.takeWhile isBlank
  let after := rest.dropWhile isBlank
  let numeral : Option UnitSuffix → Numeral := fun unit => ⟨s.value, String.ofList s.text, unit⟩
  match unitAt? lx.units after with
  | some u =>
    ⟨number (numeral (some u)), s.written ++ blanks ++ u.name.toList,
      after.drop u.name.toList.length⟩
  | none => ⟨number (numeral none), s.written, rest⟩

/-! ## Names and texts -/

/-- The name or field at the front of `cs`, where a name starts. -/
def munchName (cs : List Char) : Munch :=
  let object := cs.takeWhile isNamePart
  let rest := cs.dropWhile isNamePart
  match rest with
  | '.' :: d :: behind =>
    if isNameStart d then
      let member := (d :: behind).takeWhile isNamePart
      ⟨field (String.ofList object) (String.ofList member), object ++ '.' :: member,
        (d :: behind).dropWhile isNamePart⟩
    else ⟨name (String.ofList object), object, rest⟩
  | _ => ⟨name (String.ofList object), object, rest⟩

/-- The character that a backslash and `c` stand for. -/
def unescape (c : Char) : Char :=
  if c = 'n' then '\n' else if c = 't' then '\t' else c

/-- A text up to its closing quote: what it says, how it is spelled with the
    quote, and what follows. -/
def scanText : List Char → Option (List Char × List Char × List Char)
  | [] => none
  | '\'' :: rest => some ([], ['\''], rest)
  | '\\' :: c :: rest =>
    (scanText rest).map fun (said, span, rest) => (unescape c :: said, '\\' :: c :: span, rest)
  | c :: rest =>
    (scanText rest).map fun (said, span, rest) => (c :: said, c :: span, rest)

/-! ## Tokens -/

/-- The token at the front of `c :: cs`. -/
def munch (lx : Lexicon) (c : Char) (cs : List Char) : Except SyntaxError Munch :=
  if Spelling.startsAt (c :: cs) then .ok (munchNumber lx (c :: cs))
  else if isNameStart c then .ok (munchName (c :: cs))
  else if c = '\'' then
    match scanText cs with
    | some (said, span, rest) => .ok ⟨text (String.ofList said), c :: span, rest⟩
    | none => .error .unterminatedText
  else
    match signs.find? fun (sign, _) => sign.toList.isPrefixOf (c :: cs) with
    | some (sign, token) => .ok ⟨token, sign.toList, (c :: cs).drop sign.toList.length⟩
    | none => .error (.unexpectedCharacter c)

/-! ## Nothing is lost -/

theorem append_drop_of_isPrefixOf {l cs : List Char} (h : l.isPrefixOf cs) :
    l ++ cs.drop l.length = cs := by
  obtain ⟨t, rfl⟩ := List.isPrefixOf_iff_prefix.1 h
  simp

/-- The preferred unit is one of those that were compared. -/
theorem longerUnit_mem {units : List UnitSuffix} {best : Option UnitSuffix} {u : UnitSuffix}
    (h : units.foldl longerUnit best = some u) : best = some u ∨ u ∈ units := by
  induction units generalizing best with
  | nil => exact .inl h
  | cons v vs ih =>
    rcases ih h with h' | h'
    · unfold longerUnit at h'
      split at h'
      · exact .inr (by simp_all)
      · split at h'
        · exact .inr (by simp_all)
        · exact .inl h'
    · exact .inr (List.mem_cons_of_mem _ h')

/-- The name of a unit that is found is what the characters begin with. -/
theorem name_append_of_unitAt? {units : List String} {cs : List Char} {u : UnitSuffix}
    (h : unitAt? units cs = some u) : u.name.toList ++ cs.drop u.name.toList.length = cs := by
  rcases longerUnit_mem h with h | h
  · simp at h
  · simp only [unitsAt, List.mem_map, List.mem_filter, occursAt, Bool.and_eq_true] at h
    obtain ⟨_, ⟨_, _, hp, _⟩, rfl⟩ := h
    exact append_drop_of_isPrefixOf hp

/-- A number takes its characters off the front and leaves the others. -/
theorem munchNumber_split (lx : Lexicon) (cs : List Char) :
    (munchNumber lx cs).span ++ (munchNumber lx cs).rest = cs := by
  unfold munchNumber
  split
  rename_i s rest hs
  have h := Spelling.written_append_scan lx.separator cs
  rw [hs] at h
  dsimp only
  split
  · rename_i u hu
    rw [List.append_assoc, List.append_assoc, name_append_of_unitAt? hu,
      List.takeWhile_append_dropWhile, h]
  · exact h

theorem munchNumber_span_ne_nil {lx : Lexicon} {cs : List Char} (h : Spelling.startsAt cs) :
    (munchNumber lx cs).span ≠ [] := by
  have hw := Spelling.written_ne_nil lx.separator h
  unfold munchNumber
  dsimp only
  split <;> simp [hw]

/-- A name, a keyword or a field takes its characters off the front and leaves the others. -/
theorem munchName_split (cs : List Char) :
    (munchName cs).span ++ (munchName cs).rest = cs := by
  have h : cs.takeWhile isNamePart ++ cs.dropWhile isNamePart = cs :=
    List.takeWhile_append_dropWhile
  unfold munchName
  dsimp only
  split
  · rename_i d behind hr
    rw [hr] at h
    split
    · simpa [List.takeWhile_append_dropWhile] using h
    · simpa [hr] using h
  · exact h

theorem isNamePart_of_isNameStart {c : Char} (h : isNameStart c) : isNamePart c := by
  simp only [isNameStart, isNamePart, Char.isAlphanum, Bool.or_eq_true] at *
  exact h.imp_left .inl

theorem munchName_span_ne_nil {c : Char} {cs : List Char} (h : isNameStart c) :
    (munchName (c :: cs)).span ≠ [] := by
  have hc := isNamePart_of_isNameStart h
  unfold munchName
  dsimp only
  split
  · split <;> simp [hc]
  · simp [hc]

/-- The characters of a text literal and what is behind it are all there were. -/
theorem scanText_split {cs said span rest : List Char}
    (h : scanText cs = some (said, span, rest)) : span ++ rest = cs := by
  fun_induction scanText cs generalizing said span rest with
  | case1 => simp at h
  | case2 =>
    simp only [Option.some.injEq, Prod.mk.injEq] at h
    obtain ⟨_, rfl, rfl⟩ := h
    rfl
  | case3 c cs ih =>
    obtain ⟨⟨said', span', rest'⟩, h', he⟩ := Option.map_eq_some_iff.1 h
    simp only [Prod.mk.injEq] at he
    obtain ⟨_, rfl, rfl⟩ := he
    simp [ih h']
  | case4 c cs _ _ ih =>
    obtain ⟨⟨said', span', rest'⟩, h', he⟩ := Option.map_eq_some_iff.1 h
    simp only [Prod.mk.injEq] at he
    obtain ⟨_, rfl, rfl⟩ := he
    simp [ih h']

/-- A token spans at least one character, and with the rest it is what was read. -/
theorem munch_split {lx : Lexicon} {c : Char} {cs : List Char} {m : Munch}
    (h : munch lx c cs = .ok m) : m.span ++ m.rest = c :: cs ∧ m.span ≠ [] := by
  unfold munch at h
  split at h
  · rename_i hs
    cases h
    exact ⟨munchNumber_split lx _, munchNumber_span_ne_nil hs⟩
  split at h
  · rename_i hs
    cases h
    exact ⟨munchName_split _, munchName_span_ne_nil hs⟩
  split at h
  · split at h
    · rename_i ht
      cases h
      exact ⟨by simp [scanText_split ht], by simp⟩
    · cases h
  · split at h
    · rename_i sign token hf
      cases h
      refine ⟨append_drop_of_isPrefixOf (by simpa using List.find?_some hf), ?_⟩
      have := List.mem_of_find?_eq_some hf
      simp only [signs, List.mem_cons, Prod.mk.injEq, List.not_mem_nil, or_false] at this
      rcases this with h | h | h | h | h | h | h | h | h | h | h | h | h | h | h | h | h | h <;>
        simp [h.1]
    · cases h

/-- A token has characters: less is left behind it. -/
theorem munch_length {lx : Lexicon} {c : Char} {cs : List Char} {m : Munch}
    (h : munch lx c cs = .ok m) : m.rest.length < (c :: cs).length := by
  obtain ⟨hs, hn⟩ := munch_split h
  have := List.length_pos_iff.2 hn
  rw [← hs, List.length_append]
  omega

/-- The lexemes of `cs`, which starts `offset` bytes into the formula, behind those
    found before it. -/
def scan (lx : Lexicon) (offset : Nat) (cs : List Char) (found : Array Lexeme) :
    Except (Located SyntaxError) (Array Lexeme) :=
  match cs with
  | [] => .ok found
  | c :: cs =>
    if isGap c then scan lx (offset + c.utf8Size) cs found
    else
      match _h : munch lx c cs with
      | .error e => .error ⟨offset, e⟩
      | .ok m => scan lx (offset + byteLength m.span) m.rest (found.push ⟨m.token, offset⟩)
termination_by cs.length
decreasing_by
  · exact Nat.lt_succ_self _
  · exact munch_length _h

end Token

/-- The lexemes of a formula. -/
def tokenize (lx : Lexicon) (source : String) : Except (Located SyntaxError) (List Lexeme) :=
  (Token.scan lx 0 source.toList #[]).map Array.toList

end Formula
