import Formula.Proofs.Lexing.Locality
import Formula.Token.Joining
import Mathlib

/-!
# Formulas are cut part by part

The scanner finds the same further on in a formula, behind whatever it has found before
(`scan_shift`). So a formula that begins with a token is cut into this token and what is
found in the text behind it (`tokenize_of_munch`):

* a quoted text is read as the text, in whatever way it is written, and whatever stands
  behind its closing quote is read as if it stood alone (`tokenize_quotes`);
* two formulas with a space between them are read as the one and then the other, unless
  the second begins with a unit for a number that ends the first (`tokenize_space`).
-/

namespace Formula.Token

open Text (byteLength isBlank)

variable {lx : Lexicon}

/-! ## Further on in a formula -/

theorem scan_of_error {c : Char} {cs : List Char} {e : SyntaxError} (hc : ¬ isGap c)
    (h : munch lx c cs = .error e) (o : Nat) (found : Array Lexeme) :
    scan lx o (c :: cs) found = .error ⟨o, e⟩ :=
  scan_of_rejects ((munch_error_iff lx hc).1 h) o found

/-- What the scanner finds does not depend on where it is, nor on what it has found. -/
theorem scan_shift {n o : Nat} {cs : List Char} {front : List Lexeme}
    {found found' : Array Lexeme}
    (h : found'.toList = front ++ found.toList.map (Lexeme.shift n)) :
    (scan lx (n + o) cs found').map Array.toList =
      joined front n ((scan lx o cs found).map Array.toList) := by
  fun_induction scan lx o cs found generalizing found' with
  | case1 o found =>
    rw [scan]
    exact congrArg Except.ok h
  | case2 o found c cs hc ih =>
    rw [scan_of_gap hc, Nat.add_assoc]
    exact ih h
  | case3 o found c cs hc e he =>
    rw [scan_of_error hc he]
    rfl
  | case4 o found c cs hc m hm ih =>
    rw [scan_of_munch hc hm, Nat.add_assoc]
    refine ih ?_
    simp [h, Lexeme.shift]

/-- A formula that begins with a token is cut into it and what its rest is cut into, further
    on. -/
theorem tokenize_of_munch {source rest : String} {c : Char} {cs : List Char} {m : Munch}
    (hsource : source.toList = c :: cs) (hc : ¬ isGap c) (hm : munch lx c cs = .ok m)
    (hrest : rest.toList = m.rest) :
    tokenize lx source = joined [⟨m.token, 0⟩] (byteLength m.span) (tokenize lx rest) := by
  rw [tokenize, hsource, scan_of_munch hc hm, Nat.zero_add, tokenize, hrest]
  exact @scan_shift lx (byteLength m.span) 0 m.rest [⟨m.token, 0⟩] #[] _ rfl

/-! ## Quoted texts -/

/-- A written character says itself before what follows says. -/
theorem Writes.says {c : Char} {span body said : List Char} (h : Writes c span)
    (hbody : Says body said) : Says (span ++ body) (c :: said) := by
  cases h with
  | plain hquote hescape => exact hbody.plain hescape hquote
  | escaped hn ht =>
    have hunescape : unescape c = c := by rw [unescape, if_neg hn, if_neg ht]
    have hsays := hbody.escape (c := c)
    rwa [hunescape] at hsays
  | lineFeed | tab => exact hbody.escape

/-- Characters that are written one after the other say the text. -/
theorem says_flatten {said : List Char} {spans : List (List Char)}
    (h : List.Forall₂ Writes said spans) : Says spans.flatten said := by
  induction h with
  | nil => exact .nil
  | cons hwrites _ ih => exact hwrites.says ih

/-- A quoted text is one token, which says the text however it is written; what follows its
    closing quote is read as if it stood alone. -/
theorem tokenize_quotes (lx : Lexicon) {literal said : String} (h : Quotes literal said)
    (rest : String) :
    tokenize lx (literal ++ rest) =
      joined [⟨.text said, 0⟩] literal.utf8ByteSize (tokenize lx rest) := by
  obtain ⟨spans, hwrites, hliteral⟩ := h
  have hsource : (literal ++ rest).toList =
      '\'' :: (spans.flatten ++ '\'' :: rest.toList) := by
    simp [String.toList_append, hliteral]
  have hstarts : ¬ Spelling.startsAt ('\'' :: (spans.flatten ++ '\'' :: rest.toList)) :=
    fun h => absurd (isDigit_or_of_startsAt h) (by decide)
  have hmunch : munch lx '\'' (spans.flatten ++ '\'' :: rest.toList) =
      .ok ⟨.text said, literal.toList, rest.toList⟩ := by
    rw [munch, if_neg hstarts, if_neg (by decide), if_pos rfl,
      scanText_of_says (says_flatten hwrites), hliteral]
    simp
  rw [tokenize_of_munch hsource (by decide) hmunch rfl, Text.byteLength_toList]

/-- Quotes and backslashes are escaped, a letter of two bytes is and an `n` is not, one line
    feed stands for itself, and the other and the tab have their names. -/
theorem tokenize_quotes_escapes :
    Quotes "'\\é\\'n\\\\\n\\n\\t'" "é'n\\\n\n\t" ∧
      tokenize {} ("'\\é\\'n\\\\\n\\n\\t'" ++ "+#") = .error ⟨16, .unexpectedCharacter '#'⟩ := by
  have hquotes : Quotes "'\\é\\'n\\\\\n\\n\\t'" "é'n\\\n\n\t" := by
    refine ⟨[['\\', 'é'], ['\\', '\''], ['n'], ['\\', '\\'], ['\n'], ['\\', 'n'], ['\\', 't']], ?_,
      by decide⟩
    have hlist : "é'n\\\n\n\t".toList = ['é', '\'', 'n', '\\', '\n', '\n', '\t'] := by decide
    rw [hlist]
    exact .cons (.escaped (by decide) (by decide)) <|
      .cons (.escaped (by decide) (by decide)) <| .cons (.plain (by decide) (by decide)) <|
      .cons (.escaped (by decide) (by decide)) <| .cons (.plain (by decide) (by decide)) <|
      .cons .lineFeed <| .cons .tab .nil
  refine ⟨hquotes, ?_⟩
  rw [tokenize_quotes {} hquotes]
  have hrest : tokenize {} "+#" = .error ⟨1, .unexpectedCharacter '#'⟩ := by cbv
  rw [hrest]
  rfl

/-! ## Formulas with a space between them -/

/-- No token starts with a blank. -/
theorem StartsToken.not_isBlank {c : Char} {cs : List Char} (h : StartsToken c cs) :
    ¬ isBlank c := by
  rcases h with h | h | ⟨rfl | rfl, _⟩
  · rcases Bool.or_eq_true_iff.1 h with h | h
    · exact not_isBlank_of_isNameStart (Bool.or_eq_true_iff.2 (.inl h))
    · exact not_isBlank_of_isDigit h
  · have hsigns : ['_', '\'', '=', '+', '-', '*', '/', '<', '>', '!', '(', ')', ',', '.'].all
        (!isBlank ·) := by decide
    simpa using List.all_eq_true.1 hsigns c h
  · decide
  · decide

/-- What can be cut off starts like a token. -/
theorem startsToken_of_munch {c : Char} {cs : List Char} {m : Munch}
    (h : munch lx c cs = .ok m) : StartsToken c cs := by
  refine Decidable.byContradiction fun hstart => ?_
  rw [munch_of_not_startsToken hstart] at h
  cases h

/-- Where only blanks are left, nothing more is found. -/
theorem eq_of_scan_blanks {o : Nat} {cs : List Char} {found lexemes : Array Lexeme}
    (hcs : ∀ c ∈ cs, isBlank c) (h : scan lx o cs found = .ok lexemes) : lexemes = found := by
  fun_induction scan lx o cs found with
  | case1 =>
    cases h
    rfl
  | case2 o found c cs hc ih => exact ih (List.forall_mem_cons.1 hcs).2 h
  | case3 => cases h
  | case4 o found c cs hc m hm ih =>
    exact absurd (List.forall_mem_cons.1 hcs).1 (startsToken_of_munch hm).not_isBlank

/-- The scanner passes a space behind a text that it has cut, and goes on behind the space
    with what it has found. -/
theorem scan_append_space (hunits : ∀ name ∈ lx.units, ' ' ∉ name.toList)
    (hseparator : lx.separator ≠ ' ') {o : Nat} {cs ds : List Char}
    {found lexemes : Array Lexeme} (h : scan lx o cs found = .ok lexemes)
    (hclear : ∀ n o, lexemes.toList.getLast? = some ⟨.number n, o⟩ → n.unit = none →
      ∀ u, ¬ UnitAt lx.units u (ds.dropWhile isBlank)) :
    scan lx o (cs ++ ' ' :: ds) found = scan lx (byteLength cs + 1 + o) ds lexemes := by
  fun_induction scan lx o cs found with
  | case1 o found =>
    cases h
    rw [List.nil_append, scan_of_gap (by decide), Nat.add_comm]
    rfl
  | case2 o found c cs hc ih =>
    rw [List.cons_append, scan_of_gap hc, ih h, Text.byteLength_cons]
    congr 1
    omega
  | case3 => cases h
  | case4 o found c cs hc m hm ih =>
    obtain ⟨hsplit, _⟩ := munch_split hm
    have hmunch := @munch_append_space lx hunits hseparator c cs ds m hm fun n hn hunit hblank => by
      -- With blanks only behind it, the number is the last lexeme.
      obtain rfl := eq_of_scan_blanks hblank h
      exact hclear n o (by simp [hn]) hunit
    rw [List.cons_append, scan_of_munch hc hmunch, ih h, ← hsplit, Text.byteLength_append]
    congr 1
    omega

/-- Behind a space a formula is read as if it stood alone, and before it, too: unless the
    formula before it ends with a number without a unit, and the one behind it begins with
    a unit. No unit may hold a space, nor may the point of numbers be one. -/
theorem tokenize_space (hunits : ∀ name ∈ lx.units, ' ' ∉ name.toList)
    (hseparator : lx.separator ≠ ' ') {front : String} {lexemes : List Lexeme}
    (hfront : tokenize lx front = .ok lexemes) {rest : String}
    (hclear : ∀ n o, lexemes.getLast? = some ⟨.number n, o⟩ → n.unit = none →
      ∀ u, ¬ UnitAt lx.units u (rest.toList.dropWhile isBlank)) :
    tokenize lx (front ++ " " ++ rest) =
      joined lexemes (front.utf8ByteSize + 1) (tokenize lx rest) := by
  rw [tokenize] at hfront
  rcases hscan : scan lx 0 front.toList #[] with e | found <;> rw [hscan] at hfront
  · cases hfront
  obtain rfl : found.toList = lexemes := Except.ok.inj hfront
  have hsource : (front ++ " " ++ rest).toList = front.toList ++ ' ' :: rest.toList := by
    simp [String.toList_append]
  rw [tokenize, hsource, scan_append_space hunits hseparator hscan hclear,
    Text.byteLength_toList, tokenize]
  exact scan_shift (by simp)

/-- A number before a name that a unit begins, but does not end: the two are read apart. -/
theorem tokenize_space_name :
    let lx : Lexicon := { units := ["mm"], separator := ',' }
    let value := Spelling.value ⟨['1'], none, none⟩
    tokenize lx "a<1" = .ok
        [⟨.name "a", 0⟩, ⟨.operator .less, 1⟩, ⟨.number ⟨value, "1", none⟩, 2⟩] ∧
      tokenize lx ("a<1" ++ " " ++ "mm2+b") = .ok
        [⟨.name "a", 0⟩, ⟨.operator .less, 1⟩, ⟨.number ⟨value, "1", none⟩, 2⟩, ⟨.name "mm2", 4⟩,
          ⟨.operator .add, 7⟩, ⟨.name "b", 8⟩] := by
  intro lx value
  have hname : munch lx 'a' ['<', '1'] = .ok ⟨.name "a", ['a'], ['<', '1']⟩ := rfl
  have hsign : munch lx '<' ['1'] = .ok ⟨.operator .less, ['<'], ['1']⟩ := rfl
  have hnumber : munch lx '1' [] = .ok ⟨.number ⟨value, "1", none⟩, ['1'], []⟩ := rfl
  have hlist : "a<1".toList = ['a', '<', '1'] := by decide
  have hfront : tokenize lx "a<1" = .ok
      [⟨.name "a", 0⟩, ⟨.operator .less, 1⟩, ⟨.number ⟨value, "1", none⟩, 2⟩] := by
    rw [tokenize, hlist, scan_of_munch (by decide) hname, scan_of_munch (by decide) hsign,
      scan_of_munch (by decide) hnumber, scan]
    rfl
  have hrest : tokenize lx "mm2+b" = .ok
      [⟨.name "mm2", 0⟩, ⟨.operator .add, 3⟩, ⟨.name "b", 4⟩] := by cbv
  have hnone : unitAt? lx.units ("mm2+b".toList.dropWhile isBlank) = none := by decide
  have hjoined := tokenize_space (by decide) (by decide) hfront
    fun _ _ _ _ => unitAt?_eq_none_iff.1 hnone
  rw [hrest] at hjoined
  exact ⟨hfront, hjoined⟩

end Formula.Token
