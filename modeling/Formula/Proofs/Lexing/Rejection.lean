import Formula.Proofs.Lexing.Suffix
import Formula.Token.Rejection

/-!
# Where formulas are rejected

The scanner fails exactly where what is left of the text is rejected (`munch_error_iff`),
and it goes where the tokens lead that are to be taken (`scan_of_arrives`,
`arrives_of_scan_error`); so a formula cannot be cut if and only if cutting arrives at
such a place, and the error is the one that belongs to it (`tokenize_error_iff`).
-/

namespace Formula.Token

open Text (byteLength isBlank)

variable {lx : Lexicon} {separator : Char}

/-! ## What is rejected -/

/-- A character that is no backslash does not escape. -/
theorem escapes_cons {c : Char} (hc : c ≠ '\\') (cs : List Char) :
    escapes (c :: cs) = escapes cs := by
  rw [escapes, List.foldl_cons, beq_false_of_ne hc]
  rfl

/-- Behind an escaped character it starts anew. -/
theorem escapes_escape (c : Char) (cs : List Char) : escapes ('\\' :: c :: cs) = escapes cs := by
  simp [escapes]

/-- A text is scanned unless no quote closes it. -/
theorem scanText_eq_none_iff (cs : List Char) : scanText cs = none ↔ Unclosed cs := by
  fun_induction scanText cs with
  | case1 => simp [Unclosed]
  | case2 cs =>
    simp only [reduceCtorEq, false_iff]
    exact fun h => absurd (h [] cs rfl) (by decide)
  | case3 c cs ih =>
    -- An escaped character can be left out with its backslash.
    rw [Option.map_eq_none_iff, ih]
    constructor
    · rintro h (_ | ⟨a, _ | ⟨b, front⟩⟩) behind heq
      · cases heq
      · cases heq
        decide
      · cases heq
        rw [escapes_escape]
        exact h front behind rfl
    · rintro h front behind rfl
      rw [← escapes_escape c]
      exact h _ behind rfl
  | case4 c cs hquote hescape ih =>
    rw [Option.map_eq_none_iff, ih]
    by_cases hc : c = '\\'
    · -- A backslash that escapes nothing is the last character.
      subst hc
      rcases cs with _ | ⟨d, cs⟩
      · simp [Unclosed, List.cons_eq_append_iff]
      · exact absurd rfl (hescape d cs rfl)
    · constructor
      · rintro h (_ | ⟨a, front⟩) behind heq
        · cases heq
          exact absurd rfl hquote
        · cases heq
          rw [escapes_cons hc]
          exact h front behind rfl
      · rintro h front behind rfl
        rw [← escapes_cons hc]
        exact h _ behind rfl

/-- What starts a token does so when more follows. -/
theorem StartsToken.mono {c : Char} {cs ds : List Char} (h : StartsToken c cs) (hcs : cs <+: ds) :
    StartsToken c ds := by
  refine h.imp_right (Or.imp_right fun ⟨hc, hhead⟩ => ⟨hc, ?_⟩)
  obtain ⟨cs, rfl⟩ := List.head?_eq_some_iff.1 hhead
  obtain ⟨rest, rfl⟩ := hcs
  rfl

/-- The characters that a token starts with: what the scanner looks for. -/
theorem startsToken_iff (c : Char) (cs : List Char) :
    StartsToken c cs ↔ Spelling.startsAt (c :: cs) ∨ isNameStart c ∨ c = '\'' ∨
      ∃ s ∈ signs, s.1.toList <+: c :: cs := by
  constructor
  · rintro (h | h | ⟨h, hcs⟩)
    · rcases Bool.or_eq_true_iff.1 h with h | h
      · exact .inr (.inl (Bool.or_eq_true_iff.2 (.inl h)))
      · exact .inl (Spelling.startsAt_of_isDigit h cs)
    · rcases List.mem_cons.1 h with rfl | h
      · exact .inr (.inl (by decide))
      rcases List.mem_cons.1 h with rfl | h
      · exact .inr (.inr (.inl rfl))
      have hsigns : ∀ c ∈ ['=', '+', '-', '*', '/', '<', '>', '!', '(', ')', ',', '.'],
          ∃ s ∈ signs, s.1.toList = [c] := by simp [signs]
      obtain ⟨s, hs, hlist⟩ := hsigns c h
      exact .inr (.inr (.inr ⟨s, hs, cs, by rw [hlist]; rfl⟩))
    · have hsigns : ∀ c ∈ ['&', '|'], ∃ s ∈ signs, s.1.toList = [c, c] := by simp [signs]
      obtain ⟨s, hs, hlist⟩ := hsigns c (by simpa using h)
      obtain ⟨cs, rfl⟩ := List.head?_eq_some_iff.1 hcs
      exact .inr (.inr (.inr ⟨s, hs, cs, by rw [hlist]; rfl⟩))
  · rintro (h | h | rfl | ⟨s, hmem, h⟩)
    · rcases isDigit_or_of_startsAt h with hc | rfl
      · exact .inl (Bool.or_eq_true_iff.2 (.inr hc))
      · exact .inr (.inl (by decide))
    · rcases Bool.or_eq_true_iff.1 h with h | h
      · exact .inl (Bool.or_eq_true_iff.2 (.inl h))
      · exact .inr (.inl (by simp [beq_iff_eq.1 h]))
    · exact .inr (.inl (by decide))
    · have hsigns : ∀ s ∈ signs, s.1.toList.head?.any fun c => StartsToken c s.1.toList.tail := by
        decide
      have hs := hsigns s hmem
      rcases hlist : s.1.toList with _ | ⟨d, ds⟩ <;> rw [hlist] at hs h
      · cases hs
      · obtain ⟨rfl, hds⟩ := List.cons_prefix_cons.1 h
        exact StartsToken.mono (of_decide_eq_true hs) hds

/-! ## One token -/

/-- Where no token starts the character is rejected. -/
theorem munch_of_not_startsToken {c : Char} {cs : List Char} (h : ¬ StartsToken c cs) :
    munch lx c cs = .error (.unexpectedCharacter c) := by
  rw [startsToken_iff] at h
  simp only [not_or, not_exists, not_and] at h
  obtain ⟨hnumber, hname, htext, hsigns⟩ := h
  rw [munch, if_neg hnumber, if_neg hname, if_neg htext]
  split
  · rename_i sign token hfind
    have hprefix : sign.toList.isPrefixOf (c :: cs) := by simpa using List.find?_some hfind
    exact absurd (List.isPrefixOf_iff_prefix.1 hprefix) (hsigns _ (List.mem_of_find?_eq_some hfind))
  · rfl

/-- A text that is not closed is rejected at its quote. -/
theorem munch_of_unclosed {cs : List Char} (h : Unclosed cs) :
    munch lx '\'' cs = .error .unterminatedText := by
  have hnumber : ¬ Spelling.startsAt ('\'' :: cs) := fun h =>
    absurd (isDigit_or_of_startsAt h) (by decide)
  rw [munch, if_neg hnumber, if_neg (by decide), if_pos rfl, (scanText_eq_none_iff cs).2 h]

/-- Where a token starts one is cut off, unless it is a text that is not closed. -/
theorem exists_munch (lx : Lexicon) {c : Char} {cs : List Char} (h : StartsToken c cs)
    (htext : c = '\'' → ¬ Unclosed cs) : ∃ m, munch lx c cs = .ok m := by
  unfold munch
  split
  · exact ⟨_, rfl⟩
  rename_i hnumber
  split
  · exact ⟨_, rfl⟩
  rename_i hname
  split
  · rename_i hquote
    split
    · exact ⟨_, rfl⟩
    · rename_i hscan
      exact absurd ((scanText_eq_none_iff cs).1 hscan) (htext hquote)
  · rename_i hquote
    split
    · exact ⟨_, rfl⟩
    · rename_i hfind
      rcases (startsToken_iff c cs).1 h with h | h | h | ⟨s, hs, hprefix⟩
      · exact absurd h hnumber
      · exact absurd h hname
      · exact absurd h hquote
      · exact absurd (List.isPrefixOf_iff_prefix.2 hprefix) (List.find?_eq_none.1 hfind s hs)

/-- Behind the gaps, the scanner fails where what is left is rejected. -/
theorem munch_error_iff (lx : Lexicon) {c : Char} {cs : List Char} (hc : ¬ isGap c)
    {e : SyntaxError} :
    munch lx c cs = .error e ↔ Rejects (c :: cs) e := by
  constructor
  · intro h
    by_cases hstart : StartsToken c cs
    · by_cases htext : c = '\'' ∧ Unclosed cs
      · obtain ⟨rfl, hunclosed⟩ := htext
        rw [munch_of_unclosed hunclosed] at h
        cases h
        exact .text hunclosed
      · obtain ⟨m, hm⟩ := exists_munch lx hstart (not_and.1 htext)
        rw [hm] at h
        cases h
    · rw [munch_of_not_startsToken hstart] at h
      cases h
      exact .character hc hstart
  · rintro (⟨_, hstart⟩ | hunclosed)
    · exact munch_of_not_startsToken hstart
    · exact munch_of_unclosed hunclosed

/-! ## The token that is taken -/

/-- What is cut off is taken as described. -/
theorem takes_of_munch {c : Char} {cs : List Char} {m : Munch} (h : munch lx c cs = .ok m) :
    Takes lx m.token m.span m.rest := by
  by_cases hnumber : Spelling.startsAt (c :: cs)
  · obtain ⟨n, hn, hmeasures⟩ := measures_munchNumber lx hnumber
    rw [munch, if_pos hnumber] at h
    cases h
    rw [hn]
    exact .number hmeasures
  · have hne (n : Numeral) (hn : m.token = .number n) := hnumber (startsAt_of_munch h hn)
    have hcuts := cuts_of_munch h
    obtain ⟨token, span, rest⟩ := m
    cases hcuts with
    | plain hspells hlongest => exact .word hspells hlongest hne
    | quantity => exact (hne _ rfl).elim

/-- Where a token stands, the scanner finds one. -/
theorem Spells.starts {token : Token} {span : List Char} (h : Spells separator token span)
    {c : Char} {cs : List Char} (hcs : span <+: c :: cs) :
    StartsToken c cs ∧ (c = '\'' → ¬ Unclosed cs) := by
  rw [startsToken_iff]
  rcases h.front hcs with ⟨hnumber, _⟩ | ⟨hname, _⟩ | ⟨rfl, _, _, _, hscan, _⟩ |
    ⟨sign, token, hmem, rfl, ds, hsign, hhead⟩
  · refine ⟨.inl hnumber, ?_⟩
    rintro rfl
    exact absurd (isDigit_or_of_startsAt hnumber) (by decide)
  · refine ⟨.inr (.inl hname), ?_⟩
    rintro rfl
    exact absurd hname (by decide)
  · refine ⟨.inr (.inr (.inl rfl)), fun _ hunclosed => ?_⟩
    rw [(scanText_eq_none_iff cs).2 hunclosed] at hscan
    cases hscan
  · refine ⟨.inr (.inr (.inr ⟨_, hmem, hcs⟩)), ?_⟩
    rintro rfl
    simp [signHead] at hhead

theorem StartsToken.not_isGap {c : Char} {cs : List Char} (h : StartsToken c cs) : ¬ isGap c := by
  intro hgap
  simp only [isGap, Bool.or_eq_true, beq_iff_eq] at hgap
  rcases hgap with (((rfl | rfl) | rfl) | rfl) | rfl <;> revert h <;> simp +decide [StartsToken]

/-- No number starts with a name. -/
theorem IsName.not_startsAt {cs : List Char} (h : IsName cs) (rest : List Char) :
    ¬ Spelling.startsAt (cs ++ rest) := by
  obtain ⟨c, ds, rfl, hc, _⟩ := h
  intro hnumber
  rcases isDigit_or_of_startsAt hnumber with hdigit | rfl
  · exact not_isNameStart_of_isDigit hdigit hc
  · exact absurd hc (by decide)

/-- Only numbers start like numbers. -/
theorem Spells.not_startsAt {token : Token} {span : List Char} (h : Spells separator token span)
    (hne : ∀ n, token ≠ .number n) : ¬ Spelling.startsAt span := by
  intro hnumber
  cases h with
  | number => exact hne _ rfl
  | name hn => exact hn.not_startsAt [] (by rwa [List.append_nil])
  | field hn => exact hn.not_startsAt _ hnumber
  | text => exact absurd (isDigit_or_of_startsAt hnumber) (by decide)
  | sign hmem =>
    have hsigns : ∀ s ∈ signs, ¬ Spelling.startsAt s.1.toList := by decide
    exact hsigns _ hmem hnumber

/-- There is one longest token at a place. -/
theorem Longest.eq {token token' : Token} {span span' rest rest' : List Char}
    (h : Longest separator span rest) (hspells : Spells separator token span)
    (h' : Longest separator span' rest') (hspells' : Spells separator token' span')
    (heq : span ++ rest = span' ++ rest') : span = span' ∧ rest = rest' :=
  List.append_inj heq (Nat.le_antisymm (h' hspells ⟨rest, heq⟩) (h hspells' ⟨rest', heq.symm⟩))

/-- Only one unit is preferred: of two that outrank each other, the places in the list are the
    same, and so are the names. -/
theorem Preferred.eq {units : List String} {u v : UnitSuffix} {cs : List Char}
    (hu : Preferred units u cs) (hv : Preferred units v cs) : u = v := by
  have huv := hu.2 v hv.1
  have hvu := hv.2 u hu.1
  have hindex : u.index = v.index := by
    simp only [UnitSuffix.Outranks] at huv hvu
    omega
  have hname : u.name = v.name := by
    have hget := hu.1.1
    rw [hindex, hv.1.1] at hget
    exact (Option.some.inj hget).symm
  obtain ⟨_, _⟩ := u
  obtain ⟨_, _⟩ := v
  cases hindex
  cases hname
  rfl

/-- A number, blanks and its unit are what stood there. -/
theorem quantity_append {written behind rest name : List Char}
    (h : behind.dropWhile isBlank = name ++ rest) :
    written ++ behind.takeWhile isBlank ++ name ++ rest = written ++ behind := by
  rw [List.append_assoc, List.append_assoc, ← h, List.takeWhile_append_dropWhile]

/-- A number begins with its spelling, which is the longest token at its place. -/
theorem Measures.exists_spelling {n : Numeral} {span rest : List Char}
    (h : Measures lx n span rest) :
    ∃ (s : Spelling) (behind : List Char), s.Proper lx.separator ∧
      Longest lx.separator s.written behind ∧ span ++ rest = s.written ++ behind := by
  cases h with
  | bare hproper hlongest => exact ⟨_, _, hproper, hlongest, rfl⟩
  | quantity hproper hlongest _ hrest =>
    exact ⟨_, _, hproper, hlongest, quantity_append hrest⟩

/-- A number that is cut off starts like one. -/
theorem Measures.startsAt {n : Numeral} {span rest : List Char} (h : Measures lx n span rest) :
    Spelling.startsAt (span ++ rest) := by
  obtain ⟨s, behind, hproper, _, heq⟩ := h.exists_spelling
  exact hproper.startsAt ⟨behind, heq.symm⟩

/-- There is one way to take a number. -/
theorem Measures.eq {n n' : Numeral} {span span' rest rest' : List Char}
    (h : Measures lx n span rest) (h' : Measures lx n' span' rest')
    (heq : span ++ rest = span' ++ rest') : span = span' ∧ rest = rest' := by
  have hspelling {s s' : Spelling} {behind behind' : List Char} (hs : s.Proper lx.separator)
      (hs' : s'.Proper lx.separator) (hlongest : Longest lx.separator s.written behind)
      (hlongest' : Longest lx.separator s'.written behind')
      (heq : s.written ++ behind = s'.written ++ behind') :
      s.written = s'.written ∧ behind = behind' :=
    hlongest.eq (.number hs (Spelling.read?_text hs)) hlongest'
      (.number hs' (Spelling.read?_text hs')) heq
  cases h with
  | bare hs hlongest hnone =>
    cases h' with
    | bare hs' hlongest' => exact hspelling hs hs' hlongest hlongest' heq
    | quantity hs' hlongest' hunit hrest' =>
      rw [quantity_append hrest'] at heq
      obtain ⟨_, rfl⟩ := hspelling hs hs' hlongest hlongest' heq
      exact absurd hunit.1 (hnone _)
  | quantity hs hlongest hunit hrest =>
    rw [quantity_append hrest] at heq
    cases h' with
    | bare hs' hlongest' hnone =>
      obtain ⟨_, rfl⟩ := hspelling hs hs' hlongest hlongest' heq
      exact absurd hunit.1 (hnone _)
    | quantity hs' hlongest' hunit' hrest' =>
      rw [quantity_append hrest'] at heq
      obtain ⟨hwritten, rfl⟩ := hspelling hs hs' hlongest hlongest' heq
      obtain rfl := hunit.eq hunit'
      rw [hrest] at hrest'
      exact ⟨by rw [hwritten], List.append_cancel_left hrest'⟩

/-- A word does not stand where a number starts, which would be longer. -/
theorem Longest.not_startsAt {token : Token} {span rest : List Char}
    (h : Longest separator span rest) (hspells : Spells separator token span)
    (hne : ∀ n, token ≠ .number n) : ¬ Spelling.startsAt (span ++ rest) := by
  intro hnumber
  rcases hcs : span ++ rest with _ | ⟨c, cs⟩ <;> rw [hcs] at hnumber
  · cases hnumber
  have hproper := Spelling.scan_proper separator hnumber
  have heq := (h.eq hspells (longest_number hnumber)
    (.number hproper (Spelling.read?_text hproper))
    (by rw [hcs, Spelling.written_append_scan])).1
  exact hspells.not_startsAt hne (heq ▸ hproper.startsAt List.prefix_rfl)

/-- There is one token that is taken at a place. -/
theorem Takes.eq {token token' : Token} {span span' rest rest' : List Char}
    (h : Takes lx token span rest) (h' : Takes lx token' span' rest')
    (heq : span ++ rest = span' ++ rest') : span = span' ∧ rest = rest' := by
  cases h with
  | word hspells hlongest hne =>
    cases h' with
    | word hspells' hlongest' => exact hlongest.eq hspells hlongest' hspells' heq
    | number h' => exact absurd (heq ▸ h'.startsAt) (hlongest.not_startsAt hspells hne)
  | number h =>
    cases h' with
    | word hspells' hlongest' hne' =>
      exact absurd (heq ▸ h.startsAt) (hlongest'.not_startsAt hspells' hne')
    | number h' => exact h.eq h' heq

/-- The scanner takes the token that is to be taken. -/
theorem Takes.exists_munch {token : Token} {span rest : List Char} (h : Takes lx token span rest) :
    ∃ c cs m, span ++ rest = c :: cs ∧ ¬ isGap c ∧ munch lx c cs = .ok m ∧ m.span = span ∧
      m.rest = rest := by
  obtain ⟨token', other, hspells, hother⟩ : ∃ token' other,
      Spells lx.separator token' other ∧ other <+: span ++ rest := by
    cases h with
    | word hspells => exact ⟨_, _, hspells, rest, rfl⟩
    | number h =>
      obtain ⟨s, behind, hproper, _, heq⟩ := h.exists_spelling
      exact ⟨_, _, .number hproper (Spelling.read?_text hproper), behind, heq.symm⟩
  rcases hcs : span ++ rest with _ | ⟨c, cs⟩ <;> rw [hcs] at hother
  · exact absurd (List.prefix_nil.1 hother) hspells.ne_nil
  obtain ⟨hstart, htext⟩ := hspells.starts hother
  obtain ⟨m, hm⟩ := Token.exists_munch lx hstart htext
  obtain ⟨hsplit, _⟩ := munch_split hm
  obtain ⟨hspan, hrest⟩ := (takes_of_munch hm).eq h (hsplit.trans hcs.symm)
  exact ⟨c, cs, m, rfl, hstart.not_isGap, hm, hspan, hrest⟩

/-! ## Where cutting arrives -/

/-- Gaps are passed over. -/
theorem scan_of_gaps {gap : List Char} (hgap : ∀ c ∈ gap, isGap c) (o : Nat) (cs : List Char)
    (found : Array Lexeme) :
    scan lx o (gap ++ cs) found = scan lx (o + byteLength gap) cs found := by
  induction gap generalizing o with
  | nil => rfl
  | cons c gap ih =>
    obtain ⟨hc, hgap⟩ := List.forall_mem_cons.1 hgap
    rw [List.cons_append, scan_of_gap hc, ih hgap, Text.byteLength_cons, Nat.add_assoc]

/-- The scanner comes to wherever cutting arrives. -/
theorem scan_of_arrives {o stop : Nat} {cs behind : List Char} {lexemes : List Lexeme}
    (h : Arrives lx o cs lexemes stop behind) (found : Array Lexeme) :
    ∃ found', scan lx o cs found = scan lx stop behind found' := by
  induction h generalizing found with
  | here hgap => exact ⟨found, scan_of_gaps hgap ..⟩
  | @cons offset stop gap span rest behind token lexemes hgap htakes _ ih =>
    obtain ⟨c, cs, m, hcs, hc, hm, rfl, rfl⟩ := htakes.exists_munch
    rw [List.append_assoc, scan_of_gaps hgap, hcs, scan_of_munch hc hm]
    exact ih _

/-- Scanning that has passed a gap since the last lexeme and fails, arrives where what is
    left is rejected. -/
theorem arrives_of_scan_error {offset o : Nat} {gap cs : List Char} {found : Array Lexeme}
    {e : Located SyntaxError} (hgap : ∀ c ∈ gap, isGap c) (ho : o = offset + byteLength gap)
    (h : scan lx o cs found = .error e) :
    ∃ lexemes behind, Arrives lx offset (gap ++ cs) lexemes e.offset behind ∧
      Rejects behind e.cause := by
  fun_induction scan lx o cs found generalizing offset gap with
  | case1 => cases h
  | case2 o found c cs hc ih =>
    have hgap' : ∀ d ∈ gap ++ [c], isGap d := by
      simpa [or_imp, forall_and, hc] using hgap
    simpa using @ih offset (gap ++ [c]) hgap' (by simp [ho, Nat.add_assoc]) h
  | case3 o found c cs hc e' he =>
    cases h
    exact ⟨[], c :: cs, ho ▸ .here hgap, (munch_error_iff lx hc).1 he⟩
  | case4 o found c cs _ m hm ih =>
    obtain ⟨lexemes, behind, harrives, he⟩ := @ih (o + byteLength m.span) [] (by simp) rfl h
    obtain ⟨hsplit, _⟩ := munch_split hm
    refine ⟨⟨m.token, o⟩ :: lexemes, behind, ?_, he⟩
    rw [← hsplit, ← List.append_assoc, ho]
    rw [ho] at harrives
    exact .cons hgap (takes_of_munch hm) harrives

/-- Cutting fails only where it has arrived at something that is rejected. -/
theorem exists_arrives_of_error {source : String} {e : Located SyntaxError}
    (h : tokenize lx source = .error e) :
    ∃ before behind, Arrives lx 0 source.toList before e.offset behind ∧
      Rejects behind e.cause := by
  rw [tokenize] at h
  rcases hscan : scan lx 0 source.toList #[] with e' | found <;> rw [hscan] at h <;> cases h
  exact @arrives_of_scan_error lx 0 0 [] source.toList #[] e (by simp) rfl hscan

/-- What is rejected is reported where it is, whatever has been found before. -/
theorem scan_of_rejects {behind : List Char} {cause : SyntaxError} (h : Rejects behind cause)
    (o : Nat) (found : Array Lexeme) : scan lx o behind found = .error ⟨o, cause⟩ := by
  obtain ⟨c, cs, rfl, hc⟩ : ∃ c cs, behind = c :: cs ∧ ¬ isGap c := by
    cases h with
    | character hc => exact ⟨_, _, rfl, hc⟩
    | text => exact ⟨_, _, rfl, by decide⟩
  have hm := (munch_error_iff lx hc).2 h
  rw [scan, if_neg hc]
  split
  · rename_i he
    rw [hm] at he
    cases he
    rfl
  · rename_i hok
    rw [hm] at hok
    cases hok

/-- There is a character that is rejected, and it is no digit. -/
theorem Rejects.exists_head {behind : List Char} {cause : SyntaxError} (h : Rejects behind cause) :
    ∃ c cs, behind = c :: cs ∧ ¬ c.isDigit := by
  cases h with
  | @character c cs _ hstart =>
    exact ⟨c, cs, rfl, fun hc => hstart (.inl (Bool.or_eq_true_iff.2 (.inr hc)))⟩
  | text => exact ⟨_, _, rfl, by decide⟩

/-- The text of a number that is cut off has its value. -/
theorem Measures.read?_text {n : Numeral} {span rest : List Char} (h : Measures lx n span rest) :
    Decimal.read? n.text.toList = some n.value := by
  cases h with
  | bare hs | quantity hs => simpa using Spelling.read?_text hs

/-! ## Segmentation -/

/-- To take a token is to cut one off, the preference of units apart. -/
theorem Takes.cuts {token : Token} {span rest : List Char} (h : Takes lx token span rest) :
    Cuts lx token span rest := by
  cases h with
  | word hspells hlongest hne => exact .plain hspells hlongest fun n hn => absurd hn (hne n)
  | number h =>
    cases h with
    | bare hs hlongest hnone =>
      exact .plain (.number hs (Spelling.read?_text hs)) hlongest fun _ _ => hnone
    | quantity hs hlongest hunit hrest =>
      refine .quantity (.number hs (Spelling.read?_text hs)) ?_
        (fun c hc => List.all_eq_true.1 List.all_takeWhile c hc) (hrest ▸ hunit.1) fun v hv => ?_
      · rwa [List.append_assoc, ← hrest, List.takeWhile_append_dropWhile]
      · exact (hunit.2 v (hrest ▸ hv)).elim Nat.le_of_lt fun h => Nat.le_of_eq h.1

/-- Where cutting arrives, the lexemes before reach to. -/
theorem Arrives.reaches {offset stop : Nat} {cs behind : List Char} {lexemes : List Lexeme}
    (h : Arrives lx offset cs lexemes stop behind) : Reaches lx offset cs lexemes stop behind := by
  induction h with
  | here hgap => exact .here hgap
  | cons hgap htakes _ ih => exact .cons hgap htakes.cuts ih

/-- The place is the number of bytes before what is left. -/
theorem Reaches.exists_front {offset stop : Nat} {cs behind : List Char} {lexemes : List Lexeme}
    (h : Reaches lx offset cs lexemes stop behind) :
    ∃ front, cs = front ++ behind ∧ stop = offset + byteLength front := by
  induction h with
  | here => exact ⟨_, rfl, rfl⟩
  | @cons offset stop gap span rest behind token lexemes _ _ _ ih =>
    obtain ⟨front, rfl, rfl⟩ := ih
    exact ⟨gap ++ span ++ front, by simp, by simp [Nat.add_assoc]⟩

/-- A formula cannot be cut if and only if cutting arrives at a character that no token
    starts with, or at a quote that opens a text without an end; the error is reported
    there. It is never a digit: where a number starts, one is taken, and its text reads as
    its value. -/
theorem tokenize_error_iff (lx : Lexicon) (source : String) :
    (∀ e, tokenize lx source = .error e ↔
      ∃ before behind, Arrives lx 0 source.toList before e.offset behind ∧
        Rejects behind e.cause) ∧
    (∀ e, tokenize lx source = .error e →
      ∃ front c behind, source.toList = front ++ c :: behind ∧ e.offset = byteLength front ∧
        ¬ c.isDigit) ∧
    ∀ c cs, Spelling.startsAt (c :: cs) → ∃ m n, munch lx c cs = .ok m ∧
      m.token = .number n ∧ Decimal.read? n.text.toList = some n.value := by
  refine ⟨fun e => ⟨exists_arrives_of_error, ?_⟩, fun e h => ?_, fun c cs h => ?_⟩
  · rintro ⟨before, behind, harrives, hrejects⟩
    obtain ⟨found, hscan⟩ := scan_of_arrives harrives #[]
    rw [tokenize, hscan, scan_of_rejects hrejects]
    rfl
  · obtain ⟨before, behind, harrives, hrejects⟩ := exists_arrives_of_error h
    obtain ⟨front, hsource, ho⟩ := harrives.reaches.exists_front
    obtain ⟨d, ds, rfl, hd⟩ := hrejects.exists_head
    exact ⟨front, d, ds, hsource, ho.trans (Nat.zero_add _), hd⟩
  · obtain ⟨n, hn, hmeasures⟩ := measures_munchNumber lx h
    exact ⟨_, n, if_pos h, hn, hmeasures.read?_text⟩

/-- A backslash before the end closes nothing, and one `&` is no token. -/
example : tokenize {} "a\n='\\'\\" = .error ⟨3, .unterminatedText⟩ ∧
    tokenize {} "é" = .error ⟨0, .unexpectedCharacter 'é'⟩ ∧
    tokenize {} "a &&& b" = .error ⟨4, .unexpectedCharacter '&'⟩ := by
  refine ⟨?_, ?_, ?_⟩ <;> cbv

end Formula.Token
