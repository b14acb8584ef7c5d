import Formula.Proofs.Lexing.Segmentation
import Mathlib.Data.List.Chain

/-!
# What is printed is cut into its tokens

Printed tokens stand between spaces, and each of them is cut off before the next space
(`munch_written`): a number in the form that does not depend on the separator, as the
separator is neither a space nor the letter of the exponent; and a unit, as names that
are not the same do not end at the same place. Only a number that is followed by a name
could be cut otherwise, as the name might be a unit. In the tokens of a formula none is
(`Statement.apart_tokens`).
-/

namespace Formula

open Text (byteLength isBlank)

/-! ## Proper tokens -/

namespace Token

/-- The token can be written where these units are known: its names are names, a number
    is in the form that does not depend on the separator and has the value of its text,
    and its unit stands at its place in the list. -/
def Proper (units : List String) : Token → Prop
  | .number n =>
    (∃ s : Spelling, s.Proper '.' ∧ n.text.toList = s.text) ∧
      Decimal.read? n.text.toList = some n.value ∧
      ∀ u ∈ n.unit, units[u.index]? = some u.name
  | .name n => IsName n.toList
  | .field o f => IsName o.toList ∧ IsName f.toList
  | _ => True

/-- Whether the token is a number. -/
def isNumber : Token → Bool
  | .number _ => true
  | _ => false

/-- Whether the token is a name or a field. -/
def isReference : Token → Bool
  | .name _ | .field .. => true
  | _ => false

/-- The text ends here, or goes on with a space. -/
def Spaced (cs : List Char) : Prop := ∀ c ∈ cs.head?, c = ' '

theorem Spaced.cases {cs : List Char} (h : Spaced cs) : cs = [] ∨ ∃ ds, cs = ' ' :: ds := by
  rcases cs with _ | ⟨c, ds⟩
  · exact .inl rfl
  · exact .inr ⟨ds, by rw [h c rfl]⟩

/-- A name does not go on in a space. -/
theorem Spaced.not_isNamePart {cs : List Char} (h : Spaced cs) :
    ∀ c ∈ cs.head?, ¬ isNamePart c := by
  intro c hc
  rw [h c hc]
  decide

/-- No range of printed characters holds a blank. -/
theorem not_isBlank_of_range {c low high : Char} (hlow : 0x21 ≤ low.toNat)
    (hhigh : high.toNat ≤ 0x7E) (h : low.val ≤ c.val ∧ c.val ≤ high.val) : ¬ isBlank c := by
  have hge : 0x21 ≤ c.toNat := hlow.trans h.1
  have hle : c.toNat ≤ 0x7E := Nat.le_trans h.2 hhigh
  simp only [isBlank, Bool.or_eq_true, Bool.and_eq_true, decide_eq_true_eq, beq_iff_eq]
  omega

theorem not_isBlank_of_isDigit {c : Char} (h : c.isDigit) : ¬ isBlank c :=
  @not_isBlank_of_range c '0' '9' (by decide) (by decide)
    ((Bool.and_eq_true_iff.1 h).imp of_decide_eq_true of_decide_eq_true)

theorem not_isBlank_of_isNameStart {c : Char} (h : isNameStart c) : ¬ isBlank c := by
  rcases Bool.or_eq_true_iff.1 h with hletter | hunderscore
  · rcases Bool.or_eq_true_iff.1 hletter with hupper | hlower
    · exact @not_isBlank_of_range c 'A' 'Z' (by decide) (by decide) (of_decide_eq_true hupper)
    · exact @not_isBlank_of_range c 'a' 'z' (by decide) (by decide)
        ((Bool.and_eq_true_iff.1 hlower).imp of_decide_eq_true of_decide_eq_true)
  · rw [eq_of_beq hunderscore]
    decide

end Token

/-! ## Numbers -/

namespace Spelling

variable {separator : Char} {s : Spelling}

/-- The spelling of the same number that is its own text. -/
def normal (s : Spelling) : Spelling where
  whole := s.whole
  fraction := s.fraction.map fun (_, digits) => ('.', digits)
  exponent := s.exponent.map fun (_, sign, digits) =>
    ('e', if sign = some '-' then some '-' else none, digits)

/-- The normal spelling of a number is written as its text. -/
theorem written_normal (s : Spelling) : s.normal.written = s.text := by
  obtain ⟨whole, _ | ⟨mark, digits⟩, _ | ⟨letter, sign, power⟩⟩ := s <;>
    simp only [normal, written, text, Option.map, Option.elim] <;> split <;> rfl

theorem text_normal (s : Spelling) : s.normal.text = s.text := by
  obtain ⟨whole, _ | ⟨mark, digits⟩, _ | ⟨letter, sign, power⟩⟩ := s <;>
    simp only [normal, text, Option.map, Option.elim] <;> split <;> simp_all

/-- The normal spelling means the same number. -/
theorem value_normal (s : Spelling) : s.normal.value = s.value := by
  obtain ⟨whole, _ | ⟨mark, digits⟩, _ | ⟨letter, sign, power⟩⟩ := s <;>
    simp only [normal, value, Option.map, Option.elim] <;> split <;> simp_all

/-- The normal spelling can be read whatever the separator is, as it has a point. -/
theorem Proper.normal (h : s.Proper '.') (separator : Char) : s.normal.Proper separator where
  whole := h.whole
  fraction mark digits hfraction := by
    obtain ⟨⟨m, _⟩, hm, heq⟩ := Option.map_eq_some_iff.1 hfraction
    cases heq
    exact ⟨.inl rfl, (h.fraction m _ hm).2⟩
  exponent letter sign digits hexponent := by
    obtain ⟨⟨l, sign, _⟩, hl, heq⟩ := Option.map_eq_some_iff.1 hexponent
    cases heq
    refine ⟨.inl rfl, ?_, (h.exponent l sign _ hl).2.2⟩
    split <;> simp
  nonempty := h.nonempty.imp_right fun hfraction => by simpa [Spelling.normal] using hfraction

/-- Nothing that belongs to a number stands here: neither a digit nor a fraction. -/
theorem scanFraction_eq_none {cs : List Char}
    (hcs : ∀ c ∈ cs.head?, c ≠ '.' ∧ c ≠ separator) : scanFraction separator cs = (none, cs) := by
  unfold scanFraction
  split
  · rename_i mark d rest
    exact if_neg fun hmark => hmark.1.elim (hcs mark rfl).1 (hcs mark rfl).2
  · rfl

theorem scanExponent_spaced {cs : List Char} (hcs : Token.Spaced cs) :
    scanExponent cs = (none, cs) := by
  rcases hcs.cases with rfl | ⟨ds, rfl⟩ <;> rfl

/-- The exponent of a text is read as it stands there. -/
theorem scanExponent_e {sign : Option Char} {digits cs : List Char}
    (hsign : sign = none ∨ sign = some '+' ∨ sign = some '-') (hne : digits ≠ [])
    (hdigits : ∀ d ∈ digits, d.isDigit) (hcs : NoDigit cs) :
    scanExponent ('e' :: (sign.toList ++ digits ++ cs)) = (some ('e', sign, digits), cs) := by
  simp only [scanExponent, true_or, if_true, scanSign_of_append cs hsign hne hdigits,
    takeDigits_of_append hdigits hcs, List.isEmpty_iff, hne, if_false]

/-- The text of a number is taken up to the next space. -/
theorem scan_text (h : s.Proper '.') (hspace : separator ≠ ' ') (he : separator ≠ 'e')
    {rest : List Char} (hrest : Token.Spaced rest) :
    scan separator (s.text ++ rest) = (s.normal, rest) := by
  have hnone : NoDigit rest := by
    intro c hc
    rw [hrest c hc]
    decide
  rw [← written_normal]
  obtain ⟨whole, fraction, exponent⟩ := s
  -- The number is taken apart from its end.
  obtain ⟨tail, htail, hexponent, hhead⟩ : ∃ tail,
      written (normal ⟨whole, fraction, exponent⟩) ++ rest =
        whole ++ ((fraction.elim [] fun (_, digits) => '.' :: digits) ++ tail) ∧
      scanExponent tail = ((normal ⟨whole, fraction, exponent⟩).exponent, rest) ∧
      ∀ c ∈ tail.head?, c = 'e' ∨ c = ' ' := by
    rcases exponent with _ | ⟨letter, sign, power⟩
    · refine ⟨rest, ?_, scanExponent_spaced hrest, fun c hc => .inr (hrest c hc)⟩
      rcases fraction with _ | ⟨mark, digits⟩ <;> simp [written, normal]
    · obtain ⟨_, _, hne, hpower⟩ := h.exponent letter sign power rfl
      have hsign : (if sign = some '-' then some '-' else none) = none ∨
          (if sign = some '-' then some '-' else none) = some '+' ∨
            (if sign = some '-' then some '-' else none) = some '-' := by
        split <;> simp
      refine ⟨_, ?_, scanExponent_e hsign hne hpower hnone, ?_⟩
      · rcases fraction with _ | ⟨mark, digits⟩ <;> simp [written, normal]
      · rintro c ⟨⟩
        exact .inl rfl
  have hdigit : NoDigit tail := by
    intro c hc
    rcases hhead c hc with rfl | rfl <;> decide
  rw [htail]
  rcases fraction with _ | ⟨mark, digits⟩
  · have hmark : ∀ c ∈ tail.head?, c ≠ '.' ∧ c ≠ if whole.isEmpty then '.' else separator := by
      intro c hc
      have hc := hhead c hc
      refine ⟨by rintro rfl; simp at hc, ?_⟩
      split <;> rintro rfl
      · simp at hc
      · exact hc.elim he hspace
    simp only [scan, Option.elim_none, List.nil_append, takeDigits_of_append h.whole hdigit,
      scanFraction_eq_none hmark, hexponent]
    rfl
  · obtain ⟨_, hne, hdigits⟩ := h.fraction mark digits rfl
    have hpoint : NoDigit ('.' :: (digits ++ tail)) := by
      rintro c ⟨⟩
      decide
    simp only [scan, Option.elim_some, List.cons_append, takeDigits_of_append h.whole hpoint,
      scanFraction_mark (.inl rfl) hne hdigits hdigit, hexponent]
    rfl

end Spelling

/-! ## Units -/

namespace Token

variable {units : List String}

/-- Units that are names are found only where a name starts. -/
theorem unitAt?_eq_none (hunits : ∀ name ∈ units, IsName name.toList) {cs : List Char}
    (hcs : ∀ c ∈ cs.head?, ¬ isNameStart c) : unitAt? units cs = none := by
  rcases hu : unitAt? units cs with _ | u
  · rfl
  · obtain ⟨⟨hindex, _, ⟨rest, rfl⟩, _⟩, _⟩ := unitAt_of_unitAt? hu
    obtain ⟨c, ds, hname, hc, _⟩ := hunits _ (List.mem_of_getElem? hindex)
    rw [hname] at hcs
    exact absurd hc (hcs c rfl)

/-- A unit is found where it stands, if nothing can make its name longer. -/
theorem unitAt?_name (hunits : ∀ name ∈ units, IsName name.toList) (hnodup : units.Nodup)
    {u : UnitSuffix} (hu : units[u.index]? = some u.name) {rest : List Char}
    (hrest : ∀ c ∈ rest.head?, ¬ isNamePart c) :
    unitAt? units (u.name.toList ++ rest) = some u := by
  have hname := hunits _ (List.mem_of_getElem? hu)
  have hat : UnitAt units u (u.name.toList ++ rest) := by
    refine ⟨hu, ?_, List.prefix_append .., by simpa using hrest⟩
    rintro hempty
    obtain ⟨c, ds, hc, _⟩ := hname
    rw [hempty] at hc
    cases hc
  rcases hv : unitAt? units (u.name.toList ++ rest) with _ | v
  · exact absurd hat (not_unitAt_of_unitAt? hv u)
  · obtain ⟨⟨hindex, _, ⟨behind, hbehind⟩, hend⟩, _⟩ := unitAt_of_unitAt? hv
    -- Both names are the letters, underscores and digits up to the first other character.
    have hbehind' : ∀ c ∈ behind.head?, ¬ isNamePart c := by simpa [← hbehind] using hend
    have htake := takeWhile_eq_of_append (hunits _ (List.mem_of_getElem? hindex)).parts hbehind'
    rw [hbehind, (takeWhile_eq_of_append hname.parts hrest).1] at htake
    have heq : v.name = u.name := String.toList_injective htake.1.symm
    have hlt : v.index < units.length := (List.getElem?_eq_some_iff.1 hindex).1
    have hindex : v.index = u.index :=
      (List.getElem?_inj hlt hnodup).1 (by rw [hindex, hu, heq])
    obtain ⟨index, name⟩ := u
    obtain ⟨index', name'⟩ := v
    cases heq
    cases hindex
    rfl

/-! ## Tokens before a space -/

/-- The words in which formulas are printed: units are different names, and the separator
    is neither a space nor the letter of an exponent. -/
structure Plain (lx : Lexicon) : Prop where
  names : ∀ name ∈ lx.units, IsName name.toList
  nodup : lx.units.Nodup
  not_space : lx.separator ≠ ' '
  not_e : lx.separator ≠ 'e'

variable {lx : Lexicon} {rest : List Char}

/-- A number is cut off up to the space behind it, with its unit. One without a unit takes none
    from what follows, unless a name starts there. -/
theorem munchNumber_written (hlx : Plain lx) {n : Numeral} (hn : (number n).Proper lx.units)
    (hrest : Spaced rest) (hnext : ∀ c ∈ (rest.dropWhile isBlank).head?, ¬ isNameStart c) :
    munchNumber lx ((number n).written ++ rest) = ⟨number n, (number n).written, rest⟩ := by
  obtain ⟨value, text, unit⟩ := n
  obtain ⟨⟨s, hs, htext⟩, hvalue, hunit⟩ := hn
  obtain rfl : value = s.value := by
    rw [htext, Spelling.read?_text hs] at hvalue
    exact (Option.some.inj hvalue).symm
  obtain rfl : text = String.ofList s.text := by rw [← htext, String.ofList_toList]
  rcases unit with _ | u
  · simp only [written, Option.elim_none, String.toList_ofList, List.append_nil, munchNumber,
      Spelling.scan_text hs hlx.not_space hlx.not_e hrest, unitAt?_eq_none hlx.names hnext,
      Spelling.written_normal, Spelling.value_normal, Spelling.text_normal]
  · have hname := hlx.names _ (List.mem_of_getElem? (hunit u rfl))
    have hspaced : Spaced (' ' :: (u.name.toList ++ rest)) := by
      rintro c ⟨⟩
      rfl
    -- One space stands between the number and its unit, which does not start with a blank.
    have hblank : ∀ c ∈ (u.name.toList ++ rest).head?, ¬ isBlank c := by
      obtain ⟨c, ds, hcons, hc, _⟩ := hname
      rw [hcons]
      rintro _ ⟨⟩
      exact not_isBlank_of_isNameStart hc
    have hspace : ∀ c ∈ [' '], isBlank c := List.forall_mem_singleton.2 rfl
    obtain ⟨htake, hdrop⟩ := takeWhile_eq_of_append hspace hblank
    rw [List.cons_append, List.nil_append] at htake hdrop
    simp only [written, Option.elim_some, String.toList_ofList, List.append_assoc,
      List.cons_append, munchNumber, Spelling.scan_text hs hlx.not_space hlx.not_e hspaced, htake,
      hdrop, unitAt?_name hlx.names hlx.nodup (hunit u rfl) hrest.not_isNamePart,
      Spelling.written_normal, Spelling.value_normal, Spelling.text_normal, List.drop_left,
      List.nil_append]

/-- Where a name starts, a name or a field is cut off. -/
theorem munch_of_isNameStart {c : Char} (hc : isNameStart c) (cs : List Char) :
    munch lx c cs = .ok (munchName (c :: cs)) := by
  have hstarts : ¬ Spelling.startsAt (c :: cs) := fun h => by
    rcases isDigit_or_of_startsAt h with hdigit | rfl
    · exact not_isNameStart_of_isDigit hdigit hc
    · cases hc
  rw [munch, if_neg hstarts, if_pos hc]

/-- A name is cut off up to the space behind it. -/
theorem munchName_name {n : String} (hn : IsName n.toList) (hrest : Spaced rest) :
    munchName (n.toList ++ rest) = ⟨name n, n.toList, rest⟩ := by
  obtain ⟨htake, hdrop⟩ := takeWhile_eq_of_append hn.parts hrest.not_isNamePart
  simp only [munchName, htake, hdrop, String.ofList_toList]
  rcases hrest.cases with rfl | ⟨ds, rfl⟩ <;> rfl

/-- A field is cut off up to the space behind it. -/
theorem munchName_field {o f : String} (ho : IsName o.toList) (hf : IsName f.toList)
    (hrest : Spaced rest) :
    munchName ((field o f).written ++ rest) = ⟨field o f, (field o f).written, rest⟩ := by
  have hpoint : ∀ d ∈ ('.' :: (f.toList ++ rest)).head?, ¬ isNamePart d := by
    rintro d ⟨⟩
    decide
  obtain ⟨htake, hdrop⟩ := takeWhile_eq_of_append ho.parts hpoint
  obtain ⟨htake', hdrop'⟩ := takeWhile_eq_of_append hf.parts hrest.not_isNamePart
  obtain ⟨c, cs, hcons, hc, _⟩ := hf
  have hofList : String.ofList (c :: cs) = f := by rw [← hcons, String.ofList_toList]
  rw [hcons] at htake' hdrop' htake hdrop
  simp only [List.cons_append] at htake' hdrop' htake hdrop
  simp only [written, hcons, List.append_assoc, List.cons_append, munchName, htake, hdrop, hc,
    if_true, htake', hdrop', String.ofList_toList, hofList]

/-- A text says the same with its quotes and backslashes escaped. -/
theorem says_quote (s : List Char) :
    Says (s.flatMap fun c => if c = '\'' ∨ c = '\\' then ['\\', c] else [c]) s := by
  induction s with
  | nil => exact .nil
  | cons c cs ih =>
    rw [List.flatMap_cons]
    split
    · rename_i hc
      rcases hc with rfl | rfl <;> exact ih.escape
    · rename_i hc
      exact ih.plain (fun h => hc (.inr h)) (fun h => hc (.inl h))

/-- A sign is taken where a space follows it. -/
theorem munch_sign (lx : Lexicon) {sign : String} {token : Token} (h : (sign, token) ∈ signs)
    (hrest : Spaced rest) :
    ∃ c cs, sign.toList = c :: cs ∧ ¬ isBlank c ∧ ¬ isNameStart c ∧
      munch lx c (cs ++ rest) = .ok ⟨token, sign.toList, rest⟩ := by
  simp only [signs, List.mem_cons, Prod.mk.injEq, List.not_mem_nil, or_false] at h
  rcases hrest.cases with rfl | ⟨ds, rfl⟩ <;>
    rcases h with h | h | h | h | h | h | h | h | h | h | h | h | h | h | h | h | h | h <;>
    obtain ⟨rfl, rfl⟩ := h <;>
    exact ⟨_, _, rfl, by decide, by decide, rfl⟩

/-- A token is taken up to the next space, unless it is a number and what follows could
    start with a unit. -/
theorem munch_written (hlx : Plain lx) {t : Token} (ht : t.Proper lx.units) (hrest : Spaced rest)
    (hnext : t.isNumber → ∀ c ∈ (rest.dropWhile isBlank).head?, ¬ isNameStart c) :
    ∃ c cs, t.written = c :: cs ∧ ¬ isBlank c ∧ (isNameStart c → t.isReference) ∧
      munch lx c (cs ++ rest) = .ok ⟨t, t.written, rest⟩ := by
  have hsign (sign : String) (h : (sign, t) ∈ signs) (hwritten : t.written = sign.toList) :
      ∃ c cs, t.written = c :: cs ∧ ¬ isBlank c ∧ (isNameStart c → t.isReference) ∧
        munch lx c (cs ++ rest) = .ok ⟨t, t.written, rest⟩ := by
    obtain ⟨c, cs, hc, hblank, hname, hmunch⟩ := munch_sign lx h hrest
    exact ⟨c, cs, hwritten.trans hc, hblank, fun h => absurd h hname, hwritten ▸ hmunch⟩
  cases t with
  | number n =>
    have hmunch := munchNumber_written hlx ht hrest (hnext rfl)
    obtain ⟨⟨s, hs, htext⟩, _⟩ := ht
    have hnumber : s.normal.written <+: (number n).written := by
      rw [Spelling.written_normal, ← htext]
      exact List.prefix_append ..
    -- A number starts there, with or without the rest.
    have hstarts := (hs.normal lx.separator).startsAt hnumber
    have hstarts' := (hs.normal lx.separator).startsAt
      (List.IsPrefix.trans hnumber (List.prefix_append _ rest))
    rcases hwritten : (number n).written with _ | ⟨c, cs⟩ <;>
      rw [hwritten] at hstarts hstarts' hmunch
    · cases hstarts
    · refine ⟨c, cs, rfl, ?_, ?_, ?_⟩
      · rcases isDigit_or_of_startsAt hstarts with hc | rfl
        · exact not_isBlank_of_isDigit hc
        · decide
      · intro hname
        rcases isDigit_or_of_startsAt hstarts with hc | rfl
        · exact absurd hname (not_isNameStart_of_isDigit hc)
        · cases hname
      · rw [List.cons_append] at hstarts' hmunch
        rw [munch, if_pos hstarts', hmunch]
  | name n =>
    have hmunch := munchName_name ht hrest
    obtain ⟨c, cs, hcons, hc, _⟩ := ht
    rw [hcons] at hmunch
    exact ⟨c, cs, hcons, not_isBlank_of_isNameStart hc, fun _ => rfl,
      by rw [munch_of_isNameStart hc, ← List.cons_append, hmunch, written, hcons]⟩
  | field o f =>
    have hmunch := munchName_field ht.1 ht.2 hrest
    obtain ⟨c, cs, hcons, hc, _⟩ := ht.1
    have hwritten : (field o f).written = c :: (cs ++ '.' :: f.toList) := by
      rw [written, hcons, List.cons_append]
    rw [hwritten] at hmunch ⊢
    exact ⟨c, _, rfl, not_isBlank_of_isNameStart hc, fun _ => rfl,
      by rw [munch_of_isNameStart hc, ← List.cons_append, hmunch]⟩
  | text s =>
    have hscan := scanText_of_says (says_quote s.toList) rest
    refine ⟨'\'', _, rfl, by decide, (by cases ·), ?_⟩
    rw [List.append_eq, List.append_assoc, List.cons_append, List.nil_append, munch, if_neg,
      if_neg, if_pos rfl, hscan]
    · simp only [String.ofList_toList]
      rfl
    · decide
    · exact fun h => absurd (isDigit_or_of_startsAt h) (by decide)
  | operator op => exact hsign op.symbol (by cases op <;> simp [signs, BinaryOp.symbol]) rfl
  | not => exact hsign "!" (by simp [signs]) rfl
  | assign => exact hsign "=" (by simp [signs]) rfl
  | opening => exact hsign "(" (by simp [signs]) rfl
  | closing => exact hsign ")" (by simp [signs]) rfl
  | comma => exact hsign "," (by simp [signs]) rfl
  | dot => exact hsign "." (by simp [signs]) rfl

/-! ## Tokens in a row -/

/-- No number stands before a name or a field. -/
def Apart (ts : List Token) : Prop := ts.IsChain fun t u => t.isNumber → ¬ u.isReference

/-- The tokens as they are printed. -/
def spaced (ts : List Token) : List Char := ((ts.map written).intersperse [' ']).flatten

/-- Printed tokens do not start with a blank, and with a name only if they begin with one. -/
theorem exists_head_spaced (hlx : Plain lx) {t : Token} (ht : t.Proper lx.units)
    (ts : List Token) :
    ∃ c cs, spaced (t :: ts) = c :: cs ∧ ¬ isBlank c ∧ (isNameStart c → t.isReference) := by
  obtain ⟨c, cs, hwritten, hblank, hname, _⟩ :=
    @munch_written lx [] hlx t ht (by simp [Spaced]) (by simp)
  rw [spaced, List.map_cons]
  rcases hts : ts.map written with _ | ⟨d, ds⟩
  · exact ⟨c, cs, by rw [hwritten]; simp, hblank, hname⟩
  · exact ⟨c, _, by rw [hwritten]; rfl, hblank, hname⟩

/-- Behind a token, the text ends or the next token stands behind a space, which is passed
    over. -/
theorem exists_behind (hlx : Plain lx) (t : Token) {ts : List Token}
    (hts : ∀ u ∈ ts, u.Proper lx.units) :
    ∃ rest, spaced (t :: ts) = t.written ++ rest ∧ Spaced rest ∧
      (∀ c ∈ (rest.dropWhile isBlank).head?, isNameStart c → ∃ u ∈ ts.head?, u.isReference) ∧
      ∀ o found, ∃ o', scan lx o rest found = scan lx o' (spaced ts) found := by
  rcases ts with _ | ⟨u, us⟩
  · exact ⟨[], rfl, by simp [Spaced], by simp, fun o _ => ⟨o, rfl⟩⟩
  · obtain ⟨c, cs, hcons, hblank, hname⟩ := exists_head_spaced hlx (hts u List.mem_cons_self) us
    refine ⟨' ' :: spaced (u :: us), rfl, ?_, ?_, fun o _ => ⟨_, scan_of_gap (by decide) ..⟩⟩
    · rintro _ ⟨⟩
      rfl
    · rw [hcons, List.dropWhile_cons_of_pos (by decide), List.dropWhile_cons_of_neg hblank]
      rintro _ ⟨⟩ hstart
      exact ⟨u, rfl, hname hstart⟩

theorem not_isGap_of_not_isBlank {c : Char} (h : ¬ isBlank c) : ¬ isGap c := by
  intro hgap
  simp only [isGap, Bool.or_eq_true, beq_iff_eq] at hgap
  rcases hgap with (((rfl | rfl) | rfl) | rfl) | rfl <;> exact h (by decide)

/-- Tokens that are printed are cut off one after the other. -/
theorem scan_spaced (hlx : Plain lx) {ts : List Token} (hts : ∀ t ∈ ts, t.Proper lx.units)
    (hapart : Apart ts) (o : Nat) (found : Array Lexeme) :
    ∃ lexemes, (scan lx o (spaced ts) found).map Array.toList = .ok (found.toList ++ lexemes) ∧
      lexemes.map Lexeme.token = ts := by
  induction ts generalizing o found with
  | nil =>
    refine ⟨[], ?_, rfl⟩
    rw [spaced, List.map_nil, List.intersperse_nil, List.flatten_nil, scan, List.append_nil]
    rfl
  | cons t ts ih =>
    obtain ⟨ht, hts⟩ := List.forall_mem_cons.1 hts
    obtain ⟨hhead, hapart⟩ := List.isChain_cons.1 hapart
    obtain ⟨rest, hsplit, hspaced, hnext, hscan⟩ := exists_behind hlx t hts
    have hnext : t.isNumber → ∀ c ∈ (rest.dropWhile isBlank).head?, ¬ isNameStart c := by
      intro hnumber c hc hstart
      obtain ⟨u, hu, hreference⟩ := hnext c hc hstart
      exact hhead u hu hnumber hreference
    obtain ⟨c, cs, hwritten, hblank, _, hmunch⟩ := munch_written hlx ht hspaced hnext
    rw [hsplit, hwritten, List.cons_append,
      scan_of_munch (not_isGap_of_not_isBlank hblank) hmunch]
    obtain ⟨o', hscan⟩ := hscan (o + byteLength t.written) (found.push ⟨t, o⟩)
    obtain ⟨lexemes, hlexemes, htokens⟩ := ih hts hapart o' (found.push ⟨t, o⟩)
    refine ⟨⟨t, o⟩ :: lexemes, ?_, by rw [List.map_cons, htokens]⟩
    rw [hscan, hlexemes, Array.toList_push, List.append_assoc, List.cons_append, List.nil_append]

/-- Printed tokens are cut into the same tokens if no number stands before a name. -/
theorem tokenize_spaced (hlx : Plain lx) {ts : List Token} (hts : ∀ t ∈ ts, t.Proper lx.units)
    (hapart : Apart ts) :
    ∃ lexemes, tokenize lx (String.ofList (spaced ts)) = .ok lexemes ∧
      lexemes.map Lexeme.token = ts := by
  obtain ⟨lexemes, hlexemes, htokens⟩ := scan_spaced hlx hts hapart 0 #[]
  exact ⟨lexemes, by rw [tokenize, String.toList_ofList, hlexemes]; rfl, htokens⟩

/-! ## Tokens of formulas -/

theorem Apart.cons {us : List Token} {t : Token} (hus : Apart us) (hnumber : ¬ t.isNumber) :
    Apart (t :: us) :=
  List.isChain_cons.2 ⟨fun _ _ h => absurd h hnumber, hus⟩

/-- Anything else may stand between two lists of tokens. -/
theorem Apart.append_cons {ts us : List Token} {t : Token} (hts : Apart ts) (hus : Apart us)
    (hnumber : ¬ t.isNumber) (hreference : ¬ t.isReference) : Apart (ts ++ t :: us) := by
  refine List.isChain_append.2 ⟨hts, hus.cons hnumber, ?_⟩
  rintro u _ _ ⟨⟩ _
  exact hreference

end Token

open Syntax Token

/-- Parentheses do not bring a number before a name. -/
theorem Syntax.apart_parenthesized {ts : List Token} (h : Apart ts) (needed : Bool) :
    Apart (parenthesized needed ts) := by
  cases needed
  · exact h
  · exact (h.append_cons .nil (by decide) (by decide)).cons (by decide)

namespace Expr

/-- Commas stand between arguments. -/
theorem apart_argumentTokens {es : List Expr} (h : ∀ e ∈ es, ∀ p, Apart (e.tokens p)) :
    Apart (argumentTokens es) := by
  induction es with
  | nil => exact .nil
  | cons e es ih =>
    obtain ⟨he, hes⟩ := List.forall_mem_cons.1 h
    rcases es with _ | ⟨d, ds⟩
    · exact he _
    · exact (he _).append_cons (ih hes) (by decide) (by decide)

theorem apart_call {es : List Expr} (h : ∀ e ∈ es, ∀ p, Apart (e.tokens p)) (name : String) :
    Apart (.name name :: .opening :: argumentTokens es ++ [.closing]) :=
  (((apart_argumentTokens h).append_cons .nil (by decide) (by decide)).cons (by decide)).cons
    (by simp [isNumber])

/-- Between the numbers and names of an expression there is always an operator, a point, a
    comma or a parenthesis, whatever place it is printed in. -/
theorem apart_tokens (e : Expr) (p : Place) : Apart (e.tokens p) := by
  induction e using Expr.induction generalizing p with
  | number o n => exact .singleton _
  | text o s => exact .singleton _
  | reference o r => exact .singleton _
  | unary o op x ih =>
    rw [tokens]
    refine apart_parenthesized ((ih _).cons ?_) _
    cases op <;> decide
  | binary o op l r ihl ihr =>
    rw [tokens]
    exact apart_parenthesized
      ((ihl _).append_cons (ihr _) (by simp [isNumber]) (by simp [isReference])) _
  | call o name args ih =>
    rw [tokens]
    exact apart_call ih name
  | method o e name args ihe ih =>
    rw [tokens, List.append_assoc]
    exact (ihe _).append_cons (apart_call ih name) (by decide) (by decide)

end Expr

/-- Among the tokens of a formula no number stands before a name. -/
theorem Statement.apart_tokens (s : Statement) : Apart s.tokens := by
  cases s with
  | expression e => exact e.apart_tokens _
  | assignment _ _ r e =>
    refine Apart.cons ((e.apart_tokens _).cons (by decide)) ?_
    cases r <;> simp [Reference.token, isNumber]

end Formula
