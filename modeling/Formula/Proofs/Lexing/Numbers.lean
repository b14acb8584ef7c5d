import Formula.Token.Segmentation

/-!
# Spelled numbers

The scanner of numbers takes a proper spelling (`scan_proper`), and no proper spelling
that stands at the same place is longer (`length_le_scan`): whatever the separator is,
also a letter `e` or a digit. The text in the one form without the separator reads as
the value of the spelling (`read?_text`).
-/

namespace Formula.Spelling

open Decimal (takeDigits)

variable {separator : Char}

/-! ## Runs of digits -/

theorem isDigit_of_mem_takeWhile {cs : List Char} {c : Char} (h : c ∈ cs.takeWhile Char.isDigit) :
    c.isDigit :=
  List.all_eq_true.1 List.all_takeWhile c h

/-- Nothing that starts with a digit. -/
def NoDigit (cs : List Char) : Prop := ∀ c ∈ cs.head?, ¬ c.isDigit

/-- Digits are taken up to what is none. -/
theorem takeDigits_of_append {ds cs : List Char} (hds : ∀ d ∈ ds, d.isDigit) (hcs : NoDigit cs) :
    takeDigits (ds ++ cs) = (ds, cs) := by
  have hnil : cs.takeWhile Char.isDigit = [] ∧ cs.dropWhile Char.isDigit = cs := by
    cases cs with
    | nil => exact ⟨rfl, rfl⟩
    | cons c cs => simp [hcs c rfl]
  rw [takeDigits, List.takeWhile_append_of_pos hds, List.dropWhile_append_of_pos hds, hnil.1,
    hnil.2, List.append_nil]

/-- At least the digits that stand there are taken. -/
theorem takeDigits_length_le {ds cs : List Char} (hds : ∀ d ∈ ds, d.isDigit) :
    (takeDigits (ds ++ cs)).2.length ≤ cs.length := by
  rw [takeDigits, List.dropWhile_append_of_pos hds]
  exact (List.dropWhile_suffix _).length_le

/-! ## Exponents -/

theorem scanExponent_length_le (cs : List Char) : (scanExponent cs).2.length ≤ cs.length := by
  have h := congrArg List.length (scanExponent_append cs)
  rw [List.length_append] at h
  omega

/-- A sign before digits is taken, if there is one, and a digit is not mistaken for it. -/
theorem scanSign_of_append {sign : Option Char} {digits : List Char} (cs : List Char)
    (hsign : sign = none ∨ sign = some '+' ∨ sign = some '-') (hne : digits ≠ [])
    (hdigits : ∀ d ∈ digits, d.isDigit) :
    scanSign (sign.toList ++ digits ++ cs) = (sign, digits ++ cs) := by
  rcases hsign with rfl | rfl | rfl
  · obtain ⟨d, ds, rfl⟩ := List.exists_cons_of_ne_nil hne
    have hd := hdigits d List.mem_cons_self
    have hplus : d ≠ '+' := by
      rintro rfl
      exact absurd hd (by decide)
    have hminus : d ≠ '-' := by
      rintro rfl
      exact absurd hd (by decide)
    simp [scanSign, hplus, hminus]
  · rfl
  · rfl

/-- An exponent that stands there is taken, and perhaps more digits. -/
theorem scanExponent_of_append {letter : Char} {sign : Option Char} {digits : List Char}
    (cs : List Char) (hletter : letter = 'e' ∨ letter = 'E')
    (hsign : sign = none ∨ sign = some '+' ∨ sign = some '-') (hne : digits ≠ [])
    (hdigits : ∀ d ∈ digits, d.isDigit) :
    (scanExponent (letter :: (sign.toList ++ digits ++ cs))).2.length ≤ cs.length := by
  have htake : ¬ (takeDigits (digits ++ cs)).1.isEmpty := by
    rw [takeDigits, List.takeWhile_append_of_pos hdigits]
    simp [hne]
  simp only [scanExponent, if_pos hletter, scanSign_of_append cs hsign hne hdigits, if_neg htake]
  exact takeDigits_length_le hdigits

/-! ## Fractions -/

theorem scanFraction_length_le (mark : Char) (cs : List Char) :
    (scanFraction mark cs).2.length ≤ cs.length := by
  have h := congrArg List.length (scanFraction_append mark cs)
  rw [List.length_append] at h
  omega

/-- A fraction that stands there is taken, with all digits that follow. -/
theorem scanFraction_of_append {mark : Char} {digits : List Char} (cs : List Char)
    (hmark : mark = '.' ∨ mark = separator) (hne : digits ≠ [])
    (hdigits : ∀ d ∈ digits, d.isDigit) :
    (scanFraction separator (mark :: (digits ++ cs))).2 = (takeDigits (digits ++ cs)).2 := by
  obtain ⟨d, ds, rfl⟩ := List.exists_cons_of_ne_nil hne
  have hd := hdigits d List.mem_cons_self
  simp only [List.cons_append, scanFraction, if_pos (And.intro hmark hd)]

/-- A mark and digits are read as the fraction if no digit follows. -/
theorem scanFraction_mark {mark : Char} {digits cs : List Char}
    (hmark : mark = '.' ∨ mark = separator) (hne : digits ≠ [])
    (hdigits : ∀ d ∈ digits, d.isDigit) (hcs : NoDigit cs) :
    scanFraction separator (mark :: (digits ++ cs)) = (some (mark, digits), cs) := by
  have htake := takeDigits_of_append hdigits hcs
  obtain ⟨d, ds, rfl⟩ := List.exists_cons_of_ne_nil hne
  rw [List.cons_append] at htake ⊢
  simp only [scanFraction, hmark, hdigits d List.mem_cons_self, and_self, if_true, htake]

/-- Without a digit behind it a point is no fraction. -/
theorem scanFraction_of_not_digit {mark c : Char} (cs : List Char) (hc : ¬ c.isDigit) :
    scanFraction separator (mark :: c :: cs) = (none, mark :: c :: cs) :=
  if_neg fun h => hc h.2

/-- Where an exponent stands, the separator may be its letter; then its digits are
    taken as a fraction. -/
theorem scanFraction_exponent {letter : Char} {sign : Option Char} {digits : List Char}
    (cs : List Char) (hletter : letter = 'e' ∨ letter = 'E')
    (hsign : sign = none ∨ sign = some '+' ∨ sign = some '-') (hne : digits ≠ [])
    (hdigits : ∀ d ∈ digits, d.isDigit) :
    (scanExponent (scanFraction separator (letter :: (sign.toList ++ digits ++ cs))).2).2.length ≤
      cs.length := by
  have hexponent := scanExponent_of_append cs hletter hsign hne hdigits
  -- Digits directly behind the letter are taken by one of the two; a sign is no digit.
  rcases hsign with rfl | rfl | rfl
  · simp only [Option.toList_none, List.nil_append] at hexponent ⊢
    by_cases hmark : letter = '.' ∨ letter = separator
    · rw [scanFraction_of_append cs hmark hne hdigits]
      exact Nat.le_trans (scanExponent_length_le _) (takeDigits_length_le hdigits)
    · obtain ⟨d, ds, rfl⟩ := List.exists_cons_of_ne_nil hne
      simpa only [List.cons_append, scanFraction, hmark, false_and, if_false] using hexponent
  · have hnone : scanFraction separator (letter :: '+' :: (digits ++ cs)) = (none, _) :=
      scanFraction_of_not_digit _ (by decide)
    exact Nat.le_trans (Nat.le_of_eq (congrArg (fun r => (scanExponent r.2).2.length) hnone))
      hexponent
  · have hnone : scanFraction separator (letter :: '-' :: (digits ++ cs)) = (none, _) :=
      scanFraction_of_not_digit _ (by decide)
    exact Nat.le_trans (Nat.le_of_eq (congrArg (fun r => (scanExponent r.2).2.length) hnone))
      hexponent

/-! ## The longest spelling -/

/-- What can stand behind the digits of a number: the scanner takes it, whether it
    looks for an exponent there or for a fraction first, and the digits before it stay
    a run of their own. -/
structure Tail (tail : List Char) : Prop where
  exponent : ∀ cs, (scanExponent (tail ++ cs)).2.length ≤ cs.length
  fraction : ∀ mark cs, (scanExponent (scanFraction mark (tail ++ cs)).2).2.length ≤ cs.length
  digits : tail = [] ∨ ∀ cs, NoDigit (tail ++ cs)

/-- There need not be anything. -/
theorem tail_nil : Tail [] where
  exponent := scanExponent_length_le
  fraction _ cs := Nat.le_trans (scanExponent_length_le _) (scanFraction_length_le _ cs)
  digits := .inl rfl

/-- There can be an exponent. -/
theorem tail_exponent {letter : Char} {sign : Option Char} {digits : List Char}
    (hletter : letter = 'e' ∨ letter = 'E')
    (hsign : sign = none ∨ sign = some '+' ∨ sign = some '-') (hne : digits ≠ [])
    (hdigits : ∀ d ∈ digits, d.isDigit) : Tail (letter :: (sign.toList ++ digits)) where
  exponent cs := scanExponent_of_append cs hletter hsign hne hdigits
  fraction _ cs := scanFraction_exponent cs hletter hsign hne hdigits
  digits := by
    refine .inr fun cs c hc => ?_
    cases hc
    rcases hletter with rfl | rfl <;> decide

/-- Digits with a tail behind them are taken. -/
theorem Tail.takeDigits {tail digits : List Char} (h : Tail tail)
    (hdigits : ∀ d ∈ digits, d.isDigit) (cs : List Char) :
    takeDigits (digits ++ (tail ++ cs)) = (digits, tail ++ cs) ∨
      (takeDigits (digits ++ (tail ++ cs))).2.length ≤ cs.length := by
  rcases h.digits with rfl | hno
  · exact .inr (takeDigits_length_le hdigits)
  · exact .inl (takeDigits_of_append hdigits (hno cs))

/-- Of a number without a fraction all that stands there is taken. -/
theorem scan_digits {tail run : List Char} (h : Tail tail) (hrun : ∀ d ∈ run, d.isDigit)
    (cs : List Char) : (scan separator (run ++ (tail ++ cs))).2.length ≤ cs.length := by
  simp only [scan]
  rcases h.takeDigits hrun cs with heq | hle
  · rw [heq]
    exact h.fraction _ cs
  · exact Nat.le_trans (scanExponent_length_le _) (Nat.le_trans (scanFraction_length_le _ _) hle)

/-- Of a number with a fraction all that stands there is taken, the mark being a point, or the
    separator behind a digit. -/
theorem scan_fraction {tail whole digits : List Char} {mark : Char} (h : Tail tail)
    (hwhole : ∀ d ∈ whole, d.isDigit) (hmark : mark = '.' ∨ whole ≠ [] ∧ mark = separator)
    (hdigit : ¬ mark.isDigit) (hne : digits ≠ []) (hdigits : ∀ d ∈ digits, d.isDigit)
    (cs : List Char) :
    (scan separator (whole ++ mark :: (digits ++ (tail ++ cs)))).2.length ≤ cs.length := by
  have hno : NoDigit (mark :: (digits ++ (tail ++ cs))) := by
    rintro c ⟨⟩
    exact hdigit
  -- This is what the scanner compares the mark to.
  have hmark : mark = '.' ∨ mark = if whole.isEmpty then '.' else separator := by
    rcases hmark with hmark | ⟨hwhole, hmark⟩
    · exact .inl hmark
    · exact .inr (by simp [hwhole, hmark])
  simp only [scan, takeDigits_of_append hwhole hno]
  rw [scanFraction_of_append _ hmark hne hdigits]
  rcases h.takeDigits hdigits cs with heq | hle
  · rw [heq]
    exact h.exponent cs
  · exact Nat.le_trans (scanExponent_length_le _) hle

/-- A number that can be spelled is digits, perhaps a fraction, and what can stand behind
    them. -/
theorem exists_tail {s : Spelling} (h : s.Proper separator) :
    ∃ tail, Tail tail ∧ s.written = written { s with exponent := none } ++ tail := by
  obtain ⟨whole, fraction, exponent⟩ := s
  rcases exponent with _ | ⟨letter, sign, digits⟩
  · exact ⟨[], tail_nil, (List.append_nil _).symm⟩
  · obtain ⟨hletter, hsign, hne, hdigits⟩ := h.exponent letter sign digits rfl
    exact ⟨_, tail_exponent hletter hsign hne hdigits, by simp [written]⟩

/-- Behind a proper spelling, nothing is left of it. -/
theorem scan_length_le {s : Spelling} (h : s.Proper separator) (cs : List Char) :
    (scan separator (s.written ++ cs)).2.length ≤ cs.length := by
  obtain ⟨tail, htail, hwritten⟩ := exists_tail h
  obtain ⟨whole, fraction, exponent⟩ := s
  rw [hwritten, List.append_assoc]
  rcases fraction with _ | ⟨mark, digits⟩
  · simpa [written] using scan_digits htail h.whole cs
  · obtain ⟨hmark, hne, hdigits⟩ := h.fraction mark digits rfl
    by_cases hdigit : mark.isDigit
    · -- A separator that is a digit is taken with the digits around it.
      have hrun : ∀ d ∈ whole ++ mark :: digits, d.isDigit := by
        simp only [List.mem_append, List.mem_cons]
        rintro d (hd | rfl | hd)
        · exact h.whole d hd
        · exact hdigit
        · exact hdigits d hd
      simpa [written] using scan_digits htail hrun cs
    · simpa [written] using scan_fraction htail h.whole hmark hdigit hne hdigits cs

/-- No proper spelling at the front of a text is longer than the one that is taken. -/
theorem length_le_scan {s : Spelling} (h : s.Proper separator) {cs : List Char}
    (hcs : s.written <+: cs) : s.written.length ≤ (scan separator cs).1.written.length := by
  obtain ⟨rest, rfl⟩ := hcs
  have hle := scan_length_le h rest
  have hsplit := congrArg List.length (written_append_scan separator (s.written ++ rest))
  rw [List.length_append, List.length_append] at hsplit
  omega

/-! ## What is taken is proper -/

/-- What is read as a fraction is a mark and digits. -/
theorem scanFraction_proper {cs digits : List Char} {mark : Char}
    (h : (scanFraction separator cs).1 = some (mark, digits)) :
    (mark = '.' ∨ mark = separator) ∧ digits ≠ [] ∧ ∀ d ∈ digits, d.isDigit := by
  unfold scanFraction at h
  split at h
  · split at h
    · rename_i d _ hmark
      cases h
      exact ⟨hmark.1, by simp [hmark.2], fun c => isDigit_of_mem_takeWhile⟩
    · cases h
  · cases h

/-- What is read as a sign is one. -/
theorem scanSign_proper (cs : List Char) :
    (scanSign cs).1 = none ∨ (scanSign cs).1 = some '+' ∨ (scanSign cs).1 = some '-' := by
  unfold scanSign
  split
  · split
    · rename_i hsign
      rcases hsign with rfl | rfl
      · exact .inr (.inl rfl)
      · exact .inr (.inr rfl)
    · exact .inl rfl
  · exact .inl rfl

/-- What is read as an exponent is a letter, perhaps a sign, and digits. -/
theorem scanExponent_proper {cs digits : List Char} {letter : Char} {sign : Option Char}
    (h : (scanExponent cs).1 = some (letter, sign, digits)) :
    (letter = 'e' ∨ letter = 'E') ∧ (sign = none ∨ sign = some '+' ∨ sign = some '-') ∧
      digits ≠ [] ∧ ∀ d ∈ digits, d.isDigit := by
  unfold scanExponent at h
  split at h
  · split at h
    · rename_i hletter
      dsimp only at h
      split at h
      · cases h
      · rename_i hne
        cases h
        exact ⟨hletter, scanSign_proper _, by simpa using hne, fun c => isDigit_of_mem_takeWhile⟩
    · cases h
  · cases h

/-- What is read as a number can be spelled: it has digits before or behind the point, and only
    a point may come first. -/
theorem scan_proper (separator : Char) {cs : List Char} (h : startsAt cs) :
    (scan separator cs).1.Proper separator where
  whole _ := isDigit_of_mem_takeWhile
  fraction mark digits hfraction := by
    obtain ⟨hmark, hne, hdigits⟩ := scanFraction_proper hfraction
    refine ⟨?_, hne, hdigits⟩
    by_cases hwhole : cs.takeWhile Char.isDigit = []
    · rw [hwhole] at hmark
      exact .inl (hmark.elim id id)
    · rw [List.isEmpty_eq_false_iff.2 hwhole] at hmark
      exact hmark.imp_right fun hmark => ⟨hwhole, hmark⟩
  exponent _ _ _ := scanExponent_proper
  nonempty := by
    unfold startsAt at h
    split at h
    · rename_i c d rest
      by_cases hc : c.isDigit
      · exact .inl (by simp [scan, takeDigits, hc])
      · obtain ⟨rfl, hd⟩ : c = '.' ∧ d.isDigit := by simpa [hc] using h
        exact .inr (by simp [scan, takeDigits, scanFraction, hd])
    · exact .inl (by simp [scan, takeDigits, h])
    · cases h

theorem startsAt_of_isDigit {c : Char} (hc : c.isDigit) (cs : List Char) : startsAt (c :: cs) := by
  cases cs <;> simp [startsAt, hc]

/-- A number starts where a proper spelling stands. -/
theorem Proper.startsAt {s : Spelling} (h : s.Proper separator) {cs : List Char}
    (hcs : s.written <+: cs) : startsAt cs := by
  obtain ⟨rest, rfl⟩ := hcs
  obtain ⟨whole, fraction, exponent⟩ := s
  rcases whole with _ | ⟨c, whole⟩
  · rcases fraction with _ | ⟨mark, digits⟩
    · exact absurd h.nonempty (by simp)
    · obtain ⟨hmark, hne, hdigits⟩ := h.fraction mark digits rfl
      obtain ⟨d, ds, rfl⟩ := List.exists_cons_of_ne_nil hne
      obtain rfl : mark = '.' := hmark.elim id fun hmark => absurd rfl hmark.1
      simp [written, Spelling.startsAt, hdigits d List.mem_cons_self]
  · exact startsAt_of_isDigit (h.whole c List.mem_cons_self) _

/-! ## Values -/

theorem toLower_of_isDigit {c : Char} (hc : c.isDigit) : c.toLower = c := by
  refine dif_neg fun hupper => ?_
  simp only [Char.isDigit, Bool.and_eq_true, decide_eq_true_eq] at hc
  exact absurd (UInt32.le_trans hupper.1 hc.2) (by decide)

/-- A text that starts like a number is none of the words and has no sign. -/
theorem read?_of_head {c : Char} (hc : c.isDigit ∨ c = '.') (cs : List Char) :
    Decimal.read? (c :: cs) = Decimal.readNumeral? (c :: cs) := by
  have hlower : c.toLower = c := by
    rcases hc with hc | rfl
    · exact toLower_of_isDigit hc
    · rfl
  have hne : c ≠ '-' ∧ c ≠ '+' ∧ c ≠ 'i' ∧ c ≠ 'n' := by
    refine ⟨?_, ?_, ?_, ?_⟩ <;> rintro rfl <;> exact absurd hc (by decide)
  have hword (w : Char) (ws : List Char) (hw : c ≠ w) :
      String.ofList ((c :: cs).map Char.toLower) ≠ String.ofList (w :: ws) := by
    intro h
    have := String.ofList_injective h
    rw [List.map_cons, hlower] at this
    exact hw (List.cons.inj this).1
  have hread : Decimal.read? (c :: cs) = Decimal.readUnsigned? (c :: cs) := by
    rw [Decimal.read?.eq_def]
    split
    · rename_i h
      exact absurd (List.cons.inj h).1 hne.1
    · rename_i h
      exact absurd (List.cons.inj h).1 hne.2.1
    · rfl
  rw [hread, Decimal.readUnsigned?]
  have hinf : ¬ (String.ofList ((c :: cs).map Char.toLower) = "inf" ∨
      String.ofList ((c :: cs).map Char.toLower) = "infinity") := by
    rintro (h | h)
    · exact hword 'i' ['n', 'f'] hne.2.2.1 h
    · exact hword 'i' ['n', 'f', 'i', 'n', 'i', 't', 'y'] hne.2.2.1 h
  have hnan : String.ofList ((c :: cs).map Char.toLower) ≠ "nan" := hword 'n' ['a', 'n'] hne.2.2.2
  simp only [if_neg hinf, if_neg hnan]

/-- The digits of an exponent and its minus can be read again. -/
theorem readExponent?_text (sign : Option Char) {digits : List Char} (hne : digits ≠ [])
    (hdigits : ∀ d ∈ digits, d.isDigit) :
    Decimal.readExponent? ((if sign = some '-' then ['-'] else []) ++ digits) =
      some ⟨sign = some '-', digits⟩ := by
  have hall : (digits.isEmpty || !digits.all Char.isDigit) = false := by
    simp [List.all_eq_true.2 hdigits, hne]
  by_cases hsign : sign = some '-'
  · simp [Decimal.readExponent?, hsign, hall]
  · obtain ⟨d, ds, rfl⟩ := List.exists_cons_of_ne_nil hne
    have hd := hdigits d List.mem_cons_self
    have hminus : d ≠ '-' := by
      rintro rfl
      exact absurd hd (by decide)
    have hplus : d ≠ '+' := by
      rintro rfl
      exact absurd hd (by decide)
    rw [if_neg hsign, List.nil_append, Decimal.readExponent?]
    · simp only [hall, hsign, decide_false]
      rfl
    · exact fun _ h => hminus (List.cons.inj h).1
    · exact fun _ h => hplus (List.cons.inj h).1

/-- The exponent of a text as it is read behind the digits. -/
theorem exponent_text (whole digits : List Char)
    {exponent : Option (Char × Option Char × List Char)}
    (h : ∀ letter sign power, exponent = some (letter, sign, power) →
      power ≠ [] ∧ ∀ d ∈ power, d.isDigit) {tail : List Char} :
    (tail = exponent.elim [] fun (_, sign, power) =>
      'e' :: ((if sign = some '-' then ['-'] else []) ++ power)) →
    (match tail with
      | [] => some (Decimal.value whole digits none)
      | c :: rest =>
        if c = 'e' ∨ c = 'E' then
          (Decimal.readExponent? rest).map fun e => Decimal.value whole digits (some e)
        else none) =
      some (Decimal.value whole digits
        (exponent.map fun (_, sign, power) => ⟨sign = some '-', power⟩)) := by
  rintro rfl
  rcases exponent with _ | ⟨letter, sign, power⟩
  · rfl
  · obtain ⟨hne, hpower⟩ := h letter sign power rfl
    simp [readExponent?_text sign hne hpower]

/-- The text of a number can be read, and its value is that of the spelling. -/
theorem readNumeral?_text {s : Spelling} (h : s.Proper separator) :
    Decimal.readNumeral? s.text = some s.value := by
  obtain ⟨whole, fraction, exponent⟩ := s
  obtain ⟨tail, htail⟩ : ∃ tail : List Char, tail = exponent.elim [] fun (_, sign, power) =>
      'e' :: ((if sign = some '-' then ['-'] else []) ++ power) := ⟨_, rfl⟩
  have hno : NoDigit tail := by
    subst htail
    rcases exponent with _ | ⟨letter, sign, power⟩ <;> rintro c ⟨⟩
    decide
  have hexponent (digits : List Char) := exponent_text whole digits
    (fun letter sign power hs => (h.exponent letter sign power hs).2.2) htail
  rcases fraction with _ | ⟨mark, digits⟩
  · have hwhole : whole ≠ [] := h.nonempty.elim id (by simp)
    -- The fraction is looked for in the rest, which starts with an exponent if at all.
    have hpoint : ∀ rest, tail ≠ '.' :: rest := by
      subst htail
      rcases exponent with _ | ⟨letter, sign, power⟩ <;> simp
    simp only [text, Option.elim_none, List.append_nil, ← htail]
    rw [Decimal.readNumeral?, takeDigits_of_append h.whole hno]
    simp only [hwhole, List.isEmpty_iff, Bool.and_eq_true, false_and, if_false]
    exact hexponent []
  · obtain ⟨_, hne, hdigits⟩ := h.fraction mark digits rfl
    have hpoint : NoDigit ('.' :: digits ++ tail) := by
      rintro c ⟨⟩
      decide
    simp only [text, Option.elim_some, List.append_assoc, ← htail]
    rw [Decimal.readNumeral?, takeDigits_of_append h.whole hpoint]
    simp only [List.cons_append, takeDigits_of_append hdigits hno, hne, List.isEmpty_iff,
      Bool.and_eq_true, and_false, if_false]
    exact hexponent digits

/-- The text of a proper spelling reads as its value. -/
theorem read?_text {s : Spelling} (h : s.Proper separator) :
    Decimal.read? s.text = some s.value := by
  obtain ⟨c, cs, htext, hc⟩ : ∃ c cs, s.text = c :: cs ∧ (c.isDigit ∨ c = '.') := by
    obtain ⟨whole, fraction, exponent⟩ := s
    rcases whole with _ | ⟨c, whole⟩
    · rcases fraction with _ | ⟨mark, digits⟩
      · exact absurd h.nonempty (by simp)
      · exact ⟨'.', _, rfl, .inr rfl⟩
    · exact ⟨c, _, rfl, .inl (h.whole c List.mem_cons_self)⟩
  rw [htext, read?_of_head hc, ← htext]
  exact readNumeral?_text h

end Formula.Spelling
