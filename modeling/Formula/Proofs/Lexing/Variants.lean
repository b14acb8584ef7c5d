import Formula.Proofs.Lexing.Joining

/-!
# One number written in several ways

A formula that begins with a number is cut into this number and what is found behind it.
Which number it is depends on its spelling, and on the unit that is found behind the blanks
that follow it (`tokenize_of_some`, `tokenize_of_none`). So it is the same number, and all
that differs is how far on the rest of the formula is found,

* whether or not there are blanks before the unit (`tokenize_blanks`);
* whether its fraction stands behind a point or the separator in use (`tokenize_mark`).
-/

namespace Formula

open Text (byteLength isBlank)

variable {lx : Lexicon}

namespace Token

/-- Delaying what is behind the first lexeme is to join it further on. -/
theorem delayed_joined (n k : Nat) (t : Lexeme)
    (found : Except (Located SyntaxError) (List Lexeme)) :
    delayed n (joined [t] k found) = joined [t] (n + k) found := by
  rcases found with e | lexemes
  · simp [delayed, joined, Located.shift, Nat.add_assoc]
  · simp [delayed, joined, Lexeme.shift, Nat.add_assoc]

/-- A formula that begins with a number is cut into it and what its rest is cut into. -/
theorem tokenize_of_munchNumber {source rest : String} {t : Token} {span : List Char}
    (hstarts : Spelling.startsAt source.toList)
    (hmunch : munchNumber lx source.toList = ⟨t, span, rest.toList⟩) :
    tokenize lx source = joined [⟨t, 0⟩] (byteLength span) (tokenize lx rest) := by
  rcases hsource : source.toList with _ | ⟨c, cs⟩ <;> rw [hsource] at hstarts hmunch
  · cases hstarts
  · have hm : munch lx c cs = .ok ⟨t, span, rest.toList⟩ := by rw [munch, if_pos hstarts, hmunch]
    exact tokenize_of_munch hsource (not_isGap_of_startsAt hstarts) hm rfl

variable {source rest : String} {s : Spelling} {behind : List Char}

/-- The number takes the blanks before its unit along, and the unit. -/
theorem tokenize_of_some (hstarts : Spelling.startsAt source.toList)
    (hscan : Spelling.scan lx.separator source.toList = (s, behind)) {u : UnitSuffix}
    (hu : unitAt? lx.units (behind.dropWhile isBlank) = some u)
    (hrest : behind.dropWhile isBlank = u.name.toList ++ rest.toList) :
    tokenize lx source = joined [⟨.number ⟨s.value, String.ofList s.text, some u⟩, 0⟩]
      (byteLength (behind.takeWhile isBlank) + (byteLength s.written + u.name.utf8ByteSize))
      (tokenize lx rest) := by
  have hmunch := munchNumber_of_some hscan hu
  rw [hrest, List.drop_left] at hmunch
  rw [tokenize_of_munchNumber hstarts hmunch, Text.byteLength_append, Text.byteLength_append,
    Text.byteLength_toList, Nat.add_comm (byteLength s.written), Nat.add_assoc]

/-- Without a unit the blanks are left to what follows. -/
theorem tokenize_of_none (hstarts : Spelling.startsAt source.toList)
    (hscan : Spelling.scan lx.separator source.toList = (s, rest.toList))
    (hnone : unitAt? lx.units (rest.toList.dropWhile isBlank) = none) :
    tokenize lx source = joined [⟨.number ⟨s.value, String.ofList s.text, none⟩, 0⟩]
      (byteLength s.written) (tokenize lx rest) :=
  tokenize_of_munchNumber hstarts (munchNumber_of_none hscan hnone)

/-- A unit that is found is followed by some text, perhaps the empty one. -/
theorem exists_behind_unit {units : List String} {cs : List Char} {u : UnitSuffix}
    (hu : unitAt? units cs = some u) : ∃ tail : String, cs = u.name.toList ++ tail.toList :=
  ⟨String.ofList (cs.drop u.name.toList.length), by
    rw [String.toList_ofList, name_append_of_unitAt? hu]⟩

/-- What is behind the spelling of a number decides on its unit, and on where the formula
    goes on. -/
theorem exists_suffix (lx : Lexicon) (behind : List Char) :
    ∃ unit size tail, ∀ (source : String) (s : Spelling), Spelling.startsAt source.toList →
      Spelling.scan lx.separator source.toList = (s, behind) →
      tokenize lx source = joined [⟨.number ⟨s.value, String.ofList s.text, unit⟩, 0⟩]
        (byteLength s.written + size) (tokenize lx tail) := by
  rcases hu : unitAt? lx.units (behind.dropWhile isBlank) with _ | u
  · refine ⟨none, 0, String.ofList behind, fun source s hstarts hscan => ?_⟩
    rw [← String.toList_ofList (l := behind)] at hu hscan
    exact tokenize_of_none hstarts hscan hu
  · obtain ⟨tail, htail⟩ := exists_behind_unit hu
    refine ⟨some u, byteLength (behind.takeWhile isBlank) + u.name.utf8ByteSize, tail,
      fun source s hstarts hscan => ?_⟩
    rw [tokenize_of_some hstarts hscan hu htail, Nat.add_left_comm]

end Token

/-! ## Blanks before a unit -/

namespace Spelling

variable {separator : Char}

/-- A number that is spelled in full is taken in full, if a bound of numbers follows it. -/
theorem exists_scan_of_proper {s : Spelling} (hs : s.Proper separator) :
    ∃ s' : Spelling, s'.written = s.written ∧ ∀ ds, Bounds separator ds →
      scan separator (s.written ++ ds) = (s', ds) := by
  have hle := scan_length_le hs []
  rw [List.append_nil] at hle
  have hnil : (scan separator s.written).2 = [] := List.eq_nil_of_length_eq_zero (Nat.le_zero.1 hle)
  have hsplit := written_append_scan separator s.written
  rw [hnil, List.append_nil] at hsplit
  refine ⟨_, hsplit, fun ds hds => ?_⟩
  rw [scan_append hds, hnil, List.nil_append]

/-- Neither with blanks nor with the letter behind them a number goes on. -/
theorem bounds_blanks {blanks cs : List Char} {c : Char} (hblanks : ∀ b ∈ blanks, isBlank b)
    (hc : Token.isNameStart c) (he : c ≠ 'e' ∧ c ≠ 'E') (hseparator : c ≠ separator) :
    Bounds separator (blanks ++ c :: cs) := by
  have hdigit : ¬ c.isDigit := fun h => Token.not_isNameStart_of_isDigit h hc
  rcases blanks with _ | ⟨b, blanks⟩
  · rintro _ ⟨⟩
    refine ⟨hdigit, ?_, ?_⟩
    · simp only [List.mem_cons, List.not_mem_nil, or_false]
      rintro (rfl | rfl | rfl | rfl)
      · exact absurd hc (by decide)
      · exact absurd hc (by decide)
      · exact he.1 rfl
      · exact he.2 rfl
    · rintro (rfl | h)
      · exact absurd hc (by decide)
      · exact absurd h hseparator
  · rintro _ ⟨⟩
    obtain ⟨hb, hblanks⟩ := List.forall_mem_cons.1 hblanks
    have hsign : b ∉ ['+', '-', 'e', 'E'] := by
      intro h
      have hsigns : ['+', '-', 'e', 'E'].all (!isBlank ·) := by decide
      simpa [hb] using List.all_eq_true.1 hsigns b h
    refine ⟨fun h => Token.not_isBlank_of_isDigit h hb, hsign, fun _ => ?_⟩
    -- The separator may be a blank, but no digit follows it.
    rcases blanks with _ | ⟨b', blanks⟩
    · rintro _ ⟨⟩
      exact hdigit
    · rintro _ ⟨⟩ h
      exact Token.not_isBlank_of_isDigit h (hblanks b' List.mem_cons_self)

end Spelling

namespace Token

/-- If a unit stands directly behind a number, blanks between the two change nothing: the
    number has the same unit, and the rest of the formula is read as it was, only further
    on. The number is spelled in full, and what follows it begins with a letter or underscore
    that is neither the letter of an exponent nor the separator. -/
theorem tokenize_blanks {number blanks unit rest : String} {s : Spelling}
    (hs : s.Proper lx.separator) (hnumber : number.toList = s.written)
    (hblanks : ∀ b ∈ blanks.toList, isBlank b) {c : Char} {cs : List Char}
    (hunit : unit.toList = c :: cs) (hc : isNameStart c) (he : c ≠ 'e' ∧ c ≠ 'E')
    (hseparator : c ≠ lx.separator) {v : UnitSuffix}
    (hv : UnitAt lx.units v (unit ++ rest).toList) :
    (∃ n u tail, n.unit = some u ∧ unit ++ rest = u.name ++ tail ∧
      tokenize lx (number ++ unit ++ rest) =
        joined [⟨.number n, 0⟩] (number ++ u.name).utf8ByteSize (tokenize lx tail)) ∧
    tokenize lx (number ++ blanks ++ unit ++ rest) =
      delayed blanks.utf8ByteSize (tokenize lx (number ++ unit ++ rest)) := by
  obtain ⟨s', hwritten, hscan⟩ := Spelling.exists_scan_of_proper hs
  obtain ⟨u, hu⟩ : ∃ u, unitAt? lx.units (unit ++ rest).toList = some u :=
    Option.ne_none_iff_exists'.1 fun hnone => unitAt?_eq_none_iff.1 hnone v hv
  obtain ⟨tail, htail⟩ := exists_behind_unit hu
  have hcons : (unit ++ rest).toList = c :: (cs ++ rest.toList) := by
    rw [String.toList_append, hunit, List.cons_append]
  have hblank : ∀ d ∈ (unit ++ rest).toList.head?, ¬ isBlank d := by
    rw [hcons]
    rintro d ⟨⟩
    exact not_isBlank_of_isNameStart hc
  -- This is what is found behind any blanks, and so without blanks, too.
  have hfound (blanks : String) (hblanks : ∀ b ∈ blanks.toList, isBlank b) :
      tokenize lx (number ++ blanks ++ unit ++ rest) =
        joined [⟨.number ⟨s'.value, String.ofList s'.text, some u⟩, 0⟩]
          (blanks.utf8ByteSize + (number ++ u.name).utf8ByteSize) (tokenize lx tail) := by
    have hsource : (number ++ blanks ++ unit ++ rest).toList =
        s.written ++ (blanks.toList ++ (unit ++ rest).toList) := by
      simp [String.toList_append, hnumber]
    obtain ⟨htake, hdrop⟩ := takeWhile_eq_of_append hblanks hblank
    have hbounds : Spelling.Bounds lx.separator (blanks.toList ++ (unit ++ rest).toList) := by
      rw [hcons]
      exact Spelling.bounds_blanks hblanks hc he hseparator
    have hstarts := hs.startsAt ⟨_, hsource.symm⟩
    have hscan' := hscan _ hbounds
    rw [← hsource] at hscan'
    rw [← hdrop] at hu
    rw [tokenize_of_some hstarts hscan' hu (hdrop.trans htail), htake, hwritten, ← hnumber,
      Text.byteLength_toList, Text.byteLength_toList, String.utf8ByteSize_append]
  have hnone := hfound "" (List.forall_mem_nil _)
  rw [String.append_empty, String.utf8ByteSize_empty, Nat.zero_add] at hnone
  have htail : unit ++ rest = u.name ++ tail :=
    String.toList_injective (htail.trans String.toList_append.symm)
  refine ⟨⟨_, u, tail, rfl, htail, hnone⟩, ?_⟩
  rw [hfound blanks hblanks, hnone, delayed_joined]

/-- Neither a blank that only Unicode knows nor a tab before the unit matters. -/
theorem tokenize_blanks_tab :
    let lx : Lexicon := { units := ["m", "mm"], separator := ',' }
    let s : Spelling := ⟨['1'], some (',', ['5']), none⟩
    UnitAt lx.units ⟨1, "mm"⟩ ("mm" ++ "+a").toList ∧
      tokenize lx ("1,5" ++ "\u00a0\t" ++ "mm" ++ "+a") = .ok
        [⟨.number ⟨s.value, "1.5", some ⟨1, "mm"⟩⟩, 0⟩, ⟨.operator .add, 8⟩, ⟨.name "a", 9⟩] := by
  intro lx s
  have hs : s.Proper lx.separator := @Spelling.scan_proper ',' ['1', ',', '5'] rfl
  have hunit : UnitAt lx.units ⟨1, "mm"⟩ ("mm" ++ "+a").toList :=
    (unitAt_of_unitAt? (by decide : unitAt? lx.units ("mm" ++ "+a").toList = some ⟨1, "mm"⟩)).1
  have hnumber : munch lx '1' [',', '5', 'm', 'm', '+', 'a'] = .ok
      ⟨.number ⟨s.value, "1.5", some ⟨1, "mm"⟩⟩, ['1', ',', '5', 'm', 'm'], ['+', 'a']⟩ := rfl
  have hbare : tokenize lx ("1,5" ++ "mm" ++ "+a") = .ok
      [⟨.number ⟨s.value, "1.5", some ⟨1, "mm"⟩⟩, 0⟩, ⟨.operator .add, 5⟩, ⟨.name "a", 6⟩] := by
    have hrest : tokenize lx "+a" = .ok [⟨.operator .add, 0⟩, ⟨.name "a", 1⟩] := by cbv
    have hsource : ("1,5" ++ "mm" ++ "+a").toList = ['1', ',', '5', 'm', 'm', '+', 'a'] := by
      decide
    have hfound := tokenize_of_munch hsource (by decide) hnumber (by decide : "+a".toList = _)
    rw [hfound, hrest]
    rfl
  have hblanks : ∀ b ∈ "\u00a0\t".toList, isBlank b :=
    List.all_eq_true.1 (by decide : "\u00a0\t".toList.all isBlank)
  have hlater : tokenize lx ("1,5" ++ "\u00a0\t" ++ "mm" ++ "+a") =
      delayed 3 (tokenize lx ("1,5" ++ "mm" ++ "+a")) :=
    (tokenize_blanks hs rfl hblanks rfl (by decide) (by decide) (by decide) hunit).2
  rw [hbare] at hlater
  exact ⟨hunit, hlater⟩

end Token

/-! ## The mark of a fraction -/

namespace Spelling

variable {separator mark : Char} {whole digits rest : List Char}

/-- A number with a fraction is read up to its exponent, whichever mark it has. -/
theorem scan_mark (hmark : mark = '.' ∨ mark = separator) (hdigit : ¬ mark.isDigit)
    (hwhole : whole ≠ []) (hwholes : ∀ d ∈ whole, d.isDigit) (hne : digits ≠ [])
    (hdigits : ∀ d ∈ digits, d.isDigit) (hrest : NoDigit rest) :
    scan separator (whole ++ mark :: (digits ++ rest)) =
      (⟨whole, some (mark, digits), (scanExponent rest).1⟩, (scanExponent rest).2) := by
  have hnodigit : NoDigit (mark :: (digits ++ rest)) := by
    rintro _ ⟨⟩
    exact hdigit
  have hempty : whole.isEmpty = false := List.isEmpty_eq_false_iff.2 hwhole
  simp only [scan, takeDigits_of_append hwholes hnodigit, hempty, Bool.false_eq_true, if_false,
    scanFraction_mark hmark hne hdigits hrest]

/-- Only the mark makes a difference to how many bytes it takes. -/
theorem byteLength_written_mark (whole digits : List Char) (mark : Char)
    (exponent : Option (Char × Option Char × List Char)) :
    byteLength (⟨whole, some (mark, digits), exponent⟩ : Spelling).written =
      mark.utf8Size - 1 +
        byteLength (⟨whole, some ('.', digits), exponent⟩ : Spelling).written := by
  have hmark := mark.utf8Size_pos
  have hpoint : ('.').utf8Size = 1 := rfl
  simp only [written, Option.elim_some, Text.byteLength_append, Text.byteLength_cons, hpoint]
  omega

end Spelling

namespace Token

/-- In a number whose fraction stands behind the separator, this could as well be a point:
    the number is the same, its text has a point, and the rest of the formula is read as it
    was, only further on by what the separator is longer. -/
theorem tokenize_mark (hdigit : ¬ lx.separator.isDigit) {whole fraction rest : String}
    (hne : whole ≠ "") (hwhole : ∀ d ∈ whole.toList, d.isDigit) (hne' : fraction ≠ "")
    (hfraction : ∀ d ∈ fraction.toList, d.isDigit) (hrest : ∀ c ∈ rest.toList.head?, ¬ c.isDigit) :
    (∃ n size tail, (whole ++ "." ++ fraction).toList <+: n.text.toList ∧
      tokenize lx (whole ++ "." ++ fraction ++ rest) =
        joined [⟨.number n, 0⟩] size (tokenize lx tail)) ∧
    tokenize lx (whole ++ lx.separator.toString ++ fraction ++ rest) =
      delayed (lx.separator.utf8Size - 1) (tokenize lx (whole ++ "." ++ fraction ++ rest)) := by
  have hwhole' : whole.toList ≠ [] := fun h => hne (String.toList_injective h)
  have hfraction' : fraction.toList ≠ [] := fun h => hne' (String.toList_injective h)
  have hscan (mark : Char) (hmark : mark = '.' ∨ mark = lx.separator) (hdigit : ¬ mark.isDigit) :=
    Spelling.scan_mark hmark hdigit hwhole' hwhole hfraction' hfraction hrest
  have hsource (mark : Char) : (whole ++ mark.toString ++ fraction ++ rest).toList =
      whole.toList ++ mark :: (fraction.toList ++ rest.toList) := by
    simp [String.toList_append, Char.toString]
  obtain ⟨unit, size, tail, hsuffix⟩ :=
    exists_suffix lx (Spelling.scanExponent rest.toList).2
  have hstarts (mark : Char) :
      Spelling.startsAt (whole ++ mark.toString ++ fraction ++ rest).toList := by
    obtain ⟨d, ds, hcons⟩ := List.exists_cons_of_ne_nil hwhole'
    have hd : d.isDigit := hwhole d (hcons ▸ List.mem_cons_self)
    simpa [String.toList_append, hcons] using Spelling.startsAt_of_isDigit hd _
  have hpoint := hsuffix _ _ (hstarts '.') (hsource '.' ▸ hscan '.' (.inl rfl) (by decide))
  have hseparator := hsuffix _ _ (hstarts lx.separator)
    (hsource lx.separator ▸ hscan lx.separator (.inr rfl) hdigit)
  refine ⟨⟨_, _, tail, ?_, hpoint⟩, ?_⟩
  · simp [String.toList_append, Spelling.text]
  · rw [hseparator, Spelling.byteLength_written_mark, Nat.add_assoc, ← delayed_joined]
    exact congrArg (delayed _) hpoint.symm

/-- A separator of two bytes before a fraction with an exponent. -/
theorem tokenize_mark_dot :
    let lx : Lexicon := { separator := '·' }
    let s : Spelling := ⟨['1'], some ('.', ['5']), some ('E', some '+', ['3'])⟩
    ¬ lx.separator.isDigit ∧ tokenize lx ("1" ++ "·" ++ "5" ++ "E+3<b") = .ok
      [⟨.number ⟨s.value, "1.5e3", none⟩, 0⟩, ⟨.operator .less, 7⟩, ⟨.name "b", 8⟩] := by
  intro lx s
  have hnumber : munch lx '1' ['.', '5', 'E', '+', '3', '<', 'b'] = .ok
      ⟨.number ⟨s.value, "1.5e3", none⟩, ['1', '.', '5', 'E', '+', '3'], ['<', 'b']⟩ := rfl
  have hpoint : tokenize lx ("1" ++ "." ++ "5" ++ "E+3<b") = .ok
      [⟨.number ⟨s.value, "1.5e3", none⟩, 0⟩, ⟨.operator .less, 6⟩, ⟨.name "b", 7⟩] := by
    have hrest : tokenize lx "<b" = .ok [⟨.operator .less, 0⟩, ⟨.name "b", 1⟩] := by cbv
    have hsource : ("1" ++ "." ++ "5" ++ "E+3<b").toList =
        ['1', '.', '5', 'E', '+', '3', '<', 'b'] := by decide
    have hfound := tokenize_of_munch hsource (by decide) hnumber (by decide : "<b".toList = _)
    rw [hfound, hrest]
    rfl
  have hdigit : ¬ lx.separator.isDigit := by decide
  have hwhole : ∀ d ∈ "1".toList, d.isDigit :=
    List.all_eq_true.1 (by decide : "1".toList.all Char.isDigit)
  have hfraction : ∀ d ∈ "5".toList, d.isDigit :=
    List.all_eq_true.1 (by decide : "5".toList.all Char.isDigit)
  have hrest : ∀ c ∈ "E+3<b".toList.head?, ¬ c.isDigit := by
    rintro _ ⟨⟩
    decide
  have hmark : tokenize lx ("1" ++ "·" ++ "5" ++ "E+3<b") =
      delayed 1 (tokenize lx ("1" ++ "." ++ "5" ++ "E+3<b")) :=
    (tokenize_mark hdigit (by decide) hwhole (by decide) hfraction hrest).2
  rw [hpoint] at hmark
  exact ⟨hdigit, hmark⟩

end Token

end Formula
