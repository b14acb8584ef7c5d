import Formula.Proofs.Lexing.Segmentation

/-!
# Numbers take their units

Where a number starts, the scanner takes the number with the unit that is preferred there,
or without a unit, and goes on directly behind it (`scan_of_startsAt`); and it takes
numbers nowhere else (`exists_munch_of_scan`). So the unit of every number of a formula is
the preferred one, and neither blanks nor a name are lost where there is none
(`scan_measures`).
-/

namespace Formula.Token

open Text (byteLength isBlank)

variable {lx : Lexicon}

/-! ## One number -/

/-- Where a number starts, one is cut off, with its preferred unit. -/
theorem measures_munchNumber (lx : Lexicon) {c : Char} {cs : List Char}
    (h : Spelling.startsAt (c :: cs)) :
    ∃ n, (munchNumber lx (c :: cs)).token = .number n ∧
      Measures lx n (munchNumber lx (c :: cs)).span (munchNumber lx (c :: cs)).rest := by
  have hproper := Spelling.scan_proper lx.separator h
  have hlongest : Longest lx.separator _ _ := longest_number h
  simp only [munchNumber]
  split
  · rename_i u hu
    exact ⟨_, rfl, .quantity hproper hlongest (preferred_of_unitAt? hu)
      (name_append_of_unitAt? hu).symm⟩
  · rename_i hnone
    exact ⟨_, rfl, .bare hproper hlongest (not_unitAt_of_unitAt? hnone)⟩

/-- A number does not start with a gap. -/
theorem not_isGap_of_startsAt {c : Char} {cs : List Char} (h : Spelling.startsAt (c :: cs)) :
    ¬ isGap c := by
  intro hgap
  simp only [isGap, Bool.or_eq_true, beq_iff_eq] at hgap
  rcases isDigit_or_of_startsAt h with hc | rfl
  · rcases hgap with (((rfl | rfl) | rfl) | rfl) | rfl <;> exact absurd hc (by decide)
  · exact absurd hgap (by decide)

/-- Where a number starts, it is taken with its unit. -/
theorem scan_of_startsAt {cs : List Char} (h : Spelling.startsAt cs) :
    ∃ n span rest, cs = span ++ rest ∧ Measures lx n span rest ∧
      ∀ (o : Nat) (found : Array Lexeme),
        scan lx o cs found = scan lx (o + byteLength span) rest (found.push ⟨.number n, o⟩) := by
  rcases cs with _ | ⟨c, cs⟩
  · cases h
  obtain ⟨n, hn, hmeasures⟩ := measures_munchNumber lx h
  refine ⟨n, _, _, (munchNumber_split lx _).symm, hmeasures, fun o found => ?_⟩
  rw [scan_of_munch (not_isGap_of_startsAt h) (if_pos h), hn]

/-! ## The numbers of a formula -/

/-- A number is only taken where one starts. -/
theorem startsAt_of_munch {c : Char} {cs : List Char} {m : Munch} {n : Numeral}
    (h : munch lx c cs = .ok m) (hn : m.token = .number n) : Spelling.startsAt (c :: cs) := by
  refine Decidable.byContradiction fun hnumber => ?_
  rw [munch, if_neg hnumber] at h
  split at h
  · cases h
    exact munchName_ne_number _ n hn
  split at h
  · split at h <;> cases h
    cases hn
  · split at h
    · rename_i hfind
      cases h
      exact ne_number_of_mem_signs (List.mem_of_find?_eq_some hfind) n hn
    · cases h

/-- What was found before stays in front of what is found. -/
theorem exists_of_scan {o : Nat} {cs : List Char} {found lexemes : Array Lexeme}
    (h : scan lx o cs found = .ok lexemes) : ∃ more, lexemes.toList = found.toList ++ more :=
  let ⟨more, hmore, _⟩ := @segments_scan lx o o [] _ _ _ (List.forall_mem_nil _) rfl h
  ⟨more, hmore⟩

/-- Every lexeme was cut off the text at its place, and the scanner went on behind it. -/
theorem exists_munch_of_scan {o : Nat} {cs : List Char} {found lexemes : Array Lexeme}
    (h : scan lx o cs found = .ok lexemes) {before behind : List Lexeme} {t : Lexeme}
    (ht : lexemes.toList = found.toList ++ (before ++ t :: behind)) :
    ∃ front c rest m, cs = front ++ c :: rest ∧ t.offset = o + byteLength front ∧
      munch lx c rest = .ok m ∧ m.token = t.token ∧
      scan lx (t.offset + byteLength m.span) m.rest (found ++ before ++ [t]) = .ok lexemes := by
  fun_induction scan lx o cs found generalizing before with
  | case1 =>
    cases h
    simp at ht
  | case2 o found c cs _ ih =>
    obtain ⟨front, d, rest, m, rfl, hoffset, hm, htoken, hscan⟩ := ih h ht
    exact ⟨c :: front, d, rest, m, rfl, by simp [hoffset, Nat.add_assoc], hm, htoken, hscan⟩
  | case3 => cases h
  | case4 o found c cs _ m hm ih =>
    obtain ⟨more, hmore⟩ := exists_of_scan h
    have hsplit : before ++ t :: behind = ⟨m.token, o⟩ :: more := by
      rw [ht, Array.toList_push, List.append_assoc] at hmore
      exact List.append_cancel_left hmore
    rcases before with _ | ⟨u, before⟩
    · -- The lexeme is the one that is found first.
      cases hsplit
      exact ⟨[], c, cs, m, rfl, rfl, hm, rfl, by simpa using h⟩
    · cases hsplit
      have ht : lexemes.toList = (found.push ⟨m.token, o⟩).toList ++ (before ++ t :: behind) := by
        simp [ht]
      obtain ⟨front, d, rest, m', hrest, hoffset, hm', htoken, hscan⟩ := ih h ht
      obtain ⟨hcs, _⟩ := munch_split hm
      exact ⟨m.span ++ front, d, rest, m', by rw [← hcs, hrest, List.append_assoc],
        by simp [hoffset, Nat.add_assoc], hm', htoken, by simpa using hscan⟩

/-- Wherever the scanner is when a number starts, it takes the number with the unit that is
    preferred there, if any, and goes on directly behind it. So every number of a formula
    has the unit that is preferred behind its spelling, and what follows it in the formula
    is what is found in the text behind it. -/
theorem scan_measures (lx : Lexicon) (source : String) :
    (∀ cs, Spelling.startsAt cs → ∃ n span rest, cs = span ++ rest ∧ Measures lx n span rest ∧
      ∀ (o : Nat) (found : Array Lexeme),
        scan lx o cs found = scan lx (o + byteLength span) rest (found.push ⟨.number n, o⟩)) ∧
    ∀ before n o behind, tokenize lx source = .ok (before ++ ⟨.number n, o⟩ :: behind) →
      ∃ front span rest, source.toList = front ++ span ++ rest ∧ o = byteLength front ∧
        Measures lx n span rest ∧
        scan lx (o + byteLength span) rest (before ++ [⟨.number n, o⟩]).toArray =
          .ok (before ++ ⟨.number n, o⟩ :: behind).toArray := by
  refine ⟨fun cs h => scan_of_startsAt h, fun before n o behind h => ?_⟩
  rw [tokenize] at h
  rcases hscan : scan lx 0 source.toList #[] with e | found <;> rw [hscan] at h
  · cases h
  have hfound : found.toList = #[].toList ++ (before ++ ⟨.number n, o⟩ :: behind) :=
    Except.ok.inj h
  obtain ⟨front, c, rest, m, hsource, ho, hm, htoken, hgoes⟩ :=
    exists_munch_of_scan hscan hfound
  have hstarts := startsAt_of_munch hm htoken
  obtain rfl : m = munchNumber lx (c :: rest) := by
    rw [munch, if_pos hstarts] at hm
    exact (Except.ok.inj hm).symm
  obtain ⟨n', hn', hmeasures⟩ := measures_munchNumber lx hstarts
  obtain rfl : n' = n := by
    rw [htoken] at hn'
    exact (Token.number.inj hn').symm
  refine ⟨front, _, _, ?_, by simpa using ho, hmeasures, ?_⟩
  · rw [hsource, List.append_assoc, munchNumber_split]
  · rw [← List.nil_append (before ++ _ :: behind), ← hfound]
    simpa using hgoes

/-- A blank that Unicode knows leads to the longest unit, the last of its name; where a
    letter follows, there is none. -/
example : (munch { units := ["mm", "m", "mm"] } '3' ['\u00a0', 'm', 'm', ' ']) =
    .ok ⟨.number ⟨Spelling.value ⟨['3'], none, none⟩, "3", some ⟨2, "mm"⟩⟩,
      ['3', '\u00a0', 'm', 'm'], [' ']⟩ ∧
    (munch { units := ["mm", "m", "mm"] } '3' ['\u00a0', 'm', 'm', 'x']) =
      .ok ⟨.number ⟨Spelling.value ⟨['3'], none, none⟩, "3", none⟩, ['3'],
        ['\u00a0', 'm', 'm', 'x']⟩ := ⟨rfl, rfl⟩

end Formula.Token
