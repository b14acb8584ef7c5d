import Formula.Proofs.Lexing.Printing
import Formula.Proofs.Lexing.Rejection
import Mathlib.Data.List.Find
import Mathlib.Data.List.TakeWhile

/-!
# What follows a token

How far the scanner looks. A number is the same whatever follows it, if this starts with
nothing that a number could go on with (`Spelling.Bounds`, `scan_append`). A space is such
a bound for all tokens: what is cut off before it is what would be cut off if the formula
ended there (`munch_append_space`), except that blanks, and so spaces, may stand between
a number and its unit. So a number without a unit, behind which only blanks are left, also
has none where a space and then a text without a unit at its front follows.
-/

namespace Formula

open Text (isBlank occursAt)
open Decimal (takeDigits)

/-! ## Runs of characters -/

/-- A run of characters ends where it ended, unless it goes on in what follows the text. -/
theorem takeWhile_append_of_stop {p : Char → Bool} {cs ds : List Char}
    (h : (∀ c ∈ cs, p c) → ∀ d ∈ ds.head?, ¬ p d) :
    (cs ++ ds).takeWhile p = cs.takeWhile p ∧ (cs ++ ds).dropWhile p = cs.dropWhile p ++ ds := by
  induction cs with
  | nil => exact Token.takeWhile_eq_of_append (List.forall_mem_nil _) (h (List.forall_mem_nil _))
  | cons c cs ih =>
    by_cases hc : p c
    · simp [hc, ih fun hcs => h (List.forall_mem_cons.2 ⟨hc, hcs⟩)]
    · simp [hc]

/-- Of what does not contain `c`, nothing reaches beyond a `c`. -/
theorem prefix_append_cons_iff {l cs ds : List Char} {c : Char} (hc : c ∉ l) :
    l <+: cs ++ c :: ds ↔ l <+: cs := by
  refine ⟨fun h => ?_, fun h => h.trans (List.prefix_append ..)⟩
  rcases List.prefix_or_prefix_of_prefix h (List.prefix_append cs (c :: ds)) with h' | ⟨l', rfl⟩
  · exact h'
  · rw [List.prefix_append_right_inj] at h
    rcases l' with _ | ⟨d, l'⟩
    · exact List.prefix_rfl.trans (by simp)
    · obtain ⟨rfl, _⟩ := List.cons_prefix_cons.1 h
      simp at hc

/-! ## Numbers -/

namespace Spelling

variable {separator : Char} {cs ds : List Char}

/-- A number that ends before `cs` cannot go on in it. -/
def Bounds (separator : Char) (cs : List Char) : Prop :=
  ∀ c ∈ cs.head?, ¬ c.isDigit ∧ c ∉ ['+', '-', 'e', 'E'] ∧
    (c = '.' ∨ c = separator → NoDigit cs.tail)

theorem Bounds.noDigit (h : Bounds separator ds) : NoDigit ds := fun c hc => (h c hc).1

/-- Digits end where no digit follows, be it the end or not. -/
theorem takeDigits_append_of_noDigit (cs : List Char) (h : NoDigit ds) :
    takeDigits (cs ++ ds) = ((takeDigits cs).1, (takeDigits cs).2 ++ ds) := by
  obtain ⟨htake, hdrop⟩ := @takeWhile_append_of_stop Char.isDigit cs ds fun _ => h
  rw [takeDigits, htake, hdrop]
  rfl

/-- No fraction starts where a number must have ended. -/
theorem scanFraction_of_bounds (h : Bounds separator ds) {mark : Char}
    (hmark : mark = '.' ∨ mark = separator) : scanFraction mark ds = (none, ds) := by
  unfold scanFraction
  split
  · rename_i c d rest
    refine if_neg fun ⟨hc, hd⟩ => ?_
    have hc : c = '.' ∨ c = separator := by
      rcases hc with hc | rfl
      · exact .inl hc
      · exact hmark
    exact (h c rfl).2.2 hc d rfl hd
  · rfl

/-- A fraction is read alike before the end and before what it cannot go on in. -/
theorem scanFraction_append_of_bounds (h : Bounds separator ds) (cs : List Char) {mark : Char}
    (hmark : mark = '.' ∨ mark = separator) :
    scanFraction mark (cs ++ ds) = ((scanFraction mark cs).1, (scanFraction mark cs).2 ++ ds) := by
  match cs with
  | [] => exact scanFraction_of_bounds h hmark
  | [c] =>
    cases ds with
    | nil => rfl
    | cons d ds => exact scanFraction_of_not_digit ds (h.noDigit d rfl)
  | c :: d :: cs =>
    have htake := takeDigits_append_of_noDigit (d :: cs) h.noDigit
    simp only [List.cons_append] at htake
    simp only [List.cons_append, scanFraction, htake]
    split <;> rfl

/-- A sign is read alike before the end and before what a number cannot go on in. -/
theorem scanSign_append_of_bounds (h : Bounds separator ds) (cs : List Char) :
    scanSign (cs ++ ds) = ((scanSign cs).1, (scanSign cs).2 ++ ds) := by
  cases cs with
  | nil =>
    cases ds with
    | nil => rfl
    | cons d ds =>
      have hd := (h d rfl).2.1
      simp only [List.mem_cons, not_or] at hd
      simp [scanSign, hd.1, hd.2.1]
  | cons c cs =>
    simp only [List.cons_append, scanSign]
    split <;> rfl

/-- An exponent, or no more than its letter, is read alike before the end and before what a
    number cannot go on in. -/
theorem scanExponent_append_of_bounds (h : Bounds separator ds) (cs : List Char) :
    scanExponent (cs ++ ds) = ((scanExponent cs).1, (scanExponent cs).2 ++ ds) := by
  cases cs with
  | nil =>
    cases ds with
    | nil => rfl
    | cons d ds =>
      have hd := (h d rfl).2.1
      simp only [List.mem_cons, not_or] at hd
      simp [scanExponent, hd.2.2.1, hd.2.2.2.1]
  | cons c cs =>
    simp only [List.cons_append, scanExponent, scanSign_append_of_bounds h,
      takeDigits_append_of_noDigit _ h.noDigit]
    split
    · split <;> rfl
    · rfl

/-- The scanner takes the same number whatever follows it, if this bounds numbers. -/
theorem scan_append (h : Bounds separator ds) (cs : List Char) :
    scan separator (cs ++ ds) = ((scan separator cs).1, (scan separator cs).2 ++ ds) := by
  have hmark : (if (takeDigits cs).1.isEmpty then '.' else separator) = '.' ∨
      (if (takeDigits cs).1.isEmpty then '.' else separator) = separator := by
    split
    · exact .inl rfl
    · exact .inr rfl
  simp only [scan, takeDigits_append_of_noDigit cs h.noDigit,
    scanFraction_append_of_bounds h _ hmark, scanExponent_append_of_bounds h]

/-- Whether a number starts is told by what is there, if that is something. -/
theorem startsAt_append (hcs : cs ≠ []) (h : NoDigit ds) : startsAt (cs ++ ds) = startsAt cs := by
  match cs with
  | [c] =>
    cases ds with
    | nil => rfl
    | cons d ds => simp [startsAt, h d rfl]
  | c :: d :: cs => rfl

end Spelling

namespace Token

variable {lx : Lexicon}

/-- A number does not go on in a space unless the space is its separator. -/
theorem bounds_space (hseparator : lx.separator ≠ ' ') (ds : List Char) :
    Spelling.Bounds lx.separator (' ' :: ds) := by
  rintro c ⟨⟩
  exact ⟨by decide, by decide, fun h => absurd h (by simpa using hseparator.symm)⟩

/-! ## Units -/

/-- What holds no space occurs before a space if it does at the end. -/
theorem occursAt_append_space {literal : List Char} (hliteral : ' ' ∉ literal)
    (cs ds : List Char) :
    occursAt literal (!isNamePart ·) (cs ++ ' ' :: ds) =
      occursAt literal (!isNamePart ·) cs := by
  by_cases h : literal <+: cs
  · obtain ⟨rest, rfl⟩ := h
    have hprefix := List.isPrefixOf_iff_prefix.2 (List.prefix_append literal rest)
    have hprefix' :=
      List.isPrefixOf_iff_prefix.2 (List.prefix_append literal (rest ++ ' ' :: ds))
    rw [List.append_assoc]
    simp only [occursAt, hprefix, hprefix', List.drop_left]
    cases rest <;> rfl
  · have h' : ¬ literal <+: cs ++ ' ' :: ds := fun h' => h ((prefix_append_cons_iff hliteral).1 h')
    rw [← List.isPrefixOf_iff_prefix, Bool.not_eq_true] at h h'
    rw [occursAt, occursAt, h, h', Bool.false_and, Bool.false_and]

/-- Units that have no space in their names are found alike before one. -/
theorem unitAt?_append_space (hunits : ∀ name ∈ lx.units, ' ' ∉ name.toList) (cs ds : List Char) :
    unitAt? lx.units (cs ++ ' ' :: ds) = unitAt? lx.units cs := by
  have hat : unitsAt lx.units (cs ++ ' ' :: ds) = unitsAt lx.units cs := by
    refine congrArg (List.map _) (List.filter_congr fun u hu => ?_)
    have hname : ' ' ∉ u.1.toList := hunits _ (List.fst_mem_of_mem_zipIdx hu)
    exact congrArg (!u.1.isEmpty && ·) (occursAt_append_space hname cs ds)
  rw [unitAt?, hat, unitAt?]

/-- No unit is found where none stands. -/
theorem unitAt?_eq_none_iff {units : List String} {cs : List Char} :
    unitAt? units cs = none ↔ ∀ u, ¬ UnitAt units u cs := by
  refine ⟨not_unitAt_of_unitAt?, fun h => ?_⟩
  rcases hu : unitAt? units cs with _ | u
  · rfl
  · exact absurd (unitAt_of_unitAt? hu).1 (h u)

theorem unitAt?_nil (units : List String) : unitAt? units [] = none :=
  unitAt?_eq_none_iff.2 fun _ hu =>
    hu.2.1 (String.toList_injective (List.prefix_nil.1 hu.2.2.1))

/-- A number without a unit leaves what is behind its spelling, blanks included. -/
theorem munchNumber_of_none {cs rest : List Char} {s : Spelling}
    (hs : Spelling.scan lx.separator cs = (s, rest))
    (hnone : unitAt? lx.units (rest.dropWhile isBlank) = none) :
    munchNumber lx cs = ⟨.number ⟨s.value, String.ofList s.text, none⟩, s.written, rest⟩ := by
  simp only [munchNumber, hs, hnone]

/-- A number with a unit takes the blanks before the unit along. -/
theorem munchNumber_of_some {cs rest : List Char} {s : Spelling} {u : UnitSuffix}
    (hs : Spelling.scan lx.separator cs = (s, rest))
    (hu : unitAt? lx.units (rest.dropWhile isBlank) = some u) :
    munchNumber lx cs = ⟨.number ⟨s.value, String.ofList s.text, some u⟩,
      s.written ++ rest.takeWhile isBlank ++ u.name.toList,
      (rest.dropWhile isBlank).drop u.name.toList.length⟩ := by
  simp only [munchNumber, hs, hu]

/-- A number is the same if a space follows. Only where there was nothing but blanks behind
    it, the space could lead to a unit. -/
theorem munchNumber_append_space (hunits : ∀ name ∈ lx.units, ' ' ∉ name.toList)
    (hseparator : lx.separator ≠ ' ') {cs ds : List Char}
    (hclear : (∀ c ∈ (Spelling.scan lx.separator cs).2, isBlank c) →
      ∀ u, ¬ UnitAt lx.units u (ds.dropWhile isBlank)) :
    munchNumber lx (cs ++ ' ' :: ds) =
      ⟨(munchNumber lx cs).token, (munchNumber lx cs).span,
        (munchNumber lx cs).rest ++ ' ' :: ds⟩ := by
  have hscan := Spelling.scan_append (bounds_space hseparator ds) cs
  rcases hs : Spelling.scan lx.separator cs with ⟨s, rest⟩
  rw [hs] at hscan hclear
  by_cases hblank : ∀ c ∈ rest, isBlank c
  · have hnone : unitAt? lx.units (rest.dropWhile isBlank) = none := by
      rw [List.dropWhile_eq_nil_iff.2 hblank, unitAt?_nil]
    have hnone' : unitAt? lx.units ((rest ++ ' ' :: ds).dropWhile isBlank) = none := by
      rw [List.dropWhile_append_of_pos hblank, List.dropWhile_cons_of_pos (by decide)]
      exact unitAt?_eq_none_iff.2 (hclear hblank)
    rw [munchNumber_of_none hs hnone, munchNumber_of_none hscan hnone']
  · obtain ⟨htake, hdrop⟩ :=
      @takeWhile_append_of_stop isBlank rest (' ' :: ds) fun h => absurd h hblank
    have hunit := unitAt?_append_space hunits (rest.dropWhile isBlank) ds
    rw [← hdrop] at hunit
    rcases hu : unitAt? lx.units (rest.dropWhile isBlank) with _ | u
    · rw [munchNumber_of_none hs hu, munchNumber_of_none hscan (hunit.trans hu)]
    · have hlength := List.IsPrefix.length_le (unitAt_of_unitAt? hu).1.2.2.1
      rw [munchNumber_of_some hs hu, munchNumber_of_some hscan (hunit.trans hu), htake, hdrop,
        List.drop_append_of_le_length hlength]

/-! ## Names, texts and signs -/

/-- A name, or a field, is cut off alike before the end and before a space: a point that a
    space follows belongs to neither. -/
theorem munchName_append_space (cs ds : List Char) :
    munchName (cs ++ ' ' :: ds) =
      ⟨(munchName cs).token, (munchName cs).span, (munchName cs).rest ++ ' ' :: ds⟩ := by
  have hspace : ∀ c ∈ (' ' :: ds).head?, ¬ isNamePart c := by
    rintro c ⟨⟩
    decide
  obtain ⟨htake, hdrop⟩ := @takeWhile_append_of_stop isNamePart cs _ fun _ => hspace
  simp only [munchName, htake, hdrop]
  rcases cs.dropWhile isNamePart with _ | ⟨c, _ | ⟨d, rest⟩⟩
  · rfl
  · by_cases hc : c = '.'
    · subst hc
      rfl
    · simp [hc]
  · by_cases hc : c = '.'
    · obtain ⟨htake', hdrop'⟩ := @takeWhile_append_of_stop isNamePart (d :: rest) _ fun _ => hspace
      subst hc
      simp only [List.cons_append] at htake' hdrop' ⊢
      rw [htake', hdrop']
      split <;> rfl
    · simp [hc]

/-- A text ends at its closing quote, whatever follows. -/
theorem scanText_append {cs said span rest : List Char}
    (h : scanText cs = some (said, span, rest)) (ds : List Char) :
    scanText (cs ++ ds) = some (said, span, rest ++ ds) := by
  obtain ⟨body, rfl, hsays⟩ := says_of_scanText h
  rw [← scanText_split h, List.append_assoc, List.append_assoc, List.singleton_append]
  exact scanText_of_says hsays (rest ++ ds)

/-- A sign is found alike before the end and before a space. -/
theorem find?_signs_append_space (cs ds : List Char) :
    signs.find? (fun (sign, _) => sign.toList.isPrefixOf (cs ++ ' ' :: ds)) =
      signs.find? (fun (sign, _) => sign.toList.isPrefixOf cs) := by
  have hsigns : ∀ s ∈ signs, ' ' ∉ s.1.toList := by decide
  refine List.find?_congr fun s hs => ?_
  rw [Bool.eq_iff_iff, List.isPrefixOf_iff_prefix, List.isPrefixOf_iff_prefix,
    prefix_append_cons_iff (hsigns s hs)]

/-! ## Tokens -/

/-- A token is the same if a space follows, unless it is a number without a unit that is
    followed by nothing but blanks before the space, and by a unit behind it. -/
theorem munch_append_space (hunits : ∀ name ∈ lx.units, ' ' ∉ name.toList)
    (hseparator : lx.separator ≠ ' ') {c : Char} {cs ds : List Char} {m : Munch}
    (h : munch lx c cs = .ok m)
    (hclear : ∀ n, m.token = .number n → n.unit = none → (∀ c ∈ m.rest, isBlank c) →
      ∀ u, ¬ UnitAt lx.units u (ds.dropWhile isBlank)) :
    munch lx c (cs ++ ' ' :: ds) = .ok ⟨m.token, m.span, m.rest ++ ' ' :: ds⟩ := by
  have hspace : Spelling.NoDigit (' ' :: ds) := (bounds_space hseparator ds).noDigit
  have hstarts := Spelling.startsAt_append (List.cons_ne_nil c cs) hspace
  rw [List.cons_append] at hstarts
  unfold munch at h ⊢
  rw [hstarts]
  split at h
  · rename_i hnumber
    cases h
    rw [if_pos hnumber, ← List.cons_append, munchNumber_append_space hunits hseparator]
    -- Where only blanks follow the number, a unit could come from `ds`, and none does.
    intro hblank
    rcases hs : Spelling.scan lx.separator (c :: cs) with ⟨s, rest⟩
    rw [hs] at hblank
    have hnone : unitAt? lx.units (rest.dropWhile isBlank) = none := by
      rw [List.dropWhile_eq_nil_iff.2 hblank, unitAt?_nil]
    rw [munchNumber_of_none hs hnone] at hclear
    exact hclear _ rfl rfl hblank
  rename_i hnumber
  rw [if_neg hnumber]
  split at h
  · rename_i hname
    cases h
    rw [if_pos hname, ← List.cons_append, munchName_append_space]
  rename_i hname
  rw [if_neg hname]
  split at h
  · rename_i htext
    rw [if_pos htext]
    split at h
    · rename_i hscan
      cases h
      rw [scanText_append hscan]
    · cases h
  · rename_i htext
    rw [if_neg htext]
    split at h
    · rename_i sign token hfind
      cases h
      have hprefix : sign.toList <+: c :: cs :=
        List.isPrefixOf_iff_prefix.1 (by simpa using List.find?_some hfind)
      have hdrop : (c :: cs ++ ' ' :: ds).drop sign.toList.length =
          (c :: cs).drop sign.toList.length ++ ' ' :: ds :=
        List.drop_append_of_le_length hprefix.length_le
      have hfind' := (find?_signs_append_space (c :: cs) ds).trans hfind
      rw [← List.cons_append, hfind']
      simp only [hdrop]
    · cases h

end Token

end Formula
