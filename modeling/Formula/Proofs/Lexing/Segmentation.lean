import Formula.Proofs.Lexing.Numbers
import Formula.Syntax.Printing
import Formula.Token.Suffix

/-!
# Formulas are cut into what they spell

Whatever is cut off the front of a text spells its token and is as long as it can be
(`cuts_of_munch`), so that the lexemes of a formula cut it into gaps and spans
(`tokenize_segments`).

* Of the five kinds of tokens, the first character and whether a number starts there
  leave one (`Spells.front`), apart from the point, which is a sign and may begin a
  number.
-/

namespace Formula.Token

open Text (byteLength isBlank)

variable {separator : Char}

/-! ## Texts -/

/-- What is scanned as a text says what it is taken to say, up to its quote. -/
theorem says_of_scanText {cs said span rest : List Char}
    (h : scanText cs = some (said, span, rest)) :
    ∃ body, span = body ++ ['\''] ∧ Says body said := by
  fun_induction scanText cs generalizing said span rest with
  | case1 => cases h
  | case2 =>
    cases h
    exact ⟨[], rfl, .nil⟩
  | case3 c cs ih =>
    obtain ⟨⟨said', span', rest'⟩, h', he⟩ := Option.map_eq_some_iff.1 h
    cases he
    obtain ⟨body, rfl, hsays⟩ := ih h'
    exact ⟨_, rfl, hsays.escape⟩
  | case4 c cs hquote hescape ih =>
    obtain ⟨⟨said', span', rest'⟩, h', he⟩ := Option.map_eq_some_iff.1 h
    cases he
    obtain ⟨body, rfl, hsays⟩ := ih h'
    refine ⟨_, rfl, hsays.plain ?_ hquote⟩
    -- A backslash that escapes nothing is the last character, and no quote follows it.
    rintro rfl
    rcases cs with _ | ⟨d, ds⟩
    · cases h'
    · exact hescape d ds rfl rfl

/-- A text that says something is scanned as that, whatever follows its quote. -/
theorem scanText_of_says {body said : List Char} (h : Says body said) (rest : List Char) :
    scanText (body ++ '\'' :: rest) = some (said, body ++ ['\''], rest) := by
  induction h with
  | nil => rfl
  | escape _ ih =>
    rw [List.cons_append, List.cons_append, scanText, ih]
    rfl
  | plain hescape hquote _ ih =>
    rw [List.cons_append, scanText, ih]
    · rfl
    · exact hquote
    · exact fun _ _ h _ => hescape h

/-! ## Names -/

/-- A run of wanted characters ends before an unwanted one. -/
theorem takeWhile_eq_of_append {p : Char → Bool} {cs ds : List Char} (hcs : ∀ c ∈ cs, p c)
    (hds : ∀ d ∈ ds.head?, ¬ p d) : (cs ++ ds).takeWhile p = cs ∧ (cs ++ ds).dropWhile p = ds := by
  rw [List.takeWhile_append_of_pos hcs, List.dropWhile_append_of_pos hcs]
  cases ds with
  | nil => exact ⟨List.append_nil cs, rfl⟩
  | cons d ds => simp [hds d rfl]

/-- A name has only characters of names. -/
theorem IsName.parts {cs : List Char} (h : IsName cs) : ∀ c ∈ cs, isNamePart c := by
  obtain ⟨c, ds, rfl, hc, hds⟩ := h
  intro d hd
  rcases List.mem_cons.1 hd with rfl | hd
  · exact isNamePart_of_isNameStart hc
  · exact hds d hd

/-- The longest run of them, with a letter or underscore first, is a name. -/
theorem isName_takeWhile {c : Char} (hc : isNameStart c) (cs : List Char) :
    IsName ((c :: cs).takeWhile isNamePart) := by
  rw [List.takeWhile_cons_of_pos (isNamePart_of_isNameStart hc)]
  exact ⟨c, _, rfl, hc, fun d hd => List.all_eq_true.1 List.all_takeWhile d hd⟩

theorem spells_name {cs : List Char} (h : IsName cs) :
    Spells separator (.name (String.ofList cs)) cs := by
  rw [← String.toList_ofList (l := cs)] at h
  simpa using Spells.name h

theorem spells_field {cs ds : List Char} (hcs : IsName cs) (hds : IsName ds) :
    Spells separator (.field (String.ofList cs) (String.ofList ds)) (cs ++ '.' :: ds) := by
  rw [← String.toList_ofList (l := cs)] at hcs
  rw [← String.toList_ofList (l := ds)] at hds
  simpa using Spells.field hcs hds

/-- What is cut off where a name starts spells its token: a keyword, a name or a field. -/
theorem spells_munchName {c : Char} (hc : isNameStart c) (cs : List Char) :
    Spells separator (munchName (c :: cs)).token (munchName (c :: cs)).span := by
  have hobject := isName_takeWhile hc cs
  simp only [munchName]
  split
  · split
    · rename_i d behind _ hd
      exact spells_field hobject (isName_takeWhile hd behind)
    · exact spells_name hobject
  · exact spells_name hobject

/-- No name at the front is longer than what is cut off there. -/
theorem name_length_le {name : List Char} (h : IsName name) (rest : List Char) :
    name.length ≤ (munchName (name ++ rest)).span.length := by
  have hle : name.length ≤ ((name ++ rest).takeWhile isNamePart).length := by
    rw [List.takeWhile_append_of_pos h.parts, List.length_append]
    exact Nat.le_add_right ..
  simp only [munchName]
  split
  · split
    · exact Nat.le_trans hle (by simp)
    · exact hle
  · exact hle

/-- No field at the front is longer than what is cut off there: if a name stands behind the
    point, all of it is taken. -/
theorem field_length_le {object field : List Char} (ho : IsName object) (hf : IsName field)
    (rest : List Char) :
    (object ++ '.' :: field).length ≤
      (munchName (object ++ '.' :: field ++ rest)).span.length := by
  have hpoint : ∀ d ∈ ('.' :: field ++ rest).head?, ¬ isNamePart d := by
    rintro d ⟨⟩
    decide
  rw [List.append_assoc]
  obtain ⟨htake, hdrop⟩ := takeWhile_eq_of_append ho.parts hpoint
  -- What follows may go on with the name of the field, so more may be taken.
  have hall := hf.parts
  obtain ⟨c, cs, rfl, hc, hcs⟩ := hf
  simp only [munchName, htake, hdrop]
  simp only [List.cons_append, hc, if_true]
  rw [← List.cons_append, List.takeWhile_append_of_pos hall]
  simp

/-! ## The kinds of tokens -/

theorem not_isNameStart_of_isDigit {c : Char} (h : c.isDigit) : ¬ isNameStart c := by
  have hle : c.val ≤ '9'.val := of_decide_eq_true (Bool.and_eq_true_iff.1 h).2
  rw [isNameStart, Bool.or_eq_true]
  rintro (halpha | hunderscore)
  · rcases Bool.or_eq_true_iff.1 halpha with hupper | hlower
    · have hge : 'A'.val ≤ c.val := (of_decide_eq_true hupper).1
      exact absurd (UInt32.le_trans hge hle) (by decide)
    · have hge : 'a'.val ≤ c.val := of_decide_eq_true (Bool.and_eq_true_iff.1 hlower).1
      exact absurd (UInt32.le_trans hge hle) (by decide)
  · rw [beq_iff_eq.1 hunderscore] at h
    exact absurd h (by decide)

/-- A number starts with a digit or a point, so with none of the other tokens but the
    point itself. -/
theorem isDigit_or_of_startsAt {c : Char} {cs : List Char} (h : Spelling.startsAt (c :: cs)) :
    c.isDigit ∨ c = '.' := by
  unfold Spelling.startsAt at h
  split at h
  · rename_i heq
    cases heq
    simp only [Bool.or_eq_true, Bool.and_eq_true, beq_iff_eq] at h
    exact h.imp_right And.left
  · rename_i heq
    cases heq
    exact .inl h
  · cases h

/-- How a sign starts. -/
def signHead (sign : List Char) : Bool :=
  match sign with
  | c :: ds => !c.isDigit && !isNameStart c && c != '\'' && (c != '.' || ds.isEmpty)
  | [] => false

/-- Signs start with neither a digit nor a letter, nor with a quote, and with a point only if
    it is one. -/
theorem signHead_of_mem {sign : String} {token : Token} (h : (sign, token) ∈ signs) :
    signHead sign.toList :=
  List.all_eq_true.1 (by decide : signs.all fun s => signHead s.1.toList) _ h

/-- What stands at the front of a text is of the kind that its first character tells,
    and is no longer than what is taken then. -/
theorem Spells.front {token : Token} {other : List Char} {c : Char} {cs : List Char}
    (h : Spells separator token other) (hcs : other <+: c :: cs) :
    (Spelling.startsAt (c :: cs) ∧
        other.length ≤ (Spelling.scan separator (c :: cs)).1.written.length) ∨
      (isNameStart c ∧ other.length ≤ (munchName (c :: cs)).span.length) ∨
      (c = '\'' ∧ ∃ said span rest, scanText cs = some (said, span, rest) ∧ other = c :: span) ∨
      ∃ sign token, (sign, token) ∈ signs ∧ other = sign.toList ∧
        ∃ ds, other = c :: ds ∧ signHead (c :: ds) := by
  cases h with
  | number hproper _ => exact .inl ⟨hproper.startsAt hcs, Spelling.length_le_scan hproper hcs⟩
  | name hname =>
    -- The span is at least as long as any name at the front.
    obtain ⟨rest, hrest⟩ := hcs
    have hle := name_length_le hname rest
    obtain ⟨d, ds, hd, hstart, _⟩ := hname
    rw [hrest] at hle
    rw [hd] at hrest
    cases hrest
    exact .inr (.inl ⟨hstart, hle⟩)
  | field ho hf =>
    obtain ⟨rest, hrest⟩ := hcs
    have hle := field_length_le ho hf rest
    obtain ⟨d, ds, hd, hstart, _⟩ := ho
    rw [hrest] at hle
    rw [hd] at hrest
    cases hrest
    exact .inr (.inl ⟨hstart, hle⟩)
  | @text body s hsays =>
    obtain ⟨rest, hrest⟩ := hcs
    have hscan := scanText_of_says hsays rest
    simp only [List.cons_append, List.append_assoc, List.cons.injEq] at hrest
    obtain ⟨rfl, rfl⟩ := hrest
    exact .inr (.inr (.inl ⟨rfl, _, _, _, hscan, rfl⟩))
  | @sign sign _ hmem =>
    have hhead := signHead_of_mem hmem
    obtain ⟨rest, hrest⟩ := hcs
    refine .inr (.inr (.inr ⟨sign, token, hmem, rfl, ?_⟩))
    rcases hs : sign.toList with _ | ⟨d, ds⟩ <;> rw [hs] at hrest hhead
    · cases hhead
    · cases hrest
      exact ⟨ds, rfl, hhead⟩

/-! ## The longest token -/

/-- A token has characters. -/
theorem Spells.ne_nil {token : Token} {span : List Char}
    (h : Spells separator token span) : span ≠ [] := by
  cases h with
  | @number s value hproper _ =>
    obtain ⟨whole, fraction, exponent⟩ := s
    rcases hproper.nonempty with hwhole | hfraction
    · simp_all [Spelling.written]
    · rcases fraction with _ | ⟨mark, digits⟩
      · cases hfraction
      · simp [Spelling.written]
  | name hn | field hn _ =>
    obtain ⟨c, cs, h, _⟩ := hn
    simp [h]
  | text => simp
  | sign hmem =>
    simp only [signs, List.mem_cons, Prod.mk.injEq, List.not_mem_nil, or_false] at hmem
    rcases hmem with h | h | h | h | h | h | h | h | h | h | h | h | h | h | h | h | h | h <;>
      simp [h.1]

/-- A number is as long as can be: nothing else starts like one, and every spelling at the
    front is taken as a whole. -/
theorem longest_number {c : Char} {cs : List Char} (h : Spelling.startsAt (c :: cs)) :
    Longest separator (Spelling.scan separator (c :: cs)).1.written
      (Spelling.scan separator (c :: cs)).2 := by
  intro token other hother hcs
  rw [Spelling.written_append_scan] at hcs
  have hne := List.length_pos_iff.2 (Spelling.written_ne_nil separator h)
  have hc := isDigit_or_of_startsAt h
  rcases hother.front hcs with ⟨_, hle⟩ | ⟨hstart, _⟩ | ⟨rfl, _⟩ | ⟨_, _, _, _, ds, rfl, hhead⟩
  · exact hle
  · rcases hc with hc | rfl
    · exact absurd hstart (not_isNameStart_of_isDigit hc)
    · exact absurd hstart (by decide)
  · exact absurd hc (by decide)
  · -- The point is the one sign that a number may start like, and has one character.
    rcases hc with hc | rfl
    · simp [signHead, hc] at hhead
    · obtain ⟨_, rfl⟩ : isNameStart '.' = false ∧ ds = [] := by simpa [signHead] using hhead
      exact hne

/-- A name or a field is as long as can be. -/
theorem longest_name {c : Char} {cs : List Char} (h : isNameStart c) :
    Longest separator (munchName (c :: cs)).span (munchName (c :: cs)).rest := by
  intro token other hother hcs
  rw [munchName_split] at hcs
  rcases hother.front hcs with ⟨hnumber, _⟩ | ⟨_, hle⟩ | ⟨rfl, _⟩ | ⟨_, _, _, _, ds, _, hhead⟩
  · rcases isDigit_or_of_startsAt hnumber with hc | rfl
    · exact absurd h (not_isNameStart_of_isDigit hc)
    · exact absurd h (by decide)
  · exact hle
  · exact absurd h (by decide)
  · simp [signHead, h] at hhead

/-- A text is as long as can be: it ends at the first quote that is not escaped. -/
theorem longest_text {cs said span rest : List Char} (h : scanText cs = some (said, span, rest)) :
    Longest separator ('\'' :: span) rest := by
  intro token other hother hcs
  rw [List.cons_append, scanText_split h] at hcs
  rcases hother.front hcs with ⟨hnumber, _⟩ | ⟨hstart, _⟩ | ⟨_, _, _, _, h', rfl⟩ |
    ⟨_, _, _, _, ds, _, hhead⟩
  · exact absurd (isDigit_or_of_startsAt hnumber) (by decide)
  · exact absurd hstart (by decide)
  · rw [h] at h'
    cases h'
    exact Nat.le_refl _
  · simp [signHead] at hhead

/-- The first one of a kind is the longest, if the longer ones come first. -/
theorem length_le_of_find? {l : List (String × Token)} {p : String × Token → Bool}
    {s : String × Token} (hl : l.Pairwise fun s t => t.1.toList.length ≤ s.1.toList.length)
    (h : l.find? p = some s) : ∀ t ∈ l, p t → t.1.toList.length ≤ s.1.toList.length := by
  intro t ht hp
  obtain ⟨_, before, behind, rfl, hbefore⟩ := List.find?_eq_some_iff_append.1 h
  rcases List.mem_append.1 ht with ht | ht
  · have := hbefore t ht
    simp [hp] at this
  · rcases List.mem_cons.1 ht with rfl | ht
    · exact Nat.le_refl _
    · exact (List.pairwise_cons.1 (List.pairwise_append.1 hl).2.1).1 t ht

/-- A sign is as long as can be: longer ones are tried first. -/
theorem longest_sign {c : Char} {cs : List Char} (hnumber : ¬ Spelling.startsAt (c :: cs))
    (hname : ¬ isNameStart c) (htext : c ≠ '\'') {sign : String} {token : Token}
    (h : signs.find? (fun (sign, _) => sign.toList.isPrefixOf (c :: cs)) = some (sign, token)) :
    Longest separator sign.toList ((c :: cs).drop sign.toList.length) := by
  intro token other hother hcs
  rw [append_drop_of_isPrefixOf (by simpa using List.find?_some h)] at hcs
  rcases hother.front hcs with ⟨h', _⟩ | ⟨h', _⟩ | ⟨h', _⟩ | ⟨sign', token', hmem, rfl, _⟩
  · exact absurd h' hnumber
  · exact absurd h' hname
  · exact absurd h' htext
  · exact length_le_of_find? (by decide) h _ hmem (List.isPrefixOf_iff_prefix.2 hcs)

/-! ## Units -/

/-- The units that are found are those that stand there. -/
theorem mem_unitsAt {units : List String} {u : UnitSuffix} {cs : List Char} :
    u ∈ unitsAt units cs ↔ UnitAt units u cs := by
  obtain ⟨index, name⟩ := u
  simp only [unitsAt, UnitAt, Text.occursAt, List.mem_map, List.mem_filter, Prod.exists,
    List.mem_zipIdx_iff_getElem?, UnitSuffix.mk.injEq, Bool.and_eq_true]
  constructor
  · rintro ⟨_, _, ⟨hget, hne, hprefix, hend⟩, rfl, rfl⟩
    exact ⟨hget, by simpa using hne, List.isPrefixOf_iff_prefix.1 hprefix,
      by simpa [Option.all_eq_true] using hend⟩
  · rintro ⟨hget, hne, hprefix, hend⟩
    exact ⟨name, index, ⟨hget, by simpa using hne, List.isPrefixOf_iff_prefix.2 hprefix,
      by simpa [Option.all_eq_true] using hend⟩, rfl, rfl⟩

/-- The unit that is kept outranks all that it was chosen from, if these come in the order
    of the list. -/
theorem outranks_of_foldl {us : List UnitSuffix} {best : Option UnitSuffix} {u : UnitSuffix}
    (hus : (best.toList ++ us).Pairwise (·.index < ·.index))
    (h : us.foldl longerUnit best = some u) : ∀ v ∈ best.toList ++ us, u.Outranks v := by
  induction us generalizing best with
  | nil =>
    rw [List.foldl_nil] at h
    subst h
    simp [UnitSuffix.Outranks]
  | cons w us ih =>
    rw [List.foldl_cons] at h
    rcases best with _ | b
    · exact ih hus h
    have hbw : b.index < w.index := (List.pairwise_cons.1 hus).1 w List.mem_cons_self
    by_cases hle : b.name.utf8ByteSize ≤ w.name.utf8ByteSize
    · -- The new one is kept, and outranks what it replaces.
      rw [longerUnit, if_pos hle] at h
      have hu := @ih (some w) (List.pairwise_cons.1 hus).2 h
      have huw : u.Outranks w := hu w List.mem_cons_self
      have hub : u.Outranks b := by
        simp only [UnitSuffix.Outranks] at huw ⊢
        omega
      exact List.forall_mem_cons.2 ⟨hub, hu⟩
    · rw [longerUnit, if_neg hle] at h
      have hu := @ih (some b) (hus.sublist (by simp)) h
      have hub : u.Outranks b := hu b List.mem_cons_self
      have huw : u.Outranks w := by
        simp only [UnitSuffix.Outranks] at hub ⊢
        omega
      have hrest := (List.forall_mem_cons.1 hu).2
      exact List.forall_mem_cons.2 ⟨hub, List.forall_mem_cons.2 ⟨huw, hrest⟩⟩

/-- The units are found in the order of the list. -/
theorem pairwise_unitsAt (units : List String) (cs : List Char) :
    (unitsAt units cs).Pairwise (·.index < ·.index) := by
  have hindex : (units.zipIdx.map Prod.snd).Pairwise (· < ·) := by
    rw [List.zipIdx_map_snd]
    exact List.pairwise_lt_range'
  exact List.pairwise_map.2 ((List.pairwise_map.1 hindex).sublist List.filter_sublist)

/-- The unit that is chosen is the preferred one. -/
theorem preferred_of_unitAt? {units : List String} {u : UnitSuffix} {cs : List Char}
    (h : unitAt? units cs = some u) : Preferred units u cs :=
  ⟨mem_unitsAt.1 ((longerUnit_mem h).resolve_left (by simp)),
    fun v hv => outranks_of_foldl (pairwise_unitsAt units cs) h v (mem_unitsAt.2 hv)⟩

/-- The unit that is chosen stands there, and none that does is longer. -/
theorem unitAt_of_unitAt? {units : List String} {u : UnitSuffix} {cs : List Char}
    (h : unitAt? units cs = some u) :
    UnitAt units u cs ∧ ∀ v, UnitAt units v cs → v.name.utf8ByteSize ≤ u.name.utf8ByteSize := by
  obtain ⟨hu, houtranks⟩ := preferred_of_unitAt? h
  exact ⟨hu, fun v hv => (houtranks v hv).elim Nat.le_of_lt fun h => Nat.le_of_eq h.1⟩

theorem foldl_longerUnit_ne_none (us : List UnitSuffix) (b : UnitSuffix) :
    us.foldl longerUnit (some b) ≠ none := by
  induction us generalizing b with
  | nil => simp
  | cons u us ih =>
    rw [List.foldl_cons, longerUnit]
    split
    · exact ih u
    · exact ih b

/-- If none is chosen none stands there. -/
theorem not_unitAt_of_unitAt? {units : List String} {cs : List Char}
    (h : unitAt? units cs = none) (u : UnitSuffix) : ¬ UnitAt units u cs := by
  intro hu
  have hmem := mem_unitsAt.2 hu
  rw [unitAt?] at h
  rcases hus : unitsAt units cs with _ | ⟨v, vs⟩ <;> rw [hus] at h hmem
  · cases hmem
  · exact foldl_longerUnit_ne_none vs v h

/-! ## Lexemes -/

/-- A number is cut off with the longest unit behind it, or without one if none stands
    there. -/
theorem cuts_munchNumber {lx : Lexicon} {c : Char} {cs : List Char}
    (h : Spelling.startsAt (c :: cs)) :
    Cuts lx (munchNumber lx (c :: cs)).token (munchNumber lx (c :: cs)).span
      (munchNumber lx (c :: cs)).rest := by
  have hproper := Spelling.scan_proper lx.separator h
  have hspells := Spells.number hproper (Spelling.read?_text hproper)
  have hlongest : Longest lx.separator _ _ := longest_number h
  simp only [munchNumber]
  split
  · rename_i u hu
    obtain ⟨hunit, hsize⟩ := unitAt_of_unitAt? hu
    have happend := name_append_of_unitAt? hu
    refine .quantity hspells ?_ (fun b hb => List.all_eq_true.1 List.all_takeWhile b hb) ?_ ?_
    · rwa [List.append_assoc, happend, List.takeWhile_append_dropWhile]
    · rwa [happend]
    · rwa [happend]
  · rename_i hnone
    exact .plain hspells hlongest fun _ _ => not_unitAt_of_unitAt? hnone

/-- A name is no number. -/
theorem munchName_ne_number (cs : List Char) (n : Numeral) : (munchName cs).token ≠ .number n := by
  simp only [munchName]
  split
  · split <;> simp
  · simp

theorem ne_number_of_mem_signs {sign : String} {token : Token} (h : (sign, token) ∈ signs)
    (n : Numeral) : token ≠ .number n := by
  rintro rfl
  simp [signs] at h

/-- What is cut off is what the rules for tokens say: as long as can be, and a number with its
    unit. -/
theorem cuts_of_munch {lx : Lexicon} {c : Char} {cs : List Char} {m : Munch}
    (h : munch lx c cs = .ok m) : Cuts lx m.token m.span m.rest := by
  unfold munch at h
  split at h
  · rename_i hnumber
    cases h
    exact cuts_munchNumber hnumber
  rename_i hnumber
  split at h
  · rename_i hname
    cases h
    refine .plain (spells_munchName hname cs) (longest_name hname) fun n hn => ?_
    exact absurd hn (munchName_ne_number _ n)
  rename_i hname
  split at h
  · rename_i htext
    split at h
    · rename_i said span rest hscan
      cases h
      have hlongest : Longest lx.separator _ _ := longest_text hscan
      obtain ⟨body, rfl, hsays⟩ := says_of_scanText hscan
      rw [← String.toList_ofList (l := said)] at hsays
      subst htext
      exact .plain (.text hsays) hlongest fun _ hn => by cases hn
    · cases h
  · rename_i htext
    split at h
    · rename_i sign token hfind
      cases h
      have hmem := List.mem_of_find?_eq_some hfind
      refine .plain (.sign hmem) (longest_sign hnumber hname htext hfind) fun n hn => ?_
      exact absurd hn (ne_number_of_mem_signs hmem n)
    · cases h

/-- A gap is passed over. -/
theorem scan_of_gap {lx : Lexicon} {c : Char} (hc : isGap c) (o : Nat) (cs : List Char)
    (found : Array Lexeme) : scan lx o (c :: cs) found = scan lx (o + c.utf8Size) cs found := by
  rw [scan, if_pos hc]

/-- A token is put behind those before it, with the place where it starts. -/
theorem scan_of_munch {lx : Lexicon} {c : Char} {cs : List Char} {m : Munch} (hc : ¬ isGap c)
    (h : munch lx c cs = .ok m) (o : Nat) (found : Array Lexeme) :
    scan lx o (c :: cs) found =
      scan lx (o + byteLength m.span) m.rest (found.push ⟨m.token, o⟩) := by
  rw [scan, if_neg hc]
  split
  · rename_i he
    rw [h] at he
    cases he
  · rename_i hm
    rw [h] at hm
    cases hm
    rfl

/-- Scanning goes on behind a gap that has been passed since the last lexeme. -/
theorem segments_scan {lx : Lexicon} {offset o : Nat} {gap cs : List Char}
    {found lexemes : Array Lexeme} (hgap : ∀ c ∈ gap, isGap c) (ho : o = offset + byteLength gap)
    (h : scan lx o cs found = .ok lexemes) :
    ∃ more, lexemes.toList = found.toList ++ more ∧ Segments lx offset (gap ++ cs) more := by
  fun_induction scan lx o cs found generalizing offset gap with
  | case1 =>
    cases h
    exact ⟨[], (List.append_nil _).symm, .last (by simpa using hgap)⟩
  | case2 o found c cs hc ih =>
    -- One more character of the gap.
    have hgap' : ∀ d ∈ gap ++ [c], isGap d := by
      simpa [or_imp, forall_and, hc] using hgap
    obtain ⟨more, hmore, hsegments⟩ := @ih offset (gap ++ [c]) hgap' (by simp [ho, Nat.add_assoc]) h
    exact ⟨more, hmore, by simpa using hsegments⟩
  | case3 => cases h
  | case4 o found c cs _ m hm ih =>
    obtain ⟨more, hmore, hsegments⟩ := @ih (o + byteLength m.span) [] (by simp) rfl h
    obtain ⟨hsplit, _⟩ := munch_split hm
    refine ⟨⟨m.token, o⟩ :: more, by simpa using hmore, ?_⟩
    rw [← hsplit, ← List.append_assoc, ho]
    rw [ho] at hsegments
    exact .cons hgap (cuts_of_munch hm) hsegments

/-! ## Names end -/

/-- A name with one more character is a name. -/
theorem IsName.append_part {cs : List Char} (h : IsName cs) {c : Char} (hc : isNamePart c) :
    IsName (cs ++ [c]) := by
  obtain ⟨d, ds, rfl, hd, hds⟩ := h
  refine ⟨d, ds ++ [c], rfl, hd, fun x hx => ?_⟩
  rcases List.mem_append.1 hx with hx | hx
  · exact hds x hx
  · rwa [List.mem_singleton.1 hx]

/-- No letter, underscore or digit follows a longest token that such a character would
    make longer. -/
theorem Longest.not_isNamePart {span rest : List Char} (h : Longest separator span rest)
    (hpart : ∀ c, isNamePart c → ∃ token, Spells separator token (span ++ [c])) :
    ∀ c ∈ rest.head?, ¬ isNamePart c := by
  intro c hc hname
  obtain ⟨token, htoken⟩ := hpart c hname
  obtain ⟨behind, rfl⟩ := List.head?_eq_some_iff.1 hc
  have hle := h htoken ⟨behind, by simp⟩
  rw [List.length_append] at hle
  exact Nat.not_succ_le_self _ hle

/-- A reference is written as its text and ends where no name could go on; so it is followed by
    no letter, underscore or digit. -/
theorem Cuts.reference_end {lx : Lexicon} {r : Reference} {span rest : List Char}
    (h : Cuts lx r.token span rest) :
    span = r.text.toList ∧ ∀ c ∈ rest.head?, ¬ isNamePart c := by
  cases r with
  | name n =>
    cases h with
    | plain hspells hlongest =>
      cases hspells with
      | name hn =>
        exact ⟨rfl, hlongest.not_isNamePart fun c hc => ⟨_, spells_name (hn.append_part hc)⟩⟩
      | sign hmem => simp [signs, Reference.token] at hmem
  | field o f =>
    cases h with
    | plain hspells hlongest =>
      cases hspells with
      | field ho hf =>
        refine ⟨by simp [Reference.text], hlongest.not_isNamePart fun c hc => ?_⟩
        rw [List.append_assoc, List.cons_append]
        exact ⟨_, spells_field ho (hf.append_part hc)⟩
      | sign hmem => simp [signs, Reference.token] at hmem

/-- A reference stands where its lexeme says, and no letter, underscore or digit
    follows it. -/
theorem Segments.reference_end {lx : Lexicon} {offset : Nat} {cs : List Char}
    {lexemes : List Lexeme} (h : Segments lx offset cs lexemes) {r : Reference} {o : Nat}
    (hr : ⟨r.token, o⟩ ∈ lexemes) :
    ∃ before behind, cs = before ++ r.text.toList ++ behind ∧ o = offset + byteLength before ∧
      ∀ c ∈ behind.head?, ¬ isNamePart c := by
  induction h with
  | last => cases hr
  | @cons offset gap span rest token lexemes _ hcuts _ ih =>
    rcases List.mem_cons.1 hr with hr | hr
    · cases hr
      obtain ⟨rfl, hend⟩ := hcuts.reference_end
      exact ⟨gap, rest, rfl, rfl, hend⟩
    · obtain ⟨before, behind, rfl, rfl, hend⟩ := ih hr
      exact ⟨gap ++ span ++ before, behind, by simp, by simp [Nat.add_assoc], hend⟩

/-- The lexemes of a formula cut it into gaps and the spans that spell them, each as
    long as it can be; no letter, underscore or digit follows a name or a field. -/
theorem tokenize_segments {lx : Lexicon} {source : String} {lexemes : List Lexeme}
    (h : tokenize lx source = .ok lexemes) :
    Segments lx 0 source.toList lexemes ∧
      ∀ (r : Reference) (o : Nat), ⟨r.token, o⟩ ∈ lexemes →
        ∃ before behind, source.toList = before ++ r.text.toList ++ behind ∧
          o = byteLength before ∧ ∀ c ∈ behind.head?, ¬ isNamePart c := by
  rw [tokenize] at h
  rcases hscan : scan lx 0 source.toList #[] with e | found <;> rw [hscan] at h <;> cases h
  obtain ⟨more, hmore, hsegments⟩ := @segments_scan lx 0 0 [] _ _ _ (by simp) rfl hscan
  obtain rfl : found.toList = more := by simpa using hmore
  refine ⟨hsegments, fun r o hr => ?_⟩
  simpa using hsegments.reference_end hr

/-- A number with a decimal comma, and a unit behind a blank. -/
theorem tokenize_segments_quantity :
    let lx : Lexicon := { units := ["mm"], separator := ',' }
    let value := Spelling.value ⟨['1'], some (',', ['5']), none⟩
    let lexemes : List Lexeme := [⟨.name "a", 0⟩, ⟨.operator .less, 1⟩,
      ⟨.number ⟨value, "1.5", some ⟨0, "mm"⟩⟩, 3⟩]
    tokenize lx "a< 1,5 mm" = .ok lexemes ∧ Segments lx 0 "a< 1,5 mm".toList lexemes := by
  intro lx value lexemes
  have hname : munch lx 'a' ['<', ' ', '1', ',', '5', ' ', 'm', 'm'] = .ok
      ⟨.name "a", ['a'], ['<', ' ', '1', ',', '5', ' ', 'm', 'm']⟩ := rfl
  have hsign : munch lx '<' [' ', '1', ',', '5', ' ', 'm', 'm'] = .ok
      ⟨.operator .less, ['<'], [' ', '1', ',', '5', ' ', 'm', 'm']⟩ := rfl
  have hnumber : munch lx '1' [',', '5', ' ', 'm', 'm'] = .ok
      ⟨.number ⟨value, "1.5", some ⟨0, "mm"⟩⟩, ['1', ',', '5', ' ', 'm', 'm'], []⟩ := rfl
  have hlist : "a< 1,5 mm".toList = ['a', '<', ' ', '1', ',', '5', ' ', 'm', 'm'] := by decide
  have h : tokenize lx "a< 1,5 mm" = .ok lexemes := by
    rw [tokenize, hlist, scan_of_munch (by decide) hname, scan_of_munch (by decide) hsign,
      scan_of_gap (by decide), scan_of_munch (by decide) hnumber, scan]
    rfl
  exact ⟨h, (tokenize_segments h).1⟩

end Formula.Token
