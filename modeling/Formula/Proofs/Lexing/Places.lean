import Formula.Places
import Formula.Proofs.Lexing.Rejection

/-!
# Places in the text

Every lexeme of a text stands at one of its characters (`Segments.exists_front`); and
where the text cannot be cut, the lexemes before that place lead to the character that is
at fault (`tokenize_error`). In a field, the name of the member stands behind the point
(`Segments.exists_member`).
-/

namespace Formula.Token

open Text (byteLength)

variable {lx : Lexicon} {offset : Nat} {cs : List Char} {lexemes : List Lexeme}

/-! ## Lexemes -/

/-- A token that is cut off has characters. -/
theorem Cuts.ne_nil {token : Token} {span rest : List Char} (h : Cuts lx token span rest) :
    span ≠ [] := by
  cases h with
  | plain h => exact h.ne_nil
  | quantity h => simp [h.ne_nil]

/-- Every lexeme is cut off the text at its place. -/
theorem Segments.exists_cut (h : Segments lx offset cs lexemes) {t : Lexeme}
    (ht : t ∈ lexemes) :
    ∃ front span behind, cs = front ++ span ++ behind ∧
      t.offset = offset + byteLength front ∧ Cuts lx t.token span behind := by
  induction h with
  | last => cases ht
  | @cons offset gap span rest token lexemes _ hcuts _ ih =>
    rcases List.mem_cons.1 ht with rfl | ht
    · exact ⟨gap, span, rest, rfl, rfl, hcuts⟩
    · obtain ⟨front, span', behind, rfl, hoffset, hcuts'⟩ := ih ht
      exact ⟨gap ++ span ++ front, span', behind, by simp, by simp [hoffset, Nat.add_assoc],
        hcuts'⟩

/-- Every lexeme stands at a character of the text. -/
theorem Segments.exists_front (h : Segments lx offset cs lexemes) {t : Lexeme}
    (ht : t ∈ lexemes) :
    ∃ front c behind, cs = front ++ c :: behind ∧ t.offset = offset + byteLength front := by
  obtain ⟨front, span, behind, rfl, hoffset, hcuts⟩ := h.exists_cut ht
  obtain ⟨c, span, rfl⟩ := List.exists_cons_of_ne_nil hcuts.ne_nil
  exact ⟨front, c, span ++ behind, by simp, hoffset⟩

/-- The name of a member stands behind the object and the point. -/
theorem Segments.exists_member (h : Segments lx offset cs lexemes) {object member : String}
    {o : Nat} (ht : ⟨.field object member, o⟩ ∈ lexemes) :
    ∃ front c behind, cs = front ++ c :: behind ∧ member.toList <+: c :: behind ∧
      o + object.utf8ByteSize + 1 = offset + byteLength front := by
  obtain ⟨front, span, behind, rfl, rfl, hcuts⟩ := h.exists_cut ht
  cases hcuts with
  | plain hspells =>
    cases hspells with
    | field _ hmember =>
      obtain ⟨c, ds, hcons, _⟩ := hmember
      refine ⟨front ++ object.toList ++ ['.'], c, ds ++ behind, by simp [hcons], by simp [hcons],
        ?_⟩
      have hpoint : byteLength ['.'] = 1 := rfl
      rw [← Text.byteLength_toList, Text.byteLength_append, Text.byteLength_append, hpoint]
      omega
    | sign hmem => simp [signs] at hmem

/-! ## Texts that cannot be cut -/

/-- Where a text cannot be cut, the lexemes before that place lead to the character that is
    at fault. -/
theorem tokenize_error {source : String} {e : Located SyntaxError}
    (h : tokenize lx source = .error e) :
    ∃ lexemes c behind, Reaches lx 0 source.toList lexemes e.offset (c :: behind) ∧
      (e.cause = .unexpectedCharacter c ∨ e.cause = .unterminatedText ∧ c = '\'') := by
  obtain ⟨o, cause⟩ := e
  obtain ⟨before, behind, harrives, hrejects⟩ := exists_arrives_of_error h
  cases hrejects with
  | character => exact ⟨before, _, _, harrives.reaches, .inl rfl⟩
  | text => exact ⟨before, _, _, harrives.reaches, .inr ⟨rfl, rfl⟩⟩

/-- A formula that can be cut into tokens is segmented. -/
theorem segments_of_tokenize {source : String} (h : tokenize lx source = .ok lexemes) :
    Segments lx 0 source.toList lexemes := by
  rw [tokenize] at h
  rcases hscan : scan lx 0 source.toList #[] with e | found <;> rw [hscan] at h <;> cases h
  obtain ⟨more, hmore, hsegments⟩ := @segments_scan lx 0 0 [] _ _ _ (by simp) rfl hscan
  obtain rfl : found.toList = more := by simpa using hmore
  exact hsegments

end Formula.Token
