import Formula.Text.Bytes

/-!
# A cursor in a text

A cursor is a text and a position in it, the number of bytes before the cursor. It can
be moved by characters (`advance`, `takeWhile`), whose sizes are then added to the
position, and to any number of bytes (`seek`), from which it goes back until it is not
inside a character. All that is read is read off the text behind the cursor (`rest?`),
and there is none where a character would be cut. That no move ever gets there is shown
in `Formula.Proofs.Cursor`.
-/

namespace Formula.Text

/-- A place in a text. -/
structure Cursor where
  text : String := ""
  /-- The number of bytes before the cursor. -/
  position : Nat := 0

/-- Whether `literal` stands at the front of `cs` and the character after it, if
    there is one, satisfies `stop`. -/
def occursAt (literal : List Char) (stop : Char → Bool) (cs : List Char) : Bool :=
  literal.isPrefixOf cs && (cs.drop literal.length).head?.all stop

/-- A literal occurs if the characters are the literal, or go on behind it with one that
    stops. -/
theorem occursAt_iff {literal cs : List Char} {stop : Char → Bool} :
    occursAt literal stop cs = true ↔
      cs = literal ∨ ∃ x more, cs = literal ++ x :: more ∧ stop x = true := by
  rw [occursAt, Bool.and_eq_true, List.isPrefixOf_iff_prefix]
  constructor
  · rintro ⟨⟨behind, rfl⟩, hstop⟩
    rw [List.drop_left] at hstop
    cases behind with
    | nil => exact .inl (List.append_nil _)
    | cons x more => exact .inr ⟨x, more, rfl, hstop⟩
  · rintro (rfl | ⟨x, more, rfl, hstop⟩)
    · exact ⟨List.prefix_refl _, by rw [List.drop_length]; rfl⟩
    · exact ⟨List.prefix_append _ _, by rw [List.drop_left]; exact hstop⟩

namespace Cursor

/-- The cursor at the start of `text`. -/
def ofString (text : String) : Cursor := { text }

/-- Whether the cursor stands at the end. -/
def done (c : Cursor) : Bool := c.text.utf8ByteSize ≤ c.position

/-- The text behind the cursor; there is none if it stands inside a character. -/
def rest? (c : Cursor) : Option String := (cut? c.position c.text).map Prod.snd

/-- The character after the cursor. -/
def peek? (c : Cursor) : Option Char := c.rest?.bind (·.toList.head?)

/-- The cursor `n` characters further on, or at the end. -/
def advance : Nat → Cursor → Cursor
  | 0, c => c
  | n + 1, c =>
    match c.peek? with
    | some x => advance n { c with position := c.position + x.utf8Size }
    | none => c

/-- The cursor at the last boundary that has at most `n` bytes before it. -/
def seek (n : Nat) (c : Cursor) : Cursor :=
  { c with position := floor c.text (min n c.text.utf8ByteSize) }

/-- The longest run of characters after the cursor that satisfy `p`, and the
    cursor behind it. -/
def takeWhile (p : Char → Bool) (c : Cursor) : List Char × Cursor :=
  let rest := c.rest?.getD ""
  -- The run is cut off by its size, which is where the first other character stands.
  let size := (bytesBefore? (!p ·) rest.toList).getD rest.utf8ByteSize
  let run := ((cut? size rest).map Prod.fst).getD ""
  (run.toList, { c with position := c.position + size })

/-- Whether `literal` follows the cursor and is itself followed by the end or by
    a character that satisfies `stop`. -/
def occurs (literal : List Char) (stop : Char → Bool) (c : Cursor) : Bool :=
  c.rest?.any fun rest => occursAt literal stop rest.toList

theorem text_advance (n : Nat) (c : Cursor) : (c.advance n).text = c.text := by
  fun_induction advance n c with
  | case1 => rfl
  | case2 n c x hx ih => exact ih
  | case3 => rfl

theorem text_seek (n : Nat) (c : Cursor) : (c.seek n).text = c.text := rfl

theorem text_takeWhile (p : Char → Bool) (c : Cursor) : (c.takeWhile p).2.text = c.text := rfl

end Cursor

end Formula.Text
