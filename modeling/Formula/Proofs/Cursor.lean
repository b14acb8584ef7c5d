import Formula.Text.Moves
import Mathlib.Data.List.TakeWhile
import Mathlib.Order.Bounds.Basic

/-!
# What can be relied on of a cursor

The position of a cursor is a number, and nothing but the moves themselves keeps it from
getting inside a character. They do: what a move adds to the position are the sizes of
characters that follow (`Between.add`), and where it goes back it goes to a boundary
(`isGreatest_seek`). So a cursor that stands between two parts of its text stays between two
parts of its text, whatever is done with it (`Between.moveAll`).

What each operation does there is told by the part behind the cursor (`Between.reliable`):
`advance` moves over as many characters of it as asked for, or as there are, `takeWhile`
takes its longest run, and `occurs` finds what it starts with. Both together are
`moveAll_reliable`.
-/

namespace Formula.Text.Cursor

variable {c : Cursor} {before run rest : String} {cs : List Char}

/-! ## Standing between two parts -/

/-- A cursor is between the parts that its text is cut into at its position. -/
theorem between_iff_cut? : c.Between before rest ↔ cut? c.position c.text = some (before, rest) :=
  ⟨fun h => cut?_eq_some_iff.2 ⟨h.text_eq, h.position_eq⟩,
    fun h => ⟨(cut?_eq_some_iff.1 h).1, (cut?_eq_some_iff.1 h).2⟩⟩

theorem between_ofString (text : String) : (ofString text).Between "" text :=
  ⟨String.empty_append.symm, rfl⟩

/-- A cursor is at a boundary of characters just if it is between two parts of its text. -/
theorem isBoundary_position_iff :
    IsBoundary c.text.toList c.position ↔ ∃ before rest, c.Between before rest := by
  rw [isBoundary_iff_exists_append]
  exact ⟨fun ⟨before, rest, htext, hposition⟩ => ⟨before, rest, htext, hposition⟩,
    fun ⟨before, rest, h⟩ => ⟨before, rest, h.text_eq, h.position_eq⟩⟩

namespace Between

/-- A cursor never goes past the end of its text. -/
theorem position_le (h : c.Between before rest) : c.position ≤ c.text.utf8ByteSize := by
  rw [h.position_eq, h.text_eq, String.utf8ByteSize_append]
  exact Nat.le_add_right _ _

/-- The rest of the text is what is behind the cursor. -/
theorem rest?_eq (h : c.Between before rest) : c.rest? = some rest := by
  rw [rest?, between_iff_cut?.1 h]
  rfl

/-- The next character is the first behind the cursor. -/
theorem peek?_eq (h : c.Between before rest) : c.peek? = rest.toList.head? := by
  rw [peek?, h.rest?_eq]
  rfl

/-- The cursor is done when there is nothing behind it. -/
theorem done_iff (h : c.Between before rest) : c.done = true ↔ rest = "" := by
  rw [done, decide_eq_true_eq, h.position_eq, h.text_eq, String.utf8ByteSize_append,
    ← String.utf8ByteSize_eq_zero_iff]
  omega

/-- A literal occurs where the text goes on with it and then ends or can stop. -/
theorem occurs_iff (h : c.Between before rest) (literal : List Char) (stop : Char → Bool) :
    c.occurs literal stop = true ↔ rest.toList = literal ∨
      ∃ x more, rest.toList = literal ++ x :: more ∧ stop x = true := by
  rw [occurs, h.rest?_eq]
  exact occursAt_iff

/-- The position behind what follows is further on by the size of that. -/
theorem add (h : c.Between before (run ++ rest)) :
    { c with position := c.position + run.utf8ByteSize : Cursor }.Between (before ++ run) rest where
  text_eq := h.text_eq.trans String.append_assoc.symm
  position_eq := by
    rw [String.utf8ByteSize_append]
    exact congrArg (· + run.utf8ByteSize) h.position_eq

/-! ## Moving on -/

/-- Advancing by some characters moves them from what is behind the cursor to what is before
    it, and no more than there are. -/
theorem advance (h : c.Between before (String.ofList cs)) (n : Nat) :
    (c.advance n).Between (before ++ String.ofList (cs.take n)) (String.ofList (cs.drop n)) := by
  induction n generalizing c before cs with
  | zero => simpa [Cursor.advance] using h
  | succ n ih =>
    have hpeek := h.peek?_eq
    rw [String.toList_ofList] at hpeek
    rw [Cursor.advance, hpeek]
    cases cs with
    | nil => simpa using h
    | cons x cs =>
      -- The first step leads behind `x`, and there are `n` more to go from there.
      have hadd : Between _ (before ++ String.singleton x) (String.ofList cs) :=
        add (by rwa [String.ofList_cons] at h)
      rw [String.utf8ByteSize_singleton] at hadd
      have hrun := ih hadd
      rwa [String.append_assoc, ← String.ofList_cons] at hrun

/-- Taking characters gives the longest run of the wanted ones, and moves behind it. -/
theorem takeWhile (h : c.Between before (String.ofList cs)) (p : Char → Bool) :
    (c.takeWhile p).1 = cs.takeWhile p ∧
      (c.takeWhile p).2.Between (before ++ String.ofList (cs.takeWhile p))
        (String.ofList (cs.dropWhile p)) := by
  have hcs : String.ofList cs = String.ofList (cs.takeWhile p) ++ String.ofList (cs.dropWhile p) := by
    rw [← String.ofList_append, List.takeWhile_append_dropWhile]
  have hsize : (bytesBefore? (!p ·) cs).getD (byteLength cs) =
      (String.ofList (cs.takeWhile p)).utf8ByteSize := by
    rw [getD_bytesBefore?, utf8ByteSize_ofList]
    simp only [Bool.not_not]
  -- The same size is cut off and added to the position.
  have hcut := cut?_eq_some_iff.2 ⟨hcs, hsize⟩
  have hadd := add (hcs ▸ h)
  rw [← hsize] at hadd
  simp only [Cursor.takeWhile, h.rest?_eq, Option.getD_some, String.toList_ofList,
    utf8ByteSize_ofList, hcut, Option.map_some]
  exact ⟨trivial, hadd⟩

end Between

/-! ## Going back -/

/-- Seeking ends at the last boundary that is not behind the wanted position nor behind the
    text. -/
theorem isGreatest_seek (c : Cursor) (n : Nat) :
    IsGreatest {b | IsBoundary c.text.toList b ∧ b ≤ min n c.text.utf8ByteSize}
      (c.seek n).position :=
  ⟨⟨isBoundary_floor _ _, floor_le _ _⟩, fun _ hb => hb.1.le_floor hb.2⟩

/-- One byte is not yet the first character. -/
example : (((ofString "µm").advance 1).seek 1).position = 0 := by decide

/-! ## All moves -/

/-- Only a replacement of the text changes it. -/
theorem text_move (c : Cursor) (m : Move) : (c.move m).text = m.textAfter c.text := by
  cases m with
  | restart text => rfl
  | clear => rfl
  | advance n => exact text_advance n c
  | seek n => exact text_seek n c
  | takeWhile p => exact text_takeWhile p c

theorem text_moveAll (c : Cursor) (moves : List Move) :
    (c.moveAll moves).text = moves.foldl Move.textAfter c.text := by
  induction moves generalizing c with
  | nil => rfl
  | cons m moves ih => exact (ih (c.move m)).trans (by rw [text_move]; rfl)

/-- A move leaves no cursor inside a character. -/
theorem Between.move (h : c.Between before rest) (m : Move) :
    ∃ before' rest', (c.move m).Between before' rest' := by
  rw [← String.ofList_toList (s := rest)] at h
  cases m with
  | restart text => exact ⟨_, _, between_ofString text⟩
  | clear => exact ⟨_, _, between_ofString ""⟩
  | advance n => exact ⟨_, _, h.advance n⟩
  | seek n => exact isBoundary_position_iff.1 (isGreatest_seek c n).1.1
  | takeWhile p => exact ⟨_, _, (h.takeWhile p).2⟩

/-- After all moves the cursor is between two parts again. -/
theorem Between.moveAll (h : c.Between before rest) (moves : List Move) :
    ∃ before' rest', (c.moveAll moves).Between before' rest' := by
  induction moves generalizing c before rest with
  | nil => exact ⟨before, rest, h⟩
  | cons m moves ih =>
    obtain ⟨before', rest', hmove⟩ := h.move m
    exact ih hmove

/-- What can be relied on of a cursor between two parts of its text. -/
structure Reliable (c : Cursor) (before rest : String) : Prop extends
    c.Between before rest where
  position_le : c.position ≤ c.text.utf8ByteSize
  isBoundary : IsBoundary c.text.toList c.position
  /-- The text behind the cursor can be cut off. -/
  rest?_eq : c.rest? = some rest
  peek?_eq : c.peek? = rest.toList.head?
  done_iff : c.done = true ↔ rest = ""
  restart (text : String) : (c.move (.restart text)).Between "" text
  clear : (c.move .clear).Between "" ""
  /-- The cursor moves over as many characters as it shall, or as there are. -/
  advance (n : Nat) :
    ∃ run rest', rest = run ++ rest' ∧ run.length = min n rest.length ∧
      (c.advance n).Between (before ++ run) rest'
  /-- It is put at the last boundary that is not behind the given place, or the end. -/
  seek (n : Nat) :
    (c.seek n).text = c.text ∧
      IsGreatest {b | IsBoundary c.text.toList b ∧ b ≤ min n c.text.utf8ByteSize}
        (c.seek n).position
  /-- The longest run is taken of what is behind the cursor, and lies between its positions. -/
  takeWhile (p : Char → Bool) :
    ∃ run rest', rest = run ++ rest' ∧ (c.takeWhile p).1 = run.toList ∧
      (c.takeWhile p).2.Between (before ++ run) rest' ∧ (∀ x ∈ run.toList, p x = true) ∧
      ∀ other, other <+: rest.toList → (∀ x ∈ other, p x = true) → other <+: run.toList
  /-- What occurs is all that is behind the cursor, or ends where a character stops it. -/
  occurs (literal : List Char) (stop : Char → Bool) :
    c.occurs literal stop = true ↔ rest.toList = literal ∨
      ∃ x more, rest.toList = literal ++ x :: more ∧ stop x = true

/-- Between two parts of its text, a cursor does what it promises: it tells where it is and
    what comes next, and every operation leaves it between two parts, those that the operation
    is described by. -/
theorem Between.reliable (h : c.Between before rest) : c.Reliable before rest where
  toBetween := h
  position_le := h.position_le
  isBoundary := isBoundary_position_iff.2 ⟨before, rest, h⟩
  rest?_eq := h.rest?_eq
  peek?_eq := h.peek?_eq
  done_iff := h.done_iff
  restart := between_ofString
  clear := between_ofString ""
  advance n := by
    rw [← String.ofList_toList (s := rest)] at h
    refine ⟨_, _, ?_, ?_, h.advance n⟩
    · rw [← String.ofList_append, List.take_append_drop, String.ofList_toList]
    · rw [String.length_ofList, List.length_take, String.length_toList]
  seek n := ⟨c.text_seek n, isGreatest_seek c n⟩
  takeWhile p := by
    rw [← String.ofList_toList (s := rest)] at h
    obtain ⟨hrun, hbetween⟩ := h.takeWhile p
    refine ⟨_, _, ?_, ?_, hbetween, ?_, ?_⟩
    · rw [← String.ofList_append, List.takeWhile_append_dropWhile, String.ofList_toList]
    · rw [hrun, String.toList_ofList]
    · rw [String.toList_ofList]
      exact fun x hx => List.mem_takeWhile_imp hx
    · rintro other ⟨more, hmore⟩ hp
      rw [String.toList_ofList, ← hmore, List.takeWhile_append_of_pos hp]
      exact List.prefix_append _ _
  occurs := h.occurs_iff

/-- Whatever is done with a cursor, it stands between two parts of the text that was given to
    it last, and from there every operation does what it should. This holds at every step of an
    advance, too, as the cursor is there after an advance by fewer characters. -/
theorem moveAll_reliable (text : String) (moves : List Move) :
    let c := (ofString text).moveAll moves
    c.text = moves.foldl Move.textAfter text ∧ ∃ before rest, c.Reliable before rest := by
  refine ⟨text_moveAll _ moves, ?_⟩
  obtain ⟨before, rest, h⟩ := (between_ofString text).moveAll moves
  exact ⟨before, rest, h.reliable⟩

end Formula.Text.Cursor
