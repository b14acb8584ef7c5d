/-!
# Lines

A text is cut into lines behind each line feed; what stands behind the last one,
if anything does, is a line, too.
-/

namespace Formula.Text

/-- The lines of a text, each with the line feed that ends it. -/
def lines : List Char → List (List Char)
  | [] => []
  | c :: cs =>
    if c = '\n' then [c] :: lines cs
    else match lines cs with
      | [] => [[c]]
      | l :: ls => (c :: l) :: ls

/-- The number of line feeds in a text. -/
def breaks (s : String) : Nat := s.toList.count '\n'

theorem flatten_lines (cs : List Char) : (lines cs).flatten = cs := by
  fun_induction lines cs <;> simp_all

/-! ## What ends with a line feed -/

variable {cs ds : List Char}

theorem lines_ne_nil (h : cs ≠ []) : lines cs ≠ [] := fun he =>
  h (by rw [← flatten_lines cs, he, List.flatten_nil])

/-- Lines begin anew behind a line feed. -/
theorem lines_append (cs ds : List Char) :
    lines (cs ++ '\n' :: ds) = lines (cs ++ ['\n']) ++ lines ds := by
  induction cs with
  | nil => simp [lines]
  | cons c cs ih =>
    rw [List.cons_append, lines, List.cons_append, lines, ih]
    split
    · rfl
    · have hne : lines (cs ++ ['\n']) ≠ [] := lines_ne_nil (by simp)
      obtain ⟨l, ls, hls⟩ := List.exists_cons_of_ne_nil hne
      rw [hls]
      rfl

/-- There is a line more than there are line feeds before the last one. -/
theorem length_lines (cs : List Char) :
    (lines (cs ++ ['\n'])).length = cs.count '\n' + 1 := by
  induction cs with
  | nil => rfl
  | cons c cs ih =>
    rw [List.cons_append, lines]
    split
    · next hc => rw [hc, List.length_cons, ih, List.count_cons_self]
    · next hc =>
      have hne : lines (cs ++ ['\n']) ≠ [] := lines_ne_nil (by simp)
      obtain ⟨l, ls, hls⟩ := List.exists_cons_of_ne_nil hne
      rw [hls] at ih ⊢
      rw [List.count_cons_of_ne hc, ← ih]
      rfl

/-- What has no line feed is on one line. -/
theorem exists_lines_append (hne : cs ≠ []) (hcs : '\n' ∉ cs) (ds : List Char) :
    ∃ line rest, lines (cs ++ ds) = line :: rest ∧ cs <+: line := by
  induction cs with
  | nil => exact absurd rfl hne
  | cons c cs ih =>
    obtain ⟨hc, hcs⟩ := not_or.1 (mt List.mem_cons.2 hcs)
    rw [List.cons_append, lines, if_neg (Ne.symm hc)]
    rcases cs with _ | ⟨d, cs⟩
    · cases lines ([] ++ ds) with
      | nil => exact ⟨[c], [], rfl, List.prefix_refl _⟩
      | cons l ls => exact ⟨c :: l, ls, rfl, by simp⟩
    · obtain ⟨l, ls, hls, hprefix⟩ := ih (List.cons_ne_nil _ _) hcs
      rw [hls]
      exact ⟨c :: l, ls, rfl, List.cons_prefix_cons.2 ⟨rfl, hprefix⟩⟩

/-! ## What is written line by line -/

/-- Each of several texts that are ended with line feeds has lines of its own. -/
theorem lines_flatMap (chunks : List (List Char)) :
    lines (chunks.flatMap (· ++ ['\n'])) = chunks.flatMap fun cs => lines (cs ++ ['\n']) := by
  induction chunks with
  | nil => rfl
  | cons cs chunks ih =>
    rw [List.flatMap_cons, List.flatMap_cons, List.append_assoc, List.singleton_append,
      lines_append, ih]

end Formula.Text
