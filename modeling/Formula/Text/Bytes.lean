/-!
# Lengths in bytes

A place in a text is given by the number of bytes before it in UTF-8, while
texts are read character by character. `byteLength` is the measure that links
the two: it is additive (`byteLength_append`) and agrees with the size of the
string (`utf8ByteSize_ofList`).

Not every number of bytes gives a place between two characters. A string can be
cut at the *boundaries* (`IsBoundary`), and only there (`cut?_eq_some_iff`); from
any other number of bytes, `floor` goes back to the last boundary.
-/

namespace Formula.Text

/-- The number of bytes that `cs` takes in UTF-8. -/
def byteLength (cs : List Char) : Nat :=
  cs.foldl (fun n c => n + c.utf8Size) 0

theorem foldl_add_utf8Size (cs : List Char) (n : Nat) :
    cs.foldl (fun n c => n + c.utf8Size) n = n + byteLength cs := by
  induction cs generalizing n with
  | nil => rfl
  | cons c cs ih =>
    rw [byteLength, List.foldl_cons, List.foldl_cons, ih, ih (0 + _), Nat.zero_add,
      Nat.add_assoc]

@[simp] theorem byteLength_nil : byteLength [] = 0 := rfl

@[simp] theorem byteLength_cons (c : Char) (cs : List Char) :
    byteLength (c :: cs) = c.utf8Size + byteLength cs := by
  rw [byteLength, List.foldl_cons, foldl_add_utf8Size, Nat.zero_add]

@[simp] theorem byteLength_append (cs ds : List Char) :
    byteLength (cs ++ ds) = byteLength cs + byteLength ds := by
  rw [byteLength, List.foldl_append, foldl_add_utf8Size]
  rfl

theorem utf8ByteSize_ofList (cs : List Char) :
    (String.ofList cs).utf8ByteSize = byteLength cs := by
  induction cs with
  | nil => rfl
  | cons c cs ih =>
    rw [String.ofList_cons, String.utf8ByteSize_append, byteLength_cons, ih,
      String.utf8ByteSize_singleton]

theorem byteLength_toList (s : String) : byteLength s.toList = s.utf8ByteSize := by
  rw [← utf8ByteSize_ofList, String.ofList_toList]

/-! ## Boundaries -/

/-- `o` bytes are the first characters of the text. -/
def IsBoundary (cs : List Char) (o : Nat) : Prop :=
  ∃ front behind, cs = front ++ behind ∧ o = byteLength front

/-- A boundary is where one part of the text ends and the other one begins. -/
theorem isBoundary_iff_exists_append {s : String} {o : Nat} :
    IsBoundary s.toList o ↔ ∃ front rest, s = front ++ rest ∧ o = front.utf8ByteSize := by
  constructor
  · rintro ⟨front, behind, hs, rfl⟩
    refine ⟨String.ofList front, String.ofList behind, ?_, (utf8ByteSize_ofList front).symm⟩
    rw [← String.ofList_append, ← hs, String.ofList_toList]
  · rintro ⟨front, rest, rfl, rfl⟩
    exact ⟨front.toList, rest.toList, String.toList_append, (byteLength_toList front).symm⟩

/-- The boundaries are the valid positions of the core library, which it tells from others by
    looking at a single byte. -/
theorem isBoundary_iff_isValid {s : String} {o : Nat} :
    IsBoundary s.toList o ↔ String.Pos.Raw.IsValid s ⟨o⟩ := by
  simp only [isBoundary_iff_exists_append, String.Pos.Raw.isValid_iff_exists_append,
    String.Pos.Raw.ext_iff, String.byteIdx_rawEndPos]

/-- The parts of `s` before and behind its first `n` bytes, if it has as many and they do not
    end inside a character. -/
def cut? (n : Nat) (s : String) : Option (String × String) :=
  if h : String.Pos.Raw.IsValid s ⟨n⟩ then
    let p := s.pos ⟨n⟩ h
    some ((s.sliceTo p).copy, (s.sliceFrom p).copy)
  else none

/-- A text is cut into two parts of which the first has so many bytes, if there are such
    parts. -/
theorem cut?_eq_some_iff {n : Nat} {s front rest : String} :
    cut? n s = some (front, rest) ↔ s = front ++ rest ∧ n = front.utf8ByteSize := by
  constructor
  · intro h
    rw [cut?] at h
    split at h
    · next hvalid =>
      obtain ⟨rfl, rfl⟩ := Prod.mk.inj (Option.some.inj h)
      have hsplits := (s.pos ⟨n⟩ hvalid).splits
      exact ⟨hsplits.eq_append, congrArg (·.byteIdx) hsplits.offset_eq_rawEndPos⟩
    · cases h
  · rintro ⟨hs, rfl⟩
    have hvalid : String.Pos.Raw.IsValid s ⟨front.utf8ByteSize⟩ :=
      isBoundary_iff_isValid.1 (isBoundary_iff_exists_append.2 ⟨front, rest, hs, rfl⟩)
    have hsplits : (s.pos ⟨front.utf8ByteSize⟩ hvalid).Splits front rest := ⟨hs, rfl⟩
    refine (dif_pos hvalid).trans (congrArg some (Prod.ext ?_ ?_))
    · exact hsplits.copy_sliceTo_eq
    · exact hsplits.copy_sliceFrom_eq

/-- The last boundary of `s` behind at most `n` bytes. -/
def floor (s : String) : Nat → Nat
  | 0 => 0
  | n + 1 => if String.Pos.Raw.IsValid s ⟨n + 1⟩ then n + 1 else floor s n

theorem isBoundary_floor (s : String) (n : Nat) : IsBoundary s.toList (floor s n) := by
  fun_induction floor s n with
  | case1 => exact ⟨[], s.toList, rfl, rfl⟩
  | case2 n hvalid => exact isBoundary_iff_isValid.2 hvalid
  | case3 n hvalid ih => exact ih

theorem floor_le (s : String) (n : Nat) : floor s n ≤ n := by
  fun_induction floor s n with
  | case1 => exact Nat.le_refl 0
  | case2 n hvalid => exact Nat.le_refl _
  | case3 n hvalid ih => exact Nat.le_succ_of_le ih

/-- No boundary lies between the floor of a place and the place. -/
theorem IsBoundary.le_floor {s : String} {b n : Nat} (hb : IsBoundary s.toList b) (h : b ≤ n) :
    b ≤ floor s n := by
  fun_induction floor s n with
  | case1 => exact h
  | case2 n hvalid => exact h
  | case3 n hvalid ih =>
    have hne : b ≠ n + 1 := fun he => hvalid (isBoundary_iff_isValid.1 (he ▸ hb))
    exact ih (Nat.le_of_lt_succ (Nat.lt_of_le_of_ne h hne))

/-- The number of bytes before the first character that satisfies `p`, if one does. -/
def bytesBefore? (p : Char → Bool) : List Char → Option Nat
  | [] => none
  | c :: cs => if p c then some 0 else (bytesBefore? p cs).map (c.utf8Size + ·)

/-- Before the first wanted character, or the end, are those that are unwanted. -/
theorem getD_bytesBefore? (p : Char → Bool) (cs : List Char) :
    (bytesBefore? p cs).getD (byteLength cs) = byteLength (cs.takeWhile (!p ·)) := by
  induction cs with
  | nil => rfl
  | cons c cs ih =>
    rw [bytesBefore?, List.takeWhile_cons]
    cases p c with
    | true => rfl
    | false =>
      rw [byteLength_cons]
      exact (Option.getD_map (c.utf8Size + ·) _ _).trans
        ((congrArg (c.utf8Size + ·) ih).trans (byteLength_cons c _).symm)

end Formula.Text
