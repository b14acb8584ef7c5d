import Formula.Host.Session
import Formula.Proofs.Assignment

/-!
# Cells and handles

A session agrees with what it should amount to, use by use (`Session.Agrees`): the names
have the cells that they should have, the handles hold theirs, and every cell has the value
that was written to it last and can be assigned to as it could when it was made.

So a name and all handles that hold its cell show the same value, until the name is defined
anew; from then on the name has another cell for good, and neither side sees what the other
writes (`Session.after_faithful`).
-/

namespace Formula

variable {τ : Type}

/-! ## Uses alone -/

namespace Table

variable {past : List Use} {u : Use} {name : String} {cell : Nat}

/-- A definition makes a cell, whatever is known. -/
theorem Use.Defines.makes (h : u.Defines name) (known : String → Bool) :
    u.makes known = some name := by
  cases u <;> first | exact h.elim | exact congrArg some h

/-- A name that has a cell gets another one only if it is defined anew. -/
theorem Use.makes_ne {known : String → Bool} (h : ¬ u.Defines name) (hknown : known name) :
    u.makes known ≠ some name := by
  cases u with
  | «variable» n v | constant n v => exact fun heq => h (Option.some.inj heq)
  | field object n v => exact fun heq => h (Option.some.inj heq)
  | set n v =>
    rw [makes]
    split
    · simp
    · rintro ⟨⟩
      contradiction
  | resolve r | write handle view v => simp [makes]

section Makes

variable (h : u.makes (fun n => (current past n).isSome) = some name)

include h

theorem made_cons_of_makes : made (u :: past) = made past + 1 := by
  rw [made, h]
  rfl

/-- The name of the cell that is made stands for it from now on, and other names for what they
    stood for. -/
theorem current_cons_of_makes (n : String) :
    current (u :: past) n = if n = name then some (made past) else current past n := by
  simp only [current, h, Option.some.injEq, eq_comm]

/-- The cell that is made is writable if it was defined so; the others are what they were. -/
theorem assignable_cons_of_makes (k : Nat) :
    assignable (u :: past) k = if k = made past then u.isWritable else assignable past k := by
  simp only [assignable, h, Option.isSome_some, true_and]

end Makes

section MakesNone

variable (h : u.makes (fun n => (current past n).isSome) = none)

include h

theorem made_cons_of_none : made (u :: past) = made past := by
  rw [made, h]
  rfl

theorem current_cons_of_none (n : String) : current (u :: past) n = current past n := by
  simp only [current, h, reduceCtorEq, if_false]

theorem assignable_cons_of_none (k : Nat) : assignable (u :: past) k = assignable past k := by
  simp only [assignable, h, Option.isSome_none, Bool.false_eq_true, false_and, if_false]

end MakesNone

/-- What is written is what its cell holds. -/
theorem lastWritten_cons_of_written {c : Nat} {v : Value} (h : u.written past = some (c, v))
    (k : Nat) : lastWritten (u :: past) k = if c = k then some v else lastWritten past k := by
  simp only [lastWritten, h]

/-- If nothing is written the cells hold what they held. -/
theorem lastWritten_cons_of_none (h : u.written past = none) (k : Nat) :
    lastWritten (u :: past) k = lastWritten past k := by
  simp only [lastWritten, h]

theorem made_le_cons (u : Use) (past : List Use) : made past ≤ made (u :: past) := by
  rw [made]
  split
  · exact Nat.le_succ _
  · exact Nat.le_refl _

/-- Cells are made and never taken back. -/
theorem made_le_append (more past : List Use) : made past ≤ made (more ++ past) := by
  induction more with
  | nil => exact Nat.le_refl _
  | cons u more ih => exact Nat.le_trans ih (made_le_cons u _)

/-- A name stands for a cell that has been made. -/
theorem current_lt (h : current past name = some cell) : cell < made past := by
  induction past with
  | nil => cases h
  | cons u past ih =>
    rw [current] at h
    split at h
    · rename_i hmakes
      cases h
      rw [made_cons_of_makes hmakes]
      exact Nat.lt_succ_self _
    · exact Nat.lt_of_lt_of_le (ih h) (made_le_cons u past)

/-- A handle holds a cell that has been made. -/
theorem held_lt {handle : Nat} (h : held past handle = some cell) : cell < made past := by
  induction past with
  | nil => cases h
  | cons u past ih =>
    refine Nat.lt_of_lt_of_le ?_ (made_le_cons u past)
    cases u with
    | resolve r =>
      rw [held] at h
      split at h
      · exact current_lt h
      · exact ih h
    | _ => exact ih h

/-! ## What becomes of a cell -/

/-- A name stands for its cell until it is defined again. -/
theorem current_cons_of_not_defines (h : current past name = some cell) (hu : ¬ u.Defines name) :
    current (u :: past) name = some cell := by
  rw [current, if_neg (Use.makes_ne hu (by rw [h]; rfl)), h]

/-- A name that is defined stands for a new cell. -/
theorem current_cons_of_defines (hu : u.Defines name) :
    current (u :: past) name = some (made past) := by
  rw [current, if_pos (hu.makes _)]

/-- A name keeps its cell until it is defined anew. -/
theorem current_append_of_not_defines (h : current past name = some cell) {more : List Use}
    (hmore : ∀ u ∈ more, ¬ u.Defines name) : current (more ++ past) name = some cell := by
  induction more with
  | nil => exact h
  | cons u more ih =>
    obtain ⟨hu, hmore⟩ := List.forall_mem_cons.1 hmore
    exact current_cons_of_not_defines (ih hmore) hu

/-- A name that is defined anew never has its old cell again. -/
theorem current_append_of_defines (h : current past name = some cell) {more : List Use}
    (hmore : ∃ u ∈ more, u.Defines name) :
    ∃ c, current (more ++ past) name = some c ∧ cell < c := by
  induction more with
  | nil =>
    obtain ⟨u, hu, _⟩ := hmore
    cases hu
  | cons u more ih =>
    by_cases hu : u.Defines name
    · exact ⟨_, current_cons_of_defines hu,
        Nat.lt_of_lt_of_le (current_lt h) (made_le_append ..)⟩
    · obtain ⟨v, hv, hdefines⟩ := hmore
      rcases List.mem_cons.1 hv with rfl | hv
      · exact absurd hdefines hu
      · obtain ⟨c, hc, hlt⟩ := ih ⟨v, hv, hdefines⟩
        exact ⟨c, current_cons_of_not_defines hc hu, hlt⟩

theorem resolved_le_append (more past : List Use) : resolved past ≤ resolved (more ++ past) := by
  induction more with
  | nil => exact Nat.le_refl _
  | cons u more ih =>
    cases u with
    | resolve r => exact Nat.le_succ_of_le ih
    | _ => exact ih

/-- A handle goes on holding the cell that its reference had when it was looked up. -/
theorem held_append (more past : List Use) (r : Reference) :
    held (more ++ .resolve r :: past) (resolved past) = current past r.text := by
  induction more with
  | nil => exact if_pos rfl
  | cons u more ih =>
    cases u with
    | resolve r' =>
      -- The handles that are looked up later have greater numbers.
      have hlt := resolved_le_append more (.resolve r :: past)
      rw [List.cons_append, held, if_neg (Nat.ne_of_lt hlt), ih]
    | _ => exact ih

/-- Whether a cell can be assigned to never changes. -/
theorem assignable_append (more : List Use) (h : cell < made past) :
    assignable (more ++ past) cell = assignable past cell := by
  induction more with
  | nil => rfl
  | cons u more ih =>
    have hne : cell ≠ made (more ++ past) := Nat.ne_of_lt (Nat.lt_of_lt_of_le h (made_le_append ..))
    rw [List.cons_append, assignable, if_neg (fun hmade => hne hmade.2), ih]

end Table

/-! ## Sessions -/

open Table

/-- The session is what the uses should amount to. -/
structure Session.Agrees (s : Session τ) (past : List Use) : Prop where
  place (name : String) : s.table.place? name = current past name
  made : s.table.store.cells.size = made past
  resolved : s.handles.length = resolved past
  handle (h : Nat) : s.handle? h = (held past h).map Variable.cell
  cell (k : Nat) :
    s.table.store.cells[k]? = (lastWritten past k).map fun v => ⟨v, assignable past k⟩

namespace Session

variable {s : Session τ} {past : List Use}

/-- Each cell that has been made is there, with what was written last and with whether it is
    writable. -/
theorem Agrees.exists_cell (h : s.Agrees past) {k : Nat} (hk : k < Table.made past) :
    ∃ v, lastWritten past k = some v ∧
      s.table.store.cells[k]? = some ⟨v, assignable past k⟩ := by
  have hlt : k < s.table.store.cells.size := h.made ▸ hk
  have hc := h.cell k
  rw [Array.getElem?_eq_getElem hlt] at hc ⊢
  obtain ⟨v, hv, hcell⟩ := Option.map_eq_some_iff.1 hc.symm
  exact ⟨v, hv, congrArg some hcell.symm⟩

/-- A cell is writable if it was defined so. -/
theorem Agrees.writable (h : s.Agrees past) {k : Nat} (hk : k < Table.made past) :
    s.table.store.writable k = assignable past k := by
  obtain ⟨v, _, hv⟩ := h.exists_cell hk
  simp [Store.writable, hv]

/-- A use that makes a cell, for a name, with the value that it writes. -/
theorem Agrees.define (h : s.Agrees past) (u : Use) {name : String} {v : Value}
    (hmakes : u.makes (fun n => (current past n).isSome) = some name)
    (hwritten : u.written past = some (Table.made past, v))
    (hresolved : Table.resolved (u :: past) = Table.resolved past)
    (hheld : ∀ i, held (u :: past) i = held past i) :
    Agrees { s with table := s.table.define name v u.isWritable } (u :: past) where
  place n := by
    rw [current_cons_of_makes hmakes, ← h.made, ← h.place]
    exact Table.place?_define ..
  made := by
    rw [made_cons_of_makes hmakes, ← h.made]
    exact Array.size_push _
  resolved := h.resolved.trans hresolved.symm
  handle i := by
    rw [hheld]
    exact h.handle i
  cell k := by
    rw [lastWritten_cons_of_written hwritten, assignable_cons_of_makes hmakes]
    show (s.table.store.cells.push _)[k]? = _
    rw [Array.getElem?_push, h.made, h.cell]
    by_cases hk : k = Table.made past
    · simp [hk]
    · simp [hk, Ne.symm hk]

/-- A use that writes to a cell that there is. -/
theorem Agrees.replace (h : s.Agrees past) (u : Use) {cell : Nat} {v : Value}
    (hmakes : u.makes (fun n => (current past n).isSome) = none)
    (hwritten : u.written past = some (cell, v)) (hcell : cell < Table.made past)
    (hresolved : Table.resolved (u :: past) = Table.resolved past)
    (hheld : ∀ i, held (u :: past) i = held past i) :
    Agrees { s with table.store := s.table.store.replace cell v } (u :: past) where
  place n := by
    rw [current_cons_of_none hmakes]
    exact h.place n
  made := by
    rw [made_cons_of_none hmakes, ← h.made]
    exact Array.size_modify
  resolved := h.resolved.trans hresolved.symm
  handle i := by
    rw [hheld]
    exact h.handle i
  cell k := by
    rw [lastWritten_cons_of_written hwritten, assignable_cons_of_none hmakes]
    by_cases hk : cell = k
    · subst hk
      obtain ⟨w, _, hw⟩ := h.exists_cell hcell
      show (s.table.store.replace cell v).cells[cell]? = _
      simp [Store.replace, Array.getElem?_modify, hw]
    · show (s.table.store.replace cell v).cells[k]? = _
      rw [Store.getElem?_replace _ _ _ (Ne.symm hk), h.cell, if_neg hk]

/-- A use that writes nothing. -/
theorem Agrees.same (h : s.Agrees past) (u : Use)
    (hmakes : u.makes (fun n => (current past n).isSome) = none)
    (hwritten : u.written past = none)
    (hresolved : Table.resolved (u :: past) = Table.resolved past)
    (hheld : ∀ i, held (u :: past) i = held past i) : s.Agrees (u :: past) where
  place n := by rw [current_cons_of_none hmakes, h.place]
  made := by rw [made_cons_of_none hmakes, h.made]
  resolved := h.resolved.trans hresolved.symm
  handle i := by rw [hheld, h.handle]
  cell k := by rw [lastWritten_cons_of_none hwritten, assignable_cons_of_none hmakes, h.cell]

/-- A use that looks something up. -/
theorem Agrees.resolve (h : s.Agrees past) (r : Reference) :
    (s.use (.resolve r)).Agrees (.resolve r :: past) where
  place n := by
    rw [current_cons_of_none rfl]
    exact h.place n
  made := h.made
  resolved := by
    rw [Table.resolved, ← h.resolved]
    exact List.length_append
  handle i := by
    have hnew : s.table.host.reference? r = (current past r.text).map Variable.cell := by
      rw [← h.place]
      rfl
    rw [held, ← h.resolved]
    show ((s.handles ++ [s.table.host.reference? r])[i]?).join = _
    split
    · rename_i hi
      rw [hi, List.getElem?_concat_length, hnew]
      rfl
    · rename_i hi
      rw [← h.handle, handle?]
      rcases Nat.lt_or_gt_of_ne hi with hi | hi
      · rw [List.getElem?_append_left hi]
      · rw [List.getElem?_eq_none (by simp; omega), List.getElem?_eq_none (Nat.le_of_lt hi)]
  cell k := by
    rw [lastWritten_cons_of_none rfl, assignable_cons_of_none rfl]
    exact h.cell k

/-- What a use makes of a session is what it should amount to. -/
theorem Agrees.use (h : s.Agrees past) (u : Use) : (s.use u).Agrees (u :: past) := by
  cases u with
  | «variable» name v => exact h.define (.variable name v) rfl rfl rfl fun _ => rfl
  | constant name v => exact h.define (.constant name v) rfl rfl rfl fun _ => rfl
  | field object name v => exact h.define (.field object name v) rfl rfl rfl fun _ => rfl
  | set name v =>
    have hplace := h.place name
    rw [Session.use, Table.set]
    rcases hc : current past name with _ | cell <;> rw [hc] at hplace <;> simp only [hplace]
    · exact h.define (.set name v) (by simp [Use.makes, hc]) (by simp [Use.written, hc]) rfl
        fun _ => rfl
    · exact h.replace (.set name v) (by simp [Use.makes, hc]) (by simp [Use.written, hc])
        (current_lt hc) rfl fun _ => rfl
  | resolve r => exact h.resolve r
  | write i view v =>
    have hhandle := h.handle i
    rw [Session.use]
    rcases hi : held past i with _ | cell <;> rw [hi] at hhandle <;> simp only [hhandle]
    · exact h.same (.write i view v) rfl (by simp [Use.written, hi]) rfl fun _ => rfl
    · -- A refused write leaves the store as it is.
      simp only [Option.map_some, Variable.cell, h.writable (held_lt hi)]
      by_cases ha : assignable past cell
      · rw [if_pos ha]
        exact h.replace (.write i view v) rfl (by simp [Use.written, hi, ha]) (held_lt hi) rfl
          fun _ => rfl
      · rw [if_neg ha]
        exact h.same (.write i view v) rfl (by simp [Use.written, hi, ha]) rfl fun _ => rfl

/-- However a table is used, it is what its uses should amount to. -/
theorem agrees_after (functions : List (String × Function (Store τ))) (units : UnitTable)
    (own : τ) (history : List Use) : (after functions units own history).Agrees history := by
  induction history with
  | nil => exact ⟨fun _ => rfl, rfl, rfl, fun _ => rfl, fun _ => rfl⟩
  | cons u past ih => exact ih.use u

/-! ## What is read and written -/

/-- The value of a name is what was written last to the cell it stands for. -/
theorem Agrees.value?_name (h : s.Agrees past) (name : String) :
    s.table.value? name = (current past name).bind (lastWritten past) := by
  rw [Table.value?, h.place]
  rcases hc : current past name with _ | cell
  · rfl
  · obtain ⟨v, hv, hcell⟩ := h.exists_cell (current_lt hc)
    simp [Store.value, hcell, hv]

/-- The value of a handle is what was written last to the cell it was given for, be it that of
    its name or not. -/
theorem Agrees.value?_handle (h : s.Agrees past) (i : Nat) (view : View) :
    s.value? i view = (held past i).bind (lastWritten past) := by
  rw [Session.value?, h.handle]
  rcases hi : held past i with _ | cell
  · rfl
  · obtain ⟨v, hv, hcell⟩ := h.exists_cell (held_lt hi)
    simp [Variable.cell, Store.value, hcell, hv]

/-- What is read, and whether what is written is taken, is as the uses say. -/
structure Faithful (s : Session τ) (history : List Use) : Prop where
  /-- The value of a name is what was written last to its cell. -/
  name (n : String) : s.table.value? n = (current history n).bind (lastWritten history)
  /-- A handle shows what was written last to the cell that it holds. -/
  handle (i : Nat) (view : View) : s.value? i view = (held history i).bind (lastWritten history)
  /-- A handle that is looked up now shows the value of the name. -/
  resolve (r : Reference) (view : View) :
    (s.use (.resolve r)).value? s.handles.length view = s.table.value? r.text
  /-- Reading changes nothing. -/
  read {i : Nat} {x : Variable (Store τ)} (hx : s.handle? i = some x) (view : View) :
    (x.read view s.table.store).2 = s.table.store
  /-- What is written to a handle is taken if the cell that it holds can be assigned to, and
      is refused and changes nothing if not. -/
  write {i : Nat} {x : Variable (Store τ)} (hx : s.handle? i = some x) (view : View) (v : Value) :
    ∃ cell, held history i = some cell ∧
      if assignable history cell then ∃ store, x.write view v s.table.store = .ok () store
      else x.write view v s.table.store = .error readOnlyReason s.table.store

/-- If a session is what its uses amount to, all that can be seen of it is: the values of names
    and handles, and what becomes of a value that is written. -/
theorem Agrees.faithful (h : s.Agrees past) : s.Faithful past where
  name := h.value?_name
  handle := h.value?_handle
  resolve r view := by
    have hwritten : lastWritten (.resolve r :: past) = lastWritten past :=
      funext fun k => lastWritten_cons_of_none rfl k
    have hheld : held (.resolve r :: past) (Table.resolved past) = current past r.text :=
      held_append [] past r
    rw [(h.resolve r).value?_handle, h.value?_name, h.resolved, hwritten, hheld]
  read hx view := by
    rw [h.handle] at hx
    obtain ⟨cell, _, rfl⟩ := Option.map_eq_some_iff.1 hx
    rfl
  write hx view v := by
    rw [h.handle] at hx
    obtain ⟨cell, hcell, rfl⟩ := Option.map_eq_some_iff.1 hx
    refine ⟨cell, hcell, ?_⟩
    simp only [Variable.cell, h.writable (held_lt hcell)]
    split
    · exact ⟨_, rfl⟩
    · rfl

/-- However a table is used, names and handles show what was written last to their cells,
    and whether a cell can be assigned to never changes. A handle holds the cell that its
    reference had when it was looked up: it and the name show the same until the name is
    defined anew, and from then on neither shows what is written to the other. -/
theorem after_faithful (functions : List (String × Function (Store τ))) (units : UnitTable)
    (own : τ) (history : List Use) :
    let s := after functions units own history
    s.Faithful history ∧
      (∀ more past cell, history = more ++ past → cell < Table.made past →
        assignable history cell = assignable past cell) ∧
      ∀ more past r, history = more ++ .resolve r :: past →
        held history (Table.resolved past) = current past r.text ∧
        ((current past r.text).isSome → (∀ u ∈ more, ¬ u.Defines r.text) →
          ∀ view, s.value? (Table.resolved past) view = s.table.value? r.text) ∧
        ((current past r.text).isSome → (∃ u ∈ more, u.Defines r.text) →
          ∀ view v,
            (s.use (.set r.text v)).value? (Table.resolved past) view =
              s.value? (Table.resolved past) view ∧
            (s.use (.write (Table.resolved past) view v)).table.value? r.text =
              s.table.value? r.text) := by
  intro s
  have h : s.Agrees history := agrees_after functions units own history
  refine ⟨h.faithful, ?_, ?_⟩
  · rintro more past cell rfl hcell
    exact assignable_append more hcell
  intro more past r hhistory
  have hheld : held history (Table.resolved past) = current past r.text :=
    hhistory ▸ held_append more past r
  have hcurrent : current (.resolve r :: past) r.text = current past r.text :=
    current_cons_of_none rfl _
  refine ⟨hheld, fun hsome hmore view => ?_, fun hsome hmore view v => ?_⟩ <;>
    obtain ⟨cell, hcell⟩ := Option.isSome_iff_exists.1 hsome
  · have hname : current history r.text = some cell :=
      hhistory ▸ current_append_of_not_defines (hcurrent.trans hcell) hmore
    rw [h.value?_handle, h.value?_name, hheld, hcell, hname]
  -- The name has another cell now.
  obtain ⟨c, hc, hlt⟩ : ∃ c, current history r.text = some c ∧ cell < c :=
    hhistory ▸ current_append_of_defines (hcurrent.trans hcell) hmore
  rw [hcell] at hheld
  constructor
  · have hset : held (.set r.text v :: history) (Table.resolved past) = some cell := hheld
    have hwritten : Use.written history (.set r.text v) = some (c, v) := by
      rw [Use.written, hc, Option.getD_some]
    rw [(h.use _).value?_handle, h.value?_handle, hset, hheld, Option.bind_some, Option.bind_some,
      lastWritten_cons_of_written hwritten, if_neg (Nat.ne_of_gt hlt)]
  · rw [(h.use _).value?_name, h.value?_name, current_cons_of_none rfl, hc, Option.bind_some,
      Option.bind_some]
    by_cases ha : assignable history cell
    · have hwritten : Use.written history (.write (Table.resolved past) view v) =
          some (cell, v) := by
        simp [Use.written, hheld, ha]
      rw [lastWritten_cons_of_written hwritten, if_neg (Nat.ne_of_lt hlt)]
    · exact lastWritten_cons_of_none (by simp [Use.written, hheld, ha]) c

/-- A handle holds the variable that `a` was before it became a constant. -/
example (view : View) :
    let s : Session Unit := after [] {} () [.write 0 view (.text "y"), .set "a" (.text "x"),
      .constant "a" .undefined, .resolve (.name "a"), .variable "a" .undefined]
    s.value? 0 view = some (.text "y") ∧ s.table.value? "a" = some (.text "x") :=
  ⟨rfl, rfl⟩

end Session

end Formula
