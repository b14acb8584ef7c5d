import Formula.Proofs.Alike
import Formula.Proofs.CommandLine.Options
import Formula.Proofs.Units

/-!
# What the command line defines

A variable of the command line gets a new cell, or its value is written to the one that its name
has (`withDefinition_cases`). Which of these it is depends on whether there is a point in the name;
but as no cell of a table belongs to two names, either way the cell of the name has the value
then, and the other names have the cells that they had (`cell?_withDefinition`).

* After all options every name has the value that was given last (`cell?_table`), and the units
  are those of length, overridden by the options in their order (`units_table`).
* A command line, as it is written, is read, and the host that it describes has the variables
  and units that its definitions say (`read_reflects`).
-/

namespace Formula

/-! ## Names -/

namespace Table

variable {τ : Type} {t : Table τ}

/-- A name that is assigned again keeps its position. -/
theorem map_fst_assign (names : List (String × Nat)) (name : String) (place : Nat) :
    (assign names name place).map Prod.fst =
      if name ∈ names.map Prod.fst then names.map Prod.fst
      else names.map Prod.fst ++ [name] := by
  induction names with
  | nil => rfl
  | cons entry names ih =>
    obtain ⟨m, p⟩ := entry
    by_cases hm : m = name
    · simp [assign, hm]
    · rw [assign, if_neg hm, List.map_cons, ih, List.map_cons]
      by_cases hname : name ∈ names.map Prod.fst
      · rw [if_pos hname, if_pos (List.mem_cons_of_mem _ hname)]
      · rw [if_neg hname, if_neg (List.not_mem_cons_of_ne_of_not_mem (Ne.symm hm) hname)]
        rfl

/-- No table has a name twice. -/
theorem Built.nodup_names (h : t.Built) : (t.names.map Prod.fst).Nodup := by
  induction h with
  | empty => exact .nil
  | @define t name v writable _ ih =>
    show ((assign t.names name _).map Prod.fst).Nodup
    rw [map_fst_assign]
    split
    · exact ih
    · next hnew =>
      rw [← List.concat_eq_append]
      exact List.Nodup.concat hnew ih
  | functions _ _ ih | units _ _ ih | store _ _ _ ih => exact ih

/-- A name without a place is one without a cell. -/
theorem Built.place?_eq_none_iff (h : t.Built) {name : String} :
    t.place? name = none ↔ t.cell? name = none := by
  constructor
  · intro hplace
    rw [cell?, hplace]
    rfl
  · intro hcell
    rcases hplace : t.place? name with _ | place
    · rfl
    · obtain ⟨c, hc⟩ := h.cell?_of_place? hplace
      rw [hc] at hcell
      cases hcell

/-! ## Cells -/

/-- A definition gives the name a cell of its own and leaves the others. -/
theorem Built.cell?_define (h : t.Built) (name : String) (v : Value) (writable : Bool)
    (n : String) :
    (t.define name v writable).cell? n = if n = name then some ⟨v, writable⟩ else t.cell? n := by
  rw [cell?, place?_define]
  show Option.bind _ (fun place => (t.store.cells.push ⟨v, writable⟩)[place]?) = _
  by_cases hn : n = name
  · rw [if_pos hn, if_pos hn, Option.bind_some, Array.getElem?_push_size]
  · rw [if_neg hn, if_neg hn, cell?]
    refine Option.bind_congr fun place hplace => ?_
    rw [Array.getElem?_push, if_neg (Nat.ne_of_lt (h.place_lt hplace))]

/-- What is written to the cell of a name does not show under another one. -/
theorem Built.cell?_replace (h : t.Built) {name : String} {place : Nat}
    (hplace : t.place? name = some place) (v : Value) (n : String) :
    { t with store := t.store.replace place v }.cell? n =
      if n = name then (t.cell? n).map fun c => { c with value := v } else t.cell? n := by
  show Option.bind (t.place? n) (fun other => (t.store.replace place v).cells[other]?) = _
  by_cases hn : n = name
  · rw [if_pos hn, cell?, hn, hplace, Option.bind_some, Option.bind_some, Store.replace,
      Array.getElem?_modify, if_pos rfl]
  · rw [if_neg hn, cell?]
    refine Option.bind_congr fun other hother => t.store.getElem?_replace place v fun heq => ?_
    rw [heq] at hother
    exact hn (h.place_inj hother hplace)

end Table

namespace CommandLine

open Text (trim)

variable {t : Table Unit}

/-- What a variable of the command line does to a table: a new cell is made for the name, or the
    one that it has is written to. -/
theorem withDefinition_cases (t : Table Unit) (name : String) (v : Value) :
    withDefinition t name v = t.define name v true ∨
      ∃ place, t.place? name = some place ∧
        withDefinition t name v = { t with store := t.store.replace place v } := by
  rw [withDefinition]
  rcases hsplit : splitAt? '.' name.toList with _ | ⟨object, field⟩
  · simp only [Table.set]
    rcases hplace : t.place? name with _ | place
    · exact .inl rfl
    · exact .inr ⟨place, rfl, rfl⟩
  · -- The key of the field is the name again, whatever points there are behind the first one.
    have hname : (Reference.field (String.ofList object) (String.ofList field)).text = name := by
      apply String.toList_injective
      rw [(splitAt?_eq_some_iff.1 hsplit).1]
      simp [Reference.text, String.toList_append]
    exact .inl (congrArg (t.define · v true) hname)

theorem built_withDefinition (h : t.Built) (name : String) (v : Value) :
    (withDefinition t name v).Built := by
  rcases withDefinition_cases t name v with heq | ⟨place, -, heq⟩
  · rw [heq]
    exact h.define name v true
  · rw [heq]
    exact h.store _ (Nat.le_of_eq (Array.size_modify ..).symm)

theorem units_withDefinition (t : Table Unit) (name : String) (v : Value) :
    (withDefinition t name v).units = t.units := by
  rcases withDefinition_cases t name v with heq | ⟨place, -, heq⟩
  · rw [heq, Table.define]
  · rw [heq]

/-- Behind it the cell of the name has the value, and the other names have their cells. -/
theorem cell?_withDefinition (h : t.Built) {name : String}
    (hwritable : ∀ c, t.cell? name = some c → c.writable = true) (v : Value) (n : String) :
    (withDefinition t name v).cell? n = if n = name then some ⟨v, true⟩ else t.cell? n := by
  rcases withDefinition_cases t name v with heq | ⟨place, hplace, heq⟩
  · rw [heq, h.cell?_define]
  · rw [heq, h.cell?_replace hplace]
    obtain ⟨c, hc⟩ := h.cell?_of_place? hplace
    by_cases hn : n = name
    · rw [if_pos hn, if_pos hn, hn, hc, Option.map_some, hwritable c hc]
    · rw [if_neg hn, if_neg hn]

/-- Variables one after the other: every name has a cell with the value that was given last, and
    no other name has one. -/
theorem foldl_withDefinition (units : UnitTable) (given : List (String × Value)) :
    let t : Table Unit := given.foldl (fun t (name, v) => withDefinition t name v)
      { units, store := { own := () } }
    t.Built ∧ t.units = units ∧
      ∀ name, t.cell? name = (given.reverse.lookup name).map fun v => ⟨v, true⟩ := by
  induction given using List.reverseRecOn with
  | nil => exact ⟨.units units (.empty ()), rfl, fun _ => rfl⟩
  | append_singleton given e ih =>
    obtain ⟨name, v⟩ := e
    intro t
    obtain ⟨hbuilt, hunits, hcell⟩ := ih
    simp only [t, List.foldl_append]
    generalize given.foldl _ _ = t at hbuilt hunits hcell ⊢
    refine ⟨built_withDefinition hbuilt name v, (units_withDefinition t name v).trans hunits,
      fun n => ?_⟩
    -- Until here only cells that can be assigned to have been made.
    have hwritable : ∀ c, t.cell? name = some c → c.writable = true := by
      intro c hc
      rw [hcell] at hc
      obtain ⟨w, -, rfl⟩ := Option.map_eq_some_iff.1 hc
      rfl
    refine (cell?_withDefinition hbuilt hwritable v n).trans ?_
    rw [hcell, List.reverse_append]
    show _ = (List.lookup n ((name, v) :: given.reverse)).map _
    rw [Table.lookup_cons_eq]
    split
    · rfl
    · rfl

section Options

variable (o : Options)

theorem built_table : o.table.Built := (foldl_withDefinition _ o.definitions).1

/-- The units are those of length, overridden by the options. -/
theorem units_table :
    o.table.units =
      UnitTable.ofList ([("mm", 1.0), ("mil", 0.0254), ("in", 25.4)] ++ o.units) := by
  rw [UnitTable.ofList, List.foldl_append]
  exact (foldl_withDefinition _ o.definitions).2.1

/-- Every name has a cell with the value that was given last, and no other name has one. -/
theorem cell?_table (name : String) :
    o.table.cell? name = (o.definitions.reverse.lookup name).map fun v => ⟨v, true⟩ :=
  (foldl_withDefinition _ o.definitions).2.2 name

/-- The names of the table are those that are defined. -/
theorem mem_names_table {name : String} :
    name ∈ o.table.names.map Prod.fst ↔ name ∈ o.definitions.map Prod.fst := by
  rw [← not_iff_not, ← UnitTable.lookup_eq_none_iff]
  show o.table.place? name = none ↔ _
  rw [(built_table o).place?_eq_none_iff, cell?_table, Option.map_eq_none_iff,
    UnitTable.lookup_eq_none_iff, List.map_reverse, List.mem_reverse]

end Options

/-! ## All definitions -/

/-- The names that get values are those of variables. -/
theorem Definition.mem_values {ds : List Definition} {name : String} :
    name ∈ (values ds).map Prod.fst ↔ ∃ e, .var e ∈ ds ∧ e.key = name := by
  simp only [values, List.mem_map, List.mem_filterMap]
  constructor
  · rintro ⟨_, ⟨d, hd, hvalue⟩, rfl⟩
    cases d with
    | var e =>
      cases hvalue
      exact ⟨e, hd, rfl⟩
    | unit e factor reads => cases hvalue
  · rintro ⟨e, he, rfl⟩
    exact ⟨_, ⟨.var e, he, rfl⟩, rfl⟩

/-- The last definition of a variable tells its value. -/
theorem Definition.lookup_values {before behind : List Definition} {e : Equation}
    (hlast : ∀ e', .var e' ∈ behind → e'.key ≠ e.key) :
    (values (before ++ .var e :: behind)).reverse.lookup e.key =
      some (readValue (trim e.value.toList)) := by
  have hnone : (values behind).reverse.lookup e.key = none := by
    rw [UnitTable.lookup_eq_none_iff, List.map_reverse, List.mem_reverse, mem_values]
    exact fun ⟨e', he', hkey⟩ => hlast e' he' hkey
  have hvalues : values (before ++ .var e :: behind) =
      values before ++ (e.key, readValue (trim e.value.toList)) :: values behind :=
    List.filterMap_append
  rw [hvalues, List.reverse_append, List.reverse_cons, List.append_assoc, List.lookup_append,
    hnone, Option.none_or, List.singleton_append, Table.lookup_cons_eq, if_pos rfl]

variable {ds : List Definition}

/-- Options with these definitions, and no others, are what the host is made of. -/
theorem reflects_table {o : Options} (hvalues : o.definitions = Definition.values ds)
    (hfactors : o.units = Definition.factors ds) : o.table.Reflects ds where
  nodup_names := (built_table o).nodup_names
  mem_names name := by rw [mem_names_table, hvalues, Definition.mem_values]
  place_inj := (built_table o).place_inj
  cell := by
    intro before behind e hds hlast
    have hcell := cell?_table o e.key
    rw [hvalues, hds, Definition.lookup_values hlast] at hcell
    obtain ⟨place, hplace, hvalue⟩ := Option.bind_eq_some_iff.1 hcell
    have hreference {r : Reference} (hr : r.text = e.key) :
        o.table.host.reference? r = some (.cell place) :=
      congrArg (Option.map Variable.cell) ((congrArg o.table.place? hr).trans hplace)
    exact ⟨place, _, hplace, hvalue, means_readValue _, fun s hs => readValue_quoted hs,
      fun object field hkey => hreference hkey.symm, fun _ => hreference rfl⟩
  unit_names := by
    show o.table.units.names = _
    rw [units_table, hfactors, UnitTable.names_ofList, List.map_append, List.eraseDups_append]
    refine congrArg (["mm", "mil", "in"] ++ List.eraseDups ·) (List.filter_congr fun name _ => ?_)
    simp
  factor := by
    intro i name hname
    change o.table.units.names[i]? = some name at hname
    rw [units_table, hfactors] at hname ⊢
    exact UnitTable.getElem?_entries_ofList hname

/-- The definitions are the options that are accepted. However they are given and in whatever order,
    they are read, and the host that is made of them has exactly the variables that they define,
    each with the value that was given last, and behind the units of length the other units, each
    with the factor that was given last. -/
theorem read_reflects :
    (∀ (o : Options) (option value : String), option = "--var" ∨ option = "--unit" →
      ((∃ o', o.withValue option value = .ok o') ↔
        ∃ d : Definition, d.option = option ∧ d.equation.text = value)) ∧
      ∀ {ds : List Definition} {args : List String}, Definition.Given ds args →
        ∀ contents : String, ∃ o, Options.read (args ++ ["--", contents]) = .ok o ∧
          o.contents = contents ∧ o.table.Reflects ds := by
  refine ⟨fun o _ _ hoption => exists_withValue_iff o hoption, fun {ds args} hgiven contents => ?_⟩
  refine ⟨{ ds.foldl Options.add {} with contents }, ?_, rfl, ?_⟩
  · rw [Options.read, Options.readFrom_given hgiven, Options.readFrom.eq_3]
    rfl
  · rw [Options.foldl_add]
    exact reflects_table (List.nil_append _) (List.nil_append _)

/-- A field is defined by a number first, and then by a text with an equals sign and a space in
    it. -/
theorem read_reflects_field :
    ∃ o place, Options.read
        ["--var=pad.net=1", "--unit", "cm=10", "--var", " pad.net ='= x'", "--", "pad.net"] =
          .ok o ∧
      o.table.host.reference? (.field "pad" "net") = some (.cell place) ∧
      o.table.store.cells[place]? = some ⟨.text "= x", true⟩ ∧
      o.table.host.units.names = ["mm", "mil", "in", "cm"] := by
  let number : Definition := .var ⟨"pad.net", "1", by decide⟩
  let unit : Definition := .unit ⟨"cm", "10", by decide⟩ (Decimal.nearest 10 0) rfl
  let text : Equation := ⟨" pad.net ", "'= x'", by decide⟩
  have hgiven : Definition.Given [number, unit, .var text]
      ["--var=pad.net=1", "--unit", "cm=10", "--var", " pad.net ='= x'"] :=
    .joined _ (.apart _ (by decide) (.apart _ (by decide) .nil))
  obtain ⟨o, hread, -, hreflects⟩ := read_reflects.2 hgiven "pad.net"
  have hlast : [number, unit, .var text] = [number, unit] ++ .var text :: [] := rfl
  obtain ⟨place, v, -, hvalue, -, hquoted, hfield, -⟩ :=
    hreflects.cell hlast fun _ h => by cases h
  have hkey : text.key = "pad" ++ "." ++ "net" := by decide
  have hnames : o.table.host.units.names = ["mm", "mil", "in", "cm"] :=
    hreflects.unit_names.trans (by decide)
  rw [hquoted "= x" rfl] at hvalue
  exact ⟨o, place, hread, hfield "pad" "net" hkey, hvalue, hnames⟩

end CommandLine

end Formula
