import Formula.CommandLine.Definition

/-!
# Reading definitions

The options for variables and units that are accepted are the definitions
(`exists_withValue_iff`), whose names end at the first equals sign (`splitAt?_eq_some_iff`).
On the command line a definition is read as what it says, in whatever form it is given and
whatever follows (`Options.readFrom_given`).

The value of a variable is read as what it means (`means_readValue`). As no number starts with
a quote and trimming stops at one, a text in quotes is what stands between them
(`readValue_quoted`).
-/

namespace Formula.CommandLine

open Text (trim trimStart trimEnd isBlank)

/-! ## Marks -/

/-- A text is split at the first mark. -/
theorem splitAt?_append {mark : Char} {before : List Char} (h : mark ∉ before)
    (behind : List Char) : splitAt? mark (before ++ mark :: behind) = some (before, behind) := by
  induction before with
  | nil => exact if_pos rfl
  | cons c before ih =>
    obtain ⟨hc, hbefore⟩ := List.ne_and_not_mem_of_not_mem_cons h
    rw [List.cons_append, splitAt?, if_neg hc.symm, ih hbefore]
    rfl

theorem splitAt?_eq_none {mark : Char} {cs : List Char} (h : mark ∉ cs) :
    splitAt? mark cs = none := by
  induction cs with
  | nil => rfl
  | cons c cs ih =>
    obtain ⟨hc, hcs⟩ := List.ne_and_not_mem_of_not_mem_cons h
    rw [splitAt?, if_neg hc.symm, ih hcs]
    rfl

/-- A text is split at its first mark. -/
theorem splitAt?_eq_some_iff {mark : Char} {cs before behind : List Char} :
    splitAt? mark cs = some (before, behind) ↔ cs = before ++ mark :: behind ∧ mark ∉ before := by
  constructor
  · intro h
    induction cs generalizing before with
    | nil => cases h
    | cons c cs ih =>
      rw [splitAt?] at h
      split at h
      · next hc =>
        cases h
        exact ⟨by rw [hc, List.nil_append], List.not_mem_nil⟩
      · next hc =>
        obtain ⟨⟨before', behind'⟩, hcs, heq⟩ := Option.map_eq_some_iff.1 h
        cases heq
        obtain ⟨rfl, hbefore⟩ := ih hcs
        exact ⟨rfl, List.not_mem_cons_of_ne_of_not_mem (Ne.symm hc) hbefore⟩
  · rintro ⟨rfl, h⟩
    exact splitAt?_append h behind

/-- An equation is split into its name and its value, whatever the value is. -/
theorem Equation.splitAt?_text (e : Equation) :
    splitAt? '=' e.text.toList = some (e.name.toList, e.value.toList) := by
  have htext : e.text.toList = e.name.toList ++ '=' :: e.value.toList := by
    simp [Equation.text, String.toList_append]
  rw [htext, splitAt?_append e.noEquals]

/-- Every text with an equals sign in it is an equation. -/
theorem exists_equation {text : String} {before behind : List Char}
    (h : splitAt? '=' text.toList = some (before, behind)) :
    ∃ e : Equation, e.text = text ∧ e.value.toList = behind := by
  obtain ⟨htext, hbefore⟩ := splitAt?_eq_some_iff.1 h
  refine ⟨⟨String.ofList before, String.ofList behind, ?_⟩, ?_, String.toList_ofList⟩
  · rwa [String.toList_ofList]
  · apply String.toList_injective
    rw [htext]
    simp [Equation.text, String.toList_append]

/-! ## Values -/

/-- No number starts with a quote. -/
theorem read?_quote (cs : List Char) : Decimal.read? ('\'' :: cs) = none := by
  have hword (w : String) (hw : ∀ ds, w.toList ≠ '\'' :: ds) :
      String.ofList (('\'' :: cs).map Char.toLower) ≠ w := by
    rintro rfl
    exact hw _ String.toList_ofList
  have hnumeral : Decimal.readNumeral? ('\'' :: cs) = none := rfl
  have hinf := hword "inf" (by simp)
  have hinfinity := hword "infinity" (by simp)
  have hnan := hword "nan" (by simp)
  show Decimal.readUnsigned? ('\'' :: cs) = none
  simp only [Decimal.readUnsigned?, hinf, hinfinity, hnan, or_self, if_false, hnumeral]

theorem unquote?_quoted (s : List Char) : unquote? (['\''] ++ s ++ ['\'']) = some s := by
  show (if (s ++ ['\'']).getLast? = some '\'' then some (s ++ ['\'']).dropLast else none) = _
  rw [List.getLast?_concat, if_pos rfl, List.dropLast_concat]

/-- Only what stands between two quotes is unquoted. -/
theorem eq_quoted_of_unquote? {cs s : List Char} (h : unquote? cs = some s) :
    cs = ['\''] ++ s ++ ['\''] := by
  rw [unquote?.eq_def] at h
  split at h
  · next behind =>
    split at h
    · next hlast =>
      cases h
      rw [List.append_assoc, List.dropLast_append_getLast? _ hlast]
      rfl
    · cases h
  · cases h

/-- A value is read as it is meant: as a number, as the text between quotes, or as it is. -/
theorem means_readValue (cs : List Char) : Means cs (readValue cs) := by
  rw [readValue]
  split
  · next x hnumber => exact .number hnumber
  · next hnumber =>
    rcases hquoted : unquote? cs with _ | s
    · refine .bare hnumber fun s hs => ?_
      rw [hs, unquote?_quoted] at hquoted
      cases hquoted
    · rw [eq_quoted_of_unquote? hquoted]
      exact .quoted s

/-- Quotes keep the blanks between them. -/
theorem trim_quoted (s : List Char) : trim (['\''] ++ s ++ ['\'']) = ['\''] ++ s ++ ['\''] := by
  have hquote : ¬ isBlank '\'' := by decide
  have hstart : trimStart (['\''] ++ s ++ ['\'']) = ['\''] ++ s ++ ['\''] :=
    List.dropWhile_cons_of_neg hquote
  rw [trim, hstart, trimEnd, List.reverse_concat,
    List.dropWhile_cons_of_neg hquote, List.reverse_cons,
    List.reverse_reverse]

/-- A text in quotes defines what stands between them, whatever it is. -/
theorem readValue_quoted {value : String} {s : String} (h : value = "'" ++ s ++ "'") :
    readValue (trim value.toList) = .text s := by
  have hvalue : value.toList = ['\''] ++ s.toList ++ ['\''] := by
    rw [h, String.toList_append, String.toList_append]
    rfl
  have hnumber : Decimal.read? (['\''] ++ s.toList ++ ['\'']) = none := read?_quote _
  rw [hvalue, trim_quoted, readValue, hnumber, unquote?_quoted]
  simp

/-! ## Options -/

namespace Definition

/-- The name of a variable, and its value. -/
def value? : Definition → Option (String × Value)
  | .var e => some (e.key, readValue (trim e.value.toList))
  | .unit .. => none

/-- The variables among the definitions, with their values. -/
def values (ds : List Definition) : List (String × Value) := ds.filterMap value?

end Definition

/-- The options with a definition behind those that they have. -/
def Options.add (o : Options) : Definition → Options
  | .var e =>
    { o with definitions := o.definitions ++ [(e.key, readValue (trim e.value.toList))] }
  | .unit e factor _ => { o with units := o.units ++ [(e.key, factor)] }

/-- A definition that is given as the value of its option is added. -/
theorem withValue_definition (o : Options) (d : Definition) :
    o.withValue d.option d.equation.text = .ok (o.add d) := by
  cases d with
  | var e =>
    show (readVariable e.text).map _ = _
    rw [readVariable, e.splitAt?_text]
    rfl
  | unit e factor reads =>
    show (readUnit e.text).map _ = _
    rw [readUnit, e.splitAt?_text]
    simp only [reads]
    rfl

/-- The options that are accepted are the definitions. -/
theorem exists_withValue_iff (o : Options) {option value : String}
    (hoption : option = "--var" ∨ option = "--unit") :
    (∃ o', o.withValue option value = .ok o') ↔
      ∃ d : Definition, d.option = option ∧ d.equation.text = value := by
  constructor
  · rintro ⟨o', h⟩
    rcases hoption with rfl | rfl
    · change (readVariable value).map _ = _ at h
      rw [readVariable] at h
      rcases hsplit : splitAt? '=' value.toList with _ | ⟨before, behind⟩ <;> rw [hsplit] at h
      · cases h
      · obtain ⟨e, htext, -⟩ := exists_equation hsplit
        exact ⟨.var e, rfl, htext⟩
    · change (readUnit value).map _ = _ at h
      rw [readUnit] at h
      rcases hsplit : splitAt? '=' value.toList with _ | ⟨before, behind⟩ <;> rw [hsplit] at h
      · cases h
      · obtain ⟨e, htext, hbehind⟩ := exists_equation hsplit
        rcases hfactor : Decimal.read? (trim behind) with _ | factor
        · simp only [hfactor] at h
          cases h
        · exact ⟨.unit e factor (by rw [hbehind, hfactor]), rfl, htext⟩
  · rintro ⟨d, rfl, rfl⟩
    exact ⟨_, withValue_definition o d⟩

namespace Options

theorem withFlag?_eq_none_of_mem (o : Options) {arg : String} (h : '=' ∈ arg.toList) :
    o.withFlag? arg = none := by
  rw [withFlag?]
  all_goals
    rintro rfl
    exact absurd h (by decide)

theorem form?_eq_none_of_mem {arg : String} (h : '=' ∈ arg.toList) : form? arg = none := by
  rw [form?]
  all_goals
    rintro rfl
    exact absurd h (by decide)

theorem withArgument_definition (o : Options) (d : Definition) (form : String) :
    o.withArgument d.option form d.equation.text = .ok (o.add d) := by
  rw [withArgument, withValue_definition]
  rfl

/-- The option of a definition takes a value. -/
theorem form?_option (o : Options) (d : Definition) :
    ∃ form, form? d.option = some form ∧ o.withFlag? d.option = none ∧
      '=' ∉ d.option.toList ∧ d.option ≠ "--" := by
  have hoption : d.option = "--var" ∨ d.option = "--unit" := by
    cases d
    · exact .inl rfl
    · exact .inr rfl
  rcases hoption with h | h <;> rw [h] <;> exact ⟨_, rfl, rfl, by decide, by decide⟩

/-- A definition may as well be joined to its option with an equals sign: the option ends at
    the first one, so that the sign of the equation is part of the value. -/
theorem readFrom_joined (o : Options) (contents : Option String) (args : List String)
    (d : Definition) :
    readFrom o contents ((d.option ++ "=" ++ d.equation.text) :: args) =
      readFrom (o.add d) contents args := by
  have hmem : '=' ∈ (d.option ++ "=" ++ d.equation.text).toList := by
    simp [String.toList_append]
  obtain ⟨form, hform, -, hoption, -⟩ := form?_option o d
  have hne : d.option ++ "=" ++ d.equation.text ≠ "--" := by
    intro heq
    rw [heq] at hmem
    exact absurd hmem (by decide)
  have hsplit : splitAt? '=' (d.option ++ "=" ++ d.equation.text).toList =
      some (d.option.toList, d.equation.text.toList) := by
    rw [String.toList_append, String.toList_append, List.append_assoc]
    exact splitAt?_append hoption _
  rw [readFrom.eq_7 _ _ _ _ (form?_eq_none_of_mem hmem) (fun h _ => hne h) (fun _ h _ => hne h)
    (fun _ _ _ h _ => hne h), withFlag?_eq_none_of_mem o hmem, hsplit]
  simp only [String.ofList_toList, hform, withArgument_definition]
  rfl

/-- A definition may stand behind its option. -/
theorem readFrom_apart (o : Options) (contents : Option String) (args : List String)
    (d : Definition) :
    readFrom o contents (d.option :: d.equation.text :: args) =
      readFrom (o.add d) contents args := by
  obtain ⟨form, hform, hflag, hoption, hne⟩ := form?_option o d
  rw [readFrom.eq_5 _ _ _ _ _ _ hform (fun h _ => hne h) (fun _ h _ => hne h)
    (fun _ _ _ h _ => hne h), hflag, splitAt?_eq_none hoption]
  simp only [withArgument_definition]
  rfl

/-- Definitions are read, and then what follows. -/
theorem readFrom_given {ds : List Definition} {args : List String} (h : Definition.Given ds args)
    (o : Options) (contents : Option String) (rest : List String) :
    readFrom o contents (args ++ rest) = readFrom (ds.foldl add o) contents rest := by
  induction h generalizing o with
  | nil => rfl
  | joined d _ ih => exact (readFrom_joined o contents _ d).trans (ih _)
  | apart d _ _ ih => exact (readFrom_apart o contents _ d).trans (ih _)

theorem foldl_add (ds : List Definition) (o : Options) :
    ds.foldl Options.add o = { o with
      definitions := o.definitions ++ Definition.values ds
      units := o.units ++ Definition.factors ds } := by
  induction ds generalizing o with
  | nil => simp [Definition.values, Definition.factors]
  | cons d ds ih =>
    rw [List.foldl_cons, ih]
    cases d <;>
      simp [Options.add, Definition.values, Definition.factors, Definition.value?,
        Definition.factor?, List.filterMap_cons]

end Options

end Formula.CommandLine
