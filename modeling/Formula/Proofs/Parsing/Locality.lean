import Formula.Proofs.Parsing.Depth

/-!
# How far a reader looks

A reader that succeeds has looked at what it takes off the front and at the first lexeme
behind that, no further. So it succeeds in the same way if other lexemes follow that one,
or if nothing follows at all (`local_operand`).
-/

namespace Formula.Syntax

/-- The lexemes end here, or begin as the others do. -/
def Begins (ts us : List Lexeme) : Prop := ∀ t ∈ ts.head?, t ∈ us.head?

theorem begins_nil (us : List Lexeme) : Begins [] us := fun _ h => by cases h

theorem begins_cons (t : Lexeme) (ts us : List Lexeme) : Begins (t :: ts) (t :: us) :=
  fun _ h => h

theorem Begins.append {ts us : List Lexeme} (h : Begins ts us) (vs : List Lexeme) :
    Begins (vs ++ ts) (vs ++ us) := by
  cases vs with
  | nil => exact h
  | cons v vs => exact begins_cons v _ _

theorem Begins.cases {t : Lexeme} {ts us : List Lexeme} (h : Begins ts (t :: us)) :
    ts = [] ∨ ∃ vs, ts = t :: vs := by
  rcases ts with _ | ⟨u, vs⟩
  · exact .inl rfl
  · obtain rfl : t = u := Option.some.inj (h u rfl)
    exact .inr ⟨vs, rfl⟩

theorem Begins.eq_nil {ts : List Lexeme} (h : Begins ts []) : ts = [] := by
  rcases ts with _ | ⟨u, vs⟩
  · rfl
  · cases h u rfl

/-- What a reader takes off the front, it takes whatever follows, as long as that is
    nothing or begins as before. -/
def Local {α : Type} (read : Reader α) : Prop :=
  ∀ ⦃ts : List Lexeme⦄ ⦃a : α⦄ ⦃rest : Shorter ts⦄, read ts = .ok (a, rest) →
    ∃ us, ts = us ++ rest.1 ∧ ∀ ⦃rest' : List Lexeme⦄, Begins rest' rest.1 →
      ∃ h, read (us ++ rest') = .ok (a, ⟨rest', h⟩)

/-- What a reader takes off the front, it takes whatever follows. -/
def Blind {α : Type} (read : Reader α) : Prop :=
  ∀ ⦃ts : List Lexeme⦄ ⦃a : α⦄ ⦃rest : Shorter ts⦄, read ts = .ok (a, rest) →
    ∃ us, ts = us ++ rest.1 ∧ ∀ rest', ∃ h, read (us ++ rest') = .ok (a, ⟨rest', h⟩)

/-- What a reader takes off the front is related to its result, and it takes this whatever
    follows that begins as before. -/
theorem Local.taken {α : Type} {read : Reader α} {R : List Lexeme → α → Prop} (h : Local read)
    (hsound : Sound read R) {ts : List Lexeme} {a : α} {rest : Shorter ts}
    (hread : read ts = .ok (a, rest)) :
    ∃ us, ts = us ++ rest.1 ∧ R us a ∧ ∀ ⦃rest'⦄, Begins rest' rest.1 →
      ∃ hrest, read (us ++ rest') = .ok (a, ⟨rest', hrest⟩) := by
  obtain ⟨us, hus, hlocal⟩ := h hread
  obtain ⟨us', hus', ha⟩ := hsound hread
  obtain rfl : us = us' := List.append_cancel_right (hus.symm.trans hus')
  exact ⟨us, hus, ha, hlocal⟩

variable {stop : Nat} {expr : Reader Expr} (h : Local expr)

include h

/-! ## Binary operators -/

/-- A chain ends before a lexeme that is no operator of its level, and ends there as well if
    nothing follows or something else that begins with it. -/
theorem chain_local {level n : Nat} {left e : Expr} {ts : List Lexeme} {hts : ts.length < n}
    {rest : Fewer n} (hread : chain level expr left ts hts = .ok (e, rest)) :
    ∃ us, ts = us ++ rest.1 ∧ ∀ ⦃rest'⦄, Begins rest' rest.1 →
      ∀ m (hm : (us ++ rest').length < m),
        ∃ hrest, chain level expr left (us ++ rest') hm = .ok (e, ⟨rest', hrest⟩) := by
  fun_induction chain level expr left ts hts with
  | case1 =>
    cases hread
    refine ⟨[], rfl, fun rest' hbegins m hm => ?_⟩
    obtain rfl := hbegins.eq_nil
    exact ⟨hm, chain_nil hm⟩
  | case2 left t behind _ ht =>
    cases hread
    refine ⟨[], rfl, fun rest' hbegins m hm => ⟨hm, ?_⟩⟩
    rcases hbegins.cases with rfl | ⟨vs, rfl⟩
    · exact chain_nil hm
    · exact chain_of_none ht hm
  | case3 => cases hread
  | case4 left t behind _ op ht right rest₁ hright _ _ ih =>
    obtain ⟨vs, hvs, hlocal⟩ := h hright
    obtain ⟨ws, hws, hchain⟩ := ih hread
    refine ⟨t :: vs ++ ws, by rw [hvs, hws]; simp, fun rest' hbegins m hm => ?_⟩
    -- The right operand still sees the same lexeme behind it.
    obtain ⟨hlt, hright⟩ := @hlocal (ws ++ rest') (hws ▸ hbegins.append ws)
    obtain ⟨hrest, he⟩ := hchain hbegins m (by
      simp only [List.length_append, List.length_cons] at hm ⊢; omega)
    simp only [List.cons_append, List.append_assoc]
    exact ⟨hrest, (chain_of_ok ht hright _).trans he⟩

theorem local_leftAssociative (level : Nat) : Local (leftAssociative level expr) := by
  intro ts e rest hread
  rw [leftAssociative] at hread
  split at hread
  · cases hread
  · rename_i left rest₁ hleft
    obtain ⟨us, hus, hlocal⟩ := h hleft
    obtain ⟨vs, hvs, hchain⟩ := chain_local h hread
    refine ⟨us ++ vs, hus.trans (by rw [hvs, List.append_assoc]), fun rest' hbegins => ?_⟩
    obtain ⟨hlt, hleft⟩ := @hlocal (vs ++ rest') (hvs ▸ hbegins.append vs)
    obtain ⟨hrest, he⟩ := hchain hbegins _ hlt
    rw [List.append_assoc]
    exact ⟨hrest, by rw [leftAssociative, hleft]; exact he⟩

theorem local_binaryBelow (level : Nat) : Local (binaryBelow expr level) := by
  induction level with
  | zero => exact h
  | succ level ih => exact local_leftAssociative ih level

theorem local_expression : Local (expression expr) := local_binaryBelow h _

/-! ## Arguments and methods -/

/-- Some arguments end with their parenthesis, whatever follows. -/
theorem moreArguments_local {n : Nat} {earlier args : List Expr} {ts : List Lexeme}
    {hts : ts.length ≤ n} {rest : Fewer n}
    (hread : moreArguments stop expr earlier ts hts = .ok (args, rest)) :
    ∃ us, ts = us ++ rest.1 ∧ ∀ rest' m (hm : (us ++ rest').length ≤ m),
      ∃ hrest, moreArguments stop expr earlier (us ++ rest') hm = .ok (args, ⟨rest', hrest⟩) := by
  fun_induction moreArguments stop expr earlier ts hts with
  | case1 | case2 | case5 => cases hread
  | case3 earlier ts _ arg rest₁ harg t behind hrest₁ _ ht ih =>
    obtain ⟨_, hlt⟩ := rest₁
    subst hrest₁
    obtain ⟨us, hus, hlocal⟩ := h harg
    obtain ⟨vs, rfl, hmore⟩ := ih hread
    refine ⟨us ++ t :: vs, hus.trans (by simp), fun rest' m hm => ?_⟩
    -- The argument sees no further than the comma.
    obtain ⟨hlt, harg⟩ := hlocal (begins_cons t (vs ++ rest') _)
    obtain ⟨hrest, hmore⟩ := hmore rest' m (by
      simp only [List.length_append, List.length_cons] at hm ⊢; omega)
    simp only [List.append_assoc, List.cons_append]
    exact ⟨hrest, (moreArguments_of_comma harg ht _).trans hmore⟩
  | case4 earlier ts _ arg rest₁ harg t behind hrest₁ _ ht =>
    obtain ⟨_, hlt⟩ := rest₁
    subst hrest₁
    obtain ⟨us, hus, hlocal⟩ := h harg
    cases hread
    refine ⟨us ++ [t], hus.trans (by simp), fun rest' m hm => ?_⟩
    obtain ⟨hlt, harg⟩ := hlocal (begins_cons t rest' behind)
    rw [List.length_append, List.length_append, List.length_singleton] at hm
    simp only [List.append_assoc, List.cons_append, List.nil_append]
    exact ⟨by omega, moreArguments_of_closing harg ht _⟩

/-- Arguments end with their parenthesis, be there none or some, whatever follows. -/
theorem blind_arguments : Blind (arguments stop expr) := by
  intro ts args rest hread
  rcases ts with _ | ⟨t, behind⟩
  · exact absurd rest.2 (Nat.not_lt_zero _)
  by_cases ht : t.token = .closing
  · simp only [arguments, ht] at hread
    cases hread
    exact ⟨[t], rfl, fun rest' => ⟨_, by simp only [List.cons_append, arguments, ht]; rfl⟩⟩
  · have hne (rest' : List Lexeme) : ∀ u ∈ (t :: rest').head?, u.token ≠ .closing := by
      rintro _ ⟨⟩
      exact ht
    rw [arguments_of_ne (hne behind)] at hread
    obtain ⟨us, hus, hlocal⟩ := moreArguments_local h hread
    -- Something has been taken, so it begins with `t`, and this decides that there are arguments.
    rcases us with _ | ⟨u, us⟩
    · exact absurd rest.2 (by rw [← List.nil_append rest.1, ← hus]; exact Nat.lt_irrefl _)
    obtain ⟨rfl, _⟩ := List.cons.inj hus
    refine ⟨t :: us, hus, fun rest' => ?_⟩
    obtain ⟨hrest, he⟩ := hlocal rest' _ (Nat.le_refl _)
    exact ⟨hrest, (arguments_of_ne (hne _)).trans he⟩

/-- Whether there are arguments depends on whether a parenthesis follows, and on nothing behind
    them. -/
theorem arguments?_local {ts : List Lexeme} {args : Option (List Expr)}
    {rest : Fewer (ts.length + 1)} (hread : arguments? stop expr ts = .ok (args, rest)) :
    ∃ us, ts = us ++ rest.1 ∧ ∀ ⦃rest'⦄, Begins rest' rest.1 →
      ∃ hrest, arguments? stop expr (us ++ rest') = .ok (args, ⟨rest', hrest⟩) := by
  rcases ts with _ | ⟨t, behind⟩ <;> simp only [arguments?] at hread
  · cases hread
    refine ⟨[], rfl, fun rest' hbegins => ?_⟩
    obtain rfl := hbegins.eq_nil
    exact ⟨_, rfl⟩
  · split at hread
    · rename_i ht
      split at hread
      · cases hread
      · rename_i args' rest₁ hargs
        cases hread
        obtain ⟨us, hus, hlocal⟩ := blind_arguments h hargs
        refine ⟨t :: us, congrArg (List.cons t) hus, fun rest' _ => ?_⟩
        obtain ⟨hrest, hargs⟩ := hlocal rest'
        refine ⟨Nat.lt_succ_of_lt (Nat.lt_succ_of_lt hrest), ?_⟩
        simp only [List.cons_append, arguments?, ht, hargs]
    · rename_i ht
      cases hread
      refine ⟨[], rfl, fun rest' hbegins => ⟨_, arguments?_of_ne stop ?_⟩⟩
      intro u hu
      obtain rfl : t = u := Option.some.inj (hbegins u hu)
      exact ht

omit h in
theorem blind_methodName : Blind (methodName stop) := by
  intro ts found rest hread
  rcases ts with _ | ⟨t, behind⟩ <;> simp only [methodName] at hread
  · cases hread
  · split at hread
    · rename_i ht
      cases hread
      exact ⟨[t], rfl, fun rest' => ⟨_, by simp only [List.cons_append, methodName, ht]; rfl⟩⟩
    · cases hread

omit h in
theorem blind_opening : Blind (opening stop) := by
  intro ts found rest hread
  rcases ts with _ | ⟨t, behind⟩ <;> simp only [opening] at hread
  · cases hread
  · split at hread
    · rename_i ht
      cases hread
      exact ⟨[t], rfl, fun rest' => ⟨_, by simp only [List.cons_append, opening, ht]; rfl⟩⟩
    · cases hread

/-- The call of a method ends with its arguments. -/
theorem blind_method (receiver : Expr) : Blind (method stop expr receiver) := by
  intro ts e rest hread
  simp only [method] at hread
  split at hread
  · cases hread
  rename_i offset name behindName hname
  split at hread
  · cases hread
  rename_i behindOpening hopening
  split at hread
  · cases hread
  rename_i args rest₁ hargs
  cases hread
  obtain ⟨us, hus, hname⟩ := blind_methodName hname
  obtain ⟨vs, hvs, hopening⟩ := blind_opening hopening
  obtain ⟨ws, hws, hargs⟩ := blind_arguments h hargs
  refine ⟨us ++ vs ++ ws, by simp [hus, hvs, hws], fun rest' => ?_⟩
  obtain ⟨h₁, hname⟩ := hname (vs ++ (ws ++ rest'))
  obtain ⟨h₂, hopening⟩ := hopening (ws ++ rest')
  obtain ⟨h₃, hargs⟩ := hargs rest'
  rw [List.append_assoc, List.append_assoc]
  exact ⟨Nat.lt_trans h₃ (Nat.lt_trans h₂ h₁), by simp only [method, hname, hopening, hargs]⟩

/-- Calls of methods end before a lexeme that is no dot. -/
theorem methods_local {n : Nat} {receiver e : Expr} {ts : List Lexeme} {hts : ts.length < n}
    {rest : Fewer n} (hread : methods stop expr receiver ts hts = .ok (e, rest)) :
    ∃ us, ts = us ++ rest.1 ∧ ∀ ⦃rest'⦄, Begins rest' rest.1 →
      ∀ m (hm : (us ++ rest').length < m),
        ∃ hrest, methods stop expr receiver (us ++ rest') hm = .ok (e, ⟨rest', hrest⟩) := by
  fun_induction methods stop expr receiver ts hts with
  | case1 =>
    cases hread
    refine ⟨[], rfl, fun rest' hbegins m hm => ?_⟩
    obtain rfl := hbegins.eq_nil
    exact ⟨hm, methods_nil hm⟩
  | case2 => cases hread
  | case3 receiver t behind _ ht call rest₁ hcall _ _ ih =>
    obtain ⟨vs, hvs, hlocal⟩ := blind_method h receiver hcall
    obtain ⟨ws, hws, hmethods⟩ := ih hread
    refine ⟨t :: vs ++ ws, by rw [hvs, hws]; simp, fun rest' hbegins m hm => ?_⟩
    obtain ⟨hlt, hcall⟩ := hlocal (ws ++ rest')
    obtain ⟨hrest, he⟩ := hmethods hbegins m (by
      simp only [List.length_append, List.length_cons] at hm ⊢; omega)
    simp only [List.cons_append, List.append_assoc]
    exact ⟨hrest, (methods_of_dot_ok ht hcall _).trans he⟩
  | case4 receiver t behind _ ht =>
    cases hread
    refine ⟨[], rfl, fun rest' hbegins m hm => ⟨hm, methods_of_stops stop ?_⟩⟩
    intro u hu
    obtain rfl : t = u := Option.some.inj (hbegins u hu)
    exact ht

/-! ## Operands -/

/-- A group ends with its parenthesis. -/
theorem blind_group : Blind (group stop expr) := by
  intro ts e rest hread
  rcases hinner : expr ts with e' | ⟨inner, rest₁, hlt⟩
  · rw [group_of_error hinner] at hread
    cases hread
  rcases rest₁ with _ | ⟨t, behind⟩
  · rw [group_of_end hinner] at hread
    cases hread
  by_cases ht : t.token = .closing
  · rw [group_of_closing hinner ht] at hread
    cases hread
    obtain ⟨us, hus, hlocal⟩ := h hinner
    refine ⟨us ++ [t], hus.trans (by simp), fun rest' => ?_⟩
    obtain ⟨hlt, hinner⟩ := hlocal (begins_cons t rest' behind)
    rw [List.append_assoc]
    exact ⟨_, group_of_closing hinner ht⟩
  · rw [group_of_ne hinner ht] at hread
    cases hread

/-- A group and a call end with their parenthesis, and a name before what is none that
    opens. -/
theorem local_primary : Local (primary stop expr) := by
  intro ts e rest hread
  rcases ts with _ | ⟨⟨t, offset⟩, behind⟩
  · cases hread
  cases t with
  | number | text =>
    cases hread
    exact ⟨[_], rfl, fun rest' _ => ⟨_, rfl⟩⟩
  | name | field =>
    simp only [primary] at hread
    split at hread
    · cases hread
    all_goals
      rename_i hargs
      cases hread
      obtain ⟨us, hus, hlocal⟩ := arguments?_local h hargs
      refine ⟨_ :: us, congrArg (List.cons _) hus, fun rest' hbegins => ?_⟩
      obtain ⟨hrest, hargs⟩ := hlocal hbegins
      exact ⟨hrest, by simp only [List.cons_append, primary, hargs]⟩
  | opening =>
    simp only [primary] at hread
    split at hread
    · cases hread
    · rename_i hinner
      cases hread
      obtain ⟨us, hus, hlocal⟩ := blind_group h hinner
      refine ⟨_ :: us, congrArg (List.cons _) hus, fun rest' _ => ?_⟩
      obtain ⟨hrest, hinner⟩ := hlocal rest'
      exact ⟨Nat.lt_succ_of_lt hrest, by simp only [List.cons_append, primary, hinner]⟩
  | operator | not | assign | closing | comma | dot => cases hread

omit h in
/-- Operands are taken whatever follows them, as long as it begins as before. -/
theorem local_operand (stop depth : Nat) : Local (operand stop depth) := by
  induction depth with
  | zero =>
    intro ts e rest hread
    cases ts <;> cases hread
  | succ depth ih =>
    intro ts e rest hread
    rcases ts with _ | ⟨t, behind⟩ <;> simp only [operand] at hread
    · cases hread
    split at hread
    · rename_i op hop
      split at hread
      · cases hread
      · rename_i inner rest₁ hinner
        cases hread
        obtain ⟨us, hus, hlocal⟩ := ih hinner
        refine ⟨t :: us, congrArg (List.cons t) hus, fun rest' hbegins => ?_⟩
        obtain ⟨hrest, hinner⟩ := hlocal hbegins
        refine ⟨Nat.lt_succ_of_lt hrest, ?_⟩
        simp only [List.cons_append, operand, hop, hinner]
    · rename_i hprefix
      split at hread
      · cases hread
      · rename_i receiver rest₁ hreceiver
        have hexpr := local_expression ih
        obtain ⟨us, hus, hprimary⟩ := local_primary hexpr hreceiver
        obtain ⟨vs, hvs, hmethods⟩ := methods_local hexpr hread
        refine ⟨us ++ vs, hus.trans (by rw [hvs, List.append_assoc]), fun rest' hbegins => ?_⟩
        obtain ⟨hlt, hprimary⟩ := @hprimary (vs ++ rest') (hvs ▸ hbegins.append vs)
        obtain ⟨hrest, he⟩ := hmethods hbegins _ hlt
        -- It begins with `t`, so that there is still no prefix operator.
        rcases us with _ | ⟨u, us⟩
        · exact absurd hlt (Nat.lt_irrefl _)
        obtain ⟨rfl, _⟩ := List.cons.inj hus
        rw [List.append_assoc]
        simp only [List.cons_append] at hprimary ⊢
        exact ⟨hrest, by simp only [operand, hprefix, hprimary]; exact he⟩

end Formula.Syntax
