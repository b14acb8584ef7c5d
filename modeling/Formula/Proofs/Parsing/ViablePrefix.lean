import Formula.Proofs.Parsing.Locality
import Formula.Proofs.Parsing.Parentheses
import Formula.Syntax.Printing

/-!
# Errors are reported where they occur

A reader that fails, for another reason than that operands lie too deeply within each
other, fails in one of two ways (`Diagnosis`).

* The lexemes end too early. Then they can be completed; and what is missing is said to be a
  closing parenthesis exactly if they end inside open parentheses behind a complete
  expression.
* A lexeme cannot stand where it stands. Then the reader fails in the same way whatever
  follows that lexeme; and without the lexeme, it would have come to the end.

Each reader hands this on from the readers that it is made of: what one of them fails to
read stands behind what has been read already, and a completion of it completes the whole
(`Diagnosis.behind`).
-/

namespace Formula.Syntax

/-! ## Diagnoses -/

/-- That the lexemes end too early is reported at the end of the formula. -/
def AtEnd (stop : Nat) (e : Located SyntaxError) : Prop :=
  e = ⟨stop, .unexpectedEnd⟩ ∨ e = ⟨stop, .unclosedParenthesis⟩

/-- What it means that `ts` fail with the error `e`. -/
inductive Diagnosis (stop : Nat) (fails : List Lexeme → Located SyntaxError → Prop)
    (completable inside : List Lexeme → Prop) (ts : List Lexeme) (e : Located SyntaxError) : Prop
  | nested : e.cause = .nestedTooDeeply → Diagnosis stop fails completable inside ts e
  | ended : e = ⟨stop, .unexpectedEnd⟩ → completable ts → ¬ inside ts →
      Diagnosis stop fails completable inside ts e
  | unclosed : e = ⟨stop, .unclosedParenthesis⟩ → completable ts → inside ts →
      Diagnosis stop fails completable inside ts e
  | token (before : List Lexeme) {behind : List Lexeme} {t : Lexeme}
      {expected : Option Expectation} :
      ts = before ++ t :: behind → e = ⟨t.offset, .unexpectedToken expected t.token⟩ →
      (∀ behind', fails (before ++ t :: behind') e) →
      (∃ e', AtEnd stop e' ∧ fails before e') →
      Diagnosis stop fails completable inside ts e

section Behind

variable {stop : Nat} {fails fails' : List Lexeme → Located SyntaxError → Prop}
  {completable completable' inside inside' : List Lexeme → Prop} {vs : List Lexeme}
  {e : Located SyntaxError}

/-- What fails behind `us` makes the whole fail. -/
theorem Diagnosis.behind (h : Diagnosis stop fails completable inside vs e) (us : List Lexeme)
    (hfails : ∀ ⦃vs' e'⦄, Begins vs' vs → fails vs' e' → fails' (us ++ vs') e')
    (hcompletable : completable vs → completable' (us ++ vs))
    (hin : inside vs → inside' (us ++ vs))
    (hout : e.cause = .unexpectedEnd → ¬ inside vs → ¬ inside' (us ++ vs)) :
    Diagnosis stop fails' completable' inside' (us ++ vs) e := by
  cases h with
  | nested he => exact .nested he
  | ended he hc hi => exact .ended he (hcompletable hc) (hout (by rw [he]) hi)
  | unclosed he hc hi => exact .unclosed he (hcompletable hc) (hin hi)
  | @token before behind t expected hvs he hafter hbefore =>
    -- What follows `us` begins as before, or ends at once.
    obtain ⟨e', he', hfail⟩ := hbefore
    refine .token (us ++ before) (by rw [hvs, List.append_assoc]) he
      (fun behind' => ?_) ⟨e', he', ?_⟩
    · rw [List.append_assoc]
      exact hfails (hvs ▸ (begins_cons t behind' behind).append before) (hafter behind')
    · have hnil := (begins_nil (t :: behind)).append before
      rw [List.append_nil, ← hvs] at hnil
      exact hfails hnil hfail

/-- The case of a failure that is handed on as it is. -/
theorem Diagnosis.same (h : Diagnosis stop fails completable inside vs e)
    (hfails : ∀ ⦃vs' e'⦄, Begins vs' vs → fails vs' e' → fails' vs' e')
    (hcompletable : completable vs → completable' vs) (hin : inside vs → inside' vs)
    (hout : e.cause = .unexpectedEnd → ¬ inside vs → ¬ inside' vs) :
    Diagnosis stop fails' completable' inside' vs e :=
  h.behind [] hfails hcompletable hin hout

/-- The case of a failure behind balanced lexemes. -/
theorem Diagnosis.behind_balanced (h : Diagnosis stop fails completable Inside vs e)
    (us : List Lexeme) (hus : Balanced us)
    (hfails : ∀ ⦃vs' e'⦄, Begins vs' vs → fails vs' e' → fails' (us ++ vs') e')
    (hcompletable : completable vs → completable' (us ++ vs)) :
    Diagnosis stop fails' completable' Inside (us ++ vs) e :=
  h.behind us hfails hcompletable (inside_append hus).2 fun _ => mt (inside_append hus).1

end Behind

/-- The lexemes are the beginning of some that are related to a result. -/
def Completable {α : Type} (R : List Lexeme → α → Prop) (ts : List Lexeme) : Prop :=
  ∃ us a, R (ts ++ us) a

/-- Whenever a reader fails, there is a diagnosis. -/
def Diagnoses {α : Type} (stop : Nat) (read : Reader α) (R : List Lexeme → α → Prop)
    (inside : List Lexeme → Prop) : Prop :=
  ∀ ⦃ts : List Lexeme⦄ ⦃e : Located SyntaxError⦄, read ts = .error e →
    Diagnosis stop (fun us e => read us = .error e) (Completable R) inside ts e

/-- A reader of expressions of which everything is known. -/
structure Guided (stop : Nat) (read : Reader Expr) (R : List Lexeme → Expr → Prop) : Prop where
  sound : Sound read R
  isLocal : Local read
  diagnoses : Diagnoses stop read R Inside

section Guided

variable {stop : Nat} {read : Reader Expr} {R R' : List Lexeme → Expr → Prop}

/-- What is read is related to its result, and is read whatever follows that begins as
    before. -/
theorem Guided.taken (h : Guided stop read R) {ts : List Lexeme} {a : Expr} {rest : Shorter ts}
    (hread : read ts = .ok (a, rest)) :
    ∃ us, ts = us ++ rest.1 ∧ R us a ∧ ∀ ⦃rest'⦄, Begins rest' rest.1 →
      ∃ hrest, read (us ++ rest') = .ok (a, ⟨rest', hrest⟩) :=
  h.isLocal.taken h.sound hread

theorem Guided.imp (h : Guided stop read R) (hR : ∀ us a, R us a → R' us a) :
    Guided stop read R' where
  sound ts a rest hread := by
    obtain ⟨us, hus, ha⟩ := h.sound hread
    exact ⟨us, hus, hR us a ha⟩
  isLocal := h.isLocal
  diagnoses ts e hread := by
    refine (h.diagnoses hread).same (fun _ _ _ => id) ?_ id fun _ => id
    rintro ⟨us, a, ha⟩
    exact ⟨us, a, hR _ a ha⟩

end Guided

variable {stop depth : Nat} {expr : Reader Expr} {e : Located SyntaxError}

/-! ## Binary operators -/

section Operators

variable {level : Nat} (h : Guided stop expr (IsBelow depth level))

include h

/-- A chain fails in one of its operands, before which there are only complete ones; so what
    completes the operand completes the chain. -/
theorem chain_diagnosis {n : Nat} {left : Expr} {us ts : List Lexeme} {hts : ts.length < n}
    (hleft : IsBelow depth (level + 1) us left)
    (hread : chain level expr left ts hts = .error e) :
    Diagnosis stop (fun ts e => ∀ m (hm : ts.length < m), chain level expr left ts hm = .error e)
      (fun ts => Completable (IsBelow depth (level + 1)) (us ++ ts)) Inside ts e := by
  fun_induction chain level expr left ts hts generalizing us with
  | case1 | case2 => cases hread
  | case3 left t behind _ op ht e' hright =>
    cases hread
    obtain ⟨htoken, rfl⟩ := eq_of_operatorOf? ht
    refine (h.diagnoses hright).behind_balanced [t]
      (balanced_single (by simp [htoken]) (by simp [htoken]))
      (fun vs' e' _ he' m hm => chain_of_error ht he' hm) ?_
    rintro ⟨ws, right, hright⟩
    obtain ⟨_, offset⟩ := t
    cases htoken
    have hbinary : IsBelow depth _ (us ++ ⟨.operator op, offset⟩ :: (behind ++ ws)) _ :=
      hleft.binary hright
    exact ⟨ws, _, by simpa using hbinary⟩
  | case4 left t behind _ op ht right rest hright _ _ ih =>
    obtain ⟨htoken, rfl⟩ := eq_of_operatorOf? ht
    obtain ⟨vs, hvs, hderived, hlocal⟩ := h.taken hright
    obtain ⟨_, offset⟩ := t
    cases htoken
    have hbinary : IsBelow depth _ (us ++ ⟨.operator op, offset⟩ :: vs) _ := hleft.binary hderived
    rw [hvs]
    refine (ih hbinary hread).behind_balanced (⟨.operator op, offset⟩ :: vs)
      (hderived.balanced.cons (by simp) (by simp)) (fun rest' e' hbegins he' m hm => ?_) ?_
    · obtain ⟨_, hright⟩ := hlocal hbegins
      exact (chain_of_ok ht hright hm).trans (he' m _)
    · rintro ⟨ws, e, he⟩
      exact ⟨ws, e, by simpa using he⟩

/-- If everything is known of operands, so it is of a level of operators over them. -/
theorem guided_leftAssociative :
    Guided stop (leftAssociative level expr) (IsBelow depth (level + 1)) where
  sound := sound_leftAssociative h.sound
  isLocal := local_leftAssociative h.isLocal level
  diagnoses := by
    intro ts e hread
    rw [leftAssociative] at hread
    split at hread
    · rename_i e' hleft
      cases hread
      refine (h.diagnoses hleft).same (fun vs' e' _ he' => by rw [leftAssociative, he']) ?_
        id fun _ => id
      rintro ⟨us, left, hleft⟩
      exact ⟨us, left, hleft.up⟩
    · rename_i left rest hleft
      obtain ⟨us, hus, hderived, hlocal⟩ := h.taken hleft
      rw [hus]
      refine (chain_diagnosis h hderived.up hread).behind_balanced us hderived.balanced
        (fun rest' e' hbegins he' => ?_) id
      obtain ⟨_, hleft⟩ := hlocal hbegins
      rw [leftAssociative, hleft]
      exact he' _ _

end Operators

/-- If everything is known of operands, so it is of expressions. -/
theorem guided_expression (h : Guided stop expr (IsOperand depth)) :
    Guided stop (expression expr) (IsExpression depth) := by
  have hbelow (level : Nat) : Guided stop (binaryBelow expr level) (IsBelow depth level) := by
    induction level with
    | zero => exact h.imp fun _ _ => .operand
    | succ level ih => exact guided_leftAssociative ih
  exact hbelow _

/-! ## Arguments and methods -/

/-- Where complete expressions stand with commas between them, no argument is missing. -/
def SeesLists (stop : Nat) (expr : Reader Expr) : Prop :=
  ∀ ⦃n : Nat⦄ ⦃earlier : List Expr⦄ ⦃ts : List Lexeme⦄ ⦃hts : ts.length ≤ n⦄
    ⦃e : Located SyntaxError⦄, moreArguments stop expr earlier ts hts = .error e →
      e.cause = .unexpectedEnd → ¬ Listed ts

section Arguments

variable (h : Guided stop expr (IsExpression depth)) (hlists : SeesLists stop expr)

include h hlists

/-- An expression that is the first one inside parentheses. -/
theorem first_diagnosis {ts : List Lexeme} (hread : expr ts = .error e) :
    Diagnosis stop (fun us e => expr us = .error e) (Completable (IsExpression depth))
      (fun ts => Listed ts ∨ Inside ts) ts e := by
  refine (h.diagnoses hread).same (fun _ _ _ => id) id .inr fun hcause hinside => ?_
  have hmore : moreArguments stop expr [] ts (Nat.le_refl _) = .error e :=
    moreArguments_of_error hread _
  exact not_or.2 ⟨hlists hmore hcause, hinside⟩

/-- Arguments fail in one of them, or behind a complete one: at the end, where they are
    listed and a parenthesis completes them, or at a lexeme that is neither a comma nor a
    parenthesis. -/
theorem moreArguments_diagnosis {n : Nat} {earlier : List Expr} {ts : List Lexeme}
    {hts : ts.length ≤ n} (hread : moreArguments stop expr earlier ts hts = .error e) :
    Diagnosis stop
      (fun ts e => ∀ earlier m (hm : ts.length ≤ m),
        moreArguments stop expr earlier ts hm = .error e)
      (Completable (IsList depth)) (fun ts => Listed ts ∨ Inside ts) ts e := by
  have hlisted := hlists hread
  fun_induction moreArguments stop expr earlier ts hts with
  | case1 earlier ts _ e' harg =>
    cases hread
    refine (first_diagnosis h hlists harg).same
      (fun vs' e' _ he' earlier m hm => moreArguments_of_error he' hm) ?_ id fun _ => id
    rintro ⟨us, arg, harg⟩
    exact ⟨us, [arg], .last harg⟩
  | case2 earlier ts _ arg rest harg hrest =>
    obtain ⟨_, hlt⟩ := rest
    subst hrest
    cases hread
    obtain ⟨us, hus, harg, _⟩ := h.taken harg
    obtain rfl : ts = us := hus.trans (List.append_nil us)
    -- All lexemes make up the argument, which could be the last one.
    exact .unclosed rfl ⟨[], [arg], by simpa using .last harg⟩ (.inl ⟨depth, _, .last harg⟩)
  | case3 earlier ts _ arg rest harg t behind hrest _ ht ih =>
    obtain ⟨_, hlt⟩ := rest
    subst hrest
    obtain ⟨us, hus, hderived, hlocal⟩ := h.taken harg
    have hsplit : ts = us ++ [t] ++ behind := hus.trans (by simp)
    obtain ⟨_, comma⟩ := t
    cases ht
    have hbalanced : Balanced (us ++ [⟨.comma, comma⟩]) :=
      hderived.balanced.append (balanced_single (by simp) (by simp))
    rw [hsplit] at hlisted ⊢
    -- The arguments are listed if those behind the comma are, also if these need a greater limit.
    refine (ih hread (hlists hread)).behind _ (fun vs' e' _ he' earlier m hm => ?_) ?_ ?_
      fun hcause hinside => not_or.2 ⟨hlisted hcause, ?_⟩
    · obtain ⟨_, harg⟩ := hlocal (begins_cons ⟨.comma, comma⟩ vs' behind)
      simp only [List.append_assoc, List.cons_append, List.nil_append]
      exact (moreArguments_of_comma harg rfl _).trans (he' _ _ _)
    · rintro ⟨ws, es, hes⟩
      exact ⟨ws, _, by simpa using IsList.cons hderived hes⟩
    · rintro (⟨depth', es, hes⟩ | hinside)
      · have harg := hderived.mono (Nat.le_max_left depth depth')
        have hes := hes.mono (Nat.le_max_right depth depth')
        exact .inl ⟨_, _, by simpa using IsList.cons harg hes⟩
      · exact .inr ((inside_append hbalanced).2 hinside)
    · exact mt (inside_append hbalanced).1 (not_or.1 hinside).2
  | case4 => cases hread
  | case5 earlier ts _ arg rest harg t behind hrest _ hcomma hclosing =>
    obtain ⟨_, hlt⟩ := rest
    subst hrest
    cases hread
    obtain ⟨us, hus, harg, hlocal⟩ := h.taken harg
    -- The argument is complete, so that without `t` only a parenthesis is missing.
    refine .token us hus rfl (fun behind' earlier m hm => ?_) ⟨_, .inr rfl, fun earlier m hm => ?_⟩
    · obtain ⟨_, harg⟩ := hlocal (begins_cons t behind' behind)
      exact moreArguments_of_ne harg hcomma hclosing hm
    · have hnil := hlocal (begins_nil _)
      rw [List.append_nil] at hnil
      obtain ⟨_, harg⟩ := hnil
      exact moreArguments_of_end harg hm

/-- Behind their opening parenthesis arguments fail as expressions with commas between them do;
    without any a closing parenthesis completes them at once. -/
theorem diagnoses_arguments :
    Diagnoses stop (arguments stop expr)
      (fun us args => ∀ left, IsArguments depth (⟨.opening, left⟩ :: us) args)
      fun ts => Listed ts ∨ Inside ts := by
  intro ts e hread
  have hts : ∀ t ∈ ts.head?, t.token ≠ .closing := by
    intro t ht hclosing
    obtain ⟨behind, rfl⟩ := List.head?_eq_some_iff.1 ht
    simp only [arguments, hclosing] at hread
    cases hread
  rw [arguments_of_ne hts] at hread
  refine (moreArguments_diagnosis h hlists hread).same (fun vs' e' hbegins he' => ?_) ?_ id
    fun _ => id
  · rw [arguments_of_ne fun t ht => hts t (hbegins t ht)]
    exact he' _ _ _
  · rintro ⟨us, es, hes⟩
    refine ⟨us ++ [⟨.closing, 0⟩], es, fun left => ?_⟩
    rw [← List.append_assoc]
    exact .some hes

/-- With their opening parenthesis arguments fail as behind it, and what is listed there is
    inside. -/
theorem arguments?_diagnosis {ts : List Lexeme} (hread : arguments? stop expr ts = .error e) :
    Diagnosis stop (fun ts e => arguments? stop expr ts = .error e)
      (Completable (IsArguments depth)) Inside ts e := by
  rcases ts with _ | ⟨t, behind⟩ <;> simp only [arguments?] at hread
  · cases hread
  split at hread
  · rename_i ht
    split at hread
    · rename_i e' hargs
      cases hread
      refine (diagnoses_arguments h hlists hargs).behind [t]
        (fun _ _ _ he' => arguments?_of_error ht he') ?_ (inside_opening ht).2
        fun _ => mt (inside_opening ht).1
      rintro ⟨us, args, hargs⟩
      obtain ⟨_, left⟩ := t
      cases ht
      exact ⟨us, args, hargs left⟩
    · cases hread
  · cases hread

/-- A name with arguments. -/
def IsCall (depth : Nat) (ts : List Lexeme) : Prop :=
  ∃ name offset us args, ts = ⟨.name name, offset⟩ :: us ∧ IsArguments depth us args

/-- The call of a method fails for want of a name or of arguments, which complete it, or within
    its arguments. -/
theorem method_diagnosis (receiver : Expr) {ts : List Lexeme}
    (hread : method stop expr receiver ts = .error e) :
    Diagnosis stop (fun ts e => method stop expr receiver ts = .error e)
      (fun ts => ∃ us, IsCall depth (ts ++ us)) Inside ts e := by
  rcases ts with _ | ⟨t, behind⟩
  · cases hread
    exact .ended rfl ⟨[⟨.name "f", 0⟩, ⟨.opening, 0⟩, ⟨.closing, 0⟩], _, _, _, _, rfl, .none⟩
      not_inside_nil
  -- What is no name is the lexeme at fault.
  by_cases hne : ∀ name, t.token ≠ .name name
  · rw [method_of_ne hne] at hread
    cases hread
    exact .token [] rfl rfl (fun _ => method_of_ne hne) ⟨_, .inl rfl, rfl⟩
  obtain ⟨name, ht⟩ : ∃ name, t.token = .name name := by simpa using hne
  obtain ⟨_, offset⟩ := t
  cases ht
  rcases behind with _ | ⟨u, behind⟩
  · cases hread
    refine .ended rfl ⟨[⟨.opening, 0⟩, ⟨.closing, 0⟩], _, _, _, _, rfl, .none⟩ fun hinside => ?_
    rcases inside_cons.1 hinside with ⟨ht, _⟩ | hinside
    · cases ht
    · exact not_inside_nil hinside
  -- Behind the name, either the arguments are wrong or there are none.
  by_cases hu : u.token = .opening
  · rcases hargs : arguments stop expr behind with e' | ⟨args, rest⟩
    · rw [method_of_error hu hargs] at hread
      cases hread
      refine (diagnoses_arguments h hlists hargs).behind [⟨.name name, offset⟩, u]
        (fun _ _ _ he' => method_of_error hu he') ?_ ?_ ?_
      · rintro ⟨us, args, hargs⟩
        obtain ⟨_, left⟩ := u
        cases hu
        exact ⟨us, name, offset, _, args, rfl, hargs left⟩
      · exact fun hin => inside_cons.2 (.inr ((inside_opening hu).2 hin))
      · intro _ hout hinside
        rcases inside_cons.1 hinside with ⟨ht, _⟩ | hinside
        · cases ht
        · exact hout ((inside_opening hu).1 hinside)
    · simp only [method, methodName, opening, hu, hargs] at hread
      cases hread
  · rw [method_of_ne_opening hu] at hread
    cases hread
    exact .token [⟨.name name, offset⟩] rfl rfl
      (fun _ => method_of_ne_opening hu) ⟨_, .inl rfl, method_of_end⟩

/-- Calls of methods fail in one of them, which those before do not depend on. -/
theorem methods_diagnosis {n : Nat} {receiver : Expr} {us ts : List Lexeme}
    {hts : ts.length < n} (hreceiver : IsPostfix depth us receiver)
    (hread : methods stop expr receiver ts hts = .error e) :
    Diagnosis stop
      (fun ts e => ∀ m (hm : ts.length < m), methods stop expr receiver ts hm = .error e)
      (fun ts => Completable (IsPostfix depth) (us ++ ts)) Inside ts e := by
  fun_induction methods stop expr receiver ts hts generalizing us with
  | case1 | case4 => cases hread
  | case2 receiver t behind _ ht e' hcall =>
    cases hread
    refine (method_diagnosis h hlists receiver hcall).behind_balanced [t]
      (balanced_single (by simp [ht]) (by simp [ht]))
      (fun vs' e' _ he' m hm => methods_of_dot_error ht he' hm) ?_
    rintro ⟨ws, name, offset, vs, args, hvs, hargs⟩
    obtain ⟨_, dot⟩ := t
    cases ht
    refine ⟨ws, .method offset receiver name args, ?_⟩
    rw [List.append_assoc, List.append_assoc, hvs]
    exact hreceiver.method hargs
  | case3 receiver t behind _ ht call rest hcall _ _ ih =>
    obtain ⟨vs, hvs, hlocal⟩ := blind_method h.isLocal receiver hcall
    obtain ⟨vs', hvs', hderived⟩ := sound_method h.sound hreceiver hcall
    obtain rfl : vs = vs' := List.append_cancel_right (hvs.symm.trans hvs')
    obtain ⟨_, dot⟩ := t
    cases ht
    rw [hvs]
    refine (ih (hderived dot) hread).behind_balanced (⟨.dot, dot⟩ :: vs)
      (hreceiver.balanced.of_append (hderived dot).balanced) (fun rest' e' _ he' m hm => ?_) ?_
    · obtain ⟨_, hcall⟩ := hlocal rest'
      exact (methods_of_dot_ok rfl hcall hm).trans (he' m _)
    · rintro ⟨ws, e, he⟩
      exact ⟨ws, e, by simpa using he⟩

/-! ## Operands -/

/-- A group fails within its expression, or behind it: at the end, where a parenthesis
    completes it, or at another lexeme. -/
theorem diagnoses_group :
    Diagnoses stop (group stop expr)
      (fun us e => ∀ left, IsPrimary depth (⟨.opening, left⟩ :: us) e)
      fun ts => Listed ts ∨ Inside ts := by
  intro ts e hread
  rcases hinner : expr ts with e' | ⟨inner, rest, hlt⟩
  · rw [group_of_error hinner] at hread
    cases hread
    refine (first_diagnosis h hlists hinner).same (fun _ _ _ he' => group_of_error he') ?_ id
      fun _ => id
    rintro ⟨us, inner, hinner⟩
    refine ⟨us ++ [⟨.closing, 0⟩], inner, fun left => ?_⟩
    rw [← List.append_assoc]
    exact .group hinner
  obtain ⟨us, hus, hderived, hlocal⟩ := h.taken hinner
  rcases rest with _ | ⟨t, behind⟩
  · rw [group_of_end hinner] at hread
    cases hread
    obtain rfl : ts = us := hus.trans (List.append_nil us)
    exact .unclosed rfl ⟨[⟨.closing, 0⟩], inner, fun left => .group hderived⟩
      (.inl ⟨depth, _, .last hderived⟩)
  by_cases ht : t.token = .closing
  · rw [group_of_closing hinner ht] at hread
    cases hread
  · rw [group_of_ne hinner ht] at hread
    cases hread
    refine .token us hus rfl (fun behind' => ?_) ⟨_, .inr rfl, ?_⟩
    · obtain ⟨_, hinner⟩ := hlocal (begins_cons t behind' behind)
      exact group_of_ne hinner ht
    · have hnil := hlocal (begins_nil _)
      rw [List.append_nil] at hnil
      obtain ⟨_, hinner⟩ := hnil
      exact group_of_end hinner

/-- A primary fails at its first lexeme, at which no other could start, or in its arguments or
    its group. -/
theorem diagnoses_primary :
    Diagnoses stop (primary stop expr) (IsPrimary depth) Inside := by
  intro ts e hread
  rcases ts with _ | ⟨⟨t, offset⟩, behind⟩
  · cases hread
    exact .ended rfl ⟨[⟨.name "a", 0⟩], _, .name⟩ not_inside_nil
  cases t with
  | number | text => cases hread
  | name | field =>
    simp only [primary] at hread
    split at hread
    · rename_i e' hargs
      cases hread
      refine (arguments?_diagnosis h hlists hargs).behind_balanced [⟨_, offset⟩]
        (balanced_single (by simp) (by simp)) (fun vs' e' _ he' => ?_) ?_
      · simp only [List.cons_append, List.nil_append, primary, he']
      · rintro ⟨us, args, hargs⟩
        first
          | exact ⟨us, _, .call hargs⟩
          | exact ⟨us, _, .fieldCall hargs⟩
    all_goals cases hread
  | opening =>
    simp only [primary] at hread
    split at hread
    · rename_i e' hinner
      cases hread
      refine (diagnoses_group h hlists hinner).behind [⟨.opening, offset⟩]
        (fun vs' e' _ he' => ?_) ?_ (inside_opening rfl).2 fun _ => mt (inside_opening rfl).1
      · simp only [List.cons_append, List.nil_append, primary, he']
      · rintro ⟨us, inner, hinner⟩
        exact ⟨us, inner, hinner offset⟩
    · cases hread
  | operator | not | assign | closing | comma | dot =>
    cases hread
    exact .token [] rfl rfl (fun _ => rfl) ⟨_, .inl rfl, rfl⟩

end Arguments

/-- Behind a complete list only the closing parenthesis is missing. -/
theorem moreArguments_of_isList (hexpr : Complete BinaryOp.levels expr (IsExpression depth))
    {n : Nat} {earlier es : List Expr} {ts : List Lexeme} (h : IsList depth ts es)
    (hts : ts.length ≤ n) :
    moreArguments stop expr earlier ts hts = .error ⟨stop, .unclosedParenthesis⟩ := by
  induction h using IsList.induction generalizing earlier with
  | last ts e h =>
    have hread := @hexpr ts e [] h trivial
    rw [List.append_nil] at hread
    obtain ⟨_, hread⟩ := hread
    exact moreArguments_of_end hread hts
  | cons comma ts us e es h _ ih =>
    obtain ⟨_, hread⟩ := @hexpr ts e (⟨.comma, comma⟩ :: us) h
      (stops_of_ne (by simp) (by simp) (by simp))
    exact (moreArguments_of_comma hread rfl hts).trans (ih _)

/-- Under a limit as well: what it says, unless operands lie too deeply within each other, is
    what the limit says under which the list can be derived. -/
theorem seesLists_expression (stop depth : Nat) :
    SeesLists stop (expression (operand stop depth)) := by
  rintro n earlier ts hts e hread hcause ⟨depth', es, hes⟩
  have hread' := (moreArguments_agrees
    (expression_operand_refines (Nat.le_max_left depth depth')) earlier ts hts).eq_error hread
      (by simp [hcause])
  have hunclosed : moreArguments stop _ earlier ts hts = _ :=
    moreArguments_of_isList (complete_expression (complete_operand stop _))
      (hes.mono (Nat.le_max_right depth depth')) hts
  rw [hread'] at hunclosed
  cases hunclosed
  cases hcause

/-- An operand fails for its depth, for want of one behind a prefix, in its primary, or in the
    calls of methods behind it. By induction on the depth, which counts for everything in
    parentheses, too. -/
theorem diagnoses_operand (stop depth : Nat) :
    Diagnoses stop (operand stop depth) (IsOperand depth) Inside := by
  induction depth with
  | zero =>
    intro ts e hread
    cases ts <;> cases hread <;> exact .nested rfl
  | succ depth ih =>
    have hguided : Guided stop (operand stop depth) (IsOperand depth) :=
      ⟨sound_operand stop depth, local_operand stop depth, ih⟩
    have hexpr := guided_expression hguided
    have hlists := seesLists_expression stop depth
    intro ts e hread
    rcases ts with _ | ⟨t, behind⟩ <;> simp only [operand] at hread
    -- Any operand completes an empty text.
    · cases hread
      exact .ended rfl ⟨[⟨.name "a", 0⟩], _, .postfixed (.primary .name)⟩ not_inside_nil
    split at hread
    -- What is wrong with the operand of a prefix operator is wrong with the whole.
    · rename_i op hop
      split at hread
      · rename_i e' hinner
        cases hread
        refine (ih hinner).behind_balanced [t] (balanced_single ?_ ?_)
          (fun vs' e' _ he' => ?_) ?_
        · rintro ht
          rw [ht] at hop
          cases hop
        · rintro ht
          rw [ht] at hop
          cases hop
        · simp only [List.cons_append, List.nil_append, operand, hop, he']
        · rintro ⟨us, x, hx⟩
          exact ⟨us, _, hx.prefixed hop⟩
      · cases hread
    -- There is none: either the primary is wrong, or the methods behind it are.
    · rename_i hprefix
      split at hread
      · rename_i e' hprimary
        cases hread
        refine (diagnoses_primary hexpr hlists hprimary).same (fun vs' e' hbegins he' => ?_) ?_ id
          fun _ => id
        · rcases hbegins.cases with rfl | ⟨us, rfl⟩
          · exact he'
          · simp only [operand, hprefix, he']
        · rintro ⟨us, x, hx⟩
          exact ⟨us, x, .postfixed (.primary hx)⟩
      · rename_i receiver rest hprimary
        obtain ⟨us, hus, hderived, hlocal⟩ :=
          (local_primary hexpr.isLocal).taken (sound_primary hexpr.sound) hprimary
        rw [hus]
        refine (methods_diagnosis hexpr hlists (.primary hderived) hread).behind_balanced us
          hderived.balanced (fun rest' e' hbegins he' => ?_) ?_
        · obtain ⟨hlt, hprimary⟩ := hlocal hbegins
          rcases us with _ | ⟨u, us⟩
          · exact absurd hlt (Nat.lt_irrefl _)
          obtain ⟨rfl, _⟩ := List.cons.inj hus
          simp only [List.cons_append] at hprimary ⊢
          simp only [operand, hprefix, hprimary]
          exact he' _ _
        · rintro ⟨ws, x, hx⟩
          exact ⟨ws, x, .postfixed hx⟩

theorem guided_operand (stop depth : Nat) :
    Guided stop (operand stop depth) (IsOperand depth) :=
  ⟨sound_operand stop depth, local_operand stop depth, diagnoses_operand stop depth⟩

/-! ## Formulas -/

/-- The lexemes are accepted as a formula. -/
def Accepts (stop depth : Nat) (ts : List Lexeme) : Prop :=
  ∃ s, Statement.ofLexemes stop depth ts = .ok s

theorem accepts_iff {ts : List Lexeme} :
    Accepts stop depth ts ↔ ∃ s, IsStatement depth ts s :=
  exists_congr fun _ => ⟨isStatement_of_ofLexemes, ofLexemes_of_isStatement stop⟩

/-- What fails, but not because operands lie too deeply within each other, is accepted under
    no limit. -/
theorem not_accepts_of_error {ts : List Lexeme}
    (hread : Statement.ofLexemes stop depth ts = .error e) (he : e.cause ≠ .nestedTooDeeply)
    (stop' depth' : Nat) : ¬ Accepts stop' depth' ts := by
  intro haccepts
  obtain ⟨s, hs⟩ := accepts_iff.1 haccepts
  have hread' := (ofLexemes_agrees stop (Nat.le_max_left depth depth') ts).eq_error hread he
  rw [ofLexemes_of_isStatement stop (hs.mono (Nat.le_max_right depth depth'))] at hread'
  cases hread'

/-- What an expression that fails to its end is diagnosed with: something stands in it where
    it cannot stand, or something follows it. -/
theorem exprOfLexemes_diagnosis {ts : List Lexeme}
    (hread : Expr.ofLexemes stop depth ts = .error e) :
    Diagnosis stop (fun us e => Expr.ofLexemes stop depth us = .error e)
        (Completable (IsExpression depth)) Inside ts e ∨
      ∃ before t behind x, ts = before ++ t :: behind ∧ e = ⟨t.offset, .trailingTokens t.token⟩ ∧
        IsExpression depth before x ∧
        ∀ behind', Expr.ofLexemes stop depth (before ++ t :: behind') = .error e := by
  have hguided := guided_expression (guided_operand stop depth)
  rcases hexpr : expression (operand stop depth) ts with e' | ⟨x, rest, hlt⟩
  · have hread' : Expr.ofLexemes stop depth ts = .error e' := by
      simp only [Expr.ofLexemes, hexpr]
    obtain rfl : e = e' := Except.error.inj (hread.symm.trans hread')
    exact .inl ((hguided.diagnoses hexpr).same
      (fun _ _ _ he' => by simp only [Expr.ofLexemes, he']) id id fun _ => id)
  · rcases rest with _ | ⟨t, behind⟩
    · simp only [Expr.ofLexemes, hexpr] at hread
      cases hread
    · have htrailing {us : List Lexeme} {behind' : List Lexeme}
          {hlt : (t :: behind').length < us.length}
          (hus : expression (operand stop depth) us = .ok (x, ⟨t :: behind', hlt⟩)) :
          Expr.ofLexemes stop depth us = .error ⟨t.offset, .trailingTokens t.token⟩ := by
        simp only [Expr.ofLexemes, hus]
      obtain rfl := Except.error.inj (hread.symm.trans (htrailing hexpr))
      obtain ⟨before, hbefore, hx, hlocal⟩ := hguided.taken hexpr
      refine .inr ⟨before, t, behind, x, hbefore, rfl, hx, fun behind' => ?_⟩
      obtain ⟨_, hexpr⟩ := hlocal (begins_cons t behind' behind)
      exact htrailing hexpr

/-- The lexemes begin with a reference and a sign of assignment. -/
def BeginsAssignment (ts : List Lexeme) : Prop :=
  ∃ (r : Reference) (target offset : Nat) (behind : List Lexeme),
    ts = ⟨r.token, target⟩ :: ⟨.assign, offset⟩ :: behind

theorem ofLexemes_assignment (r : Reference) (target offset : Nat) (behind : List Lexeme) :
    Statement.ofLexemes stop depth (⟨r.token, target⟩ :: ⟨.assign, offset⟩ :: behind) =
      (Expr.ofLexemes stop depth behind).map (.assignment offset target r) := by
  cases r <;> rfl

/-- What does not begin with an assignment is read as an expression. -/
theorem ofLexemes_expression {ts : List Lexeme} (h : ¬ BeginsAssignment ts) :
    Statement.ofLexemes stop depth ts = (Expr.ofLexemes stop depth ts).map .expression := by
  unfold Statement.ofLexemes
  split
  · rename_i name target offset behind
    exact absurd ⟨.name name, target, offset, behind, rfl⟩ h
  · rename_i object name target offset behind
    exact absurd ⟨.field object name, target, offset, behind, rfl⟩ h
  · rfl

theorem error_of_map_eq_error {α β : Type} {x : Except (Located SyntaxError) α} {f : α → β}
    (h : x.map f = .error e) : x = .error e := by
  cases x <;> cases h
  rfl

theorem BeginsAssignment.of_prefix {before us : List Lexeme} (h : BeginsAssignment before) :
    BeginsAssignment (before ++ us) := by
  obtain ⟨r, target, offset, behind, rfl⟩ := h
  exact ⟨r, target, offset, behind ++ us, rfl⟩

/-- Behind something else, a lexeme decides whether an assignment begins. -/
theorem BeginsAssignment.of_behind {before behind behind' : List Lexeme} {t : Lexeme}
    (hne : before ≠ []) (h : BeginsAssignment (before ++ t :: behind')) :
    BeginsAssignment (before ++ t :: behind) := by
  obtain ⟨r, target, offset, rest, h⟩ := h
  rcases before with _ | ⟨b, _ | ⟨c, before⟩⟩
  · exact absurd rfl hne
  · cases h
    exact ⟨r, target, offset, behind, rfl⟩
  · cases h
    exact ⟨r, target, offset, before ++ t :: behind, rfl⟩

theorem exists_isExpression_reference (r : Reference) (target depth : Nat) :
    ∃ x, IsExpression (depth + 1) [⟨r.token, target⟩] x := by
  cases r with
  | name => exact ⟨_, (IsOperand.postfixed (.primary .name)).isBelow _⟩
  | field => exact ⟨_, (IsOperand.postfixed (.primary .field)).isBelow _⟩

/-- What a formula that fails is diagnosed with: something stands in it where it cannot
    stand, or something follows it. -/
theorem statement_diagnosis {ts : List Lexeme}
    (hread : Statement.ofLexemes stop depth ts = .error e) :
    Diagnosis stop (fun us e => Statement.ofLexemes stop depth us = .error e)
        (Completable (IsStatement depth)) Inside ts e ∨
      ∃ before t behind, ts = before ++ t :: behind ∧ e = ⟨t.offset, .trailingTokens t.token⟩ ∧
        (∃ s, IsStatement depth before s) ∧
        ∀ behind', Statement.ofLexemes stop depth (before ++ t :: behind') = .error e := by
  by_cases hassignment : BeginsAssignment ts
  · obtain ⟨r, target, offset, rest, rfl⟩ := hassignment
    have hstatement {us : List Lexeme} {x : Expr} (hx : IsExpression depth us x) :
        ∃ s, IsStatement depth (⟨r.token, target⟩ :: ⟨.assign, offset⟩ :: us) s := by
      cases r with
      | name => exact ⟨_, .assignName hx⟩
      | field => exact ⟨_, .assignField hx⟩
    have hfails {us : List Lexeme} {e' : Located SyntaxError}
        (he' : Expr.ofLexemes stop depth us = .error e') :
        Statement.ofLexemes stop depth (⟨r.token, target⟩ :: ⟨.assign, offset⟩ :: us) =
          .error e' := by
      rw [ofLexemes_assignment, he']
      rfl
    rw [ofLexemes_assignment] at hread
    rcases exprOfLexemes_diagnosis (error_of_map_eq_error hread) with
      h | ⟨before, t, behind, x, rfl, he, hx, hafter⟩
    · refine .inl (h.behind_balanced [⟨r.token, target⟩, ⟨.assign, offset⟩] ?_
        (fun _ _ _ he' => hfails he') ?_)
      · cases r <;>
          exact (balanced_single (by simp) (by simp)).cons (by simp [Reference.token])
            (by simp [Reference.token])
      · rintro ⟨us, x, hx⟩
        exact ⟨us, hstatement hx⟩
    · exact .inr ⟨⟨r.token, target⟩ :: ⟨.assign, offset⟩ :: before, t, behind, rfl, he,
        hstatement hx, fun behind' => hfails (hafter behind')⟩
  · -- What follows the lexeme at fault must not make an assignment of it.
    rw [ofLexemes_expression hassignment] at hread
    have hfails {us : List Lexeme} {e' : Located SyntaxError} (hus : ¬ BeginsAssignment us)
        (he' : Expr.ofLexemes stop depth us = .error e') :
        Statement.ofLexemes stop depth us = .error e' := by
      rw [ofLexemes_expression hus, he']
      rfl
    rcases exprOfLexemes_diagnosis (error_of_map_eq_error hread) with
      h | ⟨before, t, behind, x, rfl, he, hx, hafter⟩
    · cases h with
      | nested he => exact .inl (.nested he)
      | ended he hc hi =>
        obtain ⟨us, x, hx⟩ := hc
        exact .inl (.ended he ⟨us, _, .expression hx⟩ hi)
      | unclosed he hc hi =>
        obtain ⟨us, x, hx⟩ := hc
        exact .inl (.unclosed he ⟨us, _, .expression hx⟩ hi)
      | @token before behind t expected hts he hafter hbefore =>
        subst hts
        obtain ⟨e', he', hbefore⟩ := hbefore
        refine .inl (.token before rfl he (fun behind' => hfails (fun h => ?_) (hafter behind'))
          ⟨e', he', hfails (fun h => hassignment h.of_prefix) hbefore⟩)
        by_cases hne : before = []
        · -- A reference is not what cannot stand at the beginning.
          subst hne
          obtain ⟨r, target, offset, rest, h⟩ := h
          cases h
          obtain ⟨x, hx⟩ := exists_isExpression_reference r target depth
          have hread := (exprOfLexemes_agrees stop (Nat.le_succ depth) _).eq_error (hafter [])
            (by simp [he])
          rw [List.nil_append, ofLexemes_complete stop hx] at hread
          cases hread
        · exact hassignment (h.of_behind hne)
    · have hne : before ≠ [] := by
        rintro rfl
        obtain ⟨_, _, h, _⟩ := hx.exists_head
        cases h
      exact .inr ⟨before, t, behind, rfl, he, ⟨_, .expression hx⟩,
        fun behind' => hfails (fun h => hassignment (h.of_behind hne)) (hafter behind')⟩

/-- Lexemes with increasing offsets are told apart by them. -/
theorem eq_of_offset_eq {ts : List Lexeme}
    (hincreasing : (ts.map Lexeme.offset).Pairwise (· < ·)) {j k : Nat} {t u : Lexeme}
    (hj : ts[j]? = some u) (hk : ts[k]? = some t) (h : u.offset = t.offset) : j = k := by
  have hnodup : (ts.map Lexeme.offset).Nodup := hincreasing.imp Nat.ne_of_lt
  have hlt : j < (ts.map Lexeme.offset).length := by
    rw [List.length_map]
    exact (List.getElem?_eq_some_iff.1 hj).1
  exact (List.getElem?_inj hlt hnodup).1 (by simp [hj, hk, h])

/-- An error is reported at the first lexeme that cannot stand where it stands: those before
    it are the beginning of a formula, those up to it are not, under any limit. It is said
    to trail if those before it are themselves a formula, else to be unexpected. If all
    lexemes together are the beginning of a formula, the error is reported at the end; what
    is missing is said to be a closing parenthesis if they end right behind a complete
    expression inside an open group or open arguments. -/
theorem ofLexemes_viable_prefix {ts : List Lexeme}
    (hincreasing : (ts.map Lexeme.offset).Pairwise (· < ·)) (hstop : ∀ t ∈ ts, t.offset < stop)
    (hread : Statement.ofLexemes stop depth ts = .error e) (he : e.cause ≠ .nestedTooDeeply) :
    (∃ k t, ts[k]? = some t ∧ e.offset = t.offset ∧
        (∀ j u, ts[j]? = some u → e.offset = u.offset → j = k) ∧
        (∃ us, Accepts stop depth (ts.take k ++ us)) ∧
        (∀ stop' depth' us, ¬ Accepts stop' depth' (ts.take (k + 1) ++ us)) ∧
        ((e.cause = .trailingTokens t.token ∧ Accepts stop depth (ts.take k)) ∨
          ((∃ expected, e.cause = .unexpectedToken expected t.token) ∧
            ¬ Accepts stop depth (ts.take k)))) ∨
      (e.offset = stop ∧ (∀ t ∈ ts, e.offset ≠ t.offset) ∧ (∃ us, Accepts stop depth (ts ++ us)) ∧
        ((e.cause = .unexpectedEnd ∧ ¬ Inside ts) ∨
          (e.cause = .unclosedParenthesis ∧ Inside ts))) := by
  have hne (hend : e.offset = stop) : ∀ t ∈ ts, e.offset ≠ t.offset := fun t ht h =>
    Nat.lt_irrefl _ (h ▸ hend ▸ hstop t ht)
  have haccepts {us : List Lexeme} (h : Completable (IsStatement depth) us) :
      ∃ vs, Accepts stop depth (us ++ vs) := by
    obtain ⟨vs, s, hs⟩ := h
    exact ⟨vs, accepts_iff.2 ⟨s, hs⟩⟩
  -- What is reported at the lexeme behind `before`.
  have htoken {before behind : List Lexeme} {t : Lexeme} (hts : ts = before ++ t :: behind)
      (hoffset : e.offset = t.offset)
      (hafter : ∀ behind', Statement.ofLexemes stop depth (before ++ t :: behind') = .error e) :
      ts[before.length]? = some t ∧
        (∀ j u, ts[j]? = some u → e.offset = u.offset → j = before.length) ∧
        ts.take before.length = before ∧
        ∀ stop' depth' us, ¬ Accepts stop' depth' (ts.take (before.length + 1) ++ us) := by
    have hk : ts[before.length]? = some t := by simp [hts]
    refine ⟨hk, fun j u hj h => eq_of_offset_eq hincreasing hj hk (by rw [← h, hoffset]),
      by simp [hts], fun stop' depth' us => ?_⟩
    have htake : ts.take (before.length + 1) = before ++ [t] := by
      rw [hts, List.take_length_add_append]
      rfl
    rw [htake, List.append_assoc]
    exact not_accepts_of_error (hafter us) he stop' depth'
  rcases statement_diagnosis hread with h | ⟨before, t, behind, hts, hcause, ⟨s, hs⟩, hafter⟩
  · cases h with
    | nested hnested => exact absurd hnested he
    | ended hcause hc hi =>
      subst hcause
      exact .inr ⟨rfl, hne rfl, haccepts hc, .inl ⟨rfl, hi⟩⟩
    | unclosed hcause hc hi =>
      subst hcause
      exact .inr ⟨rfl, hne rfl, haccepts hc, .inr ⟨rfl, hi⟩⟩
    | @token before behind t expected hts hcause hafter hbefore =>
      obtain ⟨hk, hunique, htake, hnone⟩ := htoken hts (by rw [hcause]) hafter
      obtain ⟨e', he', hbefore⟩ := hbefore
      refine .inl ⟨before.length, t, hk, by rw [hcause], hunique, ?_, hnone,
        .inr ⟨⟨expected, by rw [hcause]⟩, ?_⟩⟩ <;> rw [htake]
      · -- Without `t`, the lexemes end too early, so they can be completed.
        rcases statement_diagnosis hbefore with h | ⟨_, u, _, _, hcause', _⟩
        · cases h with
          | nested hnested => rcases he' with rfl | rfl <;> cases hnested
          | ended _ hc _ | unclosed _ hc _ => exact haccepts hc
          | token _ _ hcause' => rcases he' with rfl | rfl <;> cases hcause'
        · rcases he' with rfl | rfl <;> cases hcause'
      · exact not_accepts_of_error hbefore (by rcases he' with rfl | rfl <;> simp) stop depth
  · obtain ⟨hk, hunique, htake, hnone⟩ := htoken hts (by rw [hcause]) hafter
    have hs : Accepts stop depth before := accepts_iff.2 ⟨s, hs⟩
    refine .inl ⟨before.length, t, hk, by rw [hcause], hunique, ⟨[], ?_⟩, hnone,
      .inl ⟨by rw [hcause], ?_⟩⟩ <;> rw [htake]
    · rwa [List.append_nil]
    · exact hs

/-- In `(a ,` the comma cannot stand where it stands, as no function is called. -/
theorem ofLexemes_viable_prefix_comma :
    let ts : List Lexeme := [⟨.opening, 0⟩, ⟨.name "a", 1⟩, ⟨.comma, 3⟩]
    Statement.ofLexemes 4 8 ts = .error ⟨3, .unexpectedToken (some .closing) .comma⟩ ∧
      (∃ us, Accepts 4 8 (ts.take 2 ++ us)) ∧ ¬ Accepts 4 8 (ts.take 2) ∧
      ∀ stop' depth' us, ¬ Accepts stop' depth' (ts ++ us) := by
  intro ts
  have hread : Statement.ofLexemes 4 8 ts =
      .error ⟨3, .unexpectedToken (some .closing) .comma⟩ := by cbv
  rcases ofLexemes_viable_prefix (by decide) (by simp [ts]) hread (by simp) with
    ⟨k, t, hk, hoffset, hunique, hbefore, hnone, hcause⟩ | ⟨hend, _⟩
  · obtain rfl : 2 = k := hunique 2 ⟨.comma, 3⟩ rfl rfl
    rcases hcause with ⟨hcause, _⟩ | ⟨_, hnot⟩
    · cases hcause
    · exact ⟨hread, hbefore, hnot, hnone⟩
  · cases hend

end Formula.Syntax
