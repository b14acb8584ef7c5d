import Formula.Proofs.Parsing.Completeness

/-!
# Parentheses

In what the grammar derives, every parenthesis that is opened is closed again, and none
is closed that has not been opened there (`IsBelow.balanced`). So where lexemes end
inside an open group or open arguments, right behind a complete expression (`Inside`),
the parenthesis that is open is not one of an expression before its end
(`inside_append`).
-/

namespace Formula.Syntax

/-- The number of parentheses that are open behind the lexemes, if `n` are open before
    them; nothing if one is closed that is not open. -/
def openBehind (n : Nat) : List Lexeme → Option Nat
  | [] => some n
  | ⟨.opening, _⟩ :: ts => openBehind (n + 1) ts
  | ⟨.closing, _⟩ :: ts =>
    match n with
    | 0 => none
    | n + 1 => openBehind n ts
  | _ :: ts => openBehind n ts

/-- All parentheses that are opened are closed, and no others. -/
def Balanced (ts : List Lexeme) : Prop := ∀ n, openBehind n ts = some n

/-- What is open behind two parts is open behind the second one, told from what is open behind
    the first. -/
theorem openBehind_append (n : Nat) (us vs : List Lexeme) :
    openBehind n (us ++ vs) = (openBehind n us).bind (openBehind · vs) := by
  fun_induction openBehind n us with
  | case1 => rfl
  | case2 n o us ih => simpa only [List.cons_append, openBehind] using ih
  | case3 o us => rfl
  | case4 o us n ih => simpa only [List.cons_append, openBehind] using ih
  | case5 n t us ho hc ih =>
    rw [List.cons_append, openBehind, ih]
    · exact ho
    · exact hc

/-- Parentheses that are open before the lexemes and not closed by them stay open. -/
theorem openBehind_add {n m : Nat} {ts : List Lexeme} (h : openBehind n ts = some m) (k : Nat) :
    openBehind (n + k) ts = some (m + k) := by
  fun_induction openBehind n ts with
  | case1 =>
    cases h
    rfl
  | case2 n o ts ih =>
    rw [openBehind, Nat.add_right_comm]
    exact ih h
  | case3 => cases h
  | case4 o ts n ih =>
    rw [Nat.succ_add, openBehind]
    exact ih h
  | case5 n t ts ho hc ih =>
    rw [openBehind, ih h]
    · exact ho
    · exact hc

theorem Balanced.append {us vs : List Lexeme} (hus : Balanced us) (hvs : Balanced vs) :
    Balanced (us ++ vs) := by
  intro n
  rw [openBehind_append, hus]
  exact hvs n

/-- What follows lexemes whose parentheses are closed is balanced if the whole is. -/
theorem Balanced.of_append {us vs : List Lexeme} (hus : Balanced us) (h : Balanced (us ++ vs)) :
    Balanced vs := by
  intro n
  have hn := h n
  rwa [openBehind_append, hus] at hn

theorem Balanced.cons {t : Lexeme} {ts : List Lexeme} (h : Balanced ts)
    (hopening : t.token ≠ .opening) (hclosing : t.token ≠ .closing) : Balanced (t :: ts) := by
  intro n
  rw [openBehind, h n]
  · rintro o rfl
    exact hopening rfl
  · rintro o rfl
    exact hclosing rfl

theorem Balanced.enclosed {ts : List Lexeme} (h : Balanced ts) (left right : Nat) :
    Balanced (⟨.opening, left⟩ :: ts ++ [⟨.closing, right⟩]) := by
  intro n
  rw [List.cons_append, openBehind, openBehind_append, h (n + 1)]
  rfl

/-- No beginning of balanced lexemes ends with an open parenthesis, behind which other
    balanced lexemes would contain the rest of them. -/
theorem not_balanced_of_opening {before us vs : List Lexeme} {left : Nat}
    (h : Balanced (before ++ ⟨.opening, left⟩ :: us)) : ¬ Balanced (us ++ vs) := by
  intro h'
  have hall := h 0
  have hrest := h' 0
  rw [openBehind_append] at hall hrest
  rcases hb : openBehind 0 before with _ | m <;> rw [hb] at hall
  · cases hall
  rcases hu : openBehind 0 us with _ | k <;> rw [hu] at hrest
  · cases hrest
  -- What follows the parenthesis leaves it open, so it is open at the end.
  have hopen := openBehind_add hu (m + 1)
  rw [Nat.zero_add] at hopen
  simp only [Option.bind_some, openBehind, hopen, Option.some.injEq] at hall
  omega

/-! ## Derivations -/

theorem balanced_nil : Balanced [] := fun _ => rfl

theorem balanced_single {t : Lexeme} (hopening : t.token ≠ .opening)
    (hclosing : t.token ≠ .closing) : Balanced [t] :=
  balanced_nil.cons hopening hclosing

mutual

/-- An expression closes the parentheses it opens, and no others. -/
theorem IsBelow.balanced {depth level : Nat} {ts : List Lexeme} {e : Expr} :
    IsBelow depth level ts e → Balanced ts
  | .operand h => h.balanced
  | .up h => h.balanced
  | .binary hl hr => hl.balanced.append (hr.balanced.cons (by simp) (by simp))

theorem IsOperand.balanced {depth : Nat} {ts : List Lexeme} {e : Expr} :
    IsOperand depth ts e → Balanced ts
  | .negate h | .not h => h.balanced.cons (by simp) (by simp)
  | .postfixed h => h.balanced

theorem IsPostfix.balanced {depth : Nat} {ts : List Lexeme} {e : Expr} :
    IsPostfix depth ts e → Balanced ts
  | .primary h => h.balanced
  | .method h hargs =>
    h.balanced.append ((hargs.balanced.cons (by simp) (by simp)).cons (by simp) (by simp))

theorem IsPrimary.balanced {depth : Nat} {ts : List Lexeme} {e : Expr} :
    IsPrimary depth ts e → Balanced ts
  | .number | .text | .name | .field => balanced_single (by simp) (by simp)
  | .call h | .fieldCall h => h.balanced.cons (by simp) (by simp)
  | .group h => h.balanced.enclosed _ _

theorem IsArguments.balanced {depth : Nat} {ts : List Lexeme} {args : List Expr} :
    IsArguments depth ts args → Balanced ts
  | .none => balanced_nil.enclosed _ _
  | .some h => h.balanced.enclosed _ _

theorem IsList.balanced {depth : Nat} {ts : List Lexeme} {es : List Expr} :
    IsList depth ts es → Balanced ts
  | .last h => h.balanced
  | .cons h hes => h.balanced.append (hes.balanced.cons (by simp) (by simp))

end

/-! ## Open parentheses -/

/-- The lexemes are complete expressions with commas between them. -/
def Listed (ts : List Lexeme) : Prop := ∃ depth es, IsList depth ts es

/-- The lexemes end right behind a complete expression inside an open group or open
    arguments. -/
def Inside (ts : List Lexeme) : Prop :=
  ∃ before left us, ts = before ++ ⟨.opening, left⟩ :: us ∧ Listed us

theorem not_inside_nil : ¬ Inside [] := by
  rintro ⟨before, left, us, h, _⟩
  exact absurd h (by simp)

/-- Lexemes are inside a group that is opened by the first one, or inside one that is opened
    later. -/
theorem inside_cons {t : Lexeme} {ts : List Lexeme} :
    Inside (t :: ts) ↔ (t.token = .opening ∧ Listed ts) ∨ Inside ts := by
  constructor
  · rintro ⟨_ | ⟨u, before⟩, left, us, h, hus⟩
    · cases h
      exact .inl ⟨rfl, hus⟩
    · cases h
      exact .inr ⟨before, left, us, rfl, hus⟩
  · rintro (⟨ht, hts⟩ | ⟨before, left, us, rfl, hus⟩)
    · obtain ⟨_, left⟩ := t
      cases ht
      exact ⟨[], left, ts, rfl, hts⟩
    · exact ⟨t :: before, left, us, rfl, hus⟩

theorem inside_opening {t : Lexeme} {ts : List Lexeme} (ht : t.token = .opening) :
    Inside (t :: ts) ↔ Listed ts ∨ Inside ts := by
  rw [inside_cons, and_iff_right ht]

/-- Balanced lexemes do not open what is open behind them. -/
theorem inside_append {us vs : List Lexeme} (h : Balanced us) : Inside (us ++ vs) ↔ Inside vs := by
  constructor
  · rintro ⟨before, left, ws, heq, depth, es, hws⟩
    -- The open parenthesis stands behind `us`, or in it.
    rcases List.append_eq_append_iff.1 heq with ⟨c, rfl, rfl⟩ | ⟨c, rfl, hc⟩
    · exact ⟨c, left, ws, rfl, depth, es, hws⟩
    · rcases c with _ | ⟨u, c⟩
      · exact ⟨[], left, ws, hc.symm, depth, es, hws⟩
      · cases hc
        exact absurd hws.balanced (not_balanced_of_opening h)
  · rintro ⟨before, left, ws, rfl, hws⟩
    exact ⟨us ++ before, left, ws, (List.append_assoc ..).symm, hws⟩

end Formula.Syntax
