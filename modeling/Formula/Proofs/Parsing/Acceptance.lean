import Formula.Evaluation
import Formula.Proofs.Parsing.Completeness

/-!
# Reading is the grammar

Formulas are read exactly where the grammar derives them, and the tree is that of the
derivation, of which there is no more than one (`ofLexemes_iff`). A greater depth
derives all that a smaller one does, and the same trees (`IsStatement.mono`).

The sign of assignment never stands in an expression, as an expression that a token
like it follows cannot be the beginning of a longer one (`IsExpression.not_append`).
-/

namespace Formula.Syntax

/-! ## Depth -/

mutual

/-- What is an expression within some depth is one within the next; so is every part of it. -/
theorem IsBelow.succ {depth level : Nat} {ts : List Lexeme} {e : Expr} :
    IsBelow depth level ts e → IsBelow (depth + 1) level ts e
  | .operand h => .operand h.succ
  | .up h => .up h.succ
  | .binary hl hr => .binary hl.succ hr.succ

theorem IsOperand.succ {depth : Nat} {ts : List Lexeme} {e : Expr} :
    IsOperand depth ts e → IsOperand (depth + 1) ts e
  | .negate h => .negate h.succ
  | .not h => .not h.succ
  | .postfixed h => .postfixed h.succ

theorem IsPostfix.succ {depth : Nat} {ts : List Lexeme} {e : Expr} :
    IsPostfix depth ts e → IsPostfix (depth + 1) ts e
  | .primary h => .primary h.succ
  | .method h hargs => .method h.succ hargs.succ

theorem IsPrimary.succ {depth : Nat} {ts : List Lexeme} {e : Expr} :
    IsPrimary depth ts e → IsPrimary (depth + 1) ts e
  | .number => .number
  | .text => .text
  | .name => .name
  | .field => .field
  | .call h => .call h.succ
  | .fieldCall h => .fieldCall h.succ
  | .group h => .group h.succ

theorem IsArguments.succ {depth : Nat} {ts : List Lexeme} {args : List Expr} :
    IsArguments depth ts args → IsArguments (depth + 1) ts args
  | .none => .none
  | .some h => .some h.succ

theorem IsList.succ {depth : Nat} {ts : List Lexeme} {es : List Expr} :
    IsList depth ts es → IsList (depth + 1) ts es
  | .last h => .last h.succ
  | .cons h hes => .cons h.succ hes.succ

end

variable {depth : Nat} {ts : List Lexeme} {e : Expr} {s : Statement}

theorem IsStatement.succ (h : IsStatement depth ts s) : IsStatement (depth + 1) ts s := by
  cases h with
  | expression h => exact .expression h.succ
  | assignName h => exact .assignName h.succ
  | assignField h => exact .assignField h.succ

/-- A larger limit accepts what a smaller one does. -/
theorem IsStatement.mono {depth' : Nat} (hle : depth ≤ depth') (h : IsStatement depth ts s) :
    IsStatement depth' ts s := by
  induction hle with
  | refl => exact h
  | step _ ih => exact ih.succ

theorem IsExpression.mono {depth' : Nat} (hle : depth ≤ depth') (h : IsExpression depth ts e) :
    IsExpression depth' ts e := by
  induction hle with
  | refl => exact h
  | step _ ih => exact ih.succ

theorem IsList.mono {depth' : Nat} (hle : depth ≤ depth') {es : List Expr}
    (h : IsList depth ts es) : IsList depth' ts es := by
  induction hle with
  | refl => exact h
  | step _ ih => exact ih.succ

/-! ## Expressions before a sign of assignment -/

/-- An operand is an expression of any level. -/
theorem IsOperand.isBelow (h : IsOperand depth ts e) (level : Nat) : IsBelow depth level ts e := by
  induction level with
  | zero => exact .operand h
  | succ level ih => exact .up ih

/-- An expression that is complete before a lexeme is not the beginning of a longer one
    with that lexeme. -/
theorem IsExpression.not_append {d : Expr} {t : Lexeme} {us vs : List Lexeme}
    (h : IsExpression depth us d) (hstops : Stops BinaryOp.levels (t :: vs)) :
    ¬ IsExpression depth (us ++ t :: vs) e := by
  intro h'
  -- The reader stops before `t`, and so does not get to the end of the longer one.
  obtain ⟨_, hread⟩ := complete_expression (complete_operand 0 depth) h hstops
  have hread' := ofLexemes_complete 0 h'
  simp only [Expr.ofLexemes, hread] at hread'
  cases hread'

/-- No expression goes on with an assignment behind its first token. -/
theorem not_isExpression_assign {target offset : Nat} {t : Token} {d : Expr}
    (h : IsPrimary depth [⟨t, target⟩] d) :
    ¬ IsExpression depth (⟨t, target⟩ :: ⟨.assign, offset⟩ :: ts) e := by
  intro h'
  -- The target is an operand one level deeper, if the depth leaves none for it here.
  have hd : IsExpression (depth + 1) [⟨t, target⟩] d := (IsOperand.postfixed (.primary h)).isBelow _
  exact hd.not_append (stops_of_ne (by simp) (by simp) (by simp)) h'.succ

/-! ## Formulas -/

/-- What is parsed is a formula of the grammar. -/
theorem isStatement_of_ofLexemes {stop : Nat} (h : Statement.ofLexemes stop depth ts = .ok s) :
    IsStatement depth ts s := by
  have hmap {f : Expr → Statement} {us : List Lexeme}
      (h : (Expr.ofLexemes stop depth us).map f = .ok s) :
      ∃ e, IsExpression depth us e ∧ f e = s := by
    rcases he : Expr.ofLexemes stop depth us with _ | e <;> rw [he] at h <;> cases h
    exact ⟨e, ofLexemes_sound he, rfl⟩
  unfold Statement.ofLexemes at h
  split at h <;> obtain ⟨e, he, rfl⟩ := hmap h
  · exact .assignName he
  · exact .assignField he
  · exact .expression he

/-- A formula of the grammar is parsed, as it is. -/
theorem ofLexemes_of_isStatement (stop : Nat) (h : IsStatement depth ts s) :
    Statement.ofLexemes stop depth ts = .ok s := by
  cases h with
  | expression h =>
    unfold Statement.ofLexemes
    split
    · exact absurd h (not_isExpression_assign .name)
    · exact absurd h (not_isExpression_assign .field)
    · rw [ofLexemes_complete stop h]
      rfl
  | assignName h | assignField h =>
    simp only [Statement.ofLexemes, ofLexemes_complete stop h, Except.map]

/-- A formula that is read is made up of the tokens of its text. -/
theorem exists_tokens_of_read {units : List String} {settings : Settings} {source : String}
    (h : Statement.read units settings source = .ok s) :
    ∃ ts, tokenize { units, separator := settings.decimalSeparator } source = .ok ts ∧
      IsStatement settings.maxDepth ts s := by
  rw [Statement.read] at h
  rcases hts : tokenize { units, separator := settings.decimalSeparator } source with e | ts <;>
    rw [hts] at h
  · cases h
  · exact ⟨ts, rfl, isStatement_of_ofLexemes h⟩

/-- The lexemes are read as a formula exactly if the grammar derives it from them, and
    whatever the depth, it derives one formula at most. -/
theorem ofLexemes_iff (stop depth : Nat) (ts : List Lexeme) :
    (∀ s, Statement.ofLexemes stop depth ts = .ok s ↔ IsStatement depth ts s) ∧
      ∀ d d' s s', IsStatement d ts s → IsStatement d' ts s' → s = s' := by
  refine ⟨fun s => ⟨isStatement_of_ofLexemes, ofLexemes_of_isStatement stop⟩,
    fun d d' s s' h h' => ?_⟩
  have hs := ofLexemes_of_isStatement stop (h.mono (Nat.le_max_left d d'))
  have hs' := ofLexemes_of_isStatement stop (h'.mono (Nat.le_max_right d d'))
  exact Except.ok.inj (hs.symm.trans hs')

end Formula.Syntax
