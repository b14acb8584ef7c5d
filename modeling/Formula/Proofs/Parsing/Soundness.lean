import Formula.Syntax.Grammar

/-!
# What is read is in the grammar

Every reader takes lexemes off the front that the grammar derives the result from
(`Sound`). The readers that loop, over operators of a level, over methods and over
arguments, carry what they have read already; for them the derivation of that is
extended.

* `sound_operand`: operands, by induction on how deeply they may lie within each
  other.
* `sound_expression`: expressions, given sound operands.
-/

namespace Formula.Syntax

/-- What a reader takes off the front is related to what it gives. -/
def Sound {α : Type} (read : Reader α) (R : List Lexeme → α → Prop) : Prop :=
  ∀ ⦃ts : List Lexeme⦄ ⦃a : α⦄ ⦃rest : Shorter ts⦄, read ts = .ok (a, rest) →
    ∃ us, ts = us ++ rest.1 ∧ R us a

variable {depth stop : Nat} {expr : Reader Expr}

/-! ## Binary operators -/

theorem eq_of_operatorOf? {level : Nat} {t : Token} {op : BinaryOp}
    (h : operatorOf? level t = some op) : t = .operator op ∧ op.level = level := by
  unfold operatorOf? at h
  split at h
  · split at h
    · cases h
      exact ⟨rfl, ‹_›⟩
    · cases h
  · cases h

/-- What a chain takes is operators of its level and their operands, folded to the left. -/
theorem chain_sound {level n : Nat} {operand : Reader Expr}
    (hoperand : Sound operand (IsBelow depth level)) {left e : Expr} {ts us : List Lexeme}
    {h : ts.length < n} {rest : Fewer n} (hleft : IsBelow depth (level + 1) us left)
    (hread : chain level operand left ts h = .ok (e, rest)) :
    ∃ ws, ts = ws ++ rest.1 ∧ IsBelow depth (level + 1) (us ++ ws) e := by
  fun_induction chain level operand left ts h generalizing us with
  | case1 | case2 =>
    cases hread
    exact ⟨[], rfl, by rwa [List.append_nil]⟩
  | case3 => cases hread
  | case4 left t behind _ op hop right rest' hright _ _ ih =>
    obtain ⟨ht, rfl⟩ := eq_of_operatorOf? hop
    obtain ⟨vs, hvs, hright⟩ := hoperand hright
    -- The operation just read is the left operand of what the chain goes on with.
    obtain ⟨ws, hws, he⟩ := ih (hleft.binary hright) hread
    refine ⟨⟨.operator op, t.offset⟩ :: vs ++ ws, ?_, ?_⟩
    · simp [hvs, hws, ← ht]
    · rwa [← List.append_assoc]

/-- A level of operators takes an expression of that level. -/
theorem sound_leftAssociative {level : Nat} {operand : Reader Expr}
    (hoperand : Sound operand (IsBelow depth level)) :
    Sound (leftAssociative level operand) (IsBelow depth (level + 1)) := by
  intro ts e rest h
  rw [leftAssociative] at h
  split at h
  · cases h
  · rename_i left rest' hleft
    obtain ⟨us, hus, hleft⟩ := hoperand hleft
    obtain ⟨ws, hws, he⟩ := chain_sound hoperand hleft.up h
    exact ⟨us ++ ws, hus.trans (by rw [hws, List.append_assoc]), he⟩

theorem sound_binaryBelow {operand : Reader Expr} (hoperand : Sound operand (IsOperand depth))
    (level : Nat) : Sound (binaryBelow operand level) (IsBelow depth level) := by
  induction level with
  | zero =>
    intro ts e rest h
    obtain ⟨us, hus, he⟩ := hoperand h
    exact ⟨us, hus, .operand he⟩
  | succ level ih => exact sound_leftAssociative ih

theorem sound_expression {operand : Reader Expr} (hoperand : Sound operand (IsOperand depth)) :
    Sound (expression operand) (IsExpression depth) :=
  sound_binaryBelow hoperand _

/-! ## Arguments and methods -/

/-- What is taken as arguments is expressions with commas between them, and the parenthesis
    that closes them. -/
theorem moreArguments_sound (hexpr : Sound expr (IsExpression depth)) {n : Nat}
    {earlier args : List Expr} {ts : List Lexeme} {h : ts.length ≤ n} {rest : Fewer n}
    (hread : moreArguments stop expr earlier ts h = .ok (args, rest)) :
    ∃ us right es, ts = us ++ ⟨.closing, right⟩ :: rest.1 ∧ IsList depth us es ∧
      args = earlier.reverse ++ es := by
  fun_induction moreArguments stop expr earlier ts h with
  | case1 | case2 | case5 => cases hread
  | case3 earlier ts _ arg rest' harg t behind hrest _ ht ih =>
    obtain ⟨us, hus, harg⟩ := hexpr harg
    obtain ⟨vs, right, es, hvs, hes, rfl⟩ := ih hread
    obtain ⟨_, comma⟩ := t
    cases ht
    refine ⟨us ++ ⟨.comma, comma⟩ :: vs, right, arg :: es, ?_, .cons harg hes, by simp⟩
    rw [hus, hrest, hvs]
    simp
  | case4 earlier ts _ arg rest' harg t behind hrest _ ht =>
    obtain ⟨us, hus, harg⟩ := hexpr harg
    obtain ⟨_, right⟩ := t
    cases ht
    cases hread
    exact ⟨us, right, [arg], hus.trans (by rw [hrest]), .last harg, by simp⟩

/-- With the parenthesis before them they are arguments. -/
theorem sound_arguments (hexpr : Sound expr (IsExpression depth)) :
    Sound (arguments stop expr) fun us args =>
      ∀ left, IsArguments depth (⟨.opening, left⟩ :: us) args := by
  have hmore {ts : List Lexeme} {args : List Expr} {rest : Shorter ts}
      (hread : moreArguments stop expr [] ts (Nat.le_refl _) = .ok (args, rest)) :
      ∃ us, ts = us ++ rest.1 ∧ ∀ left, IsArguments depth (⟨.opening, left⟩ :: us) args := by
    obtain ⟨us, right, es, hus, hes, rfl⟩ := moreArguments_sound hexpr hread
    refine ⟨us ++ [⟨.closing, right⟩], by simpa using hus, fun left => ?_⟩
    rw [← List.cons_append]
    exact .some hes
  intro ts args rest h
  unfold arguments at h
  split at h
  · exact hmore h
  · rename_i t behind
    split at h
    · obtain ⟨_, right⟩ := t
      rename_i ht
      cases ht
      cases h
      exact ⟨[⟨.closing, right⟩], rfl, fun left => .none⟩
    · exact hmore h

/-- What is read as arguments is arguments, or nothing. -/
theorem arguments?_sound (hexpr : Sound expr (IsExpression depth)) {ts : List Lexeme}
    {args : Option (List Expr)} {rest : Fewer (ts.length + 1)}
    (h : arguments? stop expr ts = .ok (args, rest)) :
    match args with
    | none => ts = rest.1
    | some args => ∃ us, ts = us ++ rest.1 ∧ IsArguments depth us args := by
  rcases ts with _ | ⟨t, behind⟩ <;> simp only [arguments?] at h
  · cases h
    rfl
  · split at h
    · rename_i ht
      split at h
      · cases h
      · rename_i args' rest' hargs
        cases h
        obtain ⟨us, hus, hargs⟩ := sound_arguments hexpr hargs
        obtain ⟨_, left⟩ := t
        cases ht
        exact ⟨⟨.opening, left⟩ :: us, congrArg (List.cons _) hus, hargs left⟩
    · cases h
      rfl

theorem sound_methodName :
    Sound (methodName stop) fun us found => us = [⟨.name found.2, found.1⟩] := by
  intro ts found rest h
  unfold methodName at h
  split at h
  · cases h
  · rename_i t behind
    split at h
    · rename_i ht
      cases h
      exact ⟨[t], rfl, by simp only [← ht]⟩
    · cases h

theorem sound_opening : Sound (opening stop) fun us _ => ∃ left, us = [⟨.opening, left⟩] := by
  intro ts _ rest h
  unfold opening at h
  split at h
  · cases h
  · rename_i t behind
    split at h
    · rename_i ht
      cases h
      exact ⟨[t], rfl, t.offset, by rw [← ht]⟩
    · cases h

/-- Behind its receiver and a dot, the call of a method is the receiver with a method. -/
theorem sound_method (hexpr : Sound expr (IsExpression depth)) {us : List Lexeme}
    {receiver : Expr} (hreceiver : IsPostfix depth us receiver) :
    Sound (method stop expr receiver) fun vs e =>
      ∀ dot, IsPostfix depth (us ++ ⟨.dot, dot⟩ :: vs) e := by
  intro ts e rest h
  unfold method at h
  split at h
  · cases h
  · rename_i offset name behindName hname
    split at h
    · cases h
    · rename_i behindOpening hopening
      split at h
      · cases h
      · rename_i args rest' hargs
        cases h
        obtain ⟨_, hts, rfl⟩ := sound_methodName hname
        obtain ⟨_, hbehind, left, rfl⟩ := sound_opening hopening
        obtain ⟨vs, hvs, hargs⟩ := sound_arguments hexpr hargs
        refine ⟨⟨.name name, offset⟩ :: ⟨.opening, left⟩ :: vs,
          hts.trans (by simp [hbehind, hvs]), fun dot => hreceiver.method (hargs left)⟩

/-- Behind a primary with methods, the calls that are taken are more methods of it. -/
theorem methods_sound (hexpr : Sound expr (IsExpression depth)) {n : Nat} {receiver e : Expr}
    {ts us : List Lexeme} {h : ts.length < n} {rest : Fewer n}
    (hreceiver : IsPostfix depth us receiver)
    (hread : methods stop expr receiver ts h = .ok (e, rest)) :
    ∃ vs, ts = vs ++ rest.1 ∧ IsPostfix depth (us ++ vs) e := by
  fun_induction methods stop expr receiver ts h generalizing us with
  | case1 | case4 =>
    cases hread
    exact ⟨[], rfl, by rwa [List.append_nil]⟩
  | case2 => cases hread
  | case3 receiver t behind _ ht call rest' hcall _ _ ih =>
    obtain ⟨vs, hvs, hcall⟩ := sound_method hexpr hreceiver hcall
    obtain ⟨_, dot⟩ := t
    cases ht
    obtain ⟨ws, hws, he⟩ := ih (hcall dot) hread
    refine ⟨⟨.dot, dot⟩ :: vs ++ ws, by rw [hvs, hws]; simp, ?_⟩
    rwa [← List.append_assoc]

/-! ## Operands -/

/-- An operand with a prefix is an operand one level further out. -/
theorem IsOperand.prefixed {ts : List Lexeme} {e : Expr} (h : IsOperand depth ts e) {t : Lexeme}
    {op : UnaryOp} (hop : prefixOp? t.token = some op) :
    IsOperand (depth + 1) (t :: ts) (.unary t.offset op e) := by
  obtain ⟨t, offset⟩ := t
  unfold prefixOp? at hop
  split at hop <;> cases hop
  · rename_i ht
    cases ht
    exact .negate h
  · rename_i ht
    cases ht
    exact .not h

/-- With the parenthesis before it a group is a primary. -/
theorem sound_group (hexpr : Sound expr (IsExpression depth)) :
    Sound (group stop expr) fun us e => ∀ left, IsPrimary depth (⟨.opening, left⟩ :: us) e := by
  intro ts e rest h
  unfold group at h
  split at h
  · cases h
  · rename_i inner rest' hinner
    obtain ⟨us, hus, hinner⟩ := hexpr hinner
    split at h
    · cases h
    · rename_i t behind hrest
      split at h
      · rename_i ht
        cases h
        obtain ⟨_, right⟩ := t
        cases ht
        refine ⟨us ++ [⟨.closing, right⟩], hus.trans (by simp [hrest]), fun left => ?_⟩
        rw [← List.cons_append]
        exact .group hinner
      · cases h

/-- What is taken as a primary is one: a literal, a reference, a call with its arguments, or a
    group. -/
theorem sound_primary (hexpr : Sound expr (IsExpression depth)) :
    Sound (primary stop expr) (IsPrimary depth) := by
  intro ts e rest h
  rcases ts with _ | ⟨⟨t, offset⟩, behind⟩ <;> simp only [primary] at h
  · cases h
  cases t with
  | number n =>
    cases h
    exact ⟨[⟨.number n, offset⟩], rfl, .number⟩
  | text s =>
    cases h
    exact ⟨[⟨.text s, offset⟩], rfl, .text⟩
  | name n =>
    simp only at h
    split at h
    · cases h
    · rename_i hargs
      cases h
      exact ⟨[⟨.name n, offset⟩], congrArg (List.cons _) (arguments?_sound hexpr hargs), .name⟩
    · rename_i hargs
      cases h
      obtain ⟨us, hus, hargs⟩ := arguments?_sound hexpr hargs
      exact ⟨⟨.name n, offset⟩ :: us, congrArg (List.cons _) hus, .call hargs⟩
  | field o f =>
    simp only at h
    split at h
    · cases h
    · rename_i hargs
      cases h
      exact ⟨[⟨.field o f, offset⟩], congrArg (List.cons _) (arguments?_sound hexpr hargs), .field⟩
    · rename_i hargs
      cases h
      obtain ⟨us, hus, hargs⟩ := arguments?_sound hexpr hargs
      exact ⟨⟨.field o f, offset⟩ :: us, congrArg (List.cons _) hus, .fieldCall hargs⟩
  | opening =>
    simp only at h
    split at h
    · cases h
    · rename_i hinner
      cases h
      obtain ⟨us, hus, hinner⟩ := sound_group hexpr hinner
      exact ⟨⟨.opening, offset⟩ :: us, congrArg (List.cons _) hus, hinner offset⟩
  | operator | not | assign | closing | comma | dot => cases h

/-- Operands are read as the grammar has them, however deeply they may lie within each
    other. -/
theorem sound_operand (stop depth : Nat) : Sound (operand stop depth) (IsOperand depth) := by
  induction depth with
  | zero =>
    intro ts e rest h
    cases ts <;> cases h
  | succ depth ih =>
    intro ts e rest h
    rcases ts with _ | ⟨⟨t, offset⟩, behind⟩ <;> simp only [operand] at h
    · cases h
    split at h
    · rename_i op hop
      split at h
      · cases h
      · rename_i inner rest' hinner
        cases h
        obtain ⟨us, hus, hinner⟩ := ih hinner
        exact ⟨⟨t, offset⟩ :: us, congrArg (List.cons _) hus, hinner.prefixed hop⟩
    · split at h
      · cases h
      · rename_i receiver rest' hreceiver
        have hexpr := sound_expression ih
        obtain ⟨us, hus, hreceiver⟩ := sound_primary hexpr hreceiver
        obtain ⟨vs, hvs, he⟩ := methods_sound hexpr (.primary hreceiver) h
        exact ⟨us ++ vs, hus.trans (by simp [hvs]), .postfixed he⟩

/-- What is read to its end is an expression. -/
theorem ofLexemes_sound {ts : List Lexeme} {e : Expr}
    (h : Expr.ofLexemes stop depth ts = .ok e) : IsExpression depth ts e := by
  unfold Expr.ofLexemes at h
  split at h
  · cases h
  · rename_i he
    cases h
    obtain ⟨us, hus, he⟩ := sound_expression (sound_operand stop depth) he
    rw [List.append_nil] at hus
    rwa [hus]
  · cases h

end Formula.Syntax
