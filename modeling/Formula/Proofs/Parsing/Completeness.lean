import Formula.Proofs.Parsing.Soundness

/-!
# What is in the grammar is read

The lexemes of an expression, followed by lexemes that cannot carry it on, are read as
that expression, and the lexemes that follow are left over. The proof is by induction
on how deeply expressions may lie within each other. Binary operators and methods are
read in a loop from the left, while their derivations end with the last of them: the
lemmas on spines say how far the loop has come when it has read a derivation.
-/

namespace Formula.Syntax

section Induction

variable {depth : Nat}

/-- Induction over the binary operators of an expression outside parentheses. -/
@[elab_as_elim]
theorem IsBelow.induction {P : ∀ level ts e, IsBelow depth level ts e → Prop}
    (operand : ∀ ts e h, P 0 ts e (.operand h))
    (up : ∀ level ts e h, P level ts e h → P (level + 1) ts e (.up h))
    (binary : ∀ offset op ts us l r hl hr, P (op.level + 1) ts l hl → P op.level us r hr →
      P (op.level + 1) (ts ++ ⟨.operator op, offset⟩ :: us) (.binary offset op l r)
        (.binary hl hr))
    {level : Nat} {ts : List Lexeme} {e : Expr} (h : IsBelow depth level ts e) :
    P level ts e h := by
  refine IsBelow.rec (motive_1 := fun d level ts e h => (hd : d = depth) → P level ts e (hd ▸ h))
    (motive_2 := fun _ _ _ _ => True) (motive_3 := fun _ _ _ _ => True)
    (motive_4 := fun _ _ _ _ => True) (motive_5 := fun _ _ _ _ => True)
    (motive_6 := fun _ _ _ _ => True) ?_ ?_ ?_ ?_ ?_ ?_ ?_ ?_ ?_ ?_ ?_ ?_ ?_ ?_ ?_ ?_ ?_ ?_ ?_ h rfl
  case refine_1 =>
    rintro _ us d hd _ rfl
    exact operand us d hd
  case refine_2 =>
    rintro _ n us d hd ih rfl
    exact up n us d hd (ih rfl)
  case refine_3 =>
    rintro _ ts us l r op offset hl hr ihl ihr rfl
    exact binary offset op ts us l r hl hr (ihl rfl) (ihr rfl)
  all_goals
    intros
    trivial

/-- Induction over the methods that are called on a primary. -/
@[elab_as_elim]
theorem IsPostfix.induction {P : ∀ ts e, IsPostfix depth ts e → Prop}
    (primary : ∀ ts e h, P ts e (.primary h))
    (method : ∀ dot offset name ts us e args h hargs, P ts e h →
      P (ts ++ ⟨.dot, dot⟩ :: ⟨.name name, offset⟩ :: us) (.method offset e name args)
        (.method h hargs))
    {ts : List Lexeme} {e : Expr} (h : IsPostfix depth ts e) : P ts e h := by
  refine IsPostfix.rec (motive_1 := fun _ _ _ _ _ => True) (motive_2 := fun _ _ _ _ => True)
    (motive_3 := fun d ts e h => (hd : d = depth) → P ts e (hd ▸ h))
    (motive_4 := fun _ _ _ _ => True) (motive_5 := fun _ _ _ _ => True)
    (motive_6 := fun _ _ _ _ => True) ?_ ?_ ?_ ?_ ?_ ?_ ?_ ?_ ?_ ?_ ?_ ?_ ?_ ?_ ?_ ?_ ?_ ?_ ?_ h rfl
  case refine_7 =>
    rintro _ us d hd _ rfl
    exact primary us d hd
  case refine_8 =>
    rintro _ dot offset us vs d name args hd hargs ih _ rfl
    exact method dot offset name us vs d args hd hargs (ih rfl)
  all_goals
    intros
    trivial

/-- Induction over the arguments of a call. -/
@[elab_as_elim]
theorem IsList.induction {P : ∀ ts es, IsList depth ts es → Prop}
    (last : ∀ ts e h, P ts [e] (.last h))
    (cons : ∀ comma ts us e es h hes, P us es hes →
      P (ts ++ ⟨.comma, comma⟩ :: us) (e :: es) (.cons h hes))
    {ts : List Lexeme} {es : List Expr} (h : IsList depth ts es) : P ts es h := by
  refine IsList.rec (motive_1 := fun _ _ _ _ _ => True) (motive_2 := fun _ _ _ _ => True)
    (motive_3 := fun _ _ _ _ => True) (motive_4 := fun _ _ _ _ => True)
    (motive_5 := fun _ _ _ _ => True)
    (motive_6 := fun d ts es h => (hd : d = depth) → P ts es (hd ▸ h))
    ?_ ?_ ?_ ?_ ?_ ?_ ?_ ?_ ?_ ?_ ?_ ?_ ?_ ?_ ?_ ?_ ?_ ?_ ?_ h rfl
  case refine_18 =>
    rintro _ us d hd _ rfl
    exact last us d hd
  case refine_19 =>
    rintro _ comma us vs d ds hd hds _ ih rfl
    exact cons comma us vs d ds hd hds (ih rfl)
  all_goals
    intros
    trivial

end Induction

/-! ## First lexemes -/

section Head

variable {depth : Nat} {ts : List Lexeme} {e : Expr}

theorem IsPostfix.exists_head (h : IsPostfix depth ts e) :
    ∃ t us, ts = t :: us ∧ prefixOp? t.token = none ∧ t.token ≠ .closing := by
  induction h using IsPostfix.induction with
  | primary ts e h =>
    cases h <;> exact ⟨_, _, rfl, rfl, by simp⟩
  | method dot offset name ts us e args _ _ ih =>
    obtain ⟨t, vs, rfl, ht⟩ := ih
    exact ⟨t, _, rfl, ht⟩

/-- An expression begins with a token other than a closing parenthesis. -/
theorem IsBelow.exists_head {level : Nat} (h : IsBelow depth level ts e) :
    ∃ t us, ts = t :: us ∧ t.token ≠ .closing := by
  induction h using IsBelow.induction with
  | operand ts e h =>
    cases h with
    | negate | not => exact ⟨_, _, rfl, by simp⟩
    | postfixed h =>
      obtain ⟨t, us, rfl, _, ht⟩ := h.exists_head
      exact ⟨t, us, rfl, ht⟩
  | up _ _ _ _ ih => exact ih
  | binary offset op ts us l r _ _ ih =>
    obtain ⟨t, vs, rfl, ht⟩ := ih
    exact ⟨t, _, rfl, ht⟩

theorem IsList.exists_head {es : List Expr} (h : IsList depth ts es) :
    ∃ t us, ts = t :: us ∧ t.token ≠ .closing := by
  cases h with
  | last h => exact h.exists_head
  | cons h =>
    obtain ⟨t, us, rfl, ht⟩ := h.exists_head
    exact ⟨t, _, rfl, ht⟩

end Head

/-- No operand and no expression of operators below `level` goes on with these lexemes. -/
def Stops (level : Nat) : List Lexeme → Prop
  | [] => True
  | t :: _ => t.token ≠ .opening ∧ t.token ≠ .dot ∧
      ∀ op, t.token = .operator op → level ≤ op.level

/-- What is related to a result is taken off the front, if what follows it stops it, and
    gives the result. -/
def Complete {α : Type} (level : Nat) (read : Reader α) (R : List Lexeme → α → Prop) : Prop :=
  ∀ ⦃us : List Lexeme⦄ ⦃a : α⦄ ⦃rest : List Lexeme⦄, R us a → Stops level rest →
    ∃ h, read (us ++ rest) = .ok (a, ⟨rest, h⟩)

variable {depth : Nat} {read : Reader Expr}

/-- What stops operators of more levels stops those of fewer. -/
theorem Stops.mono {level level' : Nat} (hle : level ≤ level') {ts : List Lexeme}
    (h : Stops level' ts) : Stops level ts := by
  cases ts with
  | nil => trivial
  | cons t ts => exact ⟨h.1, h.2.1, fun op hop => Nat.le_trans hle (h.2.2 op hop)⟩

theorem stops_operator {level : Nat} {op : BinaryOp} (hop : op.level = level) (offset : Nat)
    (ts : List Lexeme) : Stops level (⟨.operator op, offset⟩ :: ts) := by
  refine ⟨by simp, by simp, fun op' h => ?_⟩
  cases h
  exact Nat.le_of_eq hop.symm

theorem Stops.ne_opening {level : Nat} {ts : List Lexeme} (h : Stops level ts) :
    ∀ t ∈ ts.head?, t.token ≠ .opening := by
  rcases ts with _ | ⟨t, ts⟩ <;> rintro u ⟨⟩
  exact h.1

theorem Stops.ne_dot {level : Nat} {ts : List Lexeme} (h : Stops level ts) :
    ∀ t ∈ ts.head?, t.token ≠ .dot := by
  rcases ts with _ | ⟨t, ts⟩ <;> rintro u ⟨⟩
  exact h.2.1

/-! ## Binary operators -/

/-- Where nothing goes on no operand is taken any more. -/
theorem chain_of_stops {level n : Nat} {e : Expr} {ts : List Lexeme} {h : ts.length < n}
    (hstops : Stops (level + 1) ts) : chain level read e ts h = .ok (e, ⟨ts, h⟩) := by
  cases ts with
  | nil => rw [chain]
  | cons t ts =>
    have hop : operatorOf? level t.token = none := by
      rcases ht : operatorOf? level t.token with _ | op
      · rfl
      · obtain ⟨hop, rfl⟩ := eq_of_operatorOf? ht
        exact absurd (hstops.2.2 op hop) (Nat.not_succ_le_self _)
    rw [chain, hop]

/-- Behind an operator of the level its right operand is read and folded. -/
theorem chain_operator {level : Nat} {op : BinaryOp} (hop : op.level = level) {offset n : Nat}
    {left right : Expr} {behind rest : List Lexeme} {hrest : rest.length < behind.length}
    (hright : read behind = .ok (right, ⟨rest, hrest⟩))
    (h : (⟨.operator op, offset⟩ :: behind : List Lexeme).length < n) :
    chain level read left (⟨.operator op, offset⟩ :: behind) h =
      chain level read (.binary offset op left right) rest
        (Nat.lt_trans hrest (Nat.lt_of_succ_lt h)) := by
  have hop : operatorOf? level (.operator op) = some op := if_pos hop
  rw [chain]
  simp only [hop, hright]

/-- Operands with operators of a level between them are read up to the chain that
    goes on behind them. -/
theorem leftAssociative_spine {level n : Nat} (hn : n = level + 1) {us rest : List Lexeme}
    {e : Expr} (h : IsBelow depth n us e)
    (hbelow : Complete level (binaryBelow read level) (IsBelow depth level))
    (hstops : Stops level rest) :
    ∃ hrest : rest.length < (us ++ rest).length,
      leftAssociative level (binaryBelow read level) (us ++ rest) =
        chain level (binaryBelow read level) e rest hrest := by
  -- What follows varies: the left operand of an operator has that operator behind it.
  induction h using IsBelow.induction generalizing rest with
  | operand => cases hn
  | up _ _ _ h =>
    rw [Nat.succ.inj hn] at h
    obtain ⟨hrest, he⟩ := hbelow h hstops
    exact ⟨hrest, by rw [leftAssociative, he]⟩
  | binary offset op ts us l r hl hr ihl =>
    have hop := Nat.succ.inj hn
    obtain ⟨hchain, hleft⟩ := ihl hn (stops_operator hop offset (us ++ rest))
    obtain ⟨hrest, hright⟩ := hbelow (hop ▸ hr) hstops
    rw [List.append_assoc]
    exact ⟨_, hleft.trans (chain_operator hop hright hchain)⟩

/-- If operands are read, so are expressions of any level. -/
theorem complete_binaryBelow (hoperand : Complete 0 read (IsOperand depth)) (level : Nat) :
    Complete level (binaryBelow read level) (IsBelow depth level) := by
  induction level with
  | zero =>
    intro us e rest h hstops
    cases h with
    | operand h => exact hoperand h hstops
  | succ level ih =>
    intro us e rest h hstops
    obtain ⟨hrest, hspine⟩ := leftAssociative_spine rfl h ih (hstops.mono (Nat.le_succ _))
    exact ⟨hrest, hspine.trans (chain_of_stops hstops)⟩

theorem complete_expression (hoperand : Complete 0 read (IsOperand depth)) :
    Complete BinaryOp.levels (expression read) (IsExpression depth) :=
  complete_binaryBelow hoperand _

/-! ## Arguments and methods -/

variable (stop : Nat) {expr : Reader Expr}

theorem stops_of_ne {level : Nat} {t : Lexeme} {ts : List Lexeme} (hopening : t.token ≠ .opening)
    (hdot : t.token ≠ .dot) (hop : ∀ op, t.token ≠ .operator op) : Stops level (t :: ts) :=
  ⟨hopening, hdot, fun op h => absurd h (hop op)⟩

/-- Expressions with commas between them are read up to the closing parenthesis. -/
theorem moreArguments_complete (hexpr : Complete BinaryOp.levels expr (IsExpression depth))
    {ts us rest : List Lexeme} {right n : Nat} {earlier es : List Expr} (hes : IsList depth us es)
    (hts : ts = us ++ ⟨.closing, right⟩ :: rest) (h : ts.length ≤ n) :
    ∃ hrest, moreArguments stop expr earlier ts h =
      .ok (earlier.reverse ++ es, ⟨rest, hrest⟩) := by
  induction hes using IsList.induction generalizing earlier ts with
  | last us e he =>
    subst hts
    obtain ⟨_, he⟩ := @hexpr us e (⟨.closing, right⟩ :: rest) he
      (stops_of_ne (by simp) (by simp) (by simp))
    have hrest : rest.length < n := by
      rw [List.length_append, List.length_cons] at h
      omega
    refine ⟨hrest, ?_⟩
    rw [moreArguments]
    simp only [he, List.reverse_cons]
  | cons comma us vs e es he _ ih =>
    rw [List.append_assoc, List.cons_append] at hts
    subst hts
    obtain ⟨_, he⟩ := @hexpr us e (⟨.comma, comma⟩ :: (vs ++ ⟨.closing, right⟩ :: rest)) he
      (stops_of_ne (by simp) (by simp) (by simp))
    obtain ⟨hrest, hes⟩ := @ih (vs ++ ⟨.closing, right⟩ :: rest) (e :: earlier) rfl
      (by rw [List.length_append, List.length_cons] at h; omega)
    refine ⟨hrest, ?_⟩
    rw [moreArguments]
    simp only [he, hes, List.reverse_cons, List.append_assoc, List.singleton_append]

/-- Arguments are read with their parentheses, be there none or some. -/
theorem arguments_complete (hexpr : Complete BinaryOp.levels expr (IsExpression depth))
    {us : List Lexeme} {args : List Expr} (h : IsArguments depth us args) (rest : List Lexeme) :
    ∃ left vs, us = ⟨.opening, left⟩ :: vs ∧
      ∃ hrest, arguments stop expr (vs ++ rest) = .ok (args, ⟨rest, hrest⟩) := by
  cases h with
  | @none _ left right => exact ⟨left, [⟨.closing, right⟩], rfl, _, rfl⟩
  | @some _ left right ts _ hes =>
    -- The list does not begin with a closing parenthesis, so it is not taken for none.
    obtain ⟨t, us, rfl, ht⟩ := hes.exists_head
    have hts : t :: us ++ [⟨.closing, right⟩] ++ rest = t :: us ++ ⟨.closing, right⟩ :: rest :=
      List.append_assoc ..
    obtain ⟨hrest, hread⟩ :=
      @moreArguments_complete depth stop expr hexpr _ _ rest right _ [] _ hes hts (Nat.le_refl _)
    refine ⟨left, t :: us ++ [⟨.closing, right⟩], rfl, hrest, ?_⟩
    have hmore : ∀ ts, arguments stop expr (t :: ts) =
        moreArguments stop expr [] (t :: ts) (Nat.le_refl _) := by
      intro ts
      simp only [arguments]
    exact (hmore _).trans hread

theorem arguments?_of_ne {ts : List Lexeme} (h : ∀ t ∈ ts.head?, t.token ≠ .opening) :
    arguments? stop expr ts = .ok (none, ⟨ts, Nat.lt_succ_self _⟩) := by
  rcases ts with _ | ⟨t, ts⟩
  · rfl
  · have ht : t.token ≠ .opening := h t rfl
    simp only [arguments?]

theorem arguments?_complete (hexpr : Complete BinaryOp.levels expr (IsExpression depth))
    {us : List Lexeme} {args : List Expr} (h : IsArguments depth us args) (rest : List Lexeme) :
    ∃ hrest, arguments? stop expr (us ++ rest) = .ok (some args, ⟨rest, hrest⟩) := by
  obtain ⟨left, vs, rfl, hrest, hargs⟩ := arguments_complete stop hexpr h rest
  refine ⟨Nat.lt_succ_of_lt (Nat.lt_succ_of_lt hrest), ?_⟩
  simp only [List.cons_append, arguments?, hargs]

/-- A method is read with its arguments, whatever follows. -/
theorem method_complete (hexpr : Complete BinaryOp.levels expr (IsExpression depth))
    (receiver : Expr) (name : String) (offset : Nat) {us : List Lexeme} {args : List Expr}
    (h : IsArguments depth us args) (rest : List Lexeme) :
    ∃ hrest, method stop expr receiver (⟨.name name, offset⟩ :: (us ++ rest)) =
      .ok (.method offset receiver name args, ⟨rest, hrest⟩) := by
  obtain ⟨left, vs, rfl, hrest, hargs⟩ := arguments_complete stop hexpr h rest
  refine ⟨Nat.lt_succ_of_lt (Nat.lt_succ_of_lt hrest), ?_⟩
  simp only [List.cons_append, method, methodName, opening, hargs]

theorem methods_of_stops {n : Nat} {e : Expr} {ts : List Lexeme} {h : ts.length < n}
    (hdot : ∀ t ∈ ts.head?, t.token ≠ .dot) :
    methods stop expr e ts h = .ok (e, ⟨ts, h⟩) := by
  rcases ts with _ | ⟨t, ts⟩
  · rw [methods]
  · have ht : t.token ≠ .dot := hdot t rfl
    rw [methods]
    simp only []

/-! ## Operands -/

/-- A primary is read if no parenthesis follows that would make a call of it. -/
theorem primary_complete (hexpr : Complete BinaryOp.levels expr (IsExpression depth))
    {us rest : List Lexeme} {e : Expr} (h : IsPrimary depth us e)
    (hrest : ∀ t ∈ rest.head?, t.token ≠ .opening) :
    ∃ hrest, primary stop expr (us ++ rest) = .ok (e, ⟨rest, hrest⟩) := by
  cases h with
  | number | text => exact ⟨_, rfl⟩
  | name | field =>
    refine ⟨Nat.lt_succ_self _, ?_⟩
    simp only [List.cons_append, List.nil_append, primary, arguments?_of_ne stop hrest]
  | call hargs | fieldCall hargs =>
    obtain ⟨hrest, hargs⟩ := arguments?_complete stop hexpr hargs rest
    refine ⟨hrest, ?_⟩
    simp only [List.cons_append, primary, hargs]
  | @group _ left right ts _ he =>
    obtain ⟨h, he⟩ := @hexpr ts e (⟨.closing, right⟩ :: rest) he
      (stops_of_ne (by simp) (by simp) (by simp))
    rw [List.append_assoc, List.cons_append]
    refine ⟨Nat.lt_succ_of_lt (Nat.lt_trans (Nat.lt_succ_self _) h), ?_⟩
    simp only [primary, group, List.singleton_append, he]

/-- A primary with methods behind it is read up to the methods that go on behind them. -/
theorem postfix_spine (hexpr : Complete BinaryOp.levels expr (IsExpression depth))
    {us rest : List Lexeme} {e : Expr} (h : IsPostfix depth us e)
    (hrest : ∀ t ∈ rest.head?, t.token ≠ .opening) :
    ∃ receiver behind hbehind, ∃ hrest : rest.length < (us ++ rest).length,
      primary stop expr (us ++ rest) = .ok (receiver, ⟨behind, hbehind⟩) ∧
        methods stop expr receiver behind hbehind = methods stop expr e rest hrest := by
  induction h using IsPostfix.induction generalizing rest with
  | primary us e h =>
    obtain ⟨hlt, he⟩ := primary_complete stop hexpr h hrest
    exact ⟨e, rest, hlt, hlt, he, rfl⟩
  | method dot offset name ts us e args h hargs ih =>
    obtain ⟨receiver, behind, hbehind, hlt, hprimary, hmethods⟩ :=
      @ih (⟨.dot, dot⟩ :: ⟨.name name, offset⟩ :: (us ++ rest)) (by simp)
    obtain ⟨hcall, hmethod⟩ := method_complete stop hexpr e name offset hargs rest
    rw [List.append_assoc]
    refine ⟨receiver, behind, hbehind, Nat.lt_trans (Nat.lt_succ_of_lt hcall) hlt, hprimary,
      hmethods.trans ?_⟩
    rw [methods]
    simp only [hmethod]

/-- Operands are read, however deeply they may lie within each other. -/
theorem complete_operand (depth : Nat) : Complete 0 (operand stop depth) (IsOperand depth) := by
  induction depth with
  | zero =>
    intro us e rest h
    cases h
  | succ depth ih =>
    intro us e rest h hstops
    cases h with
    | negate h | not h =>
      obtain ⟨hrest, h⟩ := ih h hstops
      refine ⟨Nat.lt_succ_of_lt hrest, ?_⟩
      simp only [List.cons_append, operand, prefixOp?, h]
    | postfixed h =>
      -- A primary does not begin with a prefix operator.
      obtain ⟨t, vs, rfl, hprefix, _⟩ := h.exists_head
      obtain ⟨receiver, behind, hbehind, hrest, hprimary, hmethods⟩ :=
        postfix_spine stop (complete_expression ih) h hstops.ne_opening
      refine ⟨hrest, ?_⟩
      simp only [List.cons_append] at hprimary ⊢
      simp only [operand, hprefix, hprimary]
      exact hmethods.trans (methods_of_stops stop hstops.ne_dot)

/-- An expression is read to its end. -/
theorem ofLexemes_complete {ts : List Lexeme} {e : Expr} (h : IsExpression depth ts e) :
    Expr.ofLexemes stop depth ts = .ok e := by
  have hread := @complete_expression depth _ (complete_operand stop depth) ts e [] h trivial
  rw [List.append_nil] at hread
  obtain ⟨hrest, hread⟩ := hread
  simp only [Expr.ofLexemes, hread]

end Formula.Syntax
