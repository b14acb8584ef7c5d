import Formula.Proofs.Parsing.Acceptance

/-!
# What a greater depth changes

A reader under a limit behaves as one under a greater limit, unless it fails because
operands lie too deeply within each other: whatever else it says, also an error, is what
all greater limits say (`ofLexemes_agrees`). Every reader hands this on from the readers
that it is made of.
-/

namespace Formula.Syntax

variable {α : Type} {stop : Nat} {expr expr' : Reader Expr}

/-! ## Readers, step by step -/

section Steps

variable {level n : Nat} {earlier : List Expr} {left arg : Expr} {ts behind : List Lexeme}
  {t : Lexeme} {e : Located SyntaxError}

theorem chain_nil (h : ([] : List Lexeme).length < n) :
    chain level expr left [] h = .ok (left, ⟨[], h⟩) := by
  rw [chain]

theorem chain_of_none (ht : operatorOf? level t.token = none) (h : (t :: behind).length < n) :
    chain level expr left (t :: behind) h = .ok (left, ⟨t :: behind, h⟩) := by
  rw [chain, ht]

/-- An operand that cannot be read ends the chain. -/
theorem chain_of_error {op : BinaryOp} (ht : operatorOf? level t.token = some op)
    (hright : expr behind = .error e) (h : (t :: behind).length < n) :
    chain level expr left (t :: behind) h = .error e := by
  rw [chain]
  simp only [ht, hright]

theorem chain_of_ok {op : BinaryOp} (ht : operatorOf? level t.token = some op) {right : Expr}
    {rest : List Lexeme} {hrest : rest.length < behind.length}
    (hright : expr behind = .ok (right, ⟨rest, hrest⟩)) (h : (t :: behind).length < n) :
    chain level expr left (t :: behind) h =
      chain level expr (.binary t.offset op left right) rest
        (Nat.lt_trans hrest (Nat.lt_of_succ_lt h)) := by
  rw [chain]
  simp only [ht, hright]

theorem moreArguments_of_error (harg : expr ts = .error e) (h : ts.length ≤ n) :
    moreArguments stop expr earlier ts h = .error e := by
  rw [moreArguments]
  simp only [harg]

theorem moreArguments_of_end {hrest : ([] : List Lexeme).length < ts.length}
    (harg : expr ts = .ok (arg, ⟨[], hrest⟩)) (h : ts.length ≤ n) :
    moreArguments stop expr earlier ts h = .error ⟨stop, .unclosedParenthesis⟩ := by
  rw [moreArguments]
  simp only [harg]

theorem moreArguments_of_comma {hrest : (t :: behind).length < ts.length}
    (harg : expr ts = .ok (arg, ⟨t :: behind, hrest⟩)) (ht : t.token = .comma)
    (h : ts.length ≤ n) :
    moreArguments stop expr earlier ts h = moreArguments stop expr (arg :: earlier) behind
      (Nat.le_trans (Nat.le_of_succ_le (Nat.le_of_lt hrest)) h) := by
  rw [moreArguments]
  simp only [harg, ht]

theorem moreArguments_of_closing {hrest : (t :: behind).length < ts.length}
    (harg : expr ts = .ok (arg, ⟨t :: behind, hrest⟩)) (ht : t.token = .closing)
    (h : ts.length ≤ n) :
    moreArguments stop expr earlier ts h = .ok ((arg :: earlier).reverse,
      ⟨behind, Nat.lt_of_lt_of_le (Nat.lt_of_succ_lt hrest) h⟩) := by
  rw [moreArguments]
  simp only [harg, ht]

/-- Behind an argument there is a comma or a closing parenthesis. -/
theorem moreArguments_of_ne {hrest : (t :: behind).length < ts.length}
    (harg : expr ts = .ok (arg, ⟨t :: behind, hrest⟩)) (hcomma : t.token ≠ .comma)
    (hclosing : t.token ≠ .closing) (h : ts.length ≤ n) :
    moreArguments stop expr earlier ts h =
      .error ⟨t.offset, .unexpectedToken (some .commaOrClosing) t.token⟩ := by
  rw [moreArguments]
  simp only [harg]
  rfl

theorem arguments_of_ne (hts : ∀ t ∈ ts.head?, t.token ≠ .closing) :
    arguments stop expr ts = moreArguments stop expr [] ts (Nat.le_refl _) := by
  rcases ts with _ | ⟨t, behind⟩
  · rfl
  · have ht : t.token ≠ .closing := hts t rfl
    simp only [arguments]

theorem arguments?_of_error (ht : t.token = .opening)
    (hargs : arguments stop expr behind = .error e) :
    arguments? stop expr (t :: behind) = .error e := by
  simp only [arguments?, ht, hargs]

theorem method_of_ne (ht : ∀ name, t.token ≠ .name name) :
    method stop expr left (t :: behind) =
      .error ⟨t.offset, .unexpectedToken (some .methodName) t.token⟩ := by
  have hname : methodName stop (t :: behind) = unexpected (some .methodName) t := by
    simp only [methodName]
  rw [method, hname]
  rfl

theorem method_of_end {name : String} {offset : Nat} :
    method stop expr left [⟨.name name, offset⟩] = .error ⟨stop, .unexpectedEnd⟩ := rfl

/-- Behind the name of a method there are arguments. -/
theorem method_of_ne_opening {name : String} {offset : Nat} (ht : t.token ≠ .opening) :
    method stop expr left (⟨.name name, offset⟩ :: t :: behind) =
      .error ⟨t.offset, .unexpectedToken (some .opening) t.token⟩ := by
  have hopening : opening stop (t :: behind) = unexpected (some .opening) t := by
    simp only [opening]
  simp only [method, methodName, hopening]
  rfl

theorem method_of_error {name : String} {offset : Nat} (ht : t.token = .opening)
    (hargs : arguments stop expr behind = .error e) :
    method stop expr left (⟨.name name, offset⟩ :: t :: behind) = .error e := by
  simp only [method, methodName, opening, ht, hargs]

theorem methods_nil (h : ([] : List Lexeme).length < n) :
    methods stop expr left [] h = .ok (left, ⟨[], h⟩) := by
  rw [methods]

theorem methods_of_dot_error (ht : t.token = .dot)
    (hcall : method stop expr left behind = .error e) (h : (t :: behind).length < n) :
    methods stop expr left (t :: behind) h = .error e := by
  rw [methods]
  simp only [ht, hcall]

theorem methods_of_dot_ok (ht : t.token = .dot) {call : Expr} {rest : List Lexeme}
    {hrest : rest.length < behind.length}
    (hcall : method stop expr left behind = .ok (call, ⟨rest, hrest⟩))
    (h : (t :: behind).length < n) :
    methods stop expr left (t :: behind) h =
      methods stop expr call rest (Nat.lt_trans hrest (Nat.lt_of_succ_lt h)) := by
  rw [methods]
  simp only [ht, hcall]

theorem group_of_error (hinner : expr ts = .error e) : group stop expr ts = .error e := by
  simp only [group, hinner]

theorem group_of_end {hrest : ([] : List Lexeme).length < ts.length}
    (hinner : expr ts = .ok (arg, ⟨[], hrest⟩)) :
    group stop expr ts = .error ⟨stop, .unclosedParenthesis⟩ := by
  simp only [group, hinner]

theorem group_of_closing {hrest : (t :: behind).length < ts.length}
    (hinner : expr ts = .ok (arg, ⟨t :: behind, hrest⟩)) (ht : t.token = .closing) :
    group stop expr ts = .ok (arg, ⟨behind, Nat.lt_of_succ_lt hrest⟩) := by
  simp only [group, hinner, ht]

/-- A group is closed behind its expression. -/
theorem group_of_ne {hrest : (t :: behind).length < ts.length}
    (hinner : expr ts = .ok (arg, ⟨t :: behind, hrest⟩)) (ht : t.token ≠ .closing) :
    group stop expr ts = .error ⟨t.offset, .unexpectedToken (some .closing) t.token⟩ := by
  simp only [group, hinner]
  rfl

end Steps

/-! ## Agreement -/

/-- The outcomes are the same, unless the first one is that operands lie too deeply within
    each other. -/
def Agrees (x y : Except (Located SyntaxError) α) : Prop :=
  (∃ o, x = .error ⟨o, .nestedTooDeeply⟩) ∨ x = y

/-- The first reader behaves as the second one, unless operands lie too deeply within each
    other for it. -/
def Refines (read read' : Reader α) : Prop := ∀ ts, Agrees (read ts) (read' ts)

section Agreement

variable {x y z : Except (Located SyntaxError) α} {e : Located SyntaxError}

theorem Agrees.refl (x : Except (Located SyntaxError) α) : Agrees x x := .inr rfl

theorem Agrees.trans (h : Agrees x y) (h' : Agrees y z) : Agrees x z := by
  rcases h with h | rfl
  · exact .inl h
  · exact h'

/-- What the first one reads the second one reads. -/
theorem Agrees.eq_ok (h : Agrees x y) {a : α} (hx : x = .ok a) : y = .ok a := by
  rcases h with ⟨o, h⟩ | rfl
  · rw [hx] at h
    cases h
  · exact hx

/-- An error about something else is the same. -/
theorem Agrees.eq_error (h : Agrees x y) (hx : x = .error e) (he : e.cause ≠ .nestedTooDeeply) :
    y = .error e := by
  rcases h with ⟨o, h⟩ | rfl
  · rw [hx] at h
    cases h
    exact absurd rfl he
  · exact hx

/-- What an error makes fail agrees with what the error, where it is the same, makes fail. -/
theorem Agrees.error {β : Type} (h : Agrees x y) (hx : x = .error e)
    {y' : Except (Located SyntaxError) β} (hy : y = .error e → y' = .error e) :
    Agrees (.error e) y' := by
  rcases h with ⟨o, h⟩ | rfl
  · rw [hx] at h
    cases h
    exact .inl ⟨o, rfl⟩
  · rw [hy hx]
    exact .refl _

end Agreement

variable (h : Refines expr expr')

include h

/-! ## Binary operators -/

/-- A chain of operands does the same if they do. -/
theorem chain_agrees {level n : Nat} (left : Expr) (ts : List Lexeme) (hts : ts.length < n) :
    Agrees (chain level expr left ts hts) (chain level expr' left ts hts) := by
  fun_induction chain level expr left ts hts with
  | case1 =>
    rw [chain_nil]
    exact .refl _
  | case2 left t behind hts ht =>
    rw [chain_of_none ht]
    exact .refl _
  | case3 left t behind hts op ht e hright =>
    exact (h behind).error hright fun hright => chain_of_error ht hright hts
  | case4 left t behind hts op ht right rest hright _ _ ih =>
    rw [chain_of_ok ht ((h behind).eq_ok hright)]
    exact ih

/-- A level of operators behaves as its operands do. -/
theorem leftAssociative_refines (level : Nat) :
    Refines (leftAssociative level expr) (leftAssociative level expr') := by
  intro ts
  rw [leftAssociative]
  split
  · rename_i e hleft
    exact (h ts).error hleft fun hleft => by rw [leftAssociative, hleft]
  · rename_i left rest hleft
    rw [leftAssociative, (h ts).eq_ok hleft]
    exact chain_agrees h ..

theorem binaryBelow_refines (level : Nat) :
    Refines (binaryBelow expr level) (binaryBelow expr' level) := by
  induction level with
  | zero => exact h
  | succ level ih => exact leftAssociative_refines ih level

theorem expression_refines : Refines (expression expr) (expression expr') :=
  binaryBelow_refines h _

/-! ## Arguments and methods -/

/-- Arguments do the same if expressions do. -/
theorem moreArguments_agrees {n : Nat} (earlier : List Expr) (ts : List Lexeme)
    (hts : ts.length ≤ n) :
    Agrees (moreArguments stop expr earlier ts hts) (moreArguments stop expr' earlier ts hts) := by
  fun_induction moreArguments stop expr earlier ts hts with
  | case1 earlier ts hts e harg =>
    exact (h ts).error harg fun harg => moreArguments_of_error harg hts
  | case2 earlier ts hts arg rest harg hrest =>
    obtain ⟨_, hlt⟩ := rest
    subst hrest
    rw [moreArguments_of_end ((h ts).eq_ok harg)]
    exact .refl _
  | case3 earlier ts hts arg rest harg t behind hrest _ ht ih =>
    obtain ⟨_, hlt⟩ := rest
    subst hrest
    rw [moreArguments_of_comma ((h ts).eq_ok harg) ht]
    exact ih
  | case4 earlier ts hts arg rest harg t behind hrest _ ht =>
    obtain ⟨_, hlt⟩ := rest
    subst hrest
    rw [moreArguments_of_closing ((h ts).eq_ok harg) ht]
    exact .refl _
  | case5 earlier ts hts arg rest harg t behind hrest _ hcomma hclosing =>
    obtain ⟨_, hlt⟩ := rest
    subst hrest
    rw [moreArguments_of_ne ((h ts).eq_ok harg) hcomma hclosing]
    exact .refl _

theorem arguments_refines : Refines (arguments stop expr) (arguments stop expr') := by
  intro ts
  rcases ts with _ | ⟨t, behind⟩
  · exact moreArguments_agrees h ..
  · simp only [arguments]
    split
    · exact .refl _
    · exact moreArguments_agrees h ..

theorem arguments?_agrees (ts : List Lexeme) :
    Agrees (arguments? stop expr ts) (arguments? stop expr' ts) := by
  rcases ts with _ | ⟨t, behind⟩
  · exact .refl _
  · have hargs : Agrees (arguments stop expr behind) (arguments stop expr' behind) :=
      arguments_refines h behind
    simp only [arguments?]
    split
    · split
      · rename_i e he
        exact hargs.error he fun he => by rw [he]
      · rename_i args rest hok
        rw [hargs.eq_ok hok]
        exact .refl _
    · exact .refl _

/-- The call of a method behaves as its arguments do. -/
theorem method_refines (receiver : Expr) :
    Refines (method stop expr receiver) (method stop expr' receiver) := by
  intro ts
  simp only [method]
  split
  · exact .refl _
  · split
    · exact .refl _
    · rename_i behindOpening _
      have hargs : Agrees (arguments stop expr behindOpening.1) _ :=
        arguments_refines h behindOpening.1
      split
      · rename_i e he
        exact hargs.error he fun he => by rw [he]
      · rename_i args rest hok
        rw [hargs.eq_ok hok]
        exact .refl _

/-- Calls of methods do the same if expressions do. -/
theorem methods_agrees {n : Nat} (receiver : Expr) (ts : List Lexeme) (hts : ts.length < n) :
    Agrees (methods stop expr receiver ts hts) (methods stop expr' receiver ts hts) := by
  fun_induction methods stop expr receiver ts hts with
  | case1 =>
    rw [methods_nil]
    exact .refl _
  | case2 receiver t behind hts ht e hcall =>
    exact (method_refines h receiver behind).error hcall fun hcall =>
      methods_of_dot_error ht hcall hts
  | case3 receiver t behind hts ht call rest hcall _ _ ih =>
    rw [methods_of_dot_ok ht ((method_refines h receiver behind).eq_ok hcall)]
    exact ih
  | case4 receiver t behind hts ht =>
    rw [methods_of_stops stop (by rintro _ ⟨⟩; exact ht)]
    exact .refl _

/-! ## Operands -/

/-- A group behaves as the expression in it. -/
theorem group_refines : Refines (group stop expr) (group stop expr') := by
  intro ts
  simp only [group]
  split
  · rename_i e he
    exact (h ts).error he group_of_error
  · rename_i inner rest hok
    rw [(h ts).eq_ok hok]
    exact .refl _

/-- A primary behaves as the expressions in its parentheses. -/
theorem primary_refines : Refines (primary stop expr) (primary stop expr') := by
  intro ts
  rcases ts with _ | ⟨⟨t, offset⟩, behind⟩
  · exact .refl _
  have hargs : Agrees (arguments? stop expr behind) (arguments? stop expr' behind) :=
    arguments?_agrees h behind
  cases t with
  | name | field =>
    simp only [primary]
    split
    · rename_i e he
      exact hargs.error he fun he => by rw [he]
    all_goals
      rename_i hok
      rw [hargs.eq_ok hok]
      exact .refl _
  | opening =>
    simp only [primary]
    split
    · rename_i e he
      exact (group_refines h behind).error he fun he => by rw [he]
    · rename_i inner rest hok
      rw [(group_refines h behind).eq_ok hok]
      exact .refl _
  | number | text | operator | not | assign | closing | comma | dot => exact .refl _

omit h in
/-- With one level more an operand is read in the same way, unless it lies too deeply for one
    less. -/
theorem operand_refines_succ (depth : Nat) :
    Refines (operand stop depth) (operand stop (depth + 1)) := by
  induction depth with
  | zero =>
    -- Under the limit zero, every operand lies too deeply.
    intro ts
    cases ts <;> exact .inl ⟨_, rfl⟩
  | succ depth ih =>
    intro ts
    rcases ts with _ | ⟨t, behind⟩
    · exact .refl _
    simp only [operand]
    split
    · rename_i op _
      split
      · rename_i e he
        exact (ih behind).error he fun he => by rw [he]
      · rename_i inner rest hok
        rw [(ih behind).eq_ok hok]
        exact .refl _
    · have hexpr := expression_refines ih
      have hprimary : Agrees (primary stop _ (t :: behind)) _ := primary_refines hexpr (t :: behind)
      split
      · rename_i e he
        exact hprimary.error he fun he => by rw [he]
      · rename_i receiver rest hok
        rw [hprimary.eq_ok hok]
        exact methods_agrees hexpr ..

omit h in
theorem operand_refines {depth depth' : Nat} (hle : depth ≤ depth') :
    Refines (operand stop depth) (operand stop depth') := by
  induction hle with
  | refl => exact fun _ => .refl _
  | step _ ih => exact fun ts => (ih ts).trans (operand_refines_succ _ ts)

omit h in
theorem expression_operand_refines {depth depth' : Nat} (hle : depth ≤ depth') :
    Refines (expression (operand stop depth)) (expression (operand stop depth')) :=
  expression_refines (operand_refines hle)

/-! ## Formulas -/

omit h in
/-- Under a larger limit all lexemes make up the same expression, or fail alike. -/
theorem exprOfLexemes_agrees (stop : Nat) {depth depth' : Nat} (hle : depth ≤ depth')
    (ts : List Lexeme) :
    Agrees (Expr.ofLexemes stop depth ts) (Expr.ofLexemes stop depth' ts) := by
  have hread : Agrees (expression (operand stop depth) ts) _ := expression_operand_refines hle ts
  rw [Expr.ofLexemes]
  split
  · rename_i e he
    exact hread.error he fun he => by simp only [Expr.ofLexemes, he]
  all_goals
    rename_i hok
    simp only [Expr.ofLexemes, hread.eq_ok hok]
    exact .refl _

omit h in
theorem Agrees.map {β : Type} {x y : Except (Located SyntaxError) α} (h : Agrees x y)
    (f : α → β) : Agrees (x.map f) (y.map f) := by
  rcases h with ⟨o, rfl⟩ | rfl
  · exact .inl ⟨o, rfl⟩
  · exact .refl _

omit h in
/-- Under a greater limit, a formula is read in the same way, also if there is an error in
    it, unless operands lie too deeply within each other under the smaller one. -/
theorem ofLexemes_agrees (stop : Nat) {depth depth' : Nat} (hle : depth ≤ depth')
    (ts : List Lexeme) :
    Agrees (Statement.ofLexemes stop depth ts) (Statement.ofLexemes stop depth' ts) := by
  unfold Statement.ofLexemes
  split <;> exact (exprOfLexemes_agrees stop hle _).map _

end Formula.Syntax
