import Formula.Evaluation
import Formula.Proofs.Lexing.Printing
import Formula.Proofs.Parsing.Acceptance

/-!
# What is printed is read again

The tokens of an expression in a place are derived by the grammar as what the place
holds (`printed`), at every depth that is not below the nesting of the
expression there. So the text of a formula is read as that formula, but for the places
of its nodes (`Statement.read_print`).
-/

namespace Formula

/-! ## Trees without places -/

namespace Expr

mutual

/-- The expression with all places forgotten. -/
def bare : Expr → Expr
  | .number _ n => .number 0 n
  | .text _ s => .text 0 s
  | .reference _ r => .reference 0 r
  | .unary _ op x => .unary 0 op (bare x)
  | .binary _ op l r => .binary 0 op (bare l) (bare r)
  | .call _ name args => .call 0 name (bareAll args)
  | .method _ e name args => .method 0 (bare e) name (bareAll args)

/-- The expressions with all places forgotten. -/
def bareAll : List Expr → List Expr
  | [] => []
  | e :: es => bare e :: bareAll es

end

end Expr

/-- The formula with all places forgotten. -/
def Statement.bare : Statement → Statement
  | .expression e => .expression e.bare
  | .assignment _ _ r e => .assignment 0 0 r e.bare

/-! ## Expressions in their places -/

namespace Syntax

/-- What is derived in a place. -/
def Fits (p : Place) (depth : Nat) (ts : List Lexeme) (e : Expr) : Prop :=
  match p with
  | .below level => IsBelow depth level ts e
  | .operand => IsOperand depth ts e
  | .receiver => ∃ d, depth = d + 1 ∧ IsPostfix d ts e

variable {depth : Nat} {ts : List Lexeme} {e : Expr} {p : Place}

/-- An expression of some levels is one of more. -/
theorem IsBelow.le {level level' : Nat} (h : IsBelow depth level ts e) (hle : level ≤ level') :
    IsBelow depth level' ts e := by
  induction hle with
  | refl => exact h
  | step _ ih => exact ih.up

/-- An operand fits everywhere but as the receiver of a method. -/
theorem fits_of_isOperand (hp : p ≠ .receiver) (h : IsOperand depth ts e) :
    Fits p depth ts e := by
  cases p with
  | below level => exact h.isBelow level
  | operand => exact h
  | receiver => exact absurd rfl hp

theorem fits_of_isPostfix (h : IsPostfix depth ts e) : Fits p (depth + 1) ts e := by
  cases p with
  | below level => exact (IsOperand.postfixed h).isBelow level
  | operand => exact .postfixed h
  | receiver => exact ⟨depth, rfl, h⟩

/-- Lexemes with the tokens of an expression in a place make up that expression there. -/
def Printed (p : Place) (e : Expr) : Prop :=
  ∀ ⦃depth : Nat⦄ ⦃ts : List Lexeme⦄, ts.map Lexeme.token = e.tokens p → e.nesting p ≤ depth →
    ∃ e', Fits p depth ts e' ∧ e'.bare = e.bare

theorem exists_of_map_eq_cons {t : Token} {us : List Token}
    (h : ts.map Lexeme.token = t :: us) :
    ∃ offset rest, ts = ⟨t, offset⟩ :: rest ∧ rest.map Lexeme.token = us := by
  obtain ⟨⟨_, offset⟩, rest, rfl, rfl, hrest⟩ := List.map_eq_cons_iff.1 h
  exact ⟨offset, rest, rfl, hrest⟩

theorem exists_of_map_eq_append_cons {t : Token} {us vs : List Token}
    (h : ts.map Lexeme.token = us ++ t :: vs) :
    ∃ before offset behind, ts = before ++ ⟨t, offset⟩ :: behind ∧
      before.map Lexeme.token = us ∧ behind.map Lexeme.token = vs := by
  obtain ⟨before, rest, rfl, hbefore, hrest⟩ := List.map_eq_append_iff.1 h
  obtain ⟨offset, behind, rfl, hbehind⟩ := exists_of_map_eq_cons hrest
  exact ⟨before, offset, behind, rfl, hbefore, hbehind⟩

theorem exists_of_map_eq_enclosed {us : List Token}
    (h : ts.map Lexeme.token = .opening :: us ++ [.closing]) :
    ∃ left inner right, ts = ⟨.opening, left⟩ :: inner ++ [⟨.closing, right⟩] ∧
      inner.map Lexeme.token = us := by
  obtain ⟨left, rest, rfl, hrest⟩ := exists_of_map_eq_cons h
  obtain ⟨inner, right, behind, rfl, hinner, hbehind⟩ := exists_of_map_eq_append_cons hrest
  obtain rfl := List.map_eq_nil_iff.1 hbehind
  exact ⟨left, inner, right, rfl, hinner⟩

theorem exists_fits_leaf {t : Token} {leaf : Nat → Expr} {x : Expr}
    (hleaf : ∀ d offset, IsPrimary d [⟨t, offset⟩] (leaf offset))
    (hbare : ∀ offset, (leaf offset).bare = x) (hts : ts.map Lexeme.token = [t])
    (hdepth : 1 ≤ depth) : ∃ e', Fits p depth ts e' ∧ e'.bare = x := by
  obtain ⟨offset, rest, rfl, hrest⟩ := exists_of_map_eq_cons hts
  obtain rfl := List.map_eq_nil_iff.1 hrest
  obtain ⟨d, rfl⟩ := Nat.exists_eq_add_of_le' hdepth
  exact ⟨leaf offset, fits_of_isPostfix (.primary (hleaf d offset)), hbare offset⟩

/-- What has parentheses around it where it needs them fits its place, if it fits between
    parentheses and where it needs none. -/
theorem exists_fits_parenthesized {needed : Bool} {inner : List Token} {nesting : Nat}
    {R : Nat → List Lexeme → Expr → Prop} {x : Expr}
    (hinner : ∀ {d us}, us.map Lexeme.token = inner → nesting ≤ d → ∃ e', R d us e' ∧ e'.bare = x)
    (hgroup : ∀ {d us e'}, R d us e' → IsBelow d BinaryOp.levels us e')
    (hplain : needed = false → ∀ {d us e'}, R d us e' → Fits p d us e')
    (hts : ts.map Lexeme.token = parenthesized needed inner)
    (hdepth : (if needed then 1 else 0) + nesting ≤ depth) :
    ∃ e', Fits p depth ts e' ∧ e'.bare = x := by
  cases needed with
  | false =>
    obtain ⟨e', he', hbare⟩ := hinner hts (by simpa using hdepth)
    exact ⟨e', hplain rfl he', hbare⟩
  | true =>
    -- Between parentheses anything may stand, but one level deeper.
    obtain ⟨left, us, right, rfl, hus⟩ := exists_of_map_eq_enclosed hts
    rw [if_pos rfl] at hdepth
    obtain ⟨d, rfl⟩ : ∃ d, depth = d + 1 := Nat.exists_eq_add_of_le' (by omega)
    obtain ⟨e', he', hbare⟩ := hinner hus (d := d) (by omega)
    exact ⟨e', fits_of_isPostfix (.primary (.group (hgroup he'))), hbare⟩

/-- Printed with commas between them, expressions make up a list of the same, places apart. -/
theorem exists_isList {es : List Expr} (h : ∀ e ∈ es, ∀ p, Printed p e) (hne : es ≠ [])
    (hts : ts.map Lexeme.token = Expr.argumentTokens es)
    (hdepth : Expr.argumentNesting es ≤ depth) :
    ∃ es', IsList depth ts es' ∧ Expr.bareAll es' = Expr.bareAll es := by
  induction es generalizing ts with
  | nil => exact absurd rfl hne
  | cons e es ih =>
    obtain ⟨he, hes⟩ := List.forall_mem_cons.1 h
    rw [Expr.argumentNesting] at hdepth
    have hfirst := Nat.le_trans (Nat.le_max_left ..) hdepth
    have hrest := Nat.le_trans (Nat.le_max_right ..) hdepth
    rcases es with _ | ⟨d, ds⟩
    · obtain ⟨e', he', hbare⟩ := he _ hts hfirst
      exact ⟨[e'], .last he', by rw [Expr.bareAll, hbare]; rfl⟩
    · obtain ⟨before, comma, behind, rfl, hbefore, hbehind⟩ := exists_of_map_eq_append_cons hts
      obtain ⟨e', he', hbare⟩ := he _ hbefore hfirst
      obtain ⟨es', hes', hbares⟩ := ih hes (by simp) hbehind hrest
      exact ⟨e' :: es', .cons he' hes', by rw [Expr.bareAll, hbare, hbares]; rfl⟩

/-- Printed with their parentheses, arguments make up the same arguments, places apart. -/
theorem exists_isArguments {es : List Expr} (h : ∀ e ∈ es, ∀ p, Printed p e)
    (hts : ts.map Lexeme.token = .opening :: Expr.argumentTokens es ++ [.closing])
    (hdepth : Expr.argumentNesting es ≤ depth) :
    ∃ es', IsArguments depth ts es' ∧ Expr.bareAll es' = Expr.bareAll es := by
  obtain ⟨left, inner, right, rfl, hinner⟩ := exists_of_map_eq_enclosed hts
  rcases es with _ | ⟨e, es⟩
  · obtain rfl := List.map_eq_nil_iff.1 hinner
    exact ⟨[], .none, rfl⟩
  · obtain ⟨es', hes', hbare⟩ := exists_isList h (by simp) hinner hdepth
    exact ⟨es', .some hes', hbare⟩

/-- The tokens of an expression in a place are derived as the expression there. -/
theorem printed (e : Expr) (p : Place) : Printed p e := by
  induction e using Expr.induction generalizing p with
  | number o n =>
    exact fun _ _ hts hdepth => exists_fits_leaf (fun _ _ => .number) (fun _ => rfl) hts hdepth
  | text o s =>
    exact fun _ _ hts hdepth => exists_fits_leaf (fun _ _ => .text) (fun _ => rfl) hts hdepth
  | reference o r =>
    intro depth ts hts hdepth
    cases r with
    | name n => exact exists_fits_leaf (fun _ _ => .name) (fun _ => rfl) hts hdepth
    | field o f => exact exists_fits_leaf (fun _ _ => .field) (fun _ => rfl) hts hdepth
  | unary o op x ih =>
    intro depth ts hts hdepth
    rw [Expr.tokens] at hts
    rw [Expr.nesting, Nat.add_assoc] at hdepth
    refine exists_fits_parenthesized (R := IsOperand) (fun {d us} hus hd => ?_)
      (fun h => h.isBelow _) (fun hneeded _ _ _ h => fits_of_isOperand ?_ h) hts hdepth
    · obtain ⟨offset, behind, rfl, hbehind⟩ := exists_of_map_eq_cons hus
      obtain ⟨d, rfl⟩ : ∃ d', d = d' + 1 := Nat.exists_eq_add_of_le' (by omega)
      obtain ⟨x', hx', hbare⟩ := ih .operand hbehind (Nat.le_of_succ_le_succ hd)
      cases op with
      | negate => exact ⟨_, .negate hx', by simp only [Expr.bare, hbare]⟩
      | not => exact ⟨_, .not hx', by simp only [Expr.bare, hbare]⟩
    -- As a receiver it would need the parentheses.
    · rintro rfl
      cases hneeded
  | binary o op l r ihl ihr =>
    intro depth ts hts hdepth
    rw [Expr.tokens] at hts
    rw [Expr.nesting] at hdepth
    refine exists_fits_parenthesized (R := fun d => IsBelow d (op.level + 1))
      (fun {d us} hus hd => ?_) (fun h => h.le op.level_lt_levels)
      (fun hneeded _ _ _ h => ?_) hts hdepth
    · obtain ⟨before, offset, behind, rfl, hbefore, hbehind⟩ := exists_of_map_eq_append_cons hus
      obtain ⟨l', hl', hbarel⟩ := ihl _ hbefore (Nat.le_trans (Nat.le_max_left ..) hd)
      obtain ⟨r', hr', hbarer⟩ := ihr _ hbehind (Nat.le_trans (Nat.le_max_right ..) hd)
      exact ⟨_, .binary hl' hr', by simp only [Expr.bare, hbarel, hbarer]⟩
    · cases p with
      | below level => exact h.le (Nat.not_le.1 (of_decide_eq_false hneeded))
      | operand | receiver => cases hneeded
  | call o name args ih =>
    intro depth ts hts hdepth
    rw [Expr.tokens] at hts
    rw [Expr.nesting] at hdepth
    obtain ⟨offset, behind, rfl, hbehind⟩ := exists_of_map_eq_cons hts
    obtain ⟨d, rfl⟩ : ∃ d, depth = d + 1 := Nat.exists_eq_add_of_le' (by omega)
    obtain ⟨args', hargs', hbare⟩ :=
      exists_isArguments ih hbehind (Nat.le_of_succ_le_succ hdepth)
    exact ⟨_, fits_of_isPostfix (.primary (.call hargs')), by simp only [Expr.bare, hbare]⟩
  | method o e name args ihe ih =>
    intro depth ts hts hdepth
    rw [Expr.tokens, List.append_assoc] at hts
    rw [Expr.nesting] at hdepth
    obtain ⟨before, dot, rest, rfl, hbefore, hrest⟩ := exists_of_map_eq_append_cons hts
    obtain ⟨offset, behind, rfl, hbehind⟩ := exists_of_map_eq_cons hrest
    obtain ⟨e', ⟨d, rfl, he'⟩, hbaree⟩ :=
      ihe .receiver hbefore (Nat.le_trans (Nat.le_max_left ..) hdepth)
    obtain ⟨args', hargs', hbare⟩ := exists_isArguments ih hbehind
      (Nat.le_of_succ_le_succ (Nat.le_trans (Nat.le_max_right ..) hdepth))
    exact ⟨_, fits_of_isPostfix (.method he' hargs'), by simp only [Expr.bare, hbaree, hbare]⟩

/-- The tokens of a formula make up that formula, places apart. -/
theorem exists_isStatement {s : Statement} (hts : ts.map Lexeme.token = s.tokens)
    (hdepth : s.nesting ≤ depth) : ∃ s', IsStatement depth ts s' ∧ s'.bare = s.bare := by
  cases s with
  | expression e =>
    obtain ⟨e', he', hbare⟩ := printed e _ hts hdepth
    exact ⟨_, .expression he', by simp only [Statement.bare, hbare]⟩
  | assignment o targetOffset r e =>
    obtain ⟨target, rest, rfl, hrest⟩ := exists_of_map_eq_cons hts
    obtain ⟨offset, behind, rfl, hbehind⟩ := exists_of_map_eq_cons hrest
    obtain ⟨e', he', hbare⟩ := printed e _ hbehind hdepth
    cases r with
    | name n => exact ⟨_, .assignName he', by simp only [Statement.bare, hbare]⟩
    | field o f => exact ⟨_, .assignField he', by simp only [Statement.bare, hbare]⟩

/-! ## Nesting -/

/-- An expression lies no deeper in one place than in another where it needs parentheses
    whenever it does in the first. -/
theorem nesting_le_of_needsParentheses {q : Place}
    (h : needsParentheses p e → needsParentheses q e) : e.nesting p ≤ e.nesting q := by
  cases e with
  | unary o op x | binary o op l r =>
    rw [Expr.nesting, Expr.nesting]
    split
    · rename_i hp
      rw [if_pos (h hp)]
    · omega
  | _ => exact Nat.le_refl _

theorem needsParentheses_of_succ {level : Nat} (h : needsParentheses (.below (level + 1)) e) :
    needsParentheses (.below level) e := by
  cases e with
  | binary o op l r => exact decide_eq_true (Nat.le_of_succ_le (of_decide_eq_true h))
  | _ => cases h

/-- Parentheses add one level. -/
theorem nesting_le_succ (p q : Place) (e : Expr) : e.nesting p ≤ e.nesting q + 1 := by
  cases e with
  | unary o op x | binary o op l r =>
    rw [Expr.nesting, Expr.nesting]
    split <;> omega
  | _ => exact Nat.le_succ _

mutual

/-- However an expression is written, it lies at least as deep as when it is printed. -/
theorem IsBelow.nesting_le {depth level : Nat} {ts : List Lexeme} {e : Expr} :
    IsBelow depth level ts e → e.nesting (.below level) ≤ depth
  | .operand h =>
    Nat.le_trans (nesting_le_of_needsParentheses (by cases e <;> simp [needsParentheses]))
      h.nesting_le
  | .up h =>
    Nat.le_trans (nesting_le_of_needsParentheses needsParentheses_of_succ) h.nesting_le
  | .binary hl hr => by
    have hmax := Nat.max_le.2 ⟨hl.nesting_le, hr.nesting_le⟩
    rwa [Expr.nesting, if_neg (by simp [needsParentheses]), Nat.zero_add]

/-- Printing needs no more levels than what was read: parentheses that are printed were needed
    there, too. -/
theorem IsOperand.nesting_le {depth : Nat} {ts : List Lexeme} {e : Expr} :
    IsOperand depth ts e → e.nesting .operand ≤ depth
  | .negate h | .not h => by
    rw [Expr.nesting, if_neg (by simp [needsParentheses]), Nat.zero_add]
    exact Nat.succ_le_succ h.nesting_le
  | .postfixed h =>
    Nat.le_trans (nesting_le_of_needsParentheses (by cases e <;> simp [needsParentheses]))
      h.nesting_le

theorem IsPostfix.nesting_le {depth : Nat} {ts : List Lexeme} {e : Expr} :
    IsPostfix depth ts e → e.nesting .receiver ≤ depth + 1
  | .primary h => h.nesting_le
  | .method h hargs => Nat.max_le.2 ⟨h.nesting_le, Nat.succ_le_succ hargs.nesting_le⟩

theorem IsPrimary.nesting_le {depth : Nat} {ts : List Lexeme} {e : Expr} :
    IsPrimary depth ts e → e.nesting .receiver ≤ depth + 1
  | .number | .text | .name | .field => Nat.le_add_left ..
  | .call h => Nat.succ_le_succ h.nesting_le
  | .fieldCall h => Nat.max_le.2 ⟨Nat.le_add_left .., Nat.succ_le_succ h.nesting_le⟩
  | .group h => Nat.le_trans (nesting_le_succ ..) (Nat.succ_le_succ h.nesting_le)

theorem IsArguments.nesting_le {depth : Nat} {ts : List Lexeme} {args : List Expr} :
    IsArguments depth ts args → Expr.argumentNesting args ≤ depth
  | .none => Nat.zero_le _
  | .some h => h.nesting_le

theorem IsList.nesting_le {depth : Nat} {ts : List Lexeme} {es : List Expr} :
    IsList depth ts es → Expr.argumentNesting es ≤ depth
  | .last h => Nat.max_le.2 ⟨h.nesting_le, Nat.zero_le _⟩
  | .cons h hes => Nat.max_le.2 ⟨h.nesting_le, hes.nesting_le⟩

end

/-- A formula that was accepted is printed within the limit. -/
theorem IsStatement.nesting_le {s : Statement} (h : IsStatement depth ts s) :
    s.nesting ≤ depth := by
  cases h with
  | expression h | assignName h | assignField h => exact h.nesting_le

theorem needsParentheses_bare (p : Place) (e : Expr) :
    needsParentheses p e.bare = needsParentheses p e := by
  cases e <;> cases p <;> rfl

end Syntax

open Syntax

theorem Expr.argumentNesting_bareAll {es : List Expr}
    (h : ∀ e ∈ es, ∀ p, e.bare.nesting p = e.nesting p) :
    argumentNesting (bareAll es) = argumentNesting es := by
  induction es with
  | nil => rfl
  | cons e es ih =>
    obtain ⟨he, hes⟩ := List.forall_mem_cons.1 h
    rw [bareAll, argumentNesting, argumentNesting, he, ih hes]

/-- How deeply operands lie does not depend on places. -/
theorem Expr.nesting_bare (e : Expr) (p : Place) : e.bare.nesting p = e.nesting p := by
  induction e using Expr.induction generalizing p with
  | number o n | text o s | reference o r => rfl
  | unary o op x ih =>
    have hneeded := needsParentheses_bare p (.unary o op x)
    rw [bare] at hneeded ⊢
    rw [nesting, nesting, hneeded, ih]
  | binary o op l r ihl ihr =>
    have hneeded := needsParentheses_bare p (.binary o op l r)
    rw [bare] at hneeded ⊢
    rw [nesting, nesting, hneeded, ihl, ihr]
  | call o name args ih => rw [bare, nesting, nesting, argumentNesting_bareAll ih]
  | method o e name args ihe ih =>
    rw [bare, nesting, nesting, ihe, argumentNesting_bareAll ih]

theorem Statement.nesting_bare (s : Statement) : s.bare.nesting = s.nesting := by
  cases s <;> exact Expr.nesting_bare ..

/-! ## Formulas -/

/-- A formula is printed so that it can be read again, as the same formula but for the
    places of its nodes, where the nesting of what is printed is allowed; and where it is
    not, the formula cannot be written at all. Units are different names, the separator is
    neither a space nor the letter of an exponent, and all tokens can be written. -/
theorem Statement.read_print {units : List String} {settings : Settings} {s : Statement}
    (hnames : ∀ name ∈ units, Token.IsName name.toList) (hnodup : units.Nodup)
    (hspace : settings.decimalSeparator ≠ ' ') (he : settings.decimalSeparator ≠ 'e')
    (hs : ∀ t ∈ s.tokens, t.Proper units) :
    (s.nesting ≤ settings.maxDepth →
        ∃ s', read units settings s.print = .ok s' ∧ s'.bare = s.bare) ∧
      ∀ source s', read units settings source = .ok s' → s'.bare = s.bare →
        s.nesting ≤ settings.maxDepth := by
  constructor
  · intro hdepth
    have hplain : Token.Plain { units, separator := settings.decimalSeparator } :=
      ⟨hnames, hnodup, hspace, he⟩
    obtain ⟨lexemes, hlexemes, htokens⟩ := Token.tokenize_spaced hplain hs s.apart_tokens
    obtain ⟨s', hs', hbare⟩ := Syntax.exists_isStatement htokens hdepth
    refine ⟨s', ?_, hbare⟩
    have hprint : s.print = String.ofList (Token.spaced s.tokens) := rfl
    simp only [read, hprint, hlexemes, bind, Except.bind, Syntax.ofLexemes_of_isStatement _ hs']
  · intro source s' hread hbare
    rw [read] at hread
    rcases hlexemes : tokenize { units, separator := settings.decimalSeparator } source with
      _ | ts <;>
      rw [hlexemes] at hread
    · cases hread
    · -- The nesting does not depend on the places, so it is that of what has been read.
      rw [← nesting_bare, ← hbare, nesting_bare]
      exact (Syntax.isStatement_of_ofLexemes hread).nesting_le

/-- The right operand of a difference is a difference, and a quote stands in a text. -/
theorem Statement.read_print_difference :
    let value := Spelling.value ⟨['1'], some ('.', ['5']), none⟩
    let quantity : Expr := .number 0 ⟨value, "1.5", some ⟨1, "mm"⟩⟩
    let difference : Expr := .binary 0 .sub (.reference 0 (.name "a")) (.text 0 "it's")
    let s : Statement := .assignment 0 0 (.field "o" "x") (.binary 0 .sub quantity difference)
    s.print = "o.x = 1.5 mm - ( a - 'it\\'s' )" ∧ s.nesting = 2 ∧
      ∃ s', read ["m", "mm"] { decimalSeparator := ',', maxDepth := 2 } s.print = .ok s' ∧
        s'.bare = s.bare := by
  intro value quantity difference s
  have hproper : Spelling.Proper '.' ⟨['1'], some ('.', ['5']), none⟩ :=
    ⟨List.forall_mem_singleton.2 rfl,
      by rintro _ _ ⟨⟩; exact ⟨.inl rfl, by decide, List.forall_mem_singleton.2 rfl⟩,
      by rintro _ _ _ ⟨⟩, .inl (by decide)⟩
  have htext : Spelling.text ⟨['1'], some ('.', ['5']), none⟩ = "1.5".toList := by decide
  have hs : ∀ t ∈ s.tokens, t.Proper ["m", "mm"] := by
    have hquantity : Token.Proper ["m", "mm"] (.number ⟨value, "1.5", some ⟨1, "mm"⟩⟩) :=
      ⟨⟨_, hproper, by decide⟩, htext ▸ Spelling.read?_text hproper, by rintro _ ⟨⟩; rfl⟩
    have hname (c : Char) (hc : Token.isNameStart c) : Token.IsName [c] :=
      ⟨c, [], rfl, hc, by simp⟩
    have htokens : s.tokens = [.field "o" "x", .assign, .number ⟨value, "1.5", some ⟨1, "mm"⟩⟩,
      .operator .sub, .opening, .name "a", .operator .sub, .text "it's", .closing] := rfl
    rw [htokens]
    simp only [List.forall_mem_cons]
    exact ⟨⟨hname 'o' rfl, hname 'x' rfl⟩, trivial, hquantity, trivial, trivial, hname 'a' rfl,
      trivial, trivial, trivial, by simp⟩
  refine ⟨by cbv, rfl, (read_print ?_ (by decide) (by decide) (by decide) hs).1 (Nat.le_refl 2)⟩
  simp only [List.forall_mem_cons]
  exact ⟨⟨'m', [], rfl, rfl, by simp⟩,
    ⟨'m', ['m'], rfl, rfl, List.forall_mem_singleton.2 rfl⟩, by simp⟩

end Formula
