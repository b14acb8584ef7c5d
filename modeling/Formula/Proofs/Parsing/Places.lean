import Formula.Places
import Formula.Proofs.Parsing.ViablePrefix
import Formula.Syntax.Nodes

/-!
# Places of errors and nodes

A reader that fails blames the end of the formula or one of the lexemes that it was given
(`Blames`), whatever the limit on how deeply operands may lie within each other. Readers
hand this on from those that they are made of, as what is left behind something that has
been read is the end of the lexemes.

Every node of a formula is reported at one of the lexemes that it is read from, or, if it
is the call of a method, perhaps at the name behind a point (`IsStatement.placed`).
-/

namespace Formula.Syntax

/-! ## Errors -/

/-- The error is reported at the end of the formula, as what can be missing there, or at
    one of the lexemes. -/
def Blamed (stop : Nat) (ts : List Lexeme) (e : Located SyntaxError) : Prop :=
  (e.offset = stop ∧ Cause.AtEnd (.reading e.cause)) ∨
    ∃ t ∈ ts, e.offset = t.offset ∧ Cause.At t.token (.reading e.cause)

/-- Whenever a reader fails, it blames the end or one of the lexemes. -/
def Blames {α : Type} (stop : Nat) (read : Reader α) : Prop :=
  ∀ ⦃ts : List Lexeme⦄ ⦃e : Located SyntaxError⦄, read ts = .error e → Blamed stop ts e

variable {stop : Nat} {ts : List Lexeme} {e : Located SyntaxError}

/-- An error that is blamed on some lexemes is blamed on more. -/
theorem Blamed.behind (h : Blamed stop ts e) (us : List Lexeme) : Blamed stop (us ++ ts) e := by
  rcases h with h | ⟨t, ht, h⟩
  · exact .inl h
  · exact .inr ⟨t, List.mem_append_right us ht, h⟩

theorem blamed_unexpected {expected : Option Expectation} {t : Lexeme} {behind : List Lexeme} :
    Blamed stop (t :: behind) ⟨t.offset, .unexpectedToken expected t.token⟩ :=
  .inr ⟨t, List.mem_cons_self, rfl, rfl⟩

theorem blamed_end : Blamed stop ts ⟨stop, .unexpectedEnd⟩ := .inl ⟨rfl, .inl rfl⟩

theorem blamed_unclosed : Blamed stop ts ⟨stop, .unclosedParenthesis⟩ :=
  .inl ⟨rfl, .inr (.inl rfl)⟩

section Readers

variable {expr : Reader Expr} (hlocal : Local expr) (h : Blames stop expr)

include hlocal h

/-- A chain fails as one of its operands does. -/
theorem chain_blamed {level n : Nat} {left : Expr} {hts : ts.length < n}
    (hread : chain level expr left ts hts = .error e) : Blamed stop ts e := by
  fun_induction chain level expr left ts hts with
  | case1 | case2 => cases hread
  | case3 left t behind hts op ht e' hright =>
    cases hread
    exact (h hright).behind [t]
  | case4 left t behind hts op ht right rest hright _ _ ih =>
    obtain ⟨us, hus, _⟩ := hlocal hright
    have hblamed := (ih hread).behind (t :: us)
    rwa [List.cons_append, ← hus] at hblamed

theorem blames_leftAssociative (level : Nat) : Blames stop (leftAssociative level expr) := by
  intro ts e hread
  rw [leftAssociative] at hread
  split at hread
  · cases hread
    exact h ‹_›
  · rename_i left rest hleft
    obtain ⟨us, hus, _⟩ := hlocal hleft
    rw [hus]
    exact (chain_blamed hlocal h hread).behind us

theorem blames_binaryBelow (level : Nat) : Blames stop (binaryBelow expr level) := by
  induction level with
  | zero => exact h
  | succ level ih => exact blames_leftAssociative (local_binaryBelow hlocal level) ih level

theorem blames_expression : Blames stop (expression expr) := blames_binaryBelow hlocal h _

/-- Arguments fail as one of them does, at the end, or at what follows one. -/
theorem moreArguments_blamed {n : Nat} {earlier : List Expr} {hts : ts.length ≤ n}
    (hread : moreArguments stop expr earlier ts hts = .error e) : Blamed stop ts e := by
  fun_induction moreArguments stop expr earlier ts hts with
  | case1 earlier ts hts e' harg =>
    cases hread
    exact h harg
  | case2 =>
    cases hread
    exact blamed_unclosed
  | case3 earlier ts hts arg rest harg t behind hrest _ ht ih =>
    obtain ⟨us, hus, _⟩ := hlocal harg
    have hblamed := (ih hread).behind (us ++ [t])
    rwa [List.append_assoc, List.singleton_append, ← hrest, ← hus] at hblamed
  | case4 => cases hread
  | case5 earlier ts hts arg rest harg t behind hrest =>
    cases hread
    obtain ⟨us, hus, _⟩ := hlocal harg
    rw [hus, hrest]
    exact blamed_unexpected.behind us

theorem blames_arguments : Blames stop (arguments stop expr) := by
  intro ts e hread
  unfold arguments at hread
  split at hread
  · exact moreArguments_blamed hlocal h hread
  · split at hread
    · cases hread
    · exact moreArguments_blamed hlocal h hread

theorem arguments?_blamed (hread : arguments? stop expr ts = .error e) : Blamed stop ts e := by
  unfold arguments? at hread
  split at hread
  · cases hread
  · rename_i t behind
    split at hread
    · split at hread
      · cases hread
        exact (blames_arguments hlocal h ‹_›).behind [t]
      · cases hread
    · cases hread

omit hlocal h in
theorem blames_methodName : Blames stop (methodName stop) := by
  intro ts e hread
  unfold methodName at hread
  split at hread
  · cases hread
    exact blamed_end
  · split at hread <;> cases hread
    exact blamed_unexpected

omit hlocal h in
theorem blames_opening : Blames stop (opening stop) := by
  intro ts e hread
  unfold opening at hread
  split at hread
  · cases hread
    exact blamed_end
  · split at hread <;> cases hread
    exact blamed_unexpected

/-- A method fails at its name, at what follows it, at the end, or as its arguments do. -/
theorem blames_method (receiver : Expr) : Blames stop (method stop expr receiver) := by
  intro ts e hread
  unfold method at hread
  split at hread
  · cases hread
    exact blames_methodName ‹_›
  · rename_i offset name behindName hname
    obtain ⟨us, hus, _⟩ := blind_methodName hname
    rw [hus]
    split at hread
    · cases hread
      exact (blames_opening ‹_›).behind us
    · rename_i behindOpening hopening
      obtain ⟨vs, hvs, _⟩ := blind_opening hopening
      rw [hvs]
      split at hread
      · cases hread
        exact ((blames_arguments hlocal h ‹_›).behind vs).behind us
      · cases hread

theorem methods_blamed {n : Nat} {receiver : Expr} {hts : ts.length < n}
    (hread : methods stop expr receiver ts hts = .error e) : Blamed stop ts e := by
  fun_induction methods stop expr receiver ts hts with
  | case1 | case4 => cases hread
  | case2 receiver t behind hts ht e' hcall =>
    cases hread
    exact (blames_method hlocal h receiver hcall).behind [t]
  | case3 receiver t behind hts ht call rest hcall _ _ ih =>
    obtain ⟨us, hus, _⟩ := blind_method hlocal receiver hcall
    have hblamed := (ih hread).behind (t :: us)
    rwa [List.cons_append, ← hus] at hblamed

theorem blames_group : Blames stop (group stop expr) := by
  intro ts e hread
  unfold group at hread
  split at hread
  · cases hread
    exact h ‹_›
  · rename_i inner rest hinner
    obtain ⟨us, hus, _⟩ := hlocal hinner
    split at hread
    · cases hread
      exact blamed_unclosed
    · rename_i t behind hrest
      split at hread <;> cases hread
      rw [hus, hrest]
      exact blamed_unexpected.behind us

/-- A primary fails at its first lexeme, at the end, or as what is in its parentheses does. -/
theorem blames_primary : Blames stop (primary stop expr) := by
  intro ts e hread
  rcases ts with _ | ⟨t, behind⟩
  · cases hread
    exact blamed_end
  · simp only [primary] at hread
    split at hread
    · cases hread
    · cases hread
    · split at hread <;> cases hread
      exact (arguments?_blamed hlocal h ‹_›).behind [t]
    · split at hread <;> cases hread
      exact (arguments?_blamed hlocal h ‹_›).behind [t]
    · split at hread <;> cases hread
      exact (blames_group hlocal h ‹_›).behind [t]
    · cases hread
      exact blamed_unexpected

end Readers

/-- Whatever the limit is, operands blame the end or one of their lexemes. -/
theorem blames_operand (stop depth : Nat) : Blames stop (operand stop depth) := by
  induction depth with
  | zero =>
    intro ts e hread
    rcases ts with _ | ⟨t, behind⟩ <;> cases hread
    · exact .inl ⟨rfl, .inr (.inr rfl)⟩
    · exact .inr ⟨t, List.mem_cons_self, rfl, rfl⟩
  | succ depth ih =>
    intro ts e hread
    rcases ts with _ | ⟨t, behind⟩
    · cases hread
      exact blamed_end
    · have hlocal := local_expression (local_operand stop depth)
      have hexpr := blames_expression (local_operand stop depth) ih
      simp only [operand] at hread
      split at hread
      · split at hread <;> cases hread
        exact (ih ‹_›).behind [t]
      · split at hread
        · cases hread
          exact blames_primary hlocal hexpr ‹_›
        · rename_i receiver rest hreceiver
          obtain ⟨us, hus, _⟩ := local_primary hlocal hreceiver
          rw [hus]
          exact (methods_blamed hlocal hexpr hread).behind us

/-- If the lexemes do not make up an expression, this is blamed on the end or on one of them,
    be it behind an expression. -/
theorem exprOfLexemes_blamed {depth : Nat} (hread : Expr.ofLexemes stop depth ts = .error e) :
    Blamed stop ts e := by
  have hlocal := local_operand stop depth
  unfold Expr.ofLexemes at hread
  split at hread
  · cases hread
    exact blames_expression hlocal (blames_operand stop depth) ‹_›
  · cases hread
  · rename_i e' t behind _ hexpr
    cases hread
    obtain ⟨us, hus, _⟩ := local_expression hlocal hexpr
    rw [hus]
    exact .inr ⟨t, by simp, rfl, rfl⟩

/-- A formula that cannot be read blames its end or one of its lexemes. -/
theorem ofLexemes_blamed {depth : Nat} (hread : Statement.ofLexemes stop depth ts = .error e) :
    Blamed stop ts e := by
  by_cases hassignment : BeginsAssignment ts
  · obtain ⟨r, target, offset, behind, rfl⟩ := hassignment
    rw [ofLexemes_assignment] at hread
    exact (exprOfLexemes_blamed (error_of_map_eq_error hread)).behind
      [⟨r.token, target⟩, ⟨.assign, offset⟩]
  · rw [ofLexemes_expression hassignment] at hread
    exact exprOfLexemes_blamed (error_of_map_eq_error hread)

/-! ## Nodes -/

/-- The node is reported at one of the lexemes, from which it has its names, or is the call of
    a method and is reported at its name. -/
def NodePlaced (ts : List Lexeme) (x : Expr) : Prop :=
  (∃ t ∈ ts, t.offset = x.offset ∧ x.names ⊆ t.token.names) ∨
    ∃ name ∈ x.method?, IsMemberStart ts name x.offset

theorem NodePlaced.mono {us : List Lexeme} {x : Expr} (h : NodePlaced us x) (hus : us <:+: ts) :
    NodePlaced ts x := by
  rcases h with ⟨t, ht, h⟩ | ⟨name, hname, object, start, left, hfield, hoffset⟩
  · exact .inl ⟨t, hus.subset ht, h⟩
  · exact .inr ⟨name, hname, object, start, left, hfield.trans hus, hoffset⟩

/-- The names in a node are those in lexemes. -/
theorem NodePlaced.exists_name {x : Expr} (h : NodePlaced ts x) {name : String}
    (hname : name ∈ x.names) : ∃ t ∈ ts, name ∈ t.token.names := by
  rcases h with ⟨t, ht, -, hnames⟩ | ⟨method, hmethod, object, start, left, hfield, -⟩
  · exact ⟨t, ht, hnames hname⟩
  · cases x <;> cases hmethod
    obtain rfl := List.mem_singleton.1 hname
    exact ⟨_, hfield.subset List.mem_cons_self, by simp [Token.names]⟩

theorem IsArguments.exists_opening {depth : Nat} {args : List Expr}
    (h : IsArguments depth ts args) : ∃ left us, ts = ⟨.opening, left⟩ :: us := by
  cases h with
  | none | some => exact ⟨_, _, rfl⟩

mutual

/-- The nodes of an expression are reported at its lexemes, or where a member begins. -/
theorem IsBelow.placed {depth level : Nat} {ts : List Lexeme} {e : Expr} :
    IsBelow depth level ts e → ∀ x ∈ e.nodes, NodePlaced ts x
  | .operand h => h.placed
  | .up h => h.placed
  | .binary hl hr => by
    intro x hx
    simp only [Expr.nodes, List.mem_cons, List.mem_append] at hx
    rcases hx with rfl | hx | hx
    · exact .inl ⟨_, List.mem_append_right _ List.mem_cons_self, rfl, List.nil_subset _⟩
    · exact (hl.placed x hx).mono (List.prefix_append _ _).isInfix
    · exact (hr.placed x hx).mono ((List.suffix_cons ..).trans (List.suffix_append ..)).isInfix

theorem IsOperand.placed {depth : Nat} {ts : List Lexeme} {e : Expr} :
    IsOperand depth ts e → ∀ x ∈ e.nodes, NodePlaced ts x
  | .negate h | .not h => by
    intro x hx
    rcases List.mem_cons.1 hx with rfl | hx
    · exact .inl ⟨_, List.mem_cons_self, rfl, List.Subset.refl _⟩
    · exact (h.placed x hx).mono (List.suffix_cons ..).isInfix
  | .postfixed h => h.placed

theorem IsPostfix.placed {depth : Nat} {ts : List Lexeme} {e : Expr} :
    IsPostfix depth ts e → ∀ x ∈ e.nodes, NodePlaced ts x
  | .primary h => h.placed
  | .method h hargs => by
    intro x hx
    simp only [Expr.nodes, List.mem_cons, List.mem_append] at hx
    rcases hx with rfl | hx | hx
    · exact .inl ⟨_, List.mem_append_right _ (List.mem_cons_of_mem _ List.mem_cons_self), rfl,
        List.Subset.refl _⟩
    · exact (h.placed x hx).mono (List.prefix_append _ _).isInfix
    · exact (hargs.placed x hx).mono
        (((List.suffix_cons ..).trans (List.suffix_cons ..)).trans (List.suffix_append ..)).isInfix

/-- The call of a method on a field has two nodes for one lexeme, the receiver at its start and
    the call at the member. -/
theorem IsPrimary.placed {depth : Nat} {ts : List Lexeme} {e : Expr} :
    IsPrimary depth ts e → ∀ x ∈ e.nodes, NodePlaced ts x
  | .number | .text | .name | .field => by
    intro x hx
    obtain rfl := List.mem_singleton.1 hx
    exact .inl ⟨_, List.mem_cons_self, rfl, List.Subset.refl _⟩
  | .call hargs => by
    intro x hx
    rcases List.mem_cons.1 hx with rfl | hx
    · exact .inl ⟨_, List.mem_cons_self, rfl, List.Subset.refl _⟩
    · exact (hargs.placed x hx).mono (List.suffix_cons ..).isInfix
  | .fieldCall hargs => by
    intro x hx
    simp only [Expr.nodes, List.mem_cons, List.mem_append, List.not_mem_nil, or_false] at hx
    rcases hx with rfl | rfl | hx
    · obtain ⟨left, us, rfl⟩ := hargs.exists_opening
      exact .inr ⟨_, rfl, _, _, left, ⟨[], us, rfl⟩, rfl⟩
    · exact .inl ⟨_, List.mem_cons_self, rfl, by simp [Expr.names, Token.names]⟩
    · exact (hargs.placed x hx).mono (List.suffix_cons ..).isInfix
  | .group h => fun x hx => (h.placed x hx).mono ⟨[_], [_], rfl⟩

theorem IsArguments.placed {depth : Nat} {ts : List Lexeme} {args : List Expr} :
    IsArguments depth ts args → ∀ x ∈ Expr.nodesAll args, NodePlaced ts x
  | .none => fun _ hx => absurd hx List.not_mem_nil
  | .some h => fun x hx => (h.placed x hx).mono ⟨[_], [_], rfl⟩

theorem IsList.placed {depth : Nat} {ts : List Lexeme} {es : List Expr} :
    IsList depth ts es → ∀ x ∈ Expr.nodesAll es, NodePlaced ts x
  | .last h => fun x hx => h.placed x (by simpa [Expr.nodesAll] using hx)
  | .cons h hes => by
    intro x hx
    rcases List.mem_append.1 hx with hx | hx
    · exact (h.placed x hx).mono (List.prefix_append _ _).isInfix
    · exact (hes.placed x hx).mono ((List.suffix_cons ..).trans (List.suffix_append ..)).isInfix

end

/-- The nodes of a formula are reported where its lexemes are, and calls of methods at their
    names. -/
theorem IsStatement.placed {depth : Nat} {s : Statement} (h : IsStatement depth ts s) :
    ∀ x ∈ s.nodes, NodePlaced ts x := by
  cases h with
  | expression h => exact h.placed
  | assignName h | assignField h =>
    intro x hx
    rcases List.mem_cons.1 hx with rfl | hx
    · exact .inl ⟨_, List.mem_cons_self, rfl, List.Subset.refl _⟩
    · exact (h.placed x hx).mono ((List.suffix_cons ..).trans (List.suffix_cons ..)).isInfix

end Formula.Syntax
