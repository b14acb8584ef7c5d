import Formula.Host.Table
import Formula.Proofs.Parsing.Printing
import Formula.Proofs.Resources
import Mathlib

/-!
# Long formulas

Every value that a formula needs room for is written down with a token of its own, and
two values wait on the stack only with a token between them. So a program meets a fault
only where the tokens of its formula are more than the heap has cells, or more than twice
as many as the stack has entries (`tokens_of_fault`).

There is no limit on how many operators stand behind each other, and a heap cell is not
given back. So for every heap there is a formula without parentheses that exhausts it,
whatever its values are: a chain of alternatives (`run_alternatives`). It takes 65 of
them in the usual context.
-/

namespace Formula

variable {σ : Type}

/-! ## Tokens and need -/

namespace Syntax

/-- One value waits for the next with a token between them. -/
theorem two_mul_max_le {e : Expr} {k m n : Nat} (h : 2 * e.stackNeed ≤ m + 1)
    (hk : 2 * k ≤ n + 1) : 2 * max e.stackNeed (1 + k) ≤ m + (n + 1) + 1 := by
  have := e.stackNeed_pos
  omega

mutual

/-- An expression of `n` tokens needs at most `n` cells, and of the stack at most half of `n +
    1` entries: an operator stands between the value that waits and the one above it. -/
theorem IsBelow.need_le {depth level : Nat} {ts : List Lexeme} {e : Expr} :
    IsBelow depth level ts e → 2 * e.stackNeed ≤ ts.length + 1 ∧ e.heapNeed ≤ ts.length
  | .operand h => h.need_le
  | .up h => h.need_le
  | .binary hl hr => by
    have hl := hl.need_le
    have hr := hr.need_le
    simp only [Expr.stackNeed, Expr.heapNeed, List.length_append, List.length_cons]
    exact ⟨two_mul_max_le hl.1 hr.1, by omega⟩

/-- A prefix takes a token and one cell. -/
theorem IsOperand.need_le {depth : Nat} {ts : List Lexeme} {e : Expr} :
    IsOperand depth ts e → 2 * e.stackNeed ≤ ts.length + 1 ∧ e.heapNeed ≤ ts.length
  | .negate h | .not h => by
    have h := h.need_le
    simp only [Expr.stackNeed, Expr.heapNeed, List.length_cons]
    omega
  | .postfixed h => h.need_le

/-- A method needs what its arguments need and one cell more; its receiver is not put on the
    stack. -/
theorem IsPostfix.need_le {depth : Nat} {ts : List Lexeme} {e : Expr} :
    IsPostfix depth ts e → 2 * e.stackNeed ≤ ts.length + 1 ∧ e.heapNeed ≤ ts.length
  | .primary h => h.need_le
  | .method _ hargs => by
    have hargs := hargs.need_le
    simp only [Expr.stackNeed, Expr.heapNeed, List.length_append, List.length_cons]
    omega

/-- A number or a text needs no cell, a name needs one, and a call one more than its
    arguments. -/
theorem IsPrimary.need_le {depth : Nat} {ts : List Lexeme} {e : Expr} :
    IsPrimary depth ts e → 2 * e.stackNeed ≤ ts.length + 1 ∧ e.heapNeed ≤ ts.length
  | .number | .text | .name | .field => by simp [Expr.stackNeed, Expr.heapNeed]
  | .call hargs | .fieldCall hargs => by
    have hargs := hargs.need_le
    simp only [Expr.stackNeed, Expr.heapNeed, List.length_cons]
    omega
  | .group h => by
    have h := h.need_le
    simp only [List.length_append, List.length_cons]
    omega

/-- The parentheses are tokens that need nothing. -/
theorem IsArguments.need_le {depth : Nat} {ts : List Lexeme} {args : List Expr} :
    IsArguments depth ts args →
      2 * Expr.stackNeedAll args ≤ ts.length + 1 ∧ Expr.heapNeedAll args ≤ ts.length
  | .none => by simp [Expr.stackNeedAll, Expr.heapNeedAll]
  | .some h => by
    have h := h.need_le
    simp only [List.length_append, List.length_cons]
    omega

/-- While an argument is computed those before it are on the stack: each has a token and a
    comma. -/
theorem IsList.need_le {depth : Nat} {ts : List Lexeme} {es : List Expr} :
    IsList depth ts es →
      2 * Expr.stackNeedAll es ≤ ts.length + 1 ∧ Expr.heapNeedAll es ≤ ts.length
  | .last h => by
    simp only [Expr.stackNeedAll, Expr.heapNeedAll, Nat.add_zero,
      Nat.max_eq_left (Expr.stackNeed_pos _)]
    exact h.need_le
  | .cons h hes => by
    have h := h.need_le
    have hes := hes.need_le
    simp only [Expr.stackNeedAll, Expr.heapNeedAll, List.length_append, List.length_cons]
    exact ⟨two_mul_max_le h.1 hes.1, by omega⟩

end

/-- What a formula needs is bounded by the number of its tokens. -/
theorem IsStatement.need_le {depth : Nat} {ts : List Lexeme} {st : Statement} (h : IsStatement depth ts st) :
    2 * st.stackNeed ≤ ts.length + 1 ∧ st.heapNeed ≤ ts.length := by
  cases h with
  | expression h => exact h.need_le
  | assignName h | assignField h =>
    have h := h.need_le
    simp only [Statement.stackNeed, Statement.heapNeed, List.length_cons]
    omega

end Syntax

namespace Program

/-- A program that could be compiled alone is that of a formula made up of the tokens of
    the source. -/
theorem exists_tokens_of_compile {host : Host σ} {settings : Settings} {source : String}
    {p : Program σ} (hp : Formula.compile host settings source = .ok p) :
    ∃ ts st, tokenize { units := host.units.names, separator := settings.decimalSeparator }
        source = .ok ts ∧
      Syntax.IsStatement settings.maxDepth ts st ∧ generate {} host st.arena = (p, .ok ()) := by
  rw [compile_eq] at hp
  rcases hst : Statement.read host.units.names settings source with e | st <;>
    simp only [hst] at hp
  · cases hp
  rcases his : st.code host with e | is <;> simp only [his] at hp <;> cases hp
  obtain ⟨ts, hts, hst⟩ := Syntax.exists_tokens_of_read hst
  exact ⟨ts, st, hts, hst, by rw [generate_arena, his]⟩

/-- The faults of a compiled program are that the stack or the heap is full; and then the
    formula has more tokens than the heap has cells, or more than twice as many as the
    stack has entries. -/
theorem tokens_of_fault {host : Host σ} {settings : Settings} {source : String} {p : Program σ}
    (hp : Formula.compile host settings source = .ok p) {c : Context} {s : σ} {o : Nat}
    {f : Fault} (hf : (p.run c s).result = .error ⟨o, .fault f⟩) :
    ∃ ts, tokenize { units := host.units.names, separator := settings.decimalSeparator }
        source = .ok ts ∧
      ((f = .stackOverflow c.capacities.stack ∧ 2 * c.capacities.stack < ts.length) ∨
        (f = .heapExhausted c.capacities.heap ∧ c.capacities.heap < ts.length)) := by
  obtain ⟨ts, st, hts, hst, hg⟩ := exists_tokens_of_compile hp
  obtain ⟨hstack, hheap⟩ := hst.need_le
  refine ⟨ts, hts, ?_⟩
  rcases lack_of_fault hg hf with ⟨rfl, hlack⟩ | ⟨rfl, hlack⟩
  · exact .inl ⟨rfl, by omega⟩
  · exact .inr ⟨rfl, by omega⟩

/-- Two alternatives are three tokens, and do not fit in two heap cells. -/
theorem tokens_of_fault_alternatives :
    let x : Variable Unit := .fixed .undefined
    let host : Host Unit := { reference? := fun _ => some x, function? := fun _ => none }
    let p : Program Unit :=
      ⟨#[⟨0, .load ⟨"a", x⟩⟩, ⟨5, .load ⟨"a", x⟩⟩, ⟨2, .binary (.binary .or)⟩]⟩
    Formula.compile host {} "a || a" = .ok p ∧
      (p.run { capacities := ⟨2, 2⟩ } ()).result = .error ⟨2, .fault (.heapExhausted 2)⟩ ∧
      ∃ ts, tokenize {} "a || a" = .ok ts ∧ 2 < ts.length := by
  intro x host p
  have hp : Formula.compile host {} "a || a" = .ok p := by cbv
  have hf : (p.run { capacities := ⟨2, 2⟩ } ()).result = .error ⟨2, .fault (.heapExhausted 2)⟩ :=
    rfl
  obtain ⟨ts, hts, ⟨h, _⟩ | ⟨_, hlength⟩⟩ := tokens_of_fault hp hf
  · cases h
  · exact ⟨hp, hf, ts, hts, hlength⟩

end Program

/-! ## Alternatives -/

namespace Expr

/-- A reference and `n` more of it as alternatives. -/
def alternatives (r : Reference) : Nat → Expr
  | 0 => .reference 0 r
  | n + 1 => .binary 0 .or (alternatives r n) (.reference 0 r)

variable {r : Reference}

/-- One more alternative is an operator and a reference more. -/
theorem tokens_alternatives_succ (n : Nat) :
    (alternatives r (n + 1)).tokens (.below BinaryOp.levels) =
      (alternatives r n).tokens (.below BinaryOp.levels) ++ [.operator .or, r.token] := rfl

/-- Alternatives are not nested. -/
theorem nesting_alternatives (n : Nat) :
    (alternatives r n).nesting (.below BinaryOp.levels) = 1 := by
  induction n with
  | zero => rfl
  | succ n ih =>
    have hneeded : Syntax.needsParentheses (.below BinaryOp.levels)
        (.binary 0 .or (alternatives r n) (.reference 0 r)) = false := rfl
    rw [alternatives, nesting, hneeded, if_neg Bool.false_ne_true, Nat.zero_add]
    exact congrArg (max · 1) ih

theorem bare_alternatives (n : Nat) : (alternatives r n).bare = alternatives r n := by
  induction n with
  | zero => rfl
  | succ n ih => rw [alternatives, bare, ih, bare]

/-- Alternatives, with whatever places. -/
inductive IsAlternatives (r : Reference) : Nat → Expr → Prop
  | reference {o : Nat} : IsAlternatives r 0 (.reference o r)
  | or {n o o' : Nat} {l : Expr} :
      IsAlternatives r n l → IsAlternatives r (n + 1) (.binary o .or l (.reference o' r))

/-- An expression that differs from alternatives in its places is one. -/
theorem isAlternatives_of_bare {e : Expr} {n : Nat} (h : e.bare = alternatives r n) :
    IsAlternatives r n e := by
  induction n generalizing e with
  | zero =>
    cases e <;> cases h
    exact .reference
  | succ n ih =>
    cases e with
    | binary o op l x =>
      obtain ⟨rfl, hl, hx⟩ : op = .or ∧ l.bare = alternatives r n ∧ x.bare = .reference 0 r := by
        simpa [bare, alternatives] using h
      cases x <;> cases hx
      exact .or (ih hl)
    | _ => cases h

variable {host : Host σ} {x : Variable σ} {e : Expr} {n : Nat}

/-- Alternatives never need more than two entries of the stack, but a cell for each reference
    and each operator. -/
theorem IsAlternatives.need (h : IsAlternatives r n e) :
    e.stackNeed ≤ 2 ∧ e.heapNeed = 2 * n + 1 := by
  induction h with
  | reference => simp [stackNeed, heapNeed]
  | or _ ih =>
    simp only [stackNeed, heapNeed]
    omega

/-- Alternatives can be linked where the reference is known. -/
theorem IsAlternatives.exists_code (h : IsAlternatives r n e) (hr : host.reference? r = some x) :
    ∃ is, e.code host = .ok is := by
  induction h with
  | reference => exact ⟨_, by rw [code, host.bind_of_reference? hr]; rfl⟩
  | or _ ih =>
    obtain ⟨is, his⟩ := ih
    exact ⟨_, by rw [code, his, code, host.bind_of_reference? hr]; rfl⟩

/-- Alternatives have a value, whatever the reference stands for. -/
theorem IsAlternatives.exists_eval (h : IsAlternatives r n e) (hr : host.reference? r = some x)
    (view : Nat → View) (depth : Nat) (s : σ) : ∃ v s', e.eval host view depth s = .ok v s' := by
  induction h generalizing depth s with
  | reference => exact ⟨_, _, by rw [eval, host.bind_of_reference? hr]; rfl⟩
  | or _ ih =>
    obtain ⟨v, s', hv⟩ := ih depth s
    simp only [eval, host.bind_of_reference? hr, Bind.bind, EStateM.bind, hv]
    exact ⟨_, _, rfl⟩

/-- Their tokens can be written. -/
theorem proper_tokens_alternatives {units : List String} (hr : r.token.Proper units) (n : Nat) :
    ∀ t ∈ (alternatives r n).tokens (.below BinaryOp.levels), t.Proper units := by
  induction n with
  | zero => exact List.forall_mem_singleton.2 hr
  | succ n ih =>
    intro t ht
    rw [tokens_alternatives_succ] at ht
    rcases List.mem_append.1 ht with ht | ht
    · exact ih t ht
    · simp only [List.mem_cons, List.not_mem_nil, or_false] at ht
      rcases ht with rfl | rfl
      · trivial
      · exact hr

end Expr

namespace Program

variable {host : Host σ} {x : Variable σ} {r : Reference} {settings : Settings}

/-- Alternatives are read as they are printed. -/
theorem exists_read_alternatives
    (hplain : Token.Plain
      { units := host.units.names, separator := settings.decimalSeparator })
    (hproper : r.token.Proper host.units.names) (hdepth : 0 < settings.maxDepth) (n : Nat) :
    ∃ e, Statement.read host.units.names settings
        (Statement.expression (.alternatives r n)).print = .ok (.expression e) ∧
      Expr.IsAlternatives r n e := by
  let st := Statement.expression (.alternatives r n)
  obtain ⟨lexemes, hlexemes, htokens⟩ := Token.tokenize_spaced hplain
    (Expr.proper_tokens_alternatives hproper n) st.apart_tokens
  obtain ⟨st', hst', hbare⟩ : ∃ st', Syntax.IsStatement settings.maxDepth lexemes st' ∧
      st'.bare = st.bare :=
    Syntax.exists_isStatement htokens ((Expr.nesting_alternatives n).trans_le hdepth)
  cases st' with
  | assignment => cases hbare
  | expression e =>
    refine ⟨e, ?_, Expr.isAlternatives_of_bare
      ((Statement.expression.inj hbare).trans (Expr.bare_alternatives n))⟩
    have hprint : st.print = String.ofList (Token.spaced st.tokens) := rfl
    rw [Statement.read, hprint]
    simp only [st, Statement.tokens, hlexemes, bind, Except.bind,
      Syntax.ofLexemes_of_isStatement _ hst']

/-- Alternatives can be compiled by every host that knows the reference. They need a heap
    cell for each of their tokens, so their program gives a value where there are as many,
    and exhausts the heap where there are fewer. -/
theorem run_alternatives (hr : host.reference? r = some x)
    (hplain : Token.Plain
      { units := host.units.names, separator := settings.decimalSeparator })
    (hproper : r.token.Proper host.units.names) (hdepth : 0 < settings.maxDepth) (n : Nat) :
    ∃ p, Formula.compile host settings (Statement.expression (.alternatives r n)).print = .ok p ∧
      ∀ (c : Context) (s : σ), 2 ≤ c.capacities.stack →
        (2 * n < c.capacities.heap → ∃ v, (p.run c s).result = .ok v) ∧
        (c.capacities.heap ≤ 2 * n → ∃ o,
          (p.run c s).result = .error ⟨o, .fault (.heapExhausted c.capacities.heap)⟩) := by
  obtain ⟨e, hread, he⟩ := exists_read_alternatives hplain hproper hdepth n
  obtain ⟨is, his⟩ := he.exists_code hr
  obtain ⟨hdepth, hcells⟩ := he.need
  have hg : generate {} host (Statement.expression e).arena = (⟨is.toArray⟩, .ok ()) := by
    rw [generate_arena, Statement.code, his]
  refine ⟨⟨is.toArray⟩, by rw [compile_eq, hread]; simp only [Statement.code, his],
    fun c s hstack => ?_⟩
  rcases run_cases hg c s with ⟨houtcome, _, hend⟩ | ⟨h, _⟩ | ⟨h, ho⟩
  · obtain ⟨v, s', hv⟩ := he.exists_eval hr c.viewAt 0 s
    have hresult : (Program.run ⟨is.toArray⟩ c s).result = .ok v := by
      rw [Statement.eval, Meaning.outcome, hv] at houtcome
      exact congrArg Prod.fst houtcome
    refine ⟨fun _ => ⟨v, hresult⟩, fun hle => ?_⟩
    rcases hend with ⟨_, _, _, hheap⟩ | ⟨o, x, hx⟩
    · rw [Statement.heapNeed, hcells] at hheap
      omega
    · rw [hresult] at hx
      cases hx
  · exact absurd (Nat.le_trans hdepth hstack) (Nat.not_le.2 h)
  · rw [Statement.heapNeed, hcells] at h
    exact ⟨fun hle => by omega, fun _ => ho⟩

/-- 65 alternatives of a variable are too many for the usual context. -/
theorem exhausts_usual_heap :
    let table : Table Unit := Table.withVariable { store := { own := () } } "a" (.number 1)
    let source := "a" ++ String.join (List.replicate 64 " || a")
    ∃ p o, Formula.compile table.host {} source = .ok p ∧
      (p.run {} table.store).result = .error ⟨o, .fault (.heapExhausted 128)⟩ := by
  intro table source
  have hsource : source = (Statement.expression (.alternatives (.name "a") 64)).print := by
    decide +kernel
  have hr : table.host.reference? (.name "a") = some (.cell 0) := rfl
  have hplain : Token.Plain
      { units := table.host.units.names, separator := ({} : Settings).decimalSeparator } :=
    ⟨List.forall_mem_nil _, .nil, by decide, by decide⟩
  have hname : Token.Proper [] (.name "a") := ⟨'a', [], rfl, rfl, by simp⟩
  obtain ⟨p, hp, h⟩ := run_alternatives hr hplain hname (by decide) 64
  obtain ⟨o, ho⟩ := (h {} table.store (by decide)).2 (by decide)
  exact ⟨p, o, hsource ▸ hp, ho⟩

end Program

end Formula
