import Formula.Proofs.Parsing.Building
import Formula.Proofs.Parsing.Limits

/-!
# The limit on nesting

A smaller limit on nesting only ever cuts parsing short (`Parser.limit_truncates`). Every
function of a parser leaves the counter of open operands as it found it and keeps it within
the limit (`Parser.keepsDepth`), so that operands behind each other do not add up: a chain of
operators lies too deeply only if one of its operands does by itself
(`Parser.below_failsInOperand`), and operands that can be read make up an expression with any
number of operators between them (`IsExpression.exists_chain`).
-/

namespace Formula

namespace Syntax

/-! ## Chains of operators -/

section Chains

variable {depth level : Nat} {ts us : List Lexeme} {e d : Expr} {op : BinaryOp}

/-- An operator and an operand carry an expression on, without a level more. -/
theorem IsBelow.exists_operator (h : IsBelow depth level ts e) (hop : op.level < level)
    (hd : IsOperand depth us d) (offset : Nat) :
    ∃ e, IsBelow depth level (ts ++ ⟨.operator op, offset⟩ :: us) e := by
  induction h using IsBelow.induction with
  | operand => exact absurd hop (Nat.not_lt_zero _)
  | up level ts e h ih =>
    rcases Nat.lt_or_eq_of_le (Nat.le_of_lt_succ hop) with hlt | rfl
    · obtain ⟨e, he⟩ := ih hlt
      exact ⟨e, .up he⟩
    · exact ⟨_, .binary (.up h) (hd.isBelow _)⟩
  | binary offset' op' ts us' l r hl hr _ ih =>
    rcases Nat.lt_or_eq_of_le (Nat.le_of_lt_succ hop) with hlt | hop
    · -- The operator binds more tightly than the last one on its level.
      obtain ⟨e, he⟩ := ih hlt
      exact ⟨_, by simpa using IsBelow.binary hl he⟩
    · have hleft : IsBelow depth _ (ts ++ ⟨.operator op', offset'⟩ :: us') _ := .binary hl hr
      rw [← hop] at hleft ⊢
      exact ⟨_, .binary hleft (hd.isBelow _)⟩

/-- Operands may follow each other with operators between them, however many. -/
theorem IsExpression.exists_chain (h : IsExpression depth ts e)
    (links : List (BinaryOp × Nat × List Lexeme))
    (hlinks : ∀ l ∈ links, ∃ d, IsOperand depth l.2.2 d) :
    ∃ e, IsExpression depth
      (ts ++ links.flatMap fun (op, offset, us) => ⟨.operator op, offset⟩ :: us) e := by
  induction links generalizing ts e with
  | nil => exact ⟨e, by simpa using h⟩
  | cons l links ih =>
    obtain ⟨op, offset, us⟩ := l
    obtain ⟨d, hd⟩ := hlinks _ List.mem_cons_self
    obtain ⟨e, he⟩ := IsBelow.exists_operator h op.level_lt_levels hd offset
    obtain ⟨e, he⟩ := ih he fun l hl => hlinks l (List.mem_cons_of_mem _ hl)
    exact ⟨e, by simpa using he⟩

end Chains

end Syntax

namespace Parser

open Bounds

variable {stop limit n o : Nat} {s s' : State}

/-! ## The counter -/

/-- Every function of the parser keeps the counter within the limit, and leaves it as it
    was. -/
structure KeepsDepth (stop limit : Nat) : Prop where
  operand : Keeps limit (operand ⟨stop, limit⟩)
  prefixed : Keeps limit (prefixed ⟨stop, limit⟩)
  methods : ∀ receiver, Keeps limit (methods ⟨stop, limit⟩ receiver)
  method : ∀ receiver, Keeps limit (method ⟨stop, limit⟩ receiver)
  primary : Keeps limit (primary ⟨stop, limit⟩)
  group : Keeps limit (group ⟨stop, limit⟩)
  arguments : Keeps limit (arguments ⟨stop, limit⟩)
  moreArguments : ∀ earlier, Keeps limit (moreArguments ⟨stop, limit⟩ earlier)
  below : ∀ n, Keeps limit (below ⟨stop, limit⟩ n)
  chain : ∀ level left, Keeps limit (chain ⟨stop, limit⟩ level left)
  root : Keeps limit (root stop limit)
  statement : Keeps limit (statement stop limit)

/-- Every function of the parser keeps the counter: compared with itself under the same limit
    it does the same. -/
theorem keepsDepth (stop limit : Nat) : KeepsDepth stop limit := by
  have hoperand (n : Nat) :
      Truncates stop limit limit n (operand ⟨stop, limit⟩) (operand ⟨stop, limit⟩) :=
    truncates_operand (Nat.le_refl limit) n
  exact {
    operand := Truncates.keeps hoperand
    prefixed := Truncates.keeps fun n => truncates_prefixed fun k _ => hoperand k
    methods := fun receiver => Truncates.keeps fun n =>
      truncates_methods (fun k _ => hoperand k) receiver
    method := fun receiver => Truncates.keeps fun n => truncates_method (hoperand n) receiver
    primary := Truncates.keeps fun n => truncates_primary fun k _ => hoperand k
    group := Truncates.keeps fun n => truncates_group (hoperand n)
    arguments := Truncates.keeps fun n => truncates_arguments (hoperand n)
    moreArguments := fun earlier => Truncates.keeps fun n =>
      truncates_moreArguments (hoperand n) earlier
    below := fun level => Truncates.keeps fun n => truncates_below (hoperand n) level
    chain := fun level left => Truncates.keeps fun n =>
      truncates_chain (truncates_below (hoperand n) level) left
    root := Truncates.keeps fun n => truncates_root (Nat.le_refl limit) n
    statement := Truncates.keeps fun n => truncates_statement (Nat.le_refl limit) n }

/-! ## What lies too deeply -/

/-- Where the parser fails since something lies too deeply, it is within an operand that
    begins at the depth at which the parser began. -/
def FailsInOperand (stop limit : Nat) (x : Parser Nat) : Prop :=
  ∀ ⦃s s' : State⦄ ⦃o : Nat⦄, s.depth ≤ limit →
    x.outcome s = some (.error ⟨o, .nestedTooDeeply⟩, s') →
    ∃ t, t.depth = s.depth ∧ t.rest <:+ s.rest ∧
      (operand ⟨stop, limit⟩).outcome t = some (.error ⟨o, .nestedTooDeeply⟩, s')

theorem ends_below {level : Nat} {r : Except (Located SyntaxError) Nat} (hdepth : s.depth ≤ limit)
    (hs : (below ⟨stop, limit⟩ level).outcome s = some (r, s')) : Ends stop limit s r s' :=
  Truncates.ends (fun n => truncates_below (truncates_operand (Nat.le_refl limit) n) level) hdepth
    hs

/-- If something lies too deeply in a chain it does in one of its operands, each of which
    begins at the depth of the chain. -/
theorem chain_failsInOperand {level : Nat}
    (h : FailsInOperand stop limit (below ⟨stop, limit⟩ level)) (left : Nat) :
    FailsInOperand stop limit (chain ⟨stop, limit⟩ level left) := by
  intro s s' o hdepth hs
  induction hn : s.rest.length using Nat.strongRecOn generalizing s left with
  | ind n ih =>
    rw [chain, outcome_bind, outcome_takeIf?] at hs
    rcases hrest : s.rest with _ | ⟨t, rest⟩ <;> simp only [hrest] at hs
    · cases hs
    rcases hop : operatorOf? level t with _ | ⟨offset, op⟩ <;> simp only [hop, outcome_bind] at hs
    · cases hs
    rcases hbelow : (below ⟨stop, limit⟩ level).outcome { s with rest } with _ | ⟨e | right, u⟩ <;>
      simp only [hbelow] at hs
    · cases hs
    · cases hs
      obtain ⟨t, ht, htrest, hout⟩ := h (s := { s with rest }) hdepth hbelow
      exact ⟨t, ht, htrest.trans (List.suffix_cons _ _), hout⟩
    · -- The chain goes on at the depth at which it began.
      have hends : Ends stop limit { s with rest } _ u := ends_below hdepth hbelow
      have hlength : u.rest.length < n := by
        rw [← hn, hrest]
        exact Nat.lt_succ_of_le hends.rest.length_le
      obtain ⟨t, ht, htrest, hout⟩ := ih _ hlength u.nodes.size
        (s := { u with nodes := u.nodes.push ⟨offset, .binary op left right⟩ })
        (Nat.le_trans (Nat.le_of_eq hends.depth) hdepth) hs rfl
      exact ⟨t, ht.trans hends.depth, (htrest.trans hends.rest).trans (List.suffix_cons _ _), hout⟩

/-- A chain of operators fails so only where one of its operands does by itself. -/
theorem below_failsInOperand (stop limit n : Nat) :
    FailsInOperand stop limit (below ⟨stop, limit⟩ n) := by
  induction n with
  | zero =>
    rw [below]
    exact fun s _ _ _ hs => ⟨s, rfl, List.suffix_refl _, hs⟩
  | succ level ih =>
    intro s s' o hdepth hs
    rw [below, outcome_bind] at hs
    rcases hleft : (below ⟨stop, limit⟩ level).outcome s with _ | ⟨e | left, u⟩ <;>
      simp only [hleft] at hs
    · cases hs
    · cases hs
      exact ih hdepth hleft
    · have hends : Ends stop limit s _ u := ends_below hdepth hleft
      obtain ⟨t, ht, htrest, hout⟩ := chain_failsInOperand ih left
        (Nat.le_trans (Nat.le_of_eq hends.depth) hdepth) hs
      exact ⟨t, ht.trans hends.depth, htrest.trans hends.rest, hout⟩

/-! ## Two limits -/

/-- A formula is parsed once: it has one outcome and one state is left. -/
theorem Leaves.eq {ts : List Lexeme} {r : Except (Located SyntaxError) Nat}
    (h : Leaves stop limit ts s) (hparse : parse stop limit ts = some (r, s')) :
    r = (Statement.ofLexemes stop limit ts).map (fun st => st.arena.size - 1) ∧ s' = s := by
  have hs := h.ends
  rw [hparse] at hs
  cases hs
  exact ⟨rfl, rfl⟩

theorem Leaves.eq_error {ts : List Lexeme} {e : Located SyntaxError} (h : Leaves stop limit ts s)
    (hparse : parse stop limit ts = some (.error e, s')) :
    Statement.ofLexemes stop limit ts = .error e := by
  have hr := (h.eq hparse).1
  rcases hread : Statement.ofLexemes stop limit ts with e' | st <;> rw [hread] at hr <;> cases hr
  rfl

/-- Under a limit, lexemes are parsed as under any greater one, with the same tree or the same
    error, unless they lie too deeply within each other. If they do so even under the greater
    limit, they do so under the smaller one at the same lexeme or an earlier one. Meanwhile the
    counter stays within the limit, every function of the parser leaves it as it was, and
    chains of operators do not count, however long they are. -/
theorem limit_truncates (stop : Nat) {limit limit' : Nat} (hle : limit ≤ limit')
    (ts : List Lexeme) :
    (∃ s s', Leaves stop limit ts s ∧ Leaves stop limit' ts s' ∧
      ((∀ o, Statement.ofLexemes stop limit ts ≠ .error ⟨o, .nestedTooDeeply⟩) →
        Statement.ofLexemes stop limit' ts = Statement.ofLexemes stop limit ts ∧
          s'.nodes = s.nodes) ∧
      (∀ o', Statement.ofLexemes stop limit' ts = .error ⟨o', .nestedTooDeeply⟩ →
        o' = s'.place stop ∧ s'.rest <:+ s.rest ∧ s.rest <:+ ts ∧
          Statement.ofLexemes stop limit ts = .error ⟨s.place stop, .nestedTooDeeply⟩) ∧
      s.depth = 0 ∧ s.deepest ≤ limit) ∧
    KeepsDepth stop limit ∧ (∀ n, FailsInOperand stop limit (below ⟨stop, limit⟩ n)) ∧
    ∀ (us : List Lexeme) (e : Expr) (links : List (BinaryOp × Nat × List Lexeme)),
      Syntax.IsOperand limit us e → (∀ l ∈ links, ∃ d, Syntax.IsOperand limit l.2.2 d) →
      ∃ e, Statement.ofLexemes stop limit
        (us ++ links.flatMap fun (op, offset, vs) => ⟨.operator op, offset⟩ :: vs) =
          .ok (.expression e) := by
  refine ⟨?_, keepsDepth stop limit, below_failsInOperand stop limit, fun us e links h hlinks => ?_⟩
  -- Both parsers side by side: they stay alike until the lower limit ends one of them.
  · have hruns : Truncates stop limit limit' ts.length (statement stop limit) _ :=
      truncates_statement hle ts.length
    obtain ⟨r, s, r', s', hs, hs', hends, hends', hr⟩ :=
      hruns (.refl { rest := ts }) (Nat.zero_le _) (Nat.le_refl _)
    obtain ⟨u, hu⟩ := exists_leaves stop limit ts
    obtain ⟨u', hu'⟩ := exists_leaves stop limit' ts
    obtain ⟨hread, rfl⟩ := hu.eq hs
    obtain ⟨hread', rfl⟩ := hu'.eq hs'
    refine ⟨s, s', hu, hu', fun hne => ?_, fun o' ho' => ?_, hends.depth,
      by simpa using hends.deepest⟩
    · rcases hr with ⟨-, hlike⟩ | ⟨⟨o, rfl⟩, -⟩
      · rcases Syntax.ofLexemes_agrees stop hle ts with ⟨o, ho⟩ | heq
        · exact absurd ho (hne o)
        · exact ⟨heq.symm, hlike.nodes.symm⟩
      · exact absurd (hu.eq_error hs) (hne o)
    · rw [ho'] at hread'
      have hplace : o' = s'.place stop := hends'.place o' hread'
      refine ⟨hplace, ?_⟩
      rcases hr with ⟨rfl, hlike⟩ | ⟨⟨o, rfl⟩, hahead⟩
      · subst hread'
        have ho : o' = s.place stop := hends.place o' rfl
        exact ⟨hlike.rest ▸ List.suffix_refl _, hends.rest, ho ▸ hu.eq_error hs⟩
      · have ho : o = s.place stop := hends.place o rfl
        exact ⟨hahead, hends.rest, ho ▸ hu.eq_error hs⟩
  · obtain ⟨e, he⟩ := Syntax.IsExpression.exists_chain (h.isBelow _) links hlinks
    exact ⟨e, Syntax.ofLexemes_of_isStatement stop (.expression he)⟩

/-- A name in two groups lies too deeply for a limit of two, and for a limit of one, which is
    met no later; it does not for a limit of three, nor for four. -/
theorem limit_truncates_parentheses :
    let ts : List Lexeme :=
      [⟨.opening, 0⟩, ⟨.opening, 1⟩, ⟨.name "a", 2⟩, ⟨.closing, 3⟩, ⟨.closing, 4⟩]
    (1 ≤ 2 ∧ Statement.ofLexemes 5 2 ts = .error ⟨2, .nestedTooDeeply⟩ ∧
      ∃ s s', Leaves 5 1 ts s ∧ Leaves 5 2 ts s' ∧ s'.rest <:+ s.rest ∧
        Statement.ofLexemes 5 1 ts = .error ⟨s.place 5, .nestedTooDeeply⟩) ∧
    (3 ≤ 4 ∧ Statement.ofLexemes 5 3 ts = .ok (.expression (.reference 2 (.name "a"))) ∧
      Statement.ofLexemes 5 4 ts = .ok (.expression (.reference 2 (.name "a")))) := by
  intro ts
  have htwo : Statement.ofLexemes 5 2 ts = .error ⟨2, .nestedTooDeeply⟩ := by cbv
  have hthree : Statement.ofLexemes 5 3 ts = .ok (.expression (.reference 2 (.name "a"))) := by cbv
  obtain ⟨⟨s, s', hs, hs', -, hnested, -⟩, -⟩ := limit_truncates 5 (Nat.le_succ 1) ts
  obtain ⟨-, hrest, -, hone⟩ := hnested 2 htwo
  obtain ⟨⟨_, _, -, -, hsame, -⟩, -⟩ := limit_truncates 5 (Nat.le_succ 3) ts
  obtain ⟨hfour, -⟩ := hsame fun o ho => by rw [hthree] at ho; cases ho
  exact ⟨⟨Nat.le_succ 1, htwo, s, s', hs, hs', hrest, hone⟩,
    Nat.le_succ 3, hthree, hfour.trans hthree⟩

end Parser

end Formula
