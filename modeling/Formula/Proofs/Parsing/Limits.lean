import Formula.Parser

/-!
# Parsers under two limits

Two parsers that differ in the limit alone go the same way, until something lies too deeply
for the one with the smaller limit: there it ends, and the other one goes on (`Truncates`).
Every step of a parser hands this on, and so does one that comes behind another
(`Truncates.bind`); where the first parser is over, all that is left to say is that the
second one takes further lexemes off the front and puts none back.

So much is said of both runs along the way (`Ends`): there is an outcome, the counter is as it
was at the beginning, it has not been above the limit, and an error about nesting is reported
at what comes next. The bound `n` on the lexemes that are left is what the loops descend on.
An operand is a loop as well, and begins no other without taking a lexeme
(`truncates_operand`).
-/

namespace Formula.Parser

open Bounds

variable {α β : Type}

/-! ## Two runs -/

/-- How a parser leaves a state under a limit. -/
structure Ends (stop limit : Nat) (s : State) (r : Except (Located SyntaxError) α) (s' : State) :
    Prop where
  /-- The counter is as before. -/
  depth : s'.depth = s.depth
  /-- It has not been above the limit. -/
  deepest : s'.deepest ≤ max s.deepest limit
  mono : s.deepest ≤ s'.deepest
  /-- Lexemes have been taken off the front. -/
  rest : s'.rest <:+ s.rest
  /-- What lies too deeply comes next. -/
  place : ∀ o, r = .error ⟨o, .nestedTooDeeply⟩ → o = s'.place stop

/-- States that differ in the greatest depth only. -/
structure State.Like (s t : State) : Prop where
  rest : s.rest = t.rest
  nodes : s.nodes = t.nodes
  depth : s.depth = t.depth

/-- Where the first of two parsers does not find that something lies too deeply, the second one
    does the same; and where it does, the second one gets there, too. Both end. -/
def Truncates (stop limit limit' n : Nat) (x y : Parser α) : Prop :=
  ∀ ⦃s t : State⦄, s.Like t → s.depth ≤ limit → s.rest.length ≤ n →
    ∃ r s' r' t', x.outcome s = some (r, s') ∧ y.outcome t = some (r', t') ∧
      Ends stop limit s r s' ∧ Ends stop limit' t r' t' ∧
      ((r = r' ∧ s'.Like t') ∨
        ((∃ o, r = .error ⟨o, .nestedTooDeeply⟩) ∧ t'.rest <:+ s'.rest))

theorem State.Like.refl (s : State) : s.Like s := ⟨rfl, rfl, rfl⟩

variable {stop limit limit' n : Nat}

theorem Ends.refl (s : State) {r : Except (Located SyntaxError) α}
    (h : ∀ o, r = .error ⟨o, .nestedTooDeeply⟩ → o = s.place stop) : Ends stop limit s r s :=
  ⟨rfl, Nat.le_max_left .., Nat.le_refl _, List.suffix_refl _, h⟩

theorem Ends.ok (s : State) (a : α) : Ends stop limit s (.ok a) s := .refl s fun _ h => by cases h

/-- A run that goes on from where another one got to. -/
theorem Ends.trans {s s' s'' : State} {a : α} {r : Except (Located SyntaxError) β}
    (h : Ends stop limit s (.ok a) s') (h' : Ends stop limit s' r s'') :
    Ends stop limit s r s'' where
  depth := h'.depth.trans h.depth
  deepest := by
    have := h.deepest
    have := h'.deepest
    omega
  mono := Nat.le_trans h.mono h'.mono
  rest := h'.rest.trans h.rest
  place := h'.place

/-- How a parser fails does not depend on what it would have given. -/
theorem Ends.error {s s' : State} {e : Located SyntaxError}
    (h : Ends stop limit s (.error e : Except (Located SyntaxError) α) s') :
    Ends stop limit s (.error e : Except (Located SyntaxError) β) s' :=
  ⟨h.depth, h.deepest, h.mono, h.rest, fun o ho => h.place o (by cases ho; rfl)⟩

theorem Truncates.le {x y : Parser α} (h : Truncates stop limit limit' n x y) {m : Nat}
    (hm : m ≤ n) : Truncates stop limit limit' m x y :=
  fun _ _ hst hdepth hlength => h hst hdepth (Nat.le_trans hlength hm)

/-! ### Steps -/

theorem truncates_pure (a : α) : Truncates stop limit limit' n (pure a) (pure a) :=
  fun s t hst _ _ => ⟨.ok a, s, .ok a, t, rfl, rfl, .ok s a, .ok t a, .inl ⟨rfl, hst⟩⟩

theorem truncates_fail (offset : Nat) {cause : SyntaxError} (h : cause ≠ .nestedTooDeeply) :
    Truncates stop limit limit' n (fail offset cause : Parser α) (fail offset cause) :=
  fun s t hst _ _ => ⟨_, s, _, t, rfl, rfl, .refl s fun o ho => by cases ho; exact absurd rfl h,
    .refl t fun o ho => by cases ho; exact absurd rfl h, .inl ⟨rfl, hst⟩⟩

theorem truncates_unexpected (expected : Option Expectation) (t : Lexeme) :
    Truncates stop limit limit' n (unexpected expected t : Parser α) (unexpected expected t) :=
  truncates_fail _ fun h => by cases h

theorem truncates_push (node : Node) :
    Truncates stop limit limit' n (push node) (push node) :=
  fun s t hst _ _ => ⟨.ok s.nodes.size, { s with nodes := s.nodes.push node }, .ok t.nodes.size,
    { t with nodes := t.nodes.push node }, rfl, rfl,
    ⟨rfl, Nat.le_max_left .., Nat.le_refl _, List.suffix_refl _, fun _ h => by cases h⟩,
    ⟨rfl, Nat.le_max_left .., Nat.le_refl _, List.suffix_refl _, fun _ h => by cases h⟩,
    .inl ⟨by rw [hst.nodes], hst.rest, by rw [hst.nodes], hst.depth⟩⟩

variable {x y : Parser α} {f g : α → Parser β}

/-- If both parts do the same unless something lies too deeply, so does the whole: the second
    part begins where the first one has left the counter. -/
theorem Truncates.bind (hx : Truncates stop limit limit' n x y)
    (hf : ∀ a, Truncates stop limit limit' n (f a) (g a)) :
    Truncates stop limit limit' n (x >>= f) (y >>= g) := by
  intro s t hst hdepth hlength
  obtain ⟨r, s', r', t', hs', ht', hs, ht, hr⟩ := hx hst hdepth hlength
  rw [outcome_bind, outcome_bind, hs', ht']
  rcases hr with ⟨rfl, hlike⟩ | ⟨⟨o, rfl⟩, hahead⟩
  · cases r with
    | error e => exact ⟨_, _, _, _, rfl, rfl, hs.error, ht.error, .inl ⟨rfl, hlike⟩⟩
    | ok a =>
      obtain ⟨r, s'', r', t'', hs'', ht'', hs₁, ht₁, hr⟩ := hf a hlike (hs.depth ▸ hdepth)
        (Nat.le_trans hs.rest.length_le hlength)
      exact ⟨r, s'', r', t'', hs'', ht'', hs.trans hs₁, ht.trans ht₁, hr⟩
  · cases r' with
    | error e => exact ⟨_, _, _, _, rfl, rfl, hs.error, ht.error, .inr ⟨⟨o, rfl⟩, hahead⟩⟩
    | ok a =>
      -- The first run is over, and the second one goes on.
      obtain ⟨_, _, r', t'', _, ht'', _, ht₁, _⟩ := hf a (.refl t') (by
          rw [ht.depth, ← hst.depth]
          exact hdepth) (Nat.le_trans ht.rest.length_le (hst.rest ▸ hlength))
      exact ⟨_, _, r', t'', rfl, ht'', hs.error, ht.trans ht₁,
        .inr ⟨⟨o, rfl⟩, ht₁.rest.trans hahead⟩⟩

/-- Where a lexeme is taken, there are fewer left. -/
theorem Truncates.takeIf?_bind {find? : Lexeme → Option α} {f g : Option α → Parser β}
    (hnone : Truncates stop limit limit' n (f none) (g none))
    (hsome : ∀ a k, n = k + 1 → Truncates stop limit limit' k (f (some a)) (g (some a))) :
    Truncates stop limit limit' n (takeIf? find? >>= f) (takeIf? find? >>= g) := by
  intro s t hst hdepth hlength
  rw [outcome_bind, outcome_bind, outcome_takeIf?, outcome_takeIf?, ← hst.rest]
  rcases hrest : s.rest with _ | ⟨l, rest⟩
  · exact hnone hst hdepth hlength
  · dsimp only
    rcases find? l with _ | a
    · exact hnone hst hdepth hlength
    · rw [hrest] at hlength
      obtain ⟨k, rfl⟩ : ∃ k, n = k + 1 := ⟨n - 1, by simp only [List.length_cons] at hlength; omega⟩
      have htaken (u : State) (hu : u.rest = l :: rest) (limit : Nat) :
          Ends stop limit u (.ok (some a)) { u with rest } :=
        ⟨rfl, Nat.le_max_left .., Nat.le_refl _, hu ▸ List.suffix_cons .., fun _ h => by cases h⟩
      obtain ⟨r, s', r', t', hs', ht', hs, ht, hr⟩ := @hsome a k rfl { s with rest }
        { t with rest } ⟨rfl, hst.nodes, hst.depth⟩ hdepth (Nat.le_of_succ_le_succ hlength)
      exact ⟨r, s', r', t', hs', ht', (htaken s hrest limit).trans hs,
        (htaken t (hst.rest ▸ hrest) limit').trans ht, hr⟩

theorem fail_bind (offset : Nat) (cause : SyntaxError) (f : α → Parser β) :
    (fail offset cause >>= f) = fail offset cause := rfl

theorem Truncates.next_bind {f g : Option Lexeme → Parser β}
    (hnone : Truncates stop limit limit' n (f none) (g none))
    (hsome : ∀ t k, n = k + 1 → Truncates stop limit limit' k (f (some t)) (g (some t))) :
    Truncates stop limit limit' n (next >>= f) (next >>= g) :=
  .takeIf?_bind hnone hsome

/-- Behind a token there are fewer lexemes. -/
theorem Truncates.take_bind {f g : Lexeme → Parser β}
    (h : ∀ t k, n = k + 1 → Truncates stop limit limit' k (f t) (g t)) :
    Truncates stop limit limit' n (take stop >>= f) (take stop >>= g) := by
  rw [take, bind_assoc, bind_assoc]
  refine .next_bind ?_ fun t k hk => ?_
  · dsimp only
    rw [fail_bind, fail_bind]
    exact truncates_fail _ (by simp)
  · exact h t k hk

theorem truncates_methodName :
    Truncates stop limit limit' n (methodName stop) (methodName stop) := by
  rw [methodName]
  refine .take_bind fun t k _ => ?_
  split
  · exact truncates_pure _
  · exact truncates_unexpected ..

theorem truncates_opening : Truncates stop limit limit' n (opening stop) (opening stop) := by
  rw [opening]
  refine .take_bind fun t k _ => ?_
  split
  · exact truncates_pure _
  · exact truncates_unexpected ..

theorem truncates_closing : Truncates stop limit limit' n (closing stop) (closing stop) := by
  rw [closing]
  refine .next_bind (truncates_fail _ (by simp)) fun t k _ => ?_
  dsimp only
  split
  · exact truncates_pure _
  · exact truncates_unexpected ..

/-! ### Expressions -/

section Expressions

variable (h : Truncates stop limit limit' n (operand ⟨stop, limit⟩) (operand ⟨stop, limit'⟩))

omit h in
theorem truncates_chain {level : Nat}
    (h : Truncates stop limit limit' n (below ⟨stop, limit⟩ level) (below ⟨stop, limit'⟩ level))
    (left : Nat) :
    Truncates stop limit limit' n (chain ⟨stop, limit⟩ level left)
      (chain ⟨stop, limit'⟩ level left) := by
  induction n using Nat.strongRecOn generalizing left with
  | ind n ih =>
    rw [chain, chain]
    refine .takeIf?_bind (truncates_pure _) fun (offset, op) k hk => ?_
    refine .bind (h.le (by omega)) fun right => ?_
    exact .bind (truncates_push _) fun place => ih k (by omega) (h.le (by omega)) place

include h

theorem truncates_below (level : Nat) :
    Truncates stop limit limit' n (below ⟨stop, limit⟩ level) (below ⟨stop, limit'⟩ level) := by
  induction level with
  | zero =>
    rw [below, below]
    exact h
  | succ level ih =>
    rw [below, below]
    exact .bind ih fun left => truncates_chain ih left

/-- Every argument takes lexemes, so that there are fewer for the others. -/
theorem truncates_moreArguments (earlier : List Nat) : Truncates stop limit limit' n
    (moreArguments ⟨stop, limit⟩ earlier) (moreArguments ⟨stop, limit'⟩ earlier) := by
  induction n using Nat.strongRecOn generalizing earlier with
  | ind n ih =>
    rw [moreArguments, moreArguments]
    refine .bind (truncates_below h _) fun arg => ?_
    refine .next_bind (truncates_fail _ (by simp)) fun t k hk => ?_
    dsimp only
    split
    · exact ih k (by omega) (h.le (by omega)) _
    · exact truncates_pure _
    · exact truncates_unexpected ..

theorem truncates_arguments :
    Truncates stop limit limit' n (arguments ⟨stop, limit⟩) (arguments ⟨stop, limit'⟩) := by
  rw [arguments, arguments]
  exact .takeIf?_bind (truncates_moreArguments h []) fun _ _ _ => truncates_pure _

theorem truncates_method (receiver : Nat) : Truncates stop limit limit' n
    (method ⟨stop, limit⟩ receiver) (method ⟨stop, limit'⟩ receiver) := by
  rw [method, method]
  refine .bind truncates_methodName fun (offset, name) => ?_
  refine .bind truncates_opening fun _ => ?_
  exact .bind (truncates_arguments h) fun args => truncates_push _

theorem truncates_group :
    Truncates stop limit limit' n (group ⟨stop, limit⟩) (group ⟨stop, limit'⟩) := by
  rw [group, group]
  refine .bind (truncates_below h _) fun inner => ?_
  exact .bind truncates_closing fun _ => truncates_pure _

end Expressions

section Operands

variable (h : ∀ k < n,
  Truncates stop limit limit' k (operand ⟨stop, limit⟩) (operand ⟨stop, limit'⟩))

include h

/-- A primary does the same with expressions that do, each inside a parenthesis. -/
theorem truncates_primary :
    Truncates stop limit limit' n (primary ⟨stop, limit⟩) (primary ⟨stop, limit'⟩) := by
  rw [primary, primary]
  refine .take_bind fun t k hk => ?_
  have hk' : Truncates stop limit limit' k (operand ⟨stop, limit⟩) (operand ⟨stop, limit'⟩) :=
    h k (by omega)
  split
  · exact truncates_push _
  · exact truncates_push _
  · refine .takeIf?_bind (truncates_push _) fun _ m hm => ?_
    exact .bind (truncates_arguments (hk'.le (by omega))) fun args => truncates_push _
  · refine .takeIf?_bind (truncates_push _) fun _ m hm => ?_
    refine .bind (truncates_push _) fun receiver => ?_
    exact .bind (truncates_arguments (hk'.le (by omega))) fun args => truncates_push _
  · exact truncates_group hk'
  · exact truncates_unexpected ..

theorem truncates_methods (receiver : Nat) : Truncates stop limit limit' n
    (methods ⟨stop, limit⟩ receiver) (methods ⟨stop, limit'⟩ receiver) := by
  induction n using Nat.strongRecOn generalizing receiver with
  | ind n ih =>
    rw [methods, methods]
    refine .takeIf?_bind (truncates_pure _) fun _ k hk => ?_
    exact .bind (truncates_method (h k (by omega)) receiver) fun call =>
      ih k (by omega) (fun m hm => h m (by omega)) call

theorem truncates_prefixed :
    Truncates stop limit limit' n (prefixed ⟨stop, limit⟩) (prefixed ⟨stop, limit'⟩) := by
  rw [prefixed, prefixed]
  refine .takeIf?_bind ?_ fun (offset, op) k hk => ?_
  · exact .bind (truncates_primary h) fun receiver => truncates_methods h receiver
  · exact .bind (h k (by omega)) fun inner => truncates_push _

end Operands

/-- An operand goes one level down and comes back. -/
theorem Ends.left {s s' : State} {r : Except (Located SyntaxError) α} (hs : s.depth < limit)
    (h : Ends stop limit s.entered r s') :
    Ends stop limit s r { s' with depth := s'.depth - 1 } where
  depth := by
    have hdepth : s'.depth = s.depth + 1 := h.depth
    rw [hdepth, Nat.add_sub_cancel]
  deepest := by
    have hdeepest : s'.deepest ≤ max (max s.deepest (s.depth + 1)) limit := h.deepest
    show s'.deepest ≤ _
    omega
  mono := Nat.le_trans (Nat.le_max_left ..) h.mono
  rest := h.rest
  place := h.place

/-- An operand does the same under a larger limit, unless one lies too deeply under the smaller
    one. By induction on the lexemes: all that is read within an operand is behind a token. -/
theorem truncates_operand (hle : limit ≤ limit') (n : Nat) :
    Truncates stop limit limit' n (operand ⟨stop, limit⟩) (operand ⟨stop, limit'⟩) := by
  induction n using Nat.strongRecOn generalizing limit limit' with
  | ind n ih =>
    intro s t hst hdepth hlength
    have hplace : s.place stop = t.place stop := by rw [State.place, State.place, hst.rest]
    have hnested {u : State} {limit : Nat} : Ends stop limit u
        (.error ⟨u.place stop, .nestedTooDeeply⟩ : Except (Located SyntaxError) Nat) u :=
      .refl u fun o h => by cases h; rfl
    rw [outcome_operand, outcome_operand]
    by_cases hs : limit ≤ s.depth
    · rw [if_pos hs]
      -- The first parser ends here; so does the second one if its limit is reached, too.
      by_cases ht : limit' ≤ t.depth
      · rw [if_pos ht]
        exact ⟨_, s, _, t, rfl, rfl, hnested, hnested, .inl ⟨by rw [hplace], hst⟩⟩
      · -- The second parser goes on alone.
        rw [if_neg ht]
        obtain ⟨_, _, r', t', _, ht', _, hends, -⟩ :=
          truncates_prefixed (fun k hk => ih k hk (Nat.le_refl limit')) (.refl t.entered)
            (Nat.lt_of_not_le ht) (hst.rest ▸ hlength)
        refine ⟨_, s, r', _, rfl, congrArg (Option.map _) ht', hnested,
          hends.left (Nat.lt_of_not_le ht), .inr ⟨⟨_, rfl⟩, ?_⟩⟩
        rw [hst.rest]
        exact hends.rest
    -- Both go on.
    · have ht : t.depth < limit' := by
        rw [← hst.depth]
        omega
      rw [if_neg hs, if_neg (Nat.not_le_of_lt ht)]
      have hentered : s.entered.Like t.entered :=
        ⟨hst.rest, hst.nodes, congrArg (· + 1) hst.depth⟩
      obtain ⟨r, s', r', t', hs', ht', hends, hends', hr⟩ :=
        truncates_prefixed (fun k hk => ih k hk hle) hentered (Nat.lt_of_not_le hs) hlength
      refine ⟨r, _, r', _, congrArg (Option.map _) hs', congrArg (Option.map _) ht',
        hends.left (Nat.lt_of_not_le hs), hends'.left ht, ?_⟩
      rcases hr with ⟨rfl, hlike⟩ | hahead
      · exact .inl ⟨rfl, hlike.rest, hlike.nodes, congrArg (· - 1) hlike.depth⟩
      · exact .inr hahead

/-! ### Formulas -/

theorem truncates_next : Truncates stop limit limit' n next next := by
  rw [← bind_pure next]
  exact .next_bind (truncates_pure _) fun t k _ => truncates_pure _

/-- A formula is parsed in the same way under a larger limit, unless something lies too deeply
    under the smaller one. -/
theorem truncates_root (hle : limit ≤ limit') (n : Nat) :
    Truncates stop limit limit' n (root stop limit) (root stop limit') := by
  intro s t hst
  have hbelow : Truncates stop limit limit' n (below ⟨stop, limit⟩ BinaryOp.levels) _ :=
    truncates_below (truncates_operand hle n) BinaryOp.levels
  rw [root, root, outcome_bind, outcome_bind, outcome_get, outcome_get]
  dsimp only
  rw [← hst.rest]
  rcases target? s.rest with _ | ⟨offset, r, assign⟩
  · exact hbelow hst
  · refine Truncates.bind truncates_next (fun _ => ?_) hst
    refine .bind truncates_next fun _ => ?_
    refine .bind (truncates_push _) fun target => ?_
    exact .bind hbelow fun value => truncates_push _

theorem truncates_statement (hle : limit ≤ limit') (n : Nat) :
    Truncates stop limit limit' n (statement stop limit) (statement stop limit') := by
  rw [statement, statement]
  refine .bind (truncates_root hle n) fun place => ?_
  exact .next_bind (truncates_pure _) fun t k _ => truncates_fail _ (by simp)

/-! ## The counter -/

/-- Wherever the parser begins, it ends with the counter as it was, which has not been above
    the limit meanwhile. -/
def Keeps (limit : Nat) (x : Parser α) : Prop :=
  ∀ s : State, s.depth ≤ limit → ∃ r s', x.outcome s = some (r, s') ∧
    s'.depth = s.depth ∧ s.deepest ≤ s'.deepest ∧ s'.deepest ≤ max s.deepest limit

/-- Compared with itself, a parser ends as it should. -/
theorem Truncates.ends {x : Parser α} (h : ∀ n, Truncates stop limit limit n x x) {s s' : State}
    {r : Except (Located SyntaxError) α} (hdepth : s.depth ≤ limit)
    (hs : x.outcome s = some (r, s')) : Ends stop limit s r s' := by
  obtain ⟨r', s'', _, _, hs', _, hends, _⟩ := h s.rest.length (.refl s) hdepth (Nat.le_refl _)
  rw [hs] at hs'
  cases hs'
  exact hends

/-- A parser that can be compared with itself keeps the counter. -/
theorem Truncates.keeps {x : Parser α} (h : ∀ n, Truncates stop limit limit n x x) :
    Keeps limit x := by
  intro s hdepth
  obtain ⟨r, s', _, _, hs, _⟩ := h s.rest.length (.refl s) hdepth (Nat.le_refl _)
  have hends : Ends stop limit s r s' := Truncates.ends h hdepth hs
  exact ⟨r, s', hs, hends.depth, hends.mono, hends.deepest⟩

end Formula.Parser
