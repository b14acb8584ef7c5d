import Formula.Proofs.Generation
import Formula.Proofs.Stepping
import Formula.Semantics.Need

/-!
# Simulation

How the code of an expression runs, from any context and any state of the host,
told from what the expression means and what it needs. There are three ways to end
(`Program.Ends`):

* the expression has a value, the context has the room that the expression needs,
  and the code leaves the value on top of the stack, having used that room exactly;
* the expression fails, and the code fails in the same way;
* the context lacks the room, and the code ends with the fault that says so.

In the first two the host is left in the same state and is asked for the same things
in the same order. The proof follows the expression; each expression that is not a
literal evaluates operands and then performs one instruction on them
(`Ends.perform`).
-/

namespace Formula

variable {σ : Type}

/-- Every expression needs a stack entry. -/
theorem Expr.stackNeed_pos (e : Expr) : 0 < e.stackNeed := by
  induction e using Expr.induction with
  | number | text | reference => rw [stackNeed]; exact Nat.one_pos
  | unary _ _ _ ih => rw [stackNeed]; exact ih
  | binary _ _ _ _ ih _ => rw [stackNeed]; omega
  | call | method => rw [stackNeed]; omega

/-- There is a value for each of the expressions. -/
theorem Expr.length_of_evalAll {host : Host σ} {view : Nat → View} {depth : Nat} {es : List Expr}
    {s s' : σ} {vs : List Value} (h : evalAll host view depth es s = .ok vs s') :
    vs.length = es.length := by
  induction es generalizing depth s vs with
  | nil => cases h; rfl
  | cons e es ih =>
    simp only [evalAll, bind, EStateM.bind] at h
    split at h
    · split at h
      · rename_i hvs
        cases h
        exact congrArg (· + 1) (ih hvs)
      · cases h
    · cases h

/-! ## Two operands -/

section Pair

variable (host : Host σ) (view : Nat → View) (depth : Nat) (l r : Expr) (s : σ)

/-- Two operands are evaluated from left to right, the second with one value on the stack. -/
theorem Expr.evalAll_pair :
    evalAll host view depth [l, r] s =
      match l.eval host view depth s with
      | .ok v s =>
        match r.eval host view (depth + 1) s with
        | .ok w s => .ok [v, w] s
        | .error e s => .error e s
      | .error e s => .error e s := by
  simp only [evalAll, bind, EStateM.bind]
  rcases l.eval host view depth s with ⟨v, s⟩ | _
  · simp only []
    rcases r.eval host view (depth + 1) s with _ | _ <;> rfl
  · rfl

theorem Expr.actions_binary (o : Nat) (op : BinaryOp) :
    (binary o op l r).actions host view depth s = actionsAll host view depth [l, r] s := by
  simp only [actions, actionsAll]
  rcases l.eval host view depth s with ⟨v, s⟩ | _
  · simp only []
    rcases r.eval host view (depth + 1) s with _ | _ <;> simp
  · rfl

theorem Expr.stackNeedAll_pair : stackNeedAll [l, r] = max l.stackNeed (1 + r.stackNeed) := by
  have := r.stackNeed_pos
  simp only [stackNeedAll]
  omega

theorem Expr.heapNeedAll_pair : heapNeedAll [l, r] = l.heapNeed + r.heapNeed := rfl

end Pair

/-- The context has room for so many more stack entries and heap cells. -/
def Context.Fits (c : Context) (depth cells : Nat) : Prop :=
  c.depth + depth ≤ c.capacities.stack ∧ c.heap.size + cells ≤ c.capacities.heap

namespace Program

/-- How code that needs `depth` stack entries and `cells` heap cells ends from the
    context `c`. First come the outcome and the actions that are meant, then those
    of the machine. -/
inductive Ends (p : Program σ) (c : Context) (depth cells : Nat) :
    EStateM.Result Error σ (List Value) → List (Action σ) →
      EStateM.Result Error (Machine σ) Unit → List (Action σ) → Prop
  | values {slots : List Slot} {vs : List Value} {heap : Array Value} {s : σ}
      {as : List (Action σ)} :
      c.Fits depth cells → Grown c.heap heap → heap.size = c.heap.size + cells →
      p.Refers heap slots vs →
      Ends p c depth cells (.ok vs s) as (.ok () ⟨c.put slots heap, s⟩) as
  | failure {o : Nat} {x : OperationError} {s : σ} {c' : Context} {as : List (Action σ)} :
      Ends p c depth cells (.error ⟨o, .operation x⟩ s) as
        (.error ⟨o, .operation x⟩ ⟨c', s⟩) as
  | overflow {r : EStateM.Result Error σ (List Value)} {as bs : List (Action σ)} {o : Nat}
      {m : Machine σ} :
      c.capacities.stack < c.depth + depth →
      Ends p c depth cells r as (.error ⟨o, .fault (.stackOverflow c.capacities.stack)⟩ m) bs
  | exhausted {r : EStateM.Result Error σ (List Value)} {as bs : List (Action σ)} {o : Nat}
      {m : Machine σ} :
      c.capacities.heap < c.heap.size + cells →
      Ends p c depth cells r as (.error ⟨o, .fault (.heapExhausted c.capacities.heap)⟩ m) bs

/-- The code of an expression ends as the expression means, wherever it stands. -/
def Simulates (p : Program σ) (host : Host σ) (e : Expr) : Prop :=
  ∀ ⦃c : Context⦄ (s : σ) ⦃pc : Nat⦄ ⦃is : List (Instruction σ)⦄,
    e.code host = .ok is → p.At pc is → c.Fits 0 0 →
    p.Ends c e.stackNeed e.heapNeed (([·]) <$> e.eval host c.viewAt c.depth <| s)
      (e.actions host c.viewAt c.depth s) (p.steps pc is ⟨c, s⟩) (p.actionsFrom pc ⟨c, s⟩ is)

/-! ## One instruction -/

/-- The instruction `i` takes `slots` off the stack and has the outcome `r`; a value it
    puts on the stack. It asks the host for `as`. -/
structure Performs (p : Program σ) (c : Context) (pc : Nat) (i : Instruction σ)
    (slots : List Slot) (heap : Array Value) (s : σ) (r : EStateM.Result Error σ Value)
    (as : List (Action σ)) : Prop where
  step : p.step pc i ⟨c.put slots heap, s⟩ =
    match r with
    | .ok v s => Run.onContext i.offset (Context.pushValue v) ⟨c.put [] heap, s⟩
    | .error e s => .error e ⟨c.put [] heap, s⟩
  failure : ∀ {e s}, r = .error e s → ∃ x, e = ⟨i.offset, .operation x⟩
  action : (Executed.action? p ⟨pc, i, ⟨c.put slots heap, s⟩⟩).toList = as

variable {p : Program σ} {c : Context} {heap : Array Value} (pc o : Nat) (s : σ)

/-- A variable is read and its value put into a cell. -/
theorem performs_load (b : Binding σ) :
    p.Performs c pc ⟨o, .load b⟩ [] heap s (Meaning.read b.target (c.viewAt c.depth) s)
      [.read b.target (c.viewAt c.depth)] where
  step := rfl
  failure h := by cases h
  action := rfl

/-- An operation fails with an error of its own, and not with a fault. -/
theorem operation_failure {o : Nat} {x : Except OperationError Value} {s s' : σ} {e : Error}
    (h : Meaning.operation o x s = .error e s') : ∃ x, e = ⟨o, .operation x⟩ := by
  cases x with
  | error x => cases h; exact ⟨x, rfl⟩
  | ok v => cases h

/-- An operator takes its operand off and gives what it makes of it. -/
theorem performs_unary (op : Opcode) {slot : Slot} {v : Value} (h : p.Refers heap [slot] [v]) :
    p.Performs c pc ⟨o, .unary op⟩ [slot] heap s (Meaning.operation o (op.applyUnary v) s) [] where
  step := by
    have hp : Run.onContext o Context.pop ⟨c.put [slot] heap, s⟩ = .ok slot ⟨c.put [] heap, s⟩ :=
      rfl
    have hv := value_of_lookup (c := c.put [] heap) (List.forall₂_cons.1 h).1 o s
    simp only [step, bind, EStateM.bind, hp, hv]
    simp only [Run.result, Meaning.operation]
    rcases op.applyUnary v with _ | _ <;> rfl
  failure := operation_failure
  action := rfl

/-- An operator takes its operands off, the right one first, and gives what it makes of them in
    their order. -/
theorem performs_binary (op : Opcode) {left right : Slot} {v w : Value}
    (h : p.Refers heap [left, right] [v, w]) :
    p.Performs c pc ⟨o, .binary op⟩ [left, right] heap s
      (Meaning.operation o (op.applyBinary v w) s) [] where
  step := by
    obtain ⟨hv, h⟩ := List.forall₂_cons.1 h
    have hv := value_of_lookup (c := c.put [] heap) hv o s
    have hw := value_of_lookup (c := c.put [] heap) (List.forall₂_cons.1 h).1 o s
    have hr : Run.onContext o Context.pop ⟨c.put [left, right] heap, s⟩ =
        .ok right ⟨c.put [left] heap, s⟩ := rfl
    have hl : Run.onContext o Context.pop ⟨c.put [left] heap, s⟩ =
        .ok left ⟨c.put [] heap, s⟩ := rfl
    simp only [step, bind, EStateM.bind, hr, hl, hv, hw]
    simp only [Run.result, Meaning.operation]
    rcases op.applyBinary v w with _ | _ <;> rfl
  failure := operation_failure
  action := rfl

/-- A function finds its arguments in their order, its receiver, and the context without the
    arguments; whatever it does to the host is done. -/
theorem performs_call (name : String) (f : Function σ) (receiver : Option (Binding σ))
    {slots : List Slot} {vs : List Value} (h : p.Refers heap slots vs) :
    p.Performs c pc ⟨o, .call name f slots.length receiver⟩ slots heap s
      (Meaning.host o (.functionFailed name)
        (f (c.viewAt c.depth) vs (receiver.map (·.target))) s)
      [.call f (c.viewAt c.depth) vs (receiver.map (·.target))] where
  step := by
    have hp : Run.onContext o (Context.popMany slots.length) ⟨c.put slots heap, s⟩ =
        .ok slots ⟨c.put [] heap, s⟩ := by
      rw [Run.onContext, Context.popMany_put]
    have hv := values_of_refers (c := c.put [] heap) h o s
    have hview : (c.put [] heap).view = c.viewAt c.depth := rfl
    rcases hf : f (c.viewAt c.depth) vs (receiver.map (·.target)) s with ⟨v, s'⟩ | ⟨reason, s'⟩ <;>
      simp only [step, bind, EStateM.bind, hp, hv, Run.onHost, Meaning.host, hview, hf]
  failure {e s'} he := by
    rw [Meaning.host] at he
    split at he
    · cases he
    · cases he
      exact ⟨_, rfl⟩
  action := by
    have hp : Run.onContext o (Context.popMany slots.length) ⟨c.put slots heap, s⟩ =
        .ok slots ⟨c.put [] heap, s⟩ := by
      rw [Run.onContext, Context.popMany_put]
    have hv := values_of_refers (c := c.put [] heap) h o s
    simp only [Executed.action?, request, bind, EStateM.bind, hp, hv]
    rfl

/-! ## Expressions -/

variable {pc o : Nat} {s : σ}

/-- The slot of a cell that is taken refers to what was put there. -/
theorem refers_push (heap : Array Value) (v : Value) :
    p.Refers (heap.push v) [.scratch heap.size] [v] :=
  .cons (by simp [lookup]) .nil

/-- A constant is put on the stack where there is room for it. -/
theorem ends_const {v : Value} (hat : p.At pc [⟨o, .const v⟩])
    (hfits : c.Fits 0 0) :
    p.Ends c 1 0 (.ok [v] s) [] (p.steps pc [⟨o, .const v⟩] ⟨c, s⟩)
      (p.actionsFrom pc ⟨c, s⟩ [⟨o, .const v⟩]) := by
  have hstep : p.step pc ⟨o, .const v⟩ ⟨c, s⟩ =
      Run.onContext o (Context.push (.const pc)) ⟨c, s⟩ := rfl
  rw [steps_singleton, actionsFrom_singleton, hstep, Run.onContext_push]
  by_cases hs : c.depth < c.capacities.stack
  · rw [if_pos hs]
    exact .values ⟨hs, hfits.2⟩ (.refl _) rfl (.cons (hat.const _) .nil)
  · rw [if_neg hs]
    exact .overflow (by omega)

/-- A computed value is put on the stack where there is room for it. -/
theorem ends_pushValue {depth cells : Nat} (hfits : c.Fits depth cells)
    (hgrown : Grown c.heap heap) (hsize : heap.size = c.heap.size + cells) (v : Value)
    (as : List (Action σ)) :
    p.Ends c (max 1 depth) (cells + 1) (.ok [v] s) as
      (Run.onContext o (Context.pushValue v) ⟨c.put [] heap, s⟩) as := by
  obtain ⟨hdepth, hcells⟩ := hfits
  rw [Run.onContext_pushValue]
  simp only [Context.put_heap, Context.put_capacities, Context.put_put, List.nil_append,
    Context.depth_put, List.length_nil, Nat.add_zero]
  by_cases hh : heap.size < c.capacities.heap
  · by_cases hs : c.depth < c.capacities.stack
    · rw [if_pos hh, if_pos hs]
      exact .values ⟨by omega, by omega⟩ (hgrown.trans (grown_push ..))
        (by rw [Array.size_push]; omega) (refers_push ..)
    · rw [if_pos hh, if_neg hs]
      exact .overflow (by omega)
  · rw [if_neg hh]
    exact .exhausted (by omega)

/-- Operands are evaluated, and then an instruction is performed on them. -/
theorem Ends.perform {is : List (Instruction σ)} {i : Instruction σ} {depth cells : Nat}
    {r : EStateM.Result Error σ (List Value)} {x : Meaning σ Value}
    {as bs : List (Action σ)}
    (hoperands : p.Ends c depth cells r as (p.steps pc is ⟨c, s⟩) (p.actionsFrom pc ⟨c, s⟩ is))
    (hok : ∀ {vs s' slots heap}, r = .ok vs s' → p.Refers heap slots vs →
      p.Performs c (pc + is.length) i slots heap s' (x s) bs)
    (herror : ∀ {e s'}, r = .error e s' → x s = .error e s' ∧ bs = []) :
    p.Ends c (max 1 depth) (cells + 1) (([·]) <$> x <| s) (as ++ bs)
      (p.steps pc (is ++ [i]) ⟨c, s⟩) (p.actionsFrom pc ⟨c, s⟩ (is ++ [i])) := by
  rw [steps_append, actionsFrom_append]
  -- How the operands end is all that the instruction depends on.
  generalize p.steps pc is ⟨c, s⟩ = m at hoperands ⊢
  generalize p.actionsFrom pc ⟨c, s⟩ is = as' at hoperands ⊢
  cases hoperands with
  | @values slots vs heap s' _ hfits hgrown hsize hrefers =>
    have hi := hok rfl hrefers
    simp only [steps_singleton, actionsFrom_singleton, hi.step, hi.action]
    show p.Ends c _ _ (EStateM.map _ x s) _ _ _
    rw [EStateM.map]
    rcases hx : x s with ⟨v, s''⟩ | ⟨e, s''⟩
    · exact ends_pushValue hfits hgrown hsize v _
    · obtain ⟨x, rfl⟩ := hi.failure hx
      exact .failure
  | failure =>
    obtain ⟨hx, hbs⟩ := herror rfl
    simp only [hbs, List.append_nil]
    show p.Ends c _ _ (EStateM.map _ x s) _ _ _
    rw [EStateM.map, hx]
    exact .failure
  | overflow h => exact .overflow (by omega)
  | exhausted h => exact .exhausted (by omega)

/-- What comes behind a value ends as it does from the context with the value on its
    stack. -/
theorem Ends.behind {slots : List Slot} {v : Value} {depth cells depth' cells' : Nat}
    {y : Meaning σ (List Value)} {as bs cs : List (Action σ)}
    {m : EStateM.Result Error (Machine σ) Unit} (hfits : c.Fits depth cells)
    (hgrown : Grown c.heap heap) (hsize : heap.size = c.heap.size + cells)
    (hrefers : p.Refers heap slots [v])
    (h : p.Ends (c.put slots heap) depth' cells' (y s) bs m cs) :
    p.Ends c (max depth (1 + depth')) (cells + cells') ((v :: ·) <$> y <| s) (as ++ bs) m
      (as ++ cs) := by
  have hlength : slots.length = 1 := hrefers.length_eq
  simp only [Functor.map, EStateM.map]
  generalize y s = r at h ⊢
  cases h with
  | values hfits' hgrown' hsize' hrefers' =>
    obtain ⟨hdepth, _⟩ := hfits
    obtain ⟨hdepth', hcells'⟩ := hfits'
    rw [Context.depth_put, hlength, Context.put_capacities] at hdepth'
    rw [Context.put_heap] at hgrown' hsize' hcells'
    rw [Context.put_put]
    exact .values ⟨by omega, by rwa [← Nat.add_assoc, ← hsize]⟩ (hgrown.trans hgrown')
      (by rw [hsize', hsize, Nat.add_assoc]) ((hrefers.mono hgrown').append hrefers')
  | failure => exact .failure
  | overflow h =>
    rw [Context.depth_put, hlength, Context.put_capacities] at h
    exact .overflow (by omega)
  | exhausted h =>
    rw [Context.put_heap, hsize, Context.put_capacities] at h
    exact .exhausted (by omega)

/-- Expressions behind each other, when the code of each of them ends as it should. -/
theorem ends_all {host : Host σ} {es : List Expr} (h : ∀ e ∈ es, p.Simulates host e) :
    ∀ ⦃c : Context⦄ (s : σ) ⦃pc : Nat⦄ ⦃is : List (Instruction σ)⦄,
      Expr.codeAll host es = .ok is → p.At pc is → c.Fits 0 0 →
      p.Ends c (Expr.stackNeedAll es) (Expr.heapNeedAll es)
        (Expr.evalAll host c.viewAt c.depth es s) (Expr.actionsAll host c.viewAt c.depth es s)
        (p.steps pc is ⟨c, s⟩) (p.actionsFrom pc ⟨c, s⟩ is) := by
  induction es with
  | nil =>
    intro c s pc is hcode _ hfits
    cases hcode
    exact .values hfits (.refl _) rfl (.nil : p.Refers c.heap [] [])
  | cons e es ih =>
    intro c s pc is hcode hat hfits
    obtain ⟨first, hfirst, hcode⟩ := exists_of_bind_eq_ok hcode
    obtain ⟨rest, hrest, hcode⟩ := exists_of_bind_eq_ok hcode
    cases hcode
    have he := h e List.mem_cons_self s hfirst hat.left hfits
    rw [steps_append, actionsFrom_append, Expr.evalAll, Expr.actionsAll, Expr.stackNeedAll,
      Expr.heapNeedAll]
    simp only [bind_pure_comp]
    simp only [bind, EStateM.bind]
    simp only [Functor.map, EStateM.map] at he
    generalize p.steps pc first ⟨c, s⟩ = m at he ⊢
    generalize p.actionsFrom pc ⟨c, s⟩ first = as at he ⊢
    rcases hv : e.eval host c.viewAt c.depth s with ⟨v, s'⟩ | ⟨err, s'⟩ <;> simp only [hv] at he ⊢
    · cases he with
      | @values slots _ heap _ _ hfits' hgrown hsize hrefers =>
        have hlength : slots.length = 1 := hrefers.length_eq
        have hpos := e.stackNeed_pos
        -- The other expressions start with the value on the stack, one entry higher.
        have hput : (c.put slots heap).Fits 0 0 :=
          ⟨by rw [Context.depth_put, hlength]; exact Nat.le_trans (by omega) hfits'.1,
            by rw [Context.put_heap, hsize]; exact hfits'.2⟩
        have hes := ih (fun d hd => h d (List.mem_cons_of_mem _ hd)) s' hrest hat.right hput
        rw [Context.viewAt_put, Context.depth_put, hlength] at hes
        exact hes.behind hfits' hgrown hsize hrefers
      | overflow h => exact .overflow (by omega)
      | exhausted h => exact .exhausted (by omega)
    · cases he with
      | failure => simpa using .failure
      | overflow h => exact .overflow (by omega)
      | exhausted h => exact .exhausted (by omega)

/-- The code of every expression ends as it should. -/
theorem simulates (p : Program σ) (host : Host σ) (e : Expr) : p.Simulates host e := by
  induction e using Expr.induction with
  | number o n =>
    intro c s pc is hcode hat hfits
    obtain ⟨v, hv, hcode⟩ := exists_of_bind_eq_ok hcode
    cases hcode
    simp only [Expr.eval, hv]
    exact ends_const hat hfits
  | text o t =>
    intro c s pc is hcode hat hfits
    cases hcode
    exact ends_const hat hfits
  | reference o r =>
    intro c s pc is hcode hat hfits
    obtain ⟨b, hb, hcode⟩ := exists_of_bind_eq_ok hcode
    cases hcode
    have hnone : p.Ends c 0 0 (.ok [] s) [] (p.steps pc [] ⟨c, s⟩) (p.actionsFrom pc ⟨c, s⟩ []) :=
      .values hfits (.refl _) rfl (.nil : p.Refers c.heap [] [])
    simp only [Expr.eval, Expr.actions, hb]
    refine hnone.perform (fun hr hrefers => ?_) (fun hr => ?_)
    · cases hr
      cases hrefers
      exact performs_load _ _ _ b
    · cases hr
  | unary o op x ih =>
    intro c s pc is hcode hat hfits
    obtain ⟨before, hbefore, hcode⟩ := exists_of_bind_eq_ok hcode
    cases hcode
    have hx := ih s hbefore hat.left hfits
    -- An operator asks the host for nothing, and the operand has already had an entry.
    rw [Expr.stackNeed, Expr.heapNeed, Expr.actions, ← List.append_nil (Expr.actions ..),
      ← Nat.max_eq_right x.stackNeed_pos]
    simp only [Functor.map, EStateM.map] at hx
    refine hx.perform (fun hr hrefers => ?_) (fun hr => ?_)
    · simp only [Expr.eval, bind, EStateM.bind]
      split at hr
      · cases hr
        obtain ⟨slot, rfl⟩ := List.length_eq_one_iff.1 hrefers.length_eq
        exact performs_unary _ _ _ (.unary op) hrefers
      · cases hr
    · simp only [Expr.eval, bind, EStateM.bind]
      split at hr
      · cases hr
      · cases hr
        exact ⟨rfl, trivial⟩
  | binary o op l r ihl ihr =>
    intro c s pc is hcode hat hfits
    obtain ⟨left, hleft, hcode⟩ := exists_of_bind_eq_ok hcode
    obtain ⟨right, hright, hcode⟩ := exists_of_bind_eq_ok hcode
    cases hcode
    have hall : Expr.codeAll host [l, r] = .ok (left ++ right) := by
      simp [Expr.codeAll, hleft, hright, bind, Except.bind, pure, Except.pure]
    have hoperands := ends_all (by simpa using ⟨ihl, ihr⟩) s hall hat.left hfits
    have hpos := l.stackNeed_pos
    have hmax := Nat.max_eq_right (Nat.le_trans hpos (Nat.le_max_left _ (1 + r.stackNeed)))
    rw [Expr.stackNeed, ← hmax, ← Expr.stackNeedAll_pair, Expr.heapNeed, ← Expr.heapNeedAll_pair,
      Expr.actions_binary, ← List.append_nil (Expr.actionsAll ..)]
    -- Either operand may fail; only two values reach the instruction.
    refine hoperands.perform (fun hv hrefers => ?_) (fun hv => ?_)
    · rw [Expr.evalAll_pair] at hv
      simp only [Expr.eval, bind, EStateM.bind]
      rcases hl : l.eval host c.viewAt c.depth s with ⟨v, s'⟩ | _ <;> simp only [hl] at hv ⊢
      · rcases hr : r.eval host c.viewAt (c.depth + 1) s' with _ | _ <;> simp only [hr] at hv ⊢
        · cases hv
          obtain ⟨x, y, rfl⟩ := List.length_eq_two.1 hrefers.length_eq
          exact performs_binary _ _ _ (.binary op) hrefers
        · cases hv
      · cases hv
    · rw [Expr.evalAll_pair] at hv
      simp only [Expr.eval, bind, EStateM.bind]
      rcases hl : l.eval host c.viewAt c.depth s with ⟨v, s'⟩ | _ <;> simp only [hl] at hv ⊢
      · rcases hr : r.eval host c.viewAt (c.depth + 1) s' with _ | _ <;> simp only [hr] at hv ⊢
        · cases hv
        · cases hv
          exact ⟨rfl, trivial⟩
      · cases hv
        exact ⟨rfl, trivial⟩
  | call o name args ih =>
    intro c s pc is hcode hat hfits
    obtain ⟨before, hbefore, hcode⟩ := exists_of_bind_eq_ok hcode
    obtain ⟨f, hf, hcode⟩ := exists_of_bind_eq_ok hcode
    cases hcode
    have hargs := ends_all ih s hbefore hat.left hfits
    rw [Expr.stackNeed, Expr.heapNeed, Expr.actions, hf]
    refine hargs.perform (fun hr hrefers => ?_) (fun hr => ?_)
    · rw [hr, ← Expr.length_of_evalAll hr, ← hrefers.length_eq]
      simp only [Expr.eval, bind, EStateM.bind, hr, hf, Meaning.linked]
      exact performs_call _ _ _ name f none hrefers
    · rw [hr]
      simp only [Expr.eval, bind, EStateM.bind, hr, and_true]
  | method o e name args _ ih =>
    intro c s pc is hcode hat hfits
    obtain ⟨b, hb, hcode⟩ := exists_of_bind_eq_ok hcode
    obtain ⟨before, hbefore, hcode⟩ := exists_of_bind_eq_ok hcode
    obtain ⟨f, hf, hcode⟩ := exists_of_bind_eq_ok hcode
    cases hcode
    have hargs := ends_all ih s hbefore hat.left hfits
    rw [Expr.stackNeed, Expr.heapNeed, Expr.actions, hb, hf]
    refine hargs.perform (fun hr hrefers => ?_) (fun hr => ?_)
    · rw [hr, ← Expr.length_of_evalAll hr, ← hrefers.length_eq]
      simp only [Expr.eval, bind, EStateM.bind, hb, hf, Meaning.linked, pure, EStateM.pure, hr]
      exact performs_call _ _ _ name f (some b) hrefers
    · rw [hr]
      simp only [Expr.eval, bind, EStateM.bind, hb, Meaning.linked, pure, EStateM.pure, hr,
        and_true]

/-! ## Formulas -/

/-- The target is assigned to once the value is on the stack, and the value stays
    there. -/
theorem step_store (o : Nat) (b : Binding σ) {slot : Slot} {v : Value}
    (h : p.Refers heap [slot] [v]) (hfits : c.depth < c.capacities.stack) :
    p.step pc ⟨o, .store b⟩ ⟨c.put [slot] heap, s⟩ =
      match Meaning.host o (.readOnly b.name) (b.target.write (c.viewAt c.depth) v) s with
      | .ok _ s => .ok () ⟨c.put [slot] heap, s⟩
      | .error e s => .error e ⟨c.put [] heap, s⟩ := by
  have hp : Run.onContext o Context.pop ⟨c.put [slot] heap, s⟩ = .ok slot ⟨c.put [] heap, s⟩ :=
    rfl
  have hv := value_of_lookup (c := c.put [] heap) (List.forall₂_cons.1 h).1 o s
  have hview : (c.put [] heap).view = c.viewAt c.depth := rfl
  simp only [step, bind, EStateM.bind, hp, hv, Run.onHost, Meaning.host, hview]
  rcases b.target.write (c.viewAt c.depth) v s with ⟨_, s⟩ | ⟨reason, s⟩ <;> simp only []
  rw [Run.onContext_push, if_pos (by simpa using hfits)]
  simp

/-- A store asks the host for one thing, to take the value on top. -/
theorem action_store (o : Nat) (b : Binding σ) {slot : Slot} {v : Value}
    (h : p.Refers heap [slot] [v]) :
    (Executed.action? p ⟨pc, ⟨o, .store b⟩, ⟨c.put [slot] heap, s⟩⟩).toList =
      [.write b.target (c.viewAt c.depth) v] := by
  have hp : Run.onContext o Context.pop ⟨c.put [slot] heap, s⟩ = .ok slot ⟨c.put [] heap, s⟩ :=
    rfl
  have hv := value_of_lookup (c := c.put [] heap) (List.forall₂_cons.1 h).1 o s
  simp only [Executed.action?, request, bind, EStateM.bind, hp, hv]
  rfl

/-- The code of a formula ends as it should on an empty stack. -/
theorem ends_statement {host : Host σ} {st : Statement} {is : List (Instruction σ)}
    (hcode : st.code host = .ok is) (hat : p.At pc is) (hempty : c.depth = 0)
    (hfits : c.Fits 0 0) :
    p.Ends c st.stackNeed st.heapNeed (([·]) <$> st.eval host c.viewAt <| s)
      (st.actions host c.viewAt s) (p.steps pc is ⟨c, s⟩) (p.actionsFrom pc ⟨c, s⟩ is) := by
  cases st with
  | expression e =>
    have h := simulates p host e s hcode hat hfits
    rwa [hempty] at h
  | assignment _ o r e =>
    obtain ⟨before, hbefore, hcode⟩ := exists_of_bind_eq_ok hcode
    obtain ⟨b, hb, hcode⟩ := exists_of_bind_eq_ok hcode
    cases hcode
    have he := simulates p host e s hbefore hat.left hfits
    rw [hempty] at he
    rw [steps_append, actionsFrom_append, Statement.actions, hb]
    simp only [Functor.map, EStateM.map, Statement.eval, bind, EStateM.bind, hb] at he ⊢
    generalize p.steps pc before ⟨c, s⟩ = m at he ⊢
    generalize p.actionsFrom pc ⟨c, s⟩ before = as at he ⊢
    rcases hv : e.eval host c.viewAt 0 s with ⟨v, s'⟩ | ⟨err, s'⟩ <;> simp only [hv] at he ⊢
    · cases he with
      | @values slots _ heap _ _ hfits' hgrown hsize hrefers =>
        obtain ⟨slot, rfl⟩ := List.length_eq_one_iff.1 hrefers.length_eq
        -- The expression had an entry for its value, so there is one to put it back on.
        have hroom : c.depth < c.capacities.stack := Nat.lt_of_lt_of_le
          (Nat.lt_add_of_pos_right e.stackNeed_pos) hfits'.1
        simp only [steps_singleton, actionsFrom_singleton]
        rw [step_store o b hrefers hroom, action_store o b hrefers, hempty]
        simp only [Meaning.linked, pure, EStateM.pure, Meaning.host]
        rcases b.target.write (c.viewAt 0) v s' with ⟨_, s''⟩ | ⟨reason, s''⟩
        · exact .values hfits' hgrown hsize hrefers
        · exact .failure
      | overflow h => exact .overflow h
      | exhausted h => exact .exhausted h
    · cases he with
      | failure => simpa using .failure
      | overflow h => exact .overflow h
      | exhausted h => exact .exhausted h

end Program

end Formula
