import Formula.Proofs.Simulation

/-!
# Compiled programs keep the meaning of their formulas

A program is run on an empty stack and an empty heap. In a context with room for
what the formula needs, it gives the value that the formula has, or fails in the
same way and at the same place, leaves the host in the same state and has asked it
for the same things in the same order, whatever state the host was in
(`generate_preserves`).

* Every run of a generated program ends in one of four ways: with the value or with
  the failure of its formula, or for want of stack entries or of heap cells
  (`run_cases`).
-/

namespace Formula

variable {σ : Type}

/-- How an evaluation ends, with a value or an error, and the state that it leaves. -/
def Meaning.outcome {α : Type} (x : Meaning σ α) (s : σ) : Except Error α × σ :=
  match x s with
  | .ok a s => (.ok a, s)
  | .error e s => (.error e, s)

namespace Program

variable {p : Program σ}

/-- A run that gets behind the last instruction gives the one value that it finds on the
    stack. -/
theorem run_of_steps_ok {c : Context} {s s' : σ} {slot : Slot} {v : Value} {heap : Array Value}
    (hsteps : p.steps 0 p.code.toList ⟨c.reset, s⟩ = .ok () ⟨c.reset.put [slot] heap, s'⟩)
    (h : p.Refers heap [slot] [v]) : p.run c s = ⟨.ok v, c.reset.put [] heap, s'⟩ := by
  have hv := value_of_lookup (c := c.reset.put [] heap) (List.forall₂_cons.1 h).1 p.lastOffset s'
  have hp : Run.onContext p.lastOffset Context.pop ⟨c.reset.put [slot] heap, s'⟩ =
      .ok slot ⟨c.reset.put [] heap, s'⟩ := rfl
  have hfinish : p.finish ⟨c.reset.put [slot] heap, s'⟩ = .ok v ⟨c.reset.put [] heap, s'⟩ := by
    have hdepth : (c.reset.put [slot] heap).depth = 1 := rfl
    simp only [finish, hdepth, if_true, bind, EStateM.bind, hp, hv]
  simp only [run, execute, bind, EStateM.bind, hsteps, hfinish]

/-- A run ends at the first instruction that fails. -/
theorem run_of_steps_error {c : Context} {s : σ} {e : Error} {m : Machine σ}
    (hsteps : p.steps 0 p.code.toList ⟨c.reset, s⟩ = .error e m) :
    p.run c s = ⟨.error e, m.context, m.host⟩ := by
  simp only [run, execute, bind, EStateM.bind, hsteps]

/-- The ways in which a run of a generated program can end. -/
theorem run_cases {q : Program σ} {host : Host σ} {st : Statement}
    (hp : q.generate host st.arena = (p, .ok ())) (c : Context) (s : σ) :
    (((p.run c s).result, (p.run c s).host) = (st.eval host c.viewAt).outcome s ∧
        p.actions c s = st.actions host c.viewAt s ∧
        ((∃ v, (p.run c s).result = .ok v ∧ st.stackNeed ≤ c.capacities.stack ∧
            st.heapNeed ≤ c.capacities.heap) ∨
          ∃ o x, (p.run c s).result = .error ⟨o, .operation x⟩)) ∨
      (c.capacities.stack < st.stackNeed ∧
        ∃ o, (p.run c s).result = .error ⟨o, .fault (.stackOverflow c.capacities.stack)⟩) ∨
      (c.capacities.heap < st.heapNeed ∧
        ∃ o, (p.run c s).result = .error ⟨o, .fault (.heapExhausted c.capacities.heap)⟩) := by
  have hends : p.Ends c.reset st.stackNeed st.heapNeed (([·]) <$> st.eval host c.viewAt <| s)
      (st.actions host c.viewAt s) (p.steps 0 p.code.toList ⟨c.reset, s⟩) (p.actions c s) :=
    ends_statement (code_of_generate hp) p.at_zero rfl ⟨Nat.zero_le _, Nat.zero_le _⟩
  -- Of the ways to end, the value or the failure of the formula leaves those that fit.
  simp only [Functor.map, EStateM.map, Meaning.outcome] at hends ⊢
  generalize st.actions host c.viewAt s = as at hends ⊢
  generalize p.actions c s = bs at hends ⊢
  generalize hm : p.steps 0 p.code.toList ⟨c.reset, s⟩ = m at hends
  rcases heval : st.eval host c.viewAt s with ⟨v, s'⟩ | ⟨e, s'⟩ <;> simp only [heval] at hends ⊢
  · cases hends with
    | values hfits _ _ hrefers =>
      obtain ⟨slot, rfl⟩ := List.length_eq_one_iff.1 hrefers.length_eq
      rw [run_of_steps_ok hm hrefers]
      exact .inl ⟨rfl, rfl, .inl ⟨v, rfl, by simpa using hfits.1, by simpa using hfits.2⟩⟩
    | overflow h =>
      rw [run_of_steps_error hm]
      exact .inr (.inl ⟨by simpa using h, _, rfl⟩)
    | exhausted h =>
      rw [run_of_steps_error hm]
      exact .inr (.inr ⟨by simpa using h, _, rfl⟩)
  · cases hends with
    | failure =>
      rw [run_of_steps_error hm]
      exact .inl ⟨rfl, rfl, .inr ⟨_, _, rfl⟩⟩
    | overflow h =>
      rw [run_of_steps_error hm]
      exact .inr (.inl ⟨by simpa using h, _, rfl⟩)
    | exhausted h =>
      rw [run_of_steps_error hm]
      exact .inr (.inr ⟨by simpa using h, _, rfl⟩)

/-- Running the program of a formula is evaluating the formula: where there is room for
    it, a run gives the same value or fails with the same cause at the same place,
    never with a fault, leaves the host in the same state and makes the same actions
    in the same order. -/
theorem generate_preserves {q : Program σ} {host : Host σ} {st : Statement}
    (hp : q.generate host st.arena = (p, .ok ())) (c : Context) (s : σ)
    (hstack : st.stackNeed ≤ c.capacities.stack) (hheap : st.heapNeed ≤ c.capacities.heap) :
    ((p.run c s).result, (p.run c s).host) = (st.eval host c.viewAt).outcome s ∧
      p.actions c s = st.actions host c.viewAt s ∧
      ∀ o f, (p.run c s).result ≠ .error ⟨o, .fault f⟩ := by
  rcases run_cases hp c s with ⟨houtcome, hactions, hend⟩ | ⟨h, _⟩ | ⟨h, _⟩
  · refine ⟨houtcome, hactions, fun o f hf => ?_⟩
    rcases hend with ⟨v, hv, _⟩ | ⟨o', x, hx⟩
    · rw [hv] at hf
      cases hf
    · rw [hx] at hf
      cases hf
  · exact absurd hstack (Nat.not_le.2 h)
  · exact absurd hheap (Nat.not_le.2 h)

/-- The variable is read before the function is called: `(4 + 1) * 10 = 50`. -/
theorem generate_preserves_call :
    let x : Variable Nat := { kind := fun _ => .text, read := fun _ n => (.text "x", n + 1) }
    let f : Function Nat := fun _ args _ n => .ok (args.getD 1 .undefined) (n * 10)
    let host : Host Nat := { reference? := fun _ => some x, function? := fun _ => some f }
    let st := Statement.expression (.call 0 "f" [.reference 2 (.name "a"), .text 5 "b"])
    let p : Program Nat :=
      ⟨#[⟨2, .load ⟨"a", x⟩⟩, ⟨5, .const (.text "b")⟩, ⟨0, .call "f" f 2 none⟩]⟩
    Program.generate {} host st.arena = (p, .ok ()) ∧
      ((p.run {} 4).result, (p.run {} 4).host) = (.ok (.text "b"), 50) ∧
      p.actions {} 4 =
        [.read x ⟨{}, 0, .undefined⟩, .call f ⟨{}, 0, .undefined⟩ [.text "x", .text "b"] none] := by
  intro x f host st p
  have hp : Program.generate {} host st.arena = (p, .ok ()) := generate_arena ..
  obtain ⟨houtcome, hactions, -⟩ := generate_preserves hp {} 4 (by decide) (by decide)
  exact ⟨hp, houtcome, hactions⟩

end Program

end Formula
