import Formula.Evaluation
import Formula.Proofs.Preservation
import Mathlib

/-!
# Room

The need of a formula (`Statement.stackNeed`, `Statement.heapNeed`) is exact. A
program that a formula was compiled to never takes a value that is not there and
never leaves more or less than one, so the only faults it knows are a full stack and
a full heap; it meets them only where the context is smaller than the need, and
there it never gets to a value (`compile_faults`). Where the usual capacities are
enough, a formula that is evaluated at once ends as its tree does (`evaluate_eq`).
-/

namespace Formula

variable {σ : Type}

namespace Program

/-- A program that could be compiled is that of the arena of a formula. -/
theorem exists_of_compile {q p : Program σ} {host : Host σ} {settings : Settings}
    {source : String} (hp : q.compile host settings source = (p, .ok ())) :
    ∃ st, Statement.read host.units.names settings source = .ok st ∧
      q.generate host st.arena = (p, .ok ()) := by
  rw [compile] at hp
  rcases hst : Statement.read host.units.names settings source with e | st <;>
    simp only [hst] at hp
  · cases hp
  rcases hg : q.generate host st.arena with ⟨p', e | _⟩ <;> simp only [hg] at hp <;> cases hp
  exact ⟨st, rfl, hg⟩

/-- The faults of a generated program tell what the context lacks. -/
theorem lack_of_fault {q p : Program σ} {host : Host σ} {st : Statement}
    (hp : q.generate host st.arena = (p, .ok ())) {c : Context} {s : σ} {o : Nat} {f : Fault}
    (hf : (p.run c s).result = .error ⟨o, .fault f⟩) :
    (f = .stackOverflow c.capacities.stack ∧ c.capacities.stack < st.stackNeed) ∨
      (f = .heapExhausted c.capacities.heap ∧ c.capacities.heap < st.heapNeed) := by
  rcases run_cases hp c s with ⟨_, _, ⟨v, hv, _⟩ | ⟨_, x, hx⟩⟩ | ⟨h, _, ho⟩ | ⟨h, _, ho⟩
  · rw [hv] at hf
    cases hf
  · rw [hx] at hf
    cases hf
  · rw [ho] at hf
    cases hf
    exact .inl ⟨rfl, h⟩
  · rw [ho] at hf
    cases hf
    exact .inr ⟨rfl, h⟩

/-- What a formula needs, no more and no less: its program has no other faults than
    a full stack and a full heap, has these only where the context is smaller than
    the need, and gives no value there but ends with one of the two or with an
    operation that fails before, as the formula does. -/
theorem compile_faults {q p : Program σ} {host : Host σ} {settings : Settings} {source : String}
    (hp : q.compile host settings source = (p, .ok ())) :
    ∃ st, Statement.read host.units.names settings source = .ok st ∧
      ∀ (c : Context) (s : σ),
        (∀ o f, (p.run c s).result = .error ⟨o, .fault f⟩ →
          f ≠ .stackUnderflow ∧ f ≠ .danglingSlot ∧ ∀ n, f ≠ .unbalancedStack n) ∧
        (st.stackNeed ≤ c.capacities.stack → st.heapNeed ≤ c.capacities.heap →
          ∀ o f, (p.run c s).result ≠ .error ⟨o, .fault f⟩) ∧
        (c.capacities.stack < st.stackNeed ∨ c.capacities.heap < st.heapNeed →
          (∃ o, (p.run c s).result = .error ⟨o, .fault (.stackOverflow c.capacities.stack)⟩ ∧
            c.capacities.stack < st.stackNeed) ∨
          (∃ o, (p.run c s).result = .error ⟨o, .fault (.heapExhausted c.capacities.heap)⟩ ∧
            c.capacities.heap < st.heapNeed) ∨
          ∃ o x, (p.run c s).result = .error ⟨o, .operation x⟩ ∧
            ((st.eval host c.viewAt).outcome s).1 = .error ⟨o, .operation x⟩) := by
  obtain ⟨st, hst, hg⟩ := exists_of_compile hp
  refine ⟨st, hst, fun c s => ⟨fun o f hf => ?_, fun hstack hheap o f hf => ?_, fun hlack => ?_⟩⟩
  · rcases lack_of_fault hg hf with ⟨rfl, _⟩ | ⟨rfl, _⟩ <;> simp
  · rcases lack_of_fault hg hf with ⟨_, h⟩ | ⟨_, h⟩
    · exact absurd hstack (Nat.not_le.2 h)
    · exact absurd hheap (Nat.not_le.2 h)
  · rcases run_cases hg c s with ⟨houtcome, _, ⟨_, _, hstack, hheap⟩ | ⟨o, x, hx⟩⟩ | ⟨h, o, ho⟩ |
      ⟨h, o, ho⟩
    · omega
    · exact .inr (.inr ⟨o, x, hx, by rw [← houtcome, hx]⟩)
    · exact .inl ⟨o, ho, h⟩
    · exact .inr (.inl ⟨o, ho, h⟩)

/-- Comparing a variable to a text needs two stack entries and two heap cells. -/
theorem compile_faults_comparison :
    let x : Variable Unit := .fixed .undefined
    let host : Host Unit := { reference? := fun _ => some x, function? := fun _ => none }
    let p : Program Unit := ⟨#[⟨0, .load ⟨"a", x⟩⟩, ⟨5, .const (.text "b")⟩,
      ⟨2, .binary (.binary .equal)⟩]⟩
    Program.compile {} host {} "a == 'b'" = (p, .ok ()) ∧
      (∀ o f, (p.run { capacities := ⟨2, 2⟩ } ()).result ≠ .error ⟨o, .fault f⟩) ∧
      ∀ v, (p.run { capacities := ⟨1, 2⟩ } ()).result ≠ .ok v := by
  intro x host p
  have hp : Program.compile {} host {} "a == 'b'" = (p, .ok ()) := by cbv
  obtain ⟨st, hst, h⟩ := compile_faults hp
  have hread : Statement.read host.units.names {} "a == 'b'" =
      .ok (.expression (.binary 2 .equal (.reference 0 (.name "a")) (.text 5 "b"))) := by cbv
  obtain rfl := Except.ok.inj (hread.symm.trans hst)
  refine ⟨hp, (h { capacities := ⟨2, 2⟩ } ()).2.1 (by decide) (by decide), fun v hv => ?_⟩
  rcases (h { capacities := ⟨1, 2⟩ } ()).2.2 (.inl (by decide)) with ⟨o, ho, _⟩ | ⟨o, ho, _⟩ |
    ⟨o, e, ho, _⟩ <;> rw [ho] at hv <;> cases hv

end Program

/-! ## Formulas that are evaluated at once -/

/-- A formula that is evaluated at once has the value, or fails, as its tree does, if it can be
    linked; the usual capacities have to be enough for it. -/
theorem evaluate_eq {host : Host σ} {source : String} {st : Statement}
    (hst : Statement.read host.units.names {} source = .ok st)
    (hstack : st.stackNeed ≤ ({} : Capacities).stack)
    (hheap : st.heapNeed ≤ ({} : Capacities).heap) (s : σ) :
    evaluate host source s =
      match st.code host with
      | .error e => (.error (e.map .linking), s)
      | .ok _ => (st.eval host ({} : Context).viewAt).outcome s := by
  rw [evaluate, compile_eq, hst]
  rcases hcode : st.code host with e | is <;> simp only [hcode]
  have hg : Program.generate {} host st.arena = (⟨is.toArray⟩, .ok ()) := by
    rw [Program.generate_arena, hcode]
  rcases Program.run_cases hg {} s with ⟨houtcome, -⟩ | ⟨hlack, -⟩ | ⟨hlack, -⟩
  · exact houtcome
  · exact absurd hstack (Nat.not_le.2 hlack)
  · exact absurd hheap (Nat.not_le.2 hlack)

end Formula
