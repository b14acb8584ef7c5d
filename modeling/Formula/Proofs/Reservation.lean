import Formula.Machine.Reservation
import Formula.Proofs.Resources
import Formula.Proofs.Walk

/-!
# Runs that end for want of room

A call of more arguments than can be reserved ends the process, however many there are on the
stack; so an attempt to run a program has an outcome unless such a call is executed, and then
it is that of the run (`attempt_eq_some_iff`).

* So what a walk through a program tells of its runs, it tells of all attempts that are not
  ended by such a call, and that is one of the program, not behind the instruction where the
  walk meets its fault (`attempt_follows_walk`).
* Where a walk finds too few arguments for a call there need not be a fault: `attempt_of_usize_max`.
* A formula never makes such a call in a context whose capacities can be reserved: its
  arguments are on the stack when it is called (`attempt_of_compile`).
-/

namespace Formula

variable {σ : Type}

namespace Program

variable {p : Program σ} {c : Context} {s : σ}

/-! ## Attempts and runs -/

/-- From a machine on, there is an outcome unless an instruction is executed whose arguments
    cannot be reserved. -/
theorem attemptFrom_eq (p : Program σ) (pc : Nat) (m : Machine σ) (is : List (Instruction σ)) :
    p.attemptFrom pc m is =
      if ∀ x ∈ p.traceFrom pc m is, x.instruction.op.Reservable then
        some ((do p.steps pc is; p.finish : Run σ Value) m)
      else none := by
  induction is generalizing pc m with
  | nil => rw [attemptFrom, traceFrom, if_pos fun _ h => absurd h List.not_mem_nil]; rfl
  | cons i is ih =>
    rw [attemptFrom, traceFrom]
    by_cases hi : i.op.Reservable
    · rw [if_pos hi]
      simp only [List.forall_mem_cons, hi, true_and, steps, bind, EStateM.bind]
      rcases p.step pc i m with ⟨_, m'⟩ | ⟨e, m'⟩
      · exact ih (pc + 1) m'
      · exact (if_pos fun _ h => absurd h List.not_mem_nil).symm
    · rw [if_neg hi, if_neg fun h => hi (h ⟨pc, i, m⟩ List.mem_cons_self)]

/-- An attempt has the outcome of the run, unless an instruction is executed whose arguments
    cannot be reserved. -/
theorem attempt_eq (p : Program σ) (c : Context) (s : σ) :
    p.attempt c s =
      if ∀ x ∈ p.trace c s, x.instruction.op.Reservable then some (p.run c s) else none := by
  rw [attempt, attemptFrom_eq, ← trace]
  by_cases h : ∀ x ∈ p.trace c s, x.instruction.op.Reservable
  · have hexecute : (do p.steps 0 p.code.toList; p.finish : Run σ Value) = p.execute := rfl
    rw [if_pos h, if_pos h, hexecute]
    rcases hx : p.execute ⟨c.reset, s⟩ with ⟨v, m⟩ | ⟨e, m⟩ <;>
      simp only [run, hx, Option.map_some]
  · rw [if_neg h, if_neg h, Option.map_none]

/-- The process is ended by an executed instruction whose arguments cannot be reserved. -/
theorem attempt_eq_none_iff :
    p.attempt c s = none ↔ ∃ x ∈ p.trace c s, ¬ x.instruction.op.Reservable := by
  rw [attempt_eq]
  by_cases h : ∀ x ∈ p.trace c s, x.instruction.op.Reservable
  · simpa [if_pos h] using h
  · simpa [if_neg h] using h

/-- An attempt has an outcome if the arguments of all executed instructions can be reserved,
    and then that of the run. -/
theorem attempt_eq_some_iff {r : Outcome σ} :
    p.attempt c s = some r ↔
      (∀ x ∈ p.trace c s, x.instruction.op.Reservable) ∧ p.run c s = r := by
  rw [attempt_eq]
  by_cases h : ∀ x ∈ p.trace c s, x.instruction.op.Reservable
  · rw [if_pos h, Option.some.injEq, and_iff_right h]
  · rw [if_neg h]
    exact ⟨(nomatch ·), fun hr => absurd hr.1 h⟩

/-! ## Calls that cannot be made -/

/-- A run ends where an instruction that it executes fails. -/
theorem steps_of_mem_traceFrom {pc : Nat} {m m' : Machine σ} {is : List (Instruction σ)}
    {x : Executed σ} (hx : x ∈ p.traceFrom pc m is) {e : Error}
    (he : p.step x.pc x.instruction x.before = .error e m') : p.steps pc is m = .error e m' := by
  induction is generalizing pc m with
  | nil => exact absurd hx List.not_mem_nil
  | cons i is ih =>
    rw [traceFrom] at hx
    rw [steps]
    simp only [bind, EStateM.bind]
    rcases List.mem_cons.1 hx with rfl | hx
    · rw [he]
    · rcases hi : p.step pc i m with ⟨_, m''⟩ | ⟨_, m''⟩ <;> simp only [hi] at hx ⊢
      · exact ih hx
      · exact absurd hx List.not_mem_nil

/-- On a stack that can be reserved there are fewer slots than such a call takes. -/
theorem depth_lt_arguments (hc : c.capacities.Reservable) (h : p.Consistent c) {op : Op σ}
    (hop : ¬ op.Reservable) : c.depth < op.arguments := by
  have hstack := hc.1
  have hdepth := h.depth_le
  rw [Op.Reservable] at hop
  unfold Slot.bytes at hop hstack
  omega

/-- A call of more arguments than there are values is one of too many for the walk, whatever
    the capacities. -/
theorem walk_not_reservable {l : Level} {op : Op σ} (h : l.depth < op.arguments)
    (capacities : Capacities) : op.walk capacities l = .error .stackUnderflow := by
  cases op with
  | call name f argc receiver =>
    have hpop : l.pop argc = .error .stackUnderflow := if_neg (Nat.not_le.2 h)
    rw [Op.walk, hpop]
    rfl
  | const | load | store | binary | unary => exact absurd h (Nat.not_lt_zero _)

/-- An instruction that takes more arguments than there are slots fails for want of them. -/
theorem step_not_reservable (p : Program σ) (pc : Nat) (s : σ) {i : Instruction σ}
    (h : c.depth < i.op.arguments) :
    ∃ m, p.step pc i ⟨c, s⟩ = .error ⟨i.offset, .fault .stackUnderflow⟩ m := by
  obtain ⟨o, op⟩ := i
  cases op with
  | call name f argc receiver =>
    have hargc : ¬ argc ≤ c.depth := Nat.not_le.2 h
    obtain ⟨m, hpop⟩ := onContext_popMany_underflow o s hargc []
    exact ⟨m, by simp only [step, bind, EStateM.bind, hpop]⟩
  | const | load | store | binary | unary => exact absurd h (Nat.not_lt_zero _)

/-! ## Walks and compiled programs -/

/-- How an attempt to run a program ends is told by the walk through it, whatever the program,
    its variables and functions, the context and the host are. Where the arguments of all its
    calls can be reserved, the attempt is a run. Otherwise an executed call may end the
    process, one not behind the instruction where the walk meets its fault; and this is where
    the walk finds too few values on the stack, if the context is one that can be reserved.
    In all other cases the attempt ends as the walk tells: as an operation fails, that of an
    instruction not behind the one where the walk meets a fault, if it meets one; with the
    fault that the walk meets, at the instruction where it meets it; or behind all
    instructions, with a value if the walk has counted one, and otherwise with a report on
    how many it has counted. In no case does a slot dangle. -/
theorem attempt_follows_walk (p : Program σ) (c : Context) (s : σ) :
    ((∀ i ∈ p.code, i.op.Reservable) → p.attempt c s = some (p.run c s)) ∧
      match p.attempt c s with
      | none =>
        ∃ x ∈ p.trace c s, ¬ x.instruction.op.Reservable ∧
          p.code[x.pc]? = some x.instruction ∧
          (∀ pc o f, p.walk c.capacities = .faultAt pc o f → x.pc ≤ pc) ∧
          (c.capacities.Reservable →
            p.walk c.capacities = .faultAt x.pc x.instruction.offset .stackUnderflow)
      | some r =>
        r = p.run c s ∧ (∀ x ∈ p.trace c s, x.instruction.op.Reservable) ∧
          (∀ o, r.result ≠ .error ⟨o, .fault .danglingSlot⟩) ∧
          ((∃ x e m, p.LastFails (p.trace c s) x ⟨x.instruction.offset, .operation e⟩ m ∧
              r.result = .error ⟨x.instruction.offset, .operation e⟩ ∧
              ∀ pc o f, p.walk c.capacities = .faultAt pc o f → x.pc ≤ pc) ∨
            match p.walk c.capacities with
            | .behind l =>
              if l.depth = 1 then ∃ v, r.result = .ok v
              else r.result = .error ⟨p.lastOffset, .fault (.unbalancedStack l.depth)⟩
            | .faultAt pc o f =>
              (f = .stackUnderflow ∨ f = .stackOverflow c.capacities.stack ∨
                f = .heapExhausted c.capacities.heap) ∧
              r.result = .error ⟨o, .fault f⟩ ∧
              ∃ x m, p.LastFails (p.trace c s) x ⟨o, .fault f⟩ m ∧ x.pc = pc) := by
  have hpasses {x : Executed σ} (hx : x ∈ p.trace c s) :=
    exists_walk_of_mem_traceFrom s (p.consistent_reset c) p.at_zero hx
  refine ⟨fun hcode => attempt_eq_some_iff.2 ⟨fun x hx => ?_, rfl⟩, ?_⟩
  · obtain ⟨-, -, hplace, -⟩ := hpasses hx
    exact hcode _ (Array.mem_of_getElem? hplace)
  rcases hattempt : p.attempt c s with _ | r
  · obtain ⟨x, hx, hreserve⟩ := attempt_eq_none_iff.1 hattempt
    obtain ⟨hconsistent, hcapacities, hplace, behind, hwalk⟩ := hpasses hx
    refine ⟨x, hx, hreserve, hplace, fun pc o f hf => le_of_walkFrom (hwalk.symm.trans hf),
      fun hc => hwalk.trans ?_⟩
    have hdepth : x.before.context.level.depth < x.instruction.op.arguments :=
      depth_lt_arguments (hcapacities ▸ hc) hconsistent hreserve
    rw [walkFrom, walk_not_reservable hdepth]
  · obtain ⟨hreserve, rfl⟩ := attempt_eq_some_iff.1 hattempt
    obtain ⟨hdangling, hends⟩ := p.run_follows_walk c s
    exact ⟨rfl, hreserve, hdangling, hends⟩

/-- A call of as many arguments as a word can count ends the process, where the walk tells that
    it finds nothing on the stack. -/
theorem attempt_of_usize_max :
    let p : Program Unit :=
      ⟨#[⟨0, .call "max" (fun _ _ _ => pure .undefined) (UInt64.size - 1) none⟩]⟩
    p.attempt {} () = none ∧ p.walk {} = .faultAt 0 0 .stackUnderflow :=
  ⟨rfl, rfl⟩

/-- A program that a formula was compiled to never ends the process in a context that can be
    reserved: the arguments of a call are on the stack before it. -/
theorem attempt_of_compile {q p : Program σ} {host : Host σ} {settings : Settings}
    {source : String} (hp : q.compile host settings source = (p, .ok ())) {c : Context}
    (hc : c.capacities.Reservable) (s : σ) : p.attempt c s = some (p.run c s) := by
  refine attempt_eq_some_iff.2 ⟨fun x hx => ?_, rfl⟩
  by_contra hreserve
  obtain ⟨hconsistent, hcapacities, -⟩ :=
    exists_walk_of_mem_traceFrom s (p.consistent_reset c) p.at_zero hx
  -- The call would find too few arguments, which no run of the program does.
  obtain ⟨m, hm⟩ := p.step_not_reservable x.pc x.before.host
    (depth_lt_arguments (hcapacities ▸ hc) hconsistent hreserve)
  obtain ⟨st, -, hg⟩ := exists_of_compile hp
  have hrun := run_of_steps_error (steps_of_mem_traceFrom hx hm)
  rcases lack_of_fault hg (congrArg Outcome.result hrun) with ⟨hfault, -⟩ | ⟨hfault, -⟩ <;>
    cases hfault

end Program

end Formula
