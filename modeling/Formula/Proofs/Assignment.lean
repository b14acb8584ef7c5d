import Formula.Evaluation
import Formula.Host.Table
import Formula.Proofs.Keeping
import Formula.Proofs.Preservation
import Formula.Proofs.Resources

/-!
# Assignments happen last or not at all

The code of an expression contains no store, and that of an assignment ends with its
only one. So a run on a table whose functions do not write to cells changes no cell
before that store; and behind it nothing can fail any more, as there is room for the
value where it has been before (`run_assignment`).

Hence a run that fails, for whatever reason, leaves all cells as they were, and a run
that succeeds has changed the cell of the target and no other (`compile_atomic`).
-/

namespace Formula

variable {σ τ : Type}

/-! ## Cells -/

namespace Store

variable (s : Store τ) (place : Nat) (v : Value)

/-- What is written to a writable cell is what it holds. -/
theorem value_replace (h : s.writable place) : (s.replace place v).value place = v := by
  rcases hc : s.cells[place]? with _ | c <;> simp only [writable, hc] at h
  · cases h
  · simp [value, replace, Array.getElem?_modify, hc]

/-- Writing does not change what is writable. -/
theorem writable_replace (other : Nat) :
    (s.replace place v).writable other = s.writable other := by
  by_cases hne : place = other
  · subst hne
    rcases hc : s.cells[place]? with _ | c <;> simp [writable, replace, Array.getElem?_modify, hc]
  · simp [writable, replace, Array.getElem?_modify, hne]

/-- Writing to a cell leaves the others as they are. -/
theorem getElem?_replace {other : Nat} (hne : other ≠ place) :
    (s.replace place v).cells[other]? = s.cells[other]? := by
  simp [replace, Array.getElem?_modify, hne.symm]

end Store

/-! ## Code without stores -/

/-- The functions of a table leave its cells as they are, whatever cells they are called
    on. -/
def Table.FunctionsKeepCells (t : Table τ) : Prop :=
  ∀ name f, t.functions.lookup name = some f → ∀ view args receiver,
    (∀ x ∈ receiver, ∃ place, x = Variable.cell place) → Keeps Store.cells (f view args receiver)

namespace Table

variable {t : Table τ}

/-- In a table a reference is bound to a cell, under its own text. -/
theorem exists_cell_of_bind {o : Nat} {r : Reference} {b : Binding (Store τ)}
    (h : t.host.bind o r = .ok b) :
    ∃ place, t.place? r.text = some place ∧ b = ⟨r.text, .cell place⟩ := by
  rw [Host.bind.eq_def] at h
  rcases hr : t.host.reference? r with _ | x
  · rw [hr] at h
    cases r <;> cases h
  · rw [hr] at h
    obtain ⟨place, hplace, rfl⟩ := Option.map_eq_some_iff.1 hr
    cases h
    exact ⟨place, hplace, rfl⟩

/-- A call changes no cell if the functions of the table do not. -/
theorem leaves_call (ht : t.FunctionsKeepCells) {o argc : Nat} {name : String}
    {f : Function (Store τ)} (hf : t.host.function o name = .ok f)
    {receiver : Option (Binding (Store τ))}
    (hreceiver : ∀ b ∈ receiver, ∃ place, b.target = Variable.cell place) :
    (Op.call name f argc receiver).Leaves Store.cells := by
  intro view args
  rw [Host.function] at hf
  rcases hname : t.host.function? name with _ | g <;> rw [hname] at hf <;> cases hf
  refine ht name f hname view args _ fun x hx => ?_
  obtain ⟨b, hb, rfl⟩ := Option.map_eq_some_iff.1 hx
  exact hreceiver b hb

/-- If the code of each expression changes no cell, that of all changes none. -/
theorem leaves_codeAll {es : List Expr}
    (h : ∀ e ∈ es, ∀ {is}, e.code t.host = .ok is → ∀ i ∈ is, i.op.Leaves Store.cells)
    {is : List (Instruction (Store τ))} (his : Expr.codeAll t.host es = .ok is) :
    ∀ i ∈ is, i.op.Leaves Store.cells := by
  induction es generalizing is with
  | nil =>
    cases his
    exact fun _ hi => absurd hi List.not_mem_nil
  | cons e es ih =>
    obtain ⟨first, hfirst, his⟩ := exists_of_bind_eq_ok his
    obtain ⟨rest, hrest, his⟩ := exists_of_bind_eq_ok his
    cases his
    exact List.forall_mem_append.2 ⟨h e List.mem_cons_self hfirst,
      ih (fun d hd => h d (List.mem_cons_of_mem _ hd)) hrest⟩

/-- No instruction of an expression changes a cell. -/
theorem leaves_code (ht : t.FunctionsKeepCells) {e : Expr} {is : List (Instruction (Store τ))}
    (his : e.code t.host = .ok is) : ∀ i ∈ is, i.op.Leaves Store.cells := by
  have hlast {before : List (Instruction (Store τ))} {i : Instruction (Store τ)}
      (hbefore : ∀ j ∈ before, j.op.Leaves Store.cells) (hi : i.op.Leaves Store.cells) :
      ∀ j ∈ before ++ [i], j.op.Leaves Store.cells :=
    List.forall_mem_append.2 ⟨hbefore, List.forall_mem_singleton.2 hi⟩
  induction e using Expr.induction generalizing is with
  | number o n =>
    obtain ⟨v, _, his⟩ := exists_of_bind_eq_ok his
    cases his
    exact List.forall_mem_singleton.2 trivial
  | text o s =>
    cases his
    exact List.forall_mem_singleton.2 trivial
  | reference o r =>
    obtain ⟨b, hb, his⟩ := exists_of_bind_eq_ok his
    cases his
    obtain ⟨place, _, rfl⟩ := exists_cell_of_bind hb
    exact List.forall_mem_singleton.2 fun _ _ => rfl
  | unary o op x ih =>
    obtain ⟨before, hbefore, his⟩ := exists_of_bind_eq_ok his
    cases his
    exact hlast (ih hbefore) trivial
  | binary o op l r ihl ihr =>
    obtain ⟨left, hleft, his⟩ := exists_of_bind_eq_ok his
    obtain ⟨right, hright, his⟩ := exists_of_bind_eq_ok his
    cases his
    exact hlast (List.forall_mem_append.2 ⟨ihl hleft, ihr hright⟩) trivial
  | call o name args ih =>
    obtain ⟨before, hbefore, his⟩ := exists_of_bind_eq_ok his
    obtain ⟨f, hf, his⟩ := exists_of_bind_eq_ok his
    cases his
    exact hlast (leaves_codeAll (fun e he _ => ih e he) hbefore) (leaves_call ht hf (by simp))
  | method o e name args _ ih =>
    obtain ⟨b, hb, his⟩ := exists_of_bind_eq_ok his
    obtain ⟨before, hbefore, his⟩ := exists_of_bind_eq_ok his
    obtain ⟨f, hf, his⟩ := exists_of_bind_eq_ok his
    cases his
    refine hlast (leaves_codeAll (fun e he _ => ih e he) hbefore) (leaves_call ht hf ?_)
    -- The receiver has been bound as a reference is, so it is a cell.
    rintro _ ⟨⟩
    cases e with
    | reference o r =>
      obtain ⟨place, _, rfl⟩ := exists_cell_of_bind hb
      exact ⟨place, rfl⟩
    | _ => cases hb

end Table

/-! ## The only store -/

namespace Program

/-- An assignment that is made by the instruction is accepted by the host. -/
def Executed.Assigns (p : Program σ) (x : Executed σ) : Prop :=
  ∃ y view v s', x.action? p = some (.write y view v) ∧ y.write view v x.before.host = .ok () s'

variable {p : Program σ}

/-- Without a store nothing is assigned. -/
theorem Executed.not_assigns {x : Executed σ} (h : ∀ b, x.instruction.op ≠ .store b) :
    ¬ x.Assigns p := by
  rintro ⟨y, view, v, s', haction, -⟩
  obtain ⟨pc, ⟨o, op⟩, m⟩ := x
  cases op with
  | store b => exact h b rfl
  | load | const | binary | unary => cases haction
  | call name f argc receiver =>
    -- A request is made, but not to write.
    simp only [action?, request, bind, EStateM.bind] at haction
    split at haction
    · rename_i hrequest
      split at hrequest
      · split at hrequest <;> cases hrequest
        cases haction
      · cases hrequest
    · cases haction

/-- Only instructions of the list are executed. -/
theorem instruction_mem_of_mem_traceFrom {pc : Nat} {is : List (Instruction σ)} {m : Machine σ}
    {x : Executed σ} (h : x ∈ p.traceFrom pc m is) : x.instruction ∈ is := by
  induction is generalizing pc m with
  | nil => cases h
  | cons i is ih =>
    rcases List.mem_cons.1 h with rfl | h
    · exact List.mem_cons_self
    · split at h
      · exact List.mem_cons_of_mem _ (ih h)
      · cases h

/-- The code of an expression that gets to its end leaves a value on the stack, where there is
    room for it. -/
theorem exists_value_of_steps {host : Host σ} {e : Expr} {is : List (Instruction σ)}
    {c : Context} {s : σ} {pc : Nat} {m : Machine σ} (hcode : e.code host = .ok is)
    (hat : p.At pc is) (hfits : c.Fits 0 0) (h : p.steps pc is ⟨c, s⟩ = .ok () m) :
    ∃ slot heap v, m = ⟨c.put [slot] heap, m.host⟩ ∧ p.Refers heap [slot] [v] ∧
      c.depth < c.capacities.stack := by
  have hends := simulates p host e s hcode hat hfits
  rw [h] at hends
  simp only [Functor.map, EStateM.map] at hends
  generalize e.eval host c.viewAt c.depth s = r at hends
  generalize e.actions host c.viewAt c.depth s = as at hends
  generalize p.actionsFrom pc ⟨c, s⟩ is = bs at hends
  rcases r with ⟨v, s'⟩ | ⟨err, s'⟩
  · cases hends with
    | values hfits' _ _ hrefers =>
      obtain ⟨slot, rfl⟩ := List.length_eq_one_iff.1 hrefers.length_eq
      exact ⟨slot, _, v, rfl, hrefers, Nat.lt_of_lt_of_le
        (Nat.lt_add_of_pos_right e.stackNeed_pos) hfits'.1⟩
  · cases hends

end Program

/-! ## Formulas -/

namespace Table

open Program

variable {t : Table τ} {p : Program (Store τ)}

/-- A run of an expression leaves all cells as they are, and assigns nothing. -/
theorem run_expression (ht : t.FunctionsKeepCells) {e : Expr}
    (hcode : e.code t.host = .ok p.code.toList) (c : Context) (s : Store τ) :
    (p.run c s).host.cells = s.cells ∧ ∀ x ∈ p.trace c s, ¬ x.Assigns p := by
  have hleaves := leaves_code ht hcode
  have hkeeps : Keeps (fun m : Machine (Store τ) => m.host.cells) p.execute :=
    (p.keeps_steps hleaves 0).bind fun _ => p.keeps_finish fun _ =>
      Run.keeps_host_onContext _ Store.cells _
  refine ⟨?_, fun x hx => Executed.not_assigns fun b hb => ?_⟩
  · have h := hkeeps ⟨c.reset, s⟩
    rwa [left_run] at h
  · have hx := hleaves _ (instruction_mem_of_mem_traceFrom hx)
    rw [hb] at hx
    exact hx

section Store

variable {c : Context} {heap : Array Value} {slot : Slot} {v : Value} {s : Store τ}
  (pc o place : Nat) (name : String)

/-- With room for the value, a store into a cell ends as the cell allows. -/
theorem step_cell (h : p.Refers heap [slot] [v]) (hroom : c.depth < c.capacities.stack) :
    p.step pc ⟨o, .store ⟨name, .cell place⟩⟩ ⟨c.put [slot] heap, s⟩ =
      if s.writable place then .ok () ⟨c.put [slot] heap, s.replace place v⟩
      else .error ⟨o, .operation (.readOnly name readOnlyReason)⟩ ⟨c.put [] heap, s⟩ := by
  rw [step_store o _ h hroom]
  by_cases hw : s.writable place <;> simp [Meaning.host, Variable.cell, hw]

/-- To a cell that is not writable nothing is assigned. -/
theorem not_assigns_cell (h : p.Refers heap [slot] [v]) (hw : ¬ s.writable place) :
    ¬ Executed.Assigns p ⟨pc, ⟨o, .store ⟨name, .cell place⟩⟩, ⟨c.put [slot] heap, s⟩⟩ := by
  rintro ⟨y, view, w, s', haction, hwrite⟩
  have hwritten :=
    (congrArg Option.toList haction).symm.trans (action_store o ⟨name, .cell place⟩ h)
  cases hwritten
  simp [Variable.cell, hw] at hwrite

end Store

/-- A run of an assignment fails, changes no cell and has nothing assigned, or it gives a
    value and changes the cell of the target to it. -/
theorem run_assignment (ht : t.FunctionsKeepCells) {o targetOffset : Nat} {r : Reference}
    {e : Expr} (hcode : (Statement.assignment o targetOffset r e).code t.host = .ok p.code.toList) :
    ∃ place, t.place? r.text = some place ∧ ∀ (c : Context) (s : Store τ),
      ((∃ err, (p.run c s).result = .error err) ∧ (p.run c s).host.cells = s.cells ∧
          ∀ x ∈ p.trace c s, ¬ x.Assigns p) ∨
        ∃ v, (p.run c s).result = .ok v ∧ s.writable place ∧
          (p.run c s).host.cells = (s.replace place v).cells := by
  obtain ⟨before, hbefore, hcode⟩ := exists_of_bind_eq_ok hcode
  obtain ⟨b, hb, hcode⟩ := exists_of_bind_eq_ok hcode
  obtain ⟨place, hplace, rfl⟩ := exists_cell_of_bind hb
  have hcode := Except.ok.inj hcode
  refine ⟨place, hplace, fun c s => ?_⟩
  have hleaves := leaves_code ht hbefore
  have hkept := p.keeps_steps hleaves 0 ⟨c.reset, s⟩
  have hnone : ∀ x ∈ p.traceFrom 0 ⟨c.reset, s⟩ before, ¬ x.Assigns p := by
    intro x hx
    have hx := hleaves _ (instruction_mem_of_mem_traceFrom hx)
    exact Executed.not_assigns fun b hb => by rwa [hb] at hx
  -- The run is that of the value, and then of the store where there is a value.
  have hsteps := steps_append (p := p) 0 before [⟨targetOffset, .store ⟨r.text, .cell place⟩⟩]
    ⟨c.reset, s⟩
  have htrace := traceFrom_append (p := p) 0 before
    [⟨targetOffset, .store ⟨r.text, .cell place⟩⟩] ⟨c.reset, s⟩
  rw [hcode] at hsteps htrace
  rw [trace, htrace]
  rcases hm : p.steps 0 before ⟨c.reset, s⟩ with ⟨_, m⟩ | ⟨err, m⟩ <;>
    simp only [hm] at hsteps hkept ⊢
  · -- The store puts the value back where it was taken from, so there is room for it.
    have hat : p.At 0 before := (hcode ▸ p.at_zero : p.At 0 (before ++ [_])).left
    obtain ⟨slot, heap, v, hmachine, hrefers, hroom⟩ :=
      exists_value_of_steps hbefore hat ⟨Nat.zero_le _, Nat.zero_le _⟩ hm
    generalize m.host = s' at hmachine
    subst hmachine
    change s'.cells = s.cells at hkept
    have hwritable : s'.writable place = s.writable place := by
      rw [Store.writable, hkept, ← Store.writable]
    rw [steps_singleton, step_cell _ _ _ _ hrefers hroom] at hsteps
    by_cases hw : s'.writable place
    · rw [if_pos hw] at hsteps
      refine .inr ⟨v, ?_, hwritable ▸ hw, ?_⟩ <;> rw [run_of_steps_ok hsteps hrefers]
      rw [Store.replace, hkept, Store.replace]
    · rw [if_neg hw] at hsteps
      refine .inl ?_
      rw [run_of_steps_error hsteps]
      refine ⟨⟨_, rfl⟩, hkept, List.forall_mem_append.2 ⟨hnone, ?_⟩⟩
      rw [traceFrom_singleton]
      exact List.forall_mem_singleton.2 (not_assigns_cell _ _ _ _ hrefers hw)
  · refine .inl ?_
    rw [run_of_steps_error hsteps, List.append_nil]
    exact ⟨⟨err, rfl⟩, hkept, hnone⟩

/-- Assignments are made last or not at all. A run that fails, with a fault or otherwise, leaves
    the cells of the table as they were; a run that gives a value has changed the cell that
    the formula assigns to, if it is an assignment, to that value, and no other cell. When
    the host has accepted an assignment, the run gives a value. -/
theorem compile_atomic {q : Program (Store τ)} {settings : Settings} {source : String}
    (ht : t.FunctionsKeepCells) (hp : q.compile t.host settings source = (p, .ok ())) :
    ∃ st, Statement.read t.host.units.names settings source = .ok st ∧
      ∀ (c : Context) (s : Store τ),
        (∀ err, (p.run c s).result = .error err → (p.run c s).host.cells = s.cells) ∧
          (∀ v, (p.run c s).result = .ok v →
            match st with
            | .expression _ => (p.run c s).host.cells = s.cells
            | .assignment _ _ r _ =>
              ∃ place, t.place? r.text = some place ∧ (p.run c s).host.value place = v ∧
                (p.run c s).host.writable place = s.writable place ∧
                ∀ other, other ≠ place → (p.run c s).host.cells[other]? = s.cells[other]?) ∧
          ((∃ x ∈ p.trace c s, x.Assigns p) → ∃ v, (p.run c s).result = .ok v) := by
  obtain ⟨st, hst, hgenerate⟩ := exists_of_compile hp
  refine ⟨st, hst, fun c s => ?_⟩
  have hcode := code_of_generate hgenerate
  cases st with
  | expression e =>
    obtain ⟨hcells, hnone⟩ := run_expression ht hcode c s
    exact ⟨fun _ _ => hcells, fun _ _ => hcells,
      fun ⟨x, hx, hassigns⟩ => absurd hassigns (hnone x hx)⟩
  | assignment o targetOffset r e =>
    obtain ⟨place, hplace, hrun⟩ := run_assignment ht hcode
    obtain ⟨⟨err, herr⟩, hcells, hnone⟩ | ⟨v, hv, hw, hcells⟩ := hrun c s
    · refine ⟨fun _ _ => hcells, fun v hv => ?_,
        fun ⟨x, hx, hassigns⟩ => absurd hassigns (hnone x hx)⟩
      rw [herr] at hv
      cases hv
    · refine ⟨fun err herr => ?_, fun w hw' => ?_, fun _ => ⟨v, hv⟩⟩
      · rw [hv] at herr
        cases herr
      · obtain rfl : v = w := Except.ok.inj (hv.symm.trans hw')
        refine ⟨place, hplace, ?_, ?_, fun other hne => ?_⟩
        · rw [Store.value, hcells, ← Store.value, Store.value_replace s place v hw]
        · rw [Store.writable, hcells, ← Store.writable, Store.writable_replace]
        · rw [hcells, Store.getElem?_replace s place v hne]

/-- The value of a cell is assigned to another by `b = a`. -/
theorem compile_atomic_variable :
    let t : Table Unit := (({ store := { own := () } } : Table Unit).withConstant "a"
      (.text "x")).withVariable "b" .undefined
    let p : Program (Store Unit) :=
      ⟨#[⟨4, .load ⟨"a", .cell 0⟩⟩, ⟨0, .store ⟨"b", .cell 1⟩⟩]⟩
    Program.compile {} t.host {} "b = a" = (p, .ok ()) ∧
      ∃ v, (p.run {} t.store).result = .ok v ∧ (p.run {} t.store).host.value 1 = v ∧
        (p.run {} t.store).host.cells[0]? = t.store.cells[0]? := by
  intro t p
  have ht : t.FunctionsKeepCells := fun name f hf => by cases hf
  have hp : Program.compile {} t.host {} "b = a" = (p, .ok ()) := by cbv
  obtain ⟨st, hst, hrun⟩ := compile_atomic ht hp
  have hread : Statement.read t.host.units.names {} "b = a" =
      .ok (.assignment 2 0 (.name "b") (.reference 4 (.name "a"))) := by cbv
  obtain rfl := Except.ok.inj (hst.symm.trans hread)
  have hv : (p.run {} t.store).result = .ok (.text "x") := rfl
  obtain ⟨place, hplace, hvalue, -, hothers⟩ := (hrun {} t.store).2.1 _ hv
  obtain rfl : 1 = place := Option.some.inj hplace
  exact ⟨hp, _, hv, hvalue, hothers 0 (by decide)⟩

end Table

end Formula
