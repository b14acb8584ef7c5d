import Formula.Coupling
import Formula.Machine.Resizing
import Formula.Proofs.Keeping
import Formula.Proofs.Walk

/-!
# Larger contexts

A program runs side by side in two contexts that differ in their capacities alone, the
second not the smaller one. Up to the last thing that an instruction does, to put its
result on the stack, both machines do the same (`Coupled` along `Resized`); there the first
one may run out of room. So of two runs the second one *outlasts* the first (`Outlasts`):
they do the same, or the first one stops where the second one can go on, and then, too, the
host has been asked the same until there.

* The instructions that the first run executes are the first ones of the second run, from the
  same machines but for the capacities (`outlasts_steps`).
* A run that ends with something else than a lack of room ends so in every larger context
  (`run_resize`).
-/

namespace Formula

variable {σ : Type} {k : Capacities}

/-- The same context, the capacities apart, which are not smaller in the second one. -/
def Context.Resized (k : Capacities) (c c' : Context) : Prop :=
  c.capacities ≤ k ∧ c' = c.resize k

/-- The same machine, the capacities apart, which are not smaller in the second one. -/
def Machine.Resized (k : Capacities) (m m' : Machine σ) : Prop :=
  m.context.capacities ≤ k ∧ m' = m.resize k

/-! ## Operations that need no room -/

namespace Context

theorem coupled_pop : Coupled (Resized k) pop pop := by
  rintro ⟨_ | ⟨slot, below⟩, heap, capacities, data⟩ _ ⟨hk, rfl⟩
  · exact .error ⟨hk, rfl⟩
  · exact .ok ⟨hk, rfl⟩

/-- Taking slots off does not depend on the capacities. -/
theorem coupled_popMany (n : Nat) (above : List Slot) :
    Coupled (Resized k) (popMany n above) (popMany n above) := by
  induction n generalizing above with
  | zero => exact .pure above
  | succ n ih => exact coupled_pop.bind fun s => ih (s :: above)

end Context

namespace Run

variable {α : Type} (o : Nat)

/-- What is the same in a larger context is the same in a larger machine. -/
theorem resized_onContext {x : EStateM Fault Context α} (hx : Coupled (Context.Resized k) x x) :
    Coupled (Machine.Resized (σ := σ) k) (onContext o x) (onContext o x) := by
  rintro ⟨c, s⟩ _ ⟨hk, rfl⟩
  have hx := hx ⟨hk, rfl⟩
  simp only [Machine.resize, onContext]
  generalize x c = r at hx ⊢
  generalize x (c.resize k) = r' at hx ⊢
  cases hx with
  | ok h => exact .ok ⟨h.1, by rw [h.2]; rfl⟩
  | error h => exact .error ⟨h.1, by rw [h.2]; rfl⟩

/-- The host does not see more room if it does not look at it. -/
theorem resized_onHost (cause : String → OperationError) {x : View → EStateM String σ α}
    (hx : ∀ view k, x (view.resize k) = x view) :
    Coupled (Machine.Resized k) (onHost o cause x) (onHost o cause x) := by
  rintro ⟨c, s⟩ _ ⟨hk, rfl⟩
  have hview : x (c.resize k).view = x c.view := hx c.view k
  simp only [Machine.resize, onHost, hview]
  rcases x c.view s with ⟨a, s'⟩ | ⟨reason, s'⟩
  · exact .ok ⟨hk, rfl⟩
  · exact .error ⟨hk, rfl⟩

/-- A variable that does not look at the capacities is read alike. -/
theorem resized_read {x : Variable σ} (hx : ∀ view k, x.read (view.resize k) = x.read view) :
    Coupled (Machine.Resized k) (read x) (read x) := by
  rintro ⟨c, s⟩ _ ⟨hk, rfl⟩
  have hview : x.read (c.resize k).view = x.read c.view := hx c.view k
  simp only [Machine.resize, read, hview]
  exact .ok ⟨hk, rfl⟩

/-- What a slot refers to does not depend on the capacities. -/
theorem resized_value (p : Program σ) (slot : Slot) :
    Coupled (Machine.Resized k) (value p o slot) (value p o slot) := by
  rintro ⟨c, s⟩ _ ⟨hk, rfl⟩
  have hlookup : p.lookup (c.resize k) slot = p.lookup c slot := by cases slot <;> rfl
  simp only [Machine.resize, value, hlookup]
  split
  · exact .ok ⟨hk, rfl⟩
  · exact .error ⟨hk, rfl⟩

theorem resized_result (x : Except OperationError Value) :
    Coupled (Machine.Resized (σ := σ) k) (result o x) (result o x) := by
  rintro m _ ⟨hk, rfl⟩
  cases x with
  | ok v => exact .ok ⟨hk, rfl⟩
  | error e => exact .error ⟨hk, rfl⟩

end Run

/-! ## Operations that may run out of room -/

namespace Context

variable {c : Context}

theorem depth_lt_resize (hk : c.capacities ≤ k) (hroom : c.depth < c.capacities.stack) :
    (c.resize k).depth < (c.resize k).capacities.stack :=
  Nat.lt_of_lt_of_le hroom hk.1

theorem size_lt_resize (hk : c.capacities ≤ k) (hcell : c.heap.size < c.capacities.heap) :
    (c.resize k).heap.size < (c.resize k).capacities.heap :=
  Nat.lt_of_lt_of_le hcell hk.2

end Context

/-- The second of two computations, on a machine of larger capacities, does the same as the
    first one, unless that runs out of room; the host is then left as the second one leaves
    it. -/
def Outlasts {α : Type} (k : Capacities) (o : Nat) (x x' : Run σ α) : Prop :=
  ∀ ⦃m m' : Machine σ⦄, m.Resized k m' →
    Matched (Machine.Resized k) (x m) (x' m') ∨
      ∃ f m₁, x m = .error ⟨o, .fault f⟩ m₁ ∧ f.IsExhaustion ∧ (stateLeft (x' m')).host = m₁.host

namespace Outlasts

variable {α β : Type} {o : Nat}

/-- What is done in the same way, and then outlasts, outlasts. -/
theorem bind {x x' : Run σ α} {f f' : α → Run σ β} (hx : Coupled (Machine.Resized k) x x')
    (hf : ∀ a, Outlasts k o (f a) (f' a)) : Outlasts k o (x >>= f) (x' >>= f') := by
  intro m m' h
  have hx := hx h
  simp only [Bind.bind, EStateM.bind]
  generalize x m = r at hx ⊢
  generalize x' m' = r' at hx ⊢
  cases hx with
  | ok h => exact hf _ h
  | error h => exact .inl (.error h)

/-- Where the smaller stack has room for a slot, so has the larger one. -/
theorem push (o : Nat) (slot : Slot) :
    Outlasts (σ := σ) k o (Run.onContext o (Context.push slot))
      (Run.onContext o (Context.push slot)) := by
  rintro ⟨c, s⟩ _ ⟨hk, rfl⟩
  have hhost := Run.keeps_host_onContext o id (Context.push slot) ((Machine.mk c s).resize k)
  simp only [Machine.resize, Run.onContext_push] at hhost ⊢
  by_cases hroom : c.depth < c.capacities.stack
  · rw [if_pos hroom, if_pos (Context.depth_lt_resize hk hroom)]
    exact .inl (.ok ⟨hk, rfl⟩)
  · rw [if_neg hroom]
    exact .inr ⟨_, _, rfl, .stack _, hhost⟩

/-- Where there is room for a value in the smaller context, there is in the larger one; a cell
    may be left of one that did not fit on the stack. -/
theorem pushValue (o : Nat) (v : Value) :
    Outlasts (σ := σ) k o (Run.onContext o (Context.pushValue v))
      (Run.onContext o (Context.pushValue v)) := by
  rintro ⟨c, s⟩ _ ⟨hk, rfl⟩
  have hhost := Run.keeps_host_onContext o id (Context.pushValue v) ((Machine.mk c s).resize k)
  simp only [Machine.resize, Run.onContext_pushValue] at hhost ⊢
  by_cases hcell : c.heap.size < c.capacities.heap
  · rw [if_pos hcell]
    by_cases hroom : c.depth < c.capacities.stack
    · rw [if_pos hroom, if_pos (Context.size_lt_resize hk hcell),
        if_pos (Context.depth_lt_resize hk hroom)]
      exact .inl (.ok ⟨hk, rfl⟩)
    · rw [if_neg hroom]
      exact .inr ⟨_, _, rfl, .stack _, hhost⟩
  · rw [if_neg hcell]
    exact .inr ⟨_, _, rfl, .heap _, hhost⟩

end Outlasts

/-! ## Instructions -/

namespace Program

open Run

/-- An instruction whose variables and functions do not look at the capacities does the same
    with more room, unless it has run out of it. -/
theorem outlasts_step (p : Program σ) (pc : Nat) {i : Instruction σ} (hi : i.op.IgnoresCapacities) :
    Outlasts k i.offset (p.step pc i) (p.step pc i) := by
  obtain ⟨o, op⟩ := i
  have hpop := resized_onContext (σ := σ) (k := k) o Context.coupled_pop
  have hvalue := resized_value (k := k) o p
  cases op with
  | const v => exact .push o _
  | load b => exact .bind (resized_read hi) fun v => .pushValue o v
  | store b =>
    exact .bind hpop fun s => .bind (hvalue s) fun v =>
      .bind (resized_onHost o _ fun view k => hi view k v) fun _ => .push o s
  | binary op =>
    exact .bind hpop fun right => .bind hpop fun left => .bind (hvalue left) fun x =>
      .bind (hvalue right) fun y => .bind (resized_result o _) fun v => .pushValue o v
  | unary op =>
    exact .bind hpop fun s => .bind (hvalue s) fun x => .bind (resized_result o _) fun v =>
      .pushValue o v
  | call name f argc receiver =>
    exact .bind (resized_onContext o (Context.coupled_popMany argc [])) fun slots =>
      .bind (.mapM hvalue slots) fun args =>
        .bind (resized_onHost o _ fun view k => hi view k args) fun v => .pushValue o v

variable (p : Program σ)

/-- Two runs of instructions, the second with larger capacities: they execute the same and end
    in the same way, or the first one runs out of room at an instruction that the second one gets
    to in the same way. -/
inductive OutlastsAll (p : Program σ) (k : Capacities) :
    List (Executed σ) → EStateM.Result Error (Machine σ) Unit →
      List (Executed σ) → EStateM.Result Error (Machine σ) Unit → Prop
  | behind {xs : List (Executed σ)} {m : Machine σ} :
      m.context.capacities ≤ k →
      OutlastsAll p k xs (.ok () m) (xs.map (·.resize k)) (.ok () (m.resize k))
  | fails {xs : List (Executed σ)} {x : Executed σ} {e : Error} {m : Machine σ} :
      p.LastFails xs x e m →
      p.step x.pc x.instruction (x.before.resize k) = .error e (m.resize k) →
      OutlastsAll p k xs (.error e m) (xs.map (·.resize k)) (.error e (m.resize k))
  | exhausted {xs more : List (Executed σ)} {x : Executed σ} {f : Fault} {m : Machine σ}
      {r' : EStateM.Result Error (Machine σ) Unit} :
      p.LastFails xs x ⟨x.instruction.offset, .fault f⟩ m → f.IsExhaustion →
      (stateLeft (p.step x.pc x.instruction (x.before.resize k))).host = m.host →
      OutlastsAll p k xs (.error ⟨x.instruction.offset, .fault f⟩ m)
        (xs.map (·.resize k) ++ more) r'

/-- An instruction that both runs execute comes before what they end with. -/
theorem OutlastsAll.cons {xs xs' : List (Executed σ)}
    {r r' : EStateM.Result Error (Machine σ) Unit} (h : p.OutlastsAll k xs r xs' r')
    (y : Executed σ) : p.OutlastsAll k (y :: xs) r (y.resize k :: xs') r' := by
  cases h with
  | behind hm => exact .behind hm
  | fails hx hx' => exact .fails (hx.cons y) hx'
  | exhausted hx hf hhost => exact .exhausted (hx.cons y) hf hhost

/-- Instructions that are executed in a smaller context are executed in a larger one. -/
theorem outlasts_steps {is : List (Instruction σ)} (his : ∀ i ∈ is, i.op.IgnoresCapacities)
    {pc : Nat} (hat : p.At pc is) {m : Machine σ} (hm : m.context.capacities ≤ k) :
    p.OutlastsAll k (p.traceFrom pc m is) (p.steps pc is m) (p.traceFrom pc (m.resize k) is)
      (p.steps pc is (m.resize k)) := by
  induction is generalizing pc m with
  | nil => exact .behind hm
  | cons i is ih =>
    have hcons : p.At pc ([i] ++ is) := hat
    have hlast {e : Error} {m₁ : Machine σ} (hr : p.step pc i m = .error e m₁) :
        p.LastFails [⟨pc, i, m⟩] ⟨pc, i, m⟩ e m₁ :=
      ⟨rfl, hcons.left.getElem?, hr⟩
    have hi := p.outlasts_step pc (his i List.mem_cons_self) ⟨hm, rfl⟩
    rw [traceFrom, traceFrom, steps]
    simp only [bind, EStateM.bind]
    rcases hi with hi | ⟨f, m₁, hfails, hf, hhost⟩
    · generalize hr : p.step pc i m = r at hi hlast ⊢
      generalize hr' : p.step pc i (m.resize k) = r' at hi ⊢
      cases hi with
      | error h =>
        obtain ⟨_, rfl⟩ := h
        exact .fails (hlast rfl) hr'
      | ok h =>
        obtain ⟨hm₁, rfl⟩ := h
        exact (ih (fun j hj => his j (List.mem_cons_of_mem _ hj)) hcons.right hm₁).cons _
          ⟨pc, i, m⟩
    · rw [hfails]
      exact .exhausted (hlast hfails) hf hhost

/-! ## Runs -/

/-- The result is taken off in the same way. -/
theorem resized_finish : Formula.Coupled (Machine.Resized k) p.finish p.finish := by
  rintro m _ ⟨hk, rfl⟩
  simp only [finish]
  by_cases hdepth : m.context.depth = 1
  · rw [if_pos hdepth, if_pos (by exact hdepth)]
    exact ((resized_onContext _ Context.coupled_pop).bind (resized_value _ p)) ⟨hk, rfl⟩
  · rw [if_neg hdepth, if_neg (by exact hdepth)]
    exact .error ⟨hk, rfl⟩

/-- Taking the value that is left needs no room. -/
theorem not_isExhaustion_of_finish {m m' : Machine σ} {o : Nat} {f : Fault}
    (h : p.finish m = .error ⟨o, .fault f⟩ m') : ¬ f.IsExhaustion := by
  obtain ⟨⟨_ | ⟨slot, _ | _⟩, heap, capacities, data⟩, s⟩ := m
  · cases h
    rintro ⟨⟩
  · have hvalue : value p p.lastOffset slot ⟨⟨[], heap, capacities, data⟩, s⟩ =
        .error ⟨o, .fault f⟩ m' := h
    rw [value] at hvalue
    split at hvalue
    · cases hvalue
    · next hlookup =>
      cases hvalue
      rw [eq_danglingSlot_of_lookup hlookup]
      rintro ⟨⟩
  · cases h
    rintro ⟨⟩

variable {p}

/-- More room never changes how a run ends. If a run ends with something else than a lack of
    room, it executes the same in every larger context and ends there in the same way, and
    leaves the same. If it runs out of room at an instruction, a run in a larger context
    executes the same until there, that instruction included, from the same machines but for
    the capacities; and what that instruction asks of the host before it runs out of room is the
    same, too. -/
theorem run_resize (hp : p.IgnoresCapacities) {c c' : Context}
    (hcapacities : c.capacities ≤ c'.capacities) (hdata : c'.data = c.data) (s : σ) :
    ((∀ o f, (p.run c s).result = .error ⟨o, .fault f⟩ → ¬ f.IsExhaustion) →
      (p.run c' s).result = (p.run c s).result ∧ (p.run c' s).host = (p.run c s).host ∧
        (p.run c' s).context = (p.run c s).context.resize c'.capacities ∧
        p.trace c' s = (p.trace c s).map (·.resize c'.capacities)) ∧
      ∀ o f, (p.run c s).result = .error ⟨o, .fault f⟩ → f.IsExhaustion →
        ∃ x m, p.LastFails (p.trace c s) x ⟨o, .fault f⟩ m ∧ m.host = (p.run c s).host ∧
          (p.trace c s).map (·.resize c'.capacities) <+: p.trace c' s ∧
          (stateLeft (p.step x.pc x.instruction (x.before.resize c'.capacities))).host =
            m.host := by
  have hreset : c'.reset = c.reset.resize c'.capacities := by
    rw [Context.reset, hdata]
    rfl
  -- The larger run does what the smaller one does, as long as that goes on.
  have hall : p.OutlastsAll c'.capacities (p.trace c s) (p.steps 0 p.code.toList ⟨c.reset, s⟩)
      (p.trace c' s) (p.steps 0 p.code.toList ⟨c'.reset, s⟩) := by
    rw [trace, trace, hreset]
    exact p.outlasts_steps hp p.at_zero hcapacities
  generalize p.trace c s = xs at hall ⊢
  generalize p.trace c' s = xs' at hall ⊢
  generalize hr : p.steps 0 p.code.toList ⟨c.reset, s⟩ = r at hall
  generalize hr' : p.steps 0 p.code.toList ⟨c'.reset, s⟩ = r' at hall
  cases hall with
  | @behind m hm =>
    -- Both get behind the code, with the same on the stack.
    have hrun : p.execute ⟨c.reset, s⟩ = p.finish m := by
      simp only [execute, bind, EStateM.bind, hr]
    have hrun' : p.execute ⟨c'.reset, s⟩ = p.finish (m.resize c'.capacities) := by
      simp only [execute, bind, EStateM.bind, hr']
    have hfinish := p.resized_finish ⟨hm, rfl⟩
    have hexhaustion := @not_isExhaustion_of_finish _ p m
    simp only [run, hrun, hrun']
    generalize p.finish m = r at hfinish hexhaustion
    generalize p.finish (m.resize c'.capacities) = r' at hfinish
    cases hfinish with
    | ok h =>
      obtain ⟨_, rfl⟩ := h
      exact ⟨fun _ => by simp [Machine.resize], fun o f hf => by cases hf⟩
    | error h =>
      obtain ⟨_, rfl⟩ := h
      refine ⟨fun _ => by simp [Machine.resize], fun o f hf h => ?_⟩
      cases hf
      exact absurd h (hexhaustion rfl)
  | @fails x e m hx hx' =>
    -- Both fail at the same instruction.
    rw [run_of_steps_error hr, run_of_steps_error hr']
    refine ⟨fun _ => ⟨rfl, rfl, rfl, rfl⟩, fun o f hf _ => ?_⟩
    cases hf
    exact ⟨x, m, hx, rfl, List.prefix_refl _, by rw [hx']; rfl⟩
  | @exhausted more x f m _ hx hf hhost =>
    -- Only the smaller one fails.
    rw [run_of_steps_error hr]
    refine ⟨fun h => absurd hf (h _ f rfl), fun o f' hf' _ => ?_⟩
    cases hf'
    exact ⟨x, m, hx, rfl, List.prefix_append .., hhost⟩

/-- Two variables are compared. With one cell there is no room for the second of them, which
    has been read, and with two none for the result; with three the run ends with a value, and
    so it does with more. -/
theorem run_resize_comparison :
    let x : Variable Nat := { kind := fun _ => .text, read := fun _ n => (.text "x", n + 1) }
    let p : Program Nat := ⟨#[⟨0, .load ⟨"a", x⟩⟩, ⟨5, .load ⟨"b", x⟩⟩,
      ⟨2, .binary (.binary .equal)⟩]⟩
    let narrow : Context := { capacities := ⟨2, 1⟩ }
    let wide : Context := { capacities := ⟨2, 3⟩ }
    p.IgnoresCapacities ∧ narrow.capacities ≤ wide.capacities ∧
      wide.capacities ≤ ({} : Context).capacities ∧
      (p.run narrow 0).result = .error ⟨5, .fault (.heapExhausted 1)⟩ ∧
      (∃ y m, p.LastFails (p.trace narrow 0) y ⟨5, .fault (.heapExhausted 1)⟩ m ∧ m.host = 2 ∧
        (p.trace narrow 0).map (·.resize ⟨2, 3⟩) <+: p.trace wide 0) ∧
      (p.run wide 0).result = .ok (.ofBool true) ∧ (p.run {} 0).result = .ok (.ofBool true) := by
  intro x p narrow wide
  have hp : p.IgnoresCapacities := by
    intro i hi
    simp only [p, List.mem_cons, List.not_mem_nil, or_false] at hi
    rcases hi with rfl | rfl | rfl
    · exact fun _ _ => rfl
    · exact fun _ _ => rfl
    · trivial
  have hnarrow : narrow.capacities ≤ wide.capacities := ⟨by decide, by decide⟩
  have hwide : wide.capacities ≤ ({} : Context).capacities := ⟨by decide, by decide⟩
  have hresult : (p.run wide 0).result = .ok (.ofBool true) := rfl
  obtain ⟨y, m, hlast, hhost, hprefix, -⟩ :=
    (run_resize hp hnarrow rfl 0).2 5 (.heapExhausted 1) rfl (.heap 1)
  have hlarge := (run_resize hp hwide rfl 0).1 fun o f h => by rw [hresult] at h; cases h
  exact ⟨hp, hnarrow, hwide, rfl, ⟨y, m, hlast, hhost, hprefix⟩, hresult,
    hlarge.1.trans hresult⟩

end Program

end Formula
