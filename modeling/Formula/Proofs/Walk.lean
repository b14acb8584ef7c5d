import Formula.Machine.Walk
import Formula.Proofs.Preservation

/-!
# Walks tell how runs end

A walk through a program knows nothing of values and nothing of the host, and yet it tells
how every run of the program ends that no operation stops, whoever wrote the program.

* What lies on the stack refers to something (`Program.Consistent`): to a constant that
  stands in the program or to a cell that is in use. Every instruction keeps this, so that
  nothing is looked up in vain.
* An instruction takes a run from one level of the context to the next as it takes the walk,
  or ends both with the same fault, unless its operation fails (`follows_step`).
* So a run gets as far as the walk does (`follows_steps`), comes by what it comes by
  (`exists_walk_of_mem_traceFrom`), and leaves on the stack what it has counted
  (`run_follows_walk`).

What becomes of attempts to run, which may end for want of room, follows in
`Formula.Proofs.Reservation`.
-/

namespace Formula

variable {σ : Type}

/-- How full a context is. -/
def Context.level (c : Context) : Level := ⟨c.depth, c.heap.size⟩

/-- The faults of a walk are those of a stack or a heap that is too small, or of a stack that
    is too short. -/
theorem Op.cases_of_walk {op : Op σ} {c : Capacities} {l : Level} {f : Fault}
    (h : op.walk c l = .error f) :
    f = .stackUnderflow ∨ f = .stackOverflow c.stack ∨ f = .heapExhausted c.heap := by
  have hpush {l : Level} (h : l.push c = .error f) : f = .stackOverflow c.stack := by
    rw [Level.push] at h
    split at h <;> cases h
    rfl
  have hpushValue {l : Level} (h : l.pushValue c = .error f) :
      f = .stackOverflow c.stack ∨ f = .heapExhausted c.heap := by
    rw [Level.pushValue] at h
    split at h
    · exact .inl (hpush h)
    · cases h
      exact .inr rfl
  have hpop {n : Nat} {l : Level} (h : l.pop n = .error f) : f = .stackUnderflow := by
    rw [Level.pop] at h
    split at h <;> cases h
    rfl
  cases op with
  | const => exact .inr (.inl (hpush h))
  | load => exact .inr (hpushValue h)
  | store =>
    rcases of_bind_eq_error h with h | ⟨_, _, h⟩
    · exact .inl (hpop h)
    · exact .inr (.inl (hpush h))
  | binary | unary | call =>
    rcases of_bind_eq_error h with h | ⟨_, _, h⟩
    · exact .inl (hpop h)
    · exact .inr (hpushValue h)

namespace Program

/-! ## Contexts in which nothing dangles -/

/-- The stack has no more entries than it may have, and all of them refer to values. -/
structure Consistent (p : Program σ) (c : Context) : Prop where
  depth_le : c.depth ≤ c.capacities.stack
  refers : ∀ slot ∈ c.stack, ∃ v, p.lookup { heap := c.heap } slot = .ok v

variable {p : Program σ} {c : Context}

/-- There is nothing on an empty stack that could dangle. -/
theorem consistent_reset (p : Program σ) (c : Context) : p.Consistent c.reset :=
  ⟨Nat.zero_le _, fun _ h => absurd h List.not_mem_nil⟩

/-- Slots refer to values together if each of them does. -/
theorem exists_refers_iff {heap : Array Value} {slots : List Slot} :
    (∃ vs, p.Refers heap slots vs) ↔
      ∀ slot ∈ slots, ∃ v, p.lookup { heap := heap } slot = .ok v := by
  induction slots with
  | nil => exact ⟨fun _ _ h => absurd h List.not_mem_nil, fun _ => ⟨[], .nil⟩⟩
  | cons slot slots ih =>
    rw [List.forall_mem_cons, ← ih]
    constructor
    · rintro ⟨_, hv | ⟨hv, hvs⟩⟩
      exact ⟨⟨_, hv⟩, _, hvs⟩
    · rintro ⟨⟨v, hv⟩, vs, hvs⟩
      exact ⟨v :: vs, .cons hv hvs⟩

/-- A stack that is deep enough has so many slots on it that refer to values. -/
theorem Consistent.exists_put (h : p.Consistent c) {n : Nat} (hn : n ≤ c.depth) :
    ∃ (base : Context) (slots : List Slot) (vs : List Value),
      c = base.put slots base.heap ∧ slots.length = n ∧ p.Refers base.heap slots vs ∧
        p.Consistent base := by
  have hslots : ∀ slot ∈ (c.stack.take n).reverse, slot ∈ c.stack := fun slot hslot =>
    List.mem_of_mem_take (List.mem_reverse.1 hslot)
  obtain ⟨vs, hvs⟩ := exists_refers_iff.2 fun slot hslot => h.refers slot (hslots slot hslot)
  refine ⟨{ c with stack := c.stack.drop n }, (c.stack.take n).reverse, vs, ?_, ?_, hvs,
    ⟨?_, fun slot hslot => h.refers slot (List.mem_of_mem_drop hslot)⟩⟩
  · rw [Context.put, List.reverse_reverse, List.take_append_drop]
  · rw [List.length_reverse, List.length_take]
    exact Nat.min_eq_left hn
  · exact Nat.le_trans (by simp [Context.depth]) h.depth_le

/-- A stack that is not empty has a slot on top that refers to a value. -/
theorem Consistent.exists_put_one (h : p.Consistent c) (hn : 1 ≤ c.depth) :
    ∃ (base : Context) (slot : Slot) (v : Value),
      c = base.put [slot] base.heap ∧ p.Refers base.heap [slot] [v] ∧ p.Consistent base := by
  obtain ⟨base, slots, vs, hput, hlength, hrefers, hbase⟩ := h.exists_put hn
  obtain ⟨slot, rfl⟩ := List.length_eq_one_iff.1 hlength
  obtain ⟨v, rfl⟩ := List.length_eq_one_iff.1 (hrefers.length_eq.symm.trans hlength)
  exact ⟨base, slot, v, hput, hrefers, hbase⟩

/-- Slots that refer to values can be put on a stack that has room for them. -/
theorem Consistent.put (h : p.Consistent c) {slots : List Slot} {vs : List Value}
    {heap : Array Value} (hgrown : Grown c.heap heap) (hrefers : p.Refers heap slots vs)
    (hroom : c.depth + slots.length ≤ c.capacities.stack) : p.Consistent (c.put slots heap) where
  depth_le := by rwa [Context.depth_put, Context.put_capacities]
  refers slot hslot := by
    rcases List.mem_append.1 hslot with hslot | hslot
    · exact exists_refers_iff.1 ⟨vs, hrefers⟩ slot (List.mem_reverse.1 hslot)
    · obtain ⟨v, hv⟩ := h.refers slot hslot
      exact ⟨v, lookup_grown hgrown hv⟩

/-! ## Instructions -/

/-- How an instruction at `offset` ends, told from how its step of the walk ends: as the walk
    says, unless its operation fails. -/
inductive Follows (p : Program σ) (capacities : Capacities) (offset : Nat) :
    Except Fault Level → EStateM.Result Error (Machine σ) Unit → Prop
  | ok {c : Context} {s : σ} :
      p.Consistent c → c.capacities = capacities →
      Follows p capacities offset (.ok c.level) (.ok () ⟨c, s⟩)
  | fault {f : Fault} {m : Machine σ} :
      Follows p capacities offset (.error f) (.error ⟨offset, .fault f⟩ m)
  | operation {x : Except Fault Level} {e : OperationError} {m : Machine σ} :
      Follows p capacities offset x (.error ⟨offset, .operation e⟩ m)

variable (o : Nat) (s : σ)

/-- A slot that refers to a value is pushed as the walk counts it. -/
theorem follows_push (h : p.Consistent c) {slot : Slot} {v : Value}
    (hv : p.Refers c.heap [slot] [v]) :
    p.Follows c.capacities o (c.level.push c.capacities)
      (Run.onContext o (Context.push slot) ⟨c, s⟩) := by
  rw [Run.onContext_push, Level.push]
  by_cases hroom : c.depth < c.capacities.stack
  · rw [if_pos hroom, if_pos (by exact hroom)]
    have hput : p.Follows c.capacities o _ (.ok () ⟨_, s⟩) := .ok (h.put (.refl _) hv hroom) rfl
    rwa [Context.level, Context.depth_put] at hput
  · rw [if_neg hroom, if_neg (by exact hroom)]
    exact .fault

/-- A value is pushed as the walk counts it, first its cell and then its entry. -/
theorem follows_pushValue (h : p.Consistent c) (v : Value) :
    p.Follows c.capacities o (c.level.pushValue c.capacities)
      (Run.onContext o (Context.pushValue v) ⟨c, s⟩) := by
  rw [Run.onContext_pushValue, Level.pushValue]
  by_cases hcell : c.heap.size < c.capacities.heap
  · rw [if_pos hcell, if_pos (by exact hcell), Level.push]
    by_cases hroom : c.depth < c.capacities.stack
    · rw [if_pos hroom, if_pos (by exact hroom)]
      have hput : p.Follows c.capacities o _ (.ok () ⟨_, s⟩) :=
        .ok (h.put (grown_push _ v) (refers_push ..) hroom) rfl
      rwa [Context.level, Context.depth_put, Context.put_heap, Array.size_push] at hput
    · rw [if_neg hroom, if_neg (by exact hroom)]
      exact .fault
  · rw [if_neg hcell, if_neg (by exact hcell)]
    exact .fault

theorem level_pop_put (base : Context) (slots : List Slot) :
    (base.put slots base.heap).level.pop slots.length = .ok base.level := by
  simp [Context.level, Level.pop]

/-- An instruction that takes slots off the stack and puts its result on it. -/
theorem follows_of_performs {base : Context} (h : p.Consistent base) {pc : Nat}
    {i : Instruction σ} {slots : List Slot} {r : EStateM.Result Error σ Value}
    {as : List (Action σ)} (hi : p.Performs base pc i slots base.heap s r as) :
    p.Follows base.capacities i.offset
      (do (← (base.put slots base.heap).level.pop slots.length).pushValue base.capacities)
      (p.step pc i ⟨base.put slots base.heap, s⟩) := by
  rw [hi.step, level_pop_put]
  rcases r with ⟨v, s'⟩ | ⟨e, s'⟩
  · exact follows_pushValue i.offset s' h v
  · obtain ⟨x, rfl⟩ := hi.failure rfl
    exact .operation

/-- An instruction that takes more slots off the stack than there are. -/
theorem follows_underflow {n : Nat} (hn : ¬ n ≤ c.depth) {f : Level → Except Fault Level}
    {r : EStateM.Result Error (Machine σ) Unit}
    (hr : ∃ m, r = .error ⟨o, .fault .stackUnderflow⟩ m) :
    p.Follows c.capacities o (c.level.pop n >>= f) r := by
  have hlevel : c.level.pop n = .error .stackUnderflow := if_neg hn
  obtain ⟨m, rfl⟩ := hr
  rw [hlevel]
  exact .fault

/-- More slots than there are cannot be taken off. -/
theorem onContext_popMany_underflow {n : Nat} (hn : ¬ n ≤ c.depth) (above : List Slot) :
    ∃ m, Run.onContext o (Context.popMany n above) (⟨c, s⟩ : Machine σ) =
      .error ⟨o, .fault .stackUnderflow⟩ m := by
  induction n generalizing c above with
  | zero => exact absurd (Nat.zero_le _) hn
  | succ n ih =>
    obtain ⟨_ | ⟨slot, below⟩, heap, capacities, data⟩ := c
    · exact ⟨_, rfl⟩
    · exact @ih ⟨below, heap, capacities, data⟩ (fun h => hn (Nat.succ_le_succ h)) (slot :: above)

/-- A step goes along with the step of the walk. -/
theorem follows_step (h : p.Consistent c) {pc : Nat} {i : Instruction σ} (hat : p.At pc [i]) :
    p.Follows c.capacities i.offset (i.op.walk c.capacities c.level) (p.step pc i ⟨c, s⟩) := by
  obtain ⟨o, op⟩ := i
  cases op with
  | const v => exact follows_push o s h (.cons (hat.const _) .nil)
  | load b => exact follows_of_performs s h (performs_load pc o s b)
  | store b =>
    by_cases hn : 1 ≤ c.depth
    · obtain ⟨base, slot, v, rfl, hrefers, hbase⟩ := h.exists_put_one hn
      -- The entry that is taken leaves room for itself.
      have hroom : base.depth < base.capacities.stack := by
        have hdepth := h.depth_le
        rw [Context.depth_put] at hdepth
        exact hdepth
      have hpush := @follows_push _ p base o
      simp only [Run.onContext_push, if_pos hroom] at hpush
      rw [step_store o b hrefers hroom, Op.walk, ← List.length_singleton, level_pop_put,
        Meaning.host]
      rcases b.target.write _ v s with ⟨_, s'⟩ | ⟨reason, s'⟩
      · exact hpush s' hbase hrefers
      · exact .operation
    · obtain ⟨_ | ⟨slot, below⟩, heap, capacities, data⟩ := c
      · exact follows_underflow o hn ⟨_, rfl⟩
      · exact absurd (Nat.succ_le_succ (Nat.zero_le _)) hn
  | binary op =>
    by_cases hn : 2 ≤ c.depth
    · obtain ⟨base, slots, vs, rfl, hlength, hrefers, hbase⟩ := h.exists_put hn
      obtain ⟨left, right, rfl⟩ := List.length_eq_two.1 hlength
      obtain ⟨v, w, rfl⟩ := List.length_eq_two.1 (hrefers.length_eq.symm.trans hlength)
      exact follows_of_performs s hbase (performs_binary pc o s op hrefers)
    · obtain ⟨_ | ⟨right, _ | ⟨left, below⟩⟩, heap, capacities, data⟩ := c
      · exact follows_underflow o hn ⟨_, rfl⟩
      · exact follows_underflow o hn ⟨_, rfl⟩
      · exact absurd (Nat.succ_le_succ (Nat.succ_le_succ (Nat.zero_le _))) hn
  | unary op =>
    by_cases hn : 1 ≤ c.depth
    · obtain ⟨base, slot, v, rfl, hrefers, hbase⟩ := h.exists_put_one hn
      exact follows_of_performs s hbase (performs_unary pc o s op hrefers)
    · obtain ⟨_ | ⟨slot, below⟩, heap, capacities, data⟩ := c
      · exact follows_underflow o hn ⟨_, rfl⟩
      · exact absurd (Nat.succ_le_succ (Nat.zero_le _)) hn
  | call name f argc receiver =>
    by_cases hn : argc ≤ c.depth
    · obtain ⟨base, slots, vs, rfl, rfl, hrefers, hbase⟩ := h.exists_put hn
      exact follows_of_performs s hbase (performs_call pc o s name f receiver hrefers)
    · obtain ⟨m, hpop⟩ := onContext_popMany_underflow o s hn []
      refine follows_underflow o hn ⟨m, ?_⟩
      simp only [step, bind, EStateM.bind, hpop]

/-! ## Runs -/

/-- A walk meets its fault at an instruction that it has got to. -/
theorem le_of_walkFrom {capacities : Capacities} {pc k o : Nat} {l : Level} {f : Fault}
    {is : List (Instruction σ)} (h : walkFrom capacities pc l is = .faultAt k o f) : pc ≤ k := by
  induction is generalizing pc l with
  | nil => cases h
  | cons i is ih =>
    rw [walkFrom] at h
    split at h
    · exact Nat.le_of_succ_le (ih h)
    · cases h
      exact Nat.le_refl _

/-- An instruction that stands in the program is found at its place. -/
theorem At.getElem? {pc : Nat} {i : Instruction σ} (h : p.At pc [i]) : p.code[pc]? = some i := by
  obtain ⟨rest, hrest⟩ := h
  have hhead := congrArg (·[0]?) hrest
  simpa using hhead.symm

/-- Of the executed instructions, `x` is the last, and it fails with the error `e`. -/
structure LastFails (p : Program σ) (xs : List (Executed σ)) (x : Executed σ) (e : Error)
    (m : Machine σ) : Prop where
  last : xs.getLast? = some x
  stands : p.code[x.pc]? = some x.instruction
  fails : p.step x.pc x.instruction x.before = .error e m

/-- The last instruction is that one still when another one is executed before. -/
theorem LastFails.cons {xs : List (Executed σ)} {x : Executed σ} {e : Error} {m : Machine σ}
    (h : p.LastFails xs x e m) (y : Executed σ) : p.LastFails (y :: xs) x e m where
  last := by
    rw [List.getLast?_cons, h.last]
    rfl
  stands := h.stands
  fails := h.fails

/-- How instructions end, told from how the walk through them ends: behind all of them, at the
    level of the walk; with the fault of the walk, at the instruction where the walk meets it;
    or as an operation fails, that of an instruction not behind the one where the walk meets
    its fault, if it meets one. -/
inductive FollowsAll (p : Program σ) (capacities : Capacities) :
    WalkEnd → List (Executed σ) → EStateM.Result Error (Machine σ) Unit → Prop
  | behind {c : Context} {s : σ} {xs : List (Executed σ)} :
      p.Consistent c → FollowsAll p capacities (.behind c.level) xs (.ok () ⟨c, s⟩)
  | fault {x : Executed σ} {f : Fault} {xs : List (Executed σ)} {m : Machine σ} :
      p.LastFails xs x ⟨x.instruction.offset, .fault f⟩ m →
      (f = .stackUnderflow ∨ f = .stackOverflow capacities.stack ∨
        f = .heapExhausted capacities.heap) →
      FollowsAll p capacities (.faultAt x.pc x.instruction.offset f) xs
        (.error ⟨x.instruction.offset, .fault f⟩ m)
  | operation {w : WalkEnd} {x : Executed σ} {e : OperationError} {xs : List (Executed σ)}
      {m : Machine σ} :
      p.LastFails xs x ⟨x.instruction.offset, .operation e⟩ m →
      (∀ pc o f, w = .faultAt pc o f → x.pc ≤ pc) →
      FollowsAll p capacities w xs (.error ⟨x.instruction.offset, .operation e⟩ m)

/-- Following a walk does not depend on what was executed before. -/
theorem FollowsAll.cons {capacities : Capacities} {w : WalkEnd} {xs : List (Executed σ)}
    {r : EStateM.Result Error (Machine σ) Unit} (h : p.FollowsAll capacities w xs r)
    (y : Executed σ) : p.FollowsAll capacities w (y :: xs) r := by
  cases h with
  | behind hc => exact .behind hc
  | fault hx hf => exact .fault (hx.cons y) hf
  | operation hx hle => exact .operation (hx.cons y) hle

/-- Instructions go along with the walk through them. -/
theorem follows_steps {is : List (Instruction σ)} {pc : Nat} (h : p.Consistent c)
    (hat : p.At pc is) :
    p.FollowsAll c.capacities (walkFrom c.capacities pc c.level is) (p.traceFrom pc ⟨c, s⟩ is)
      (p.steps pc is ⟨c, s⟩) := by
  induction is generalizing pc c s with
  | nil => exact .behind h
  | cons i is ih =>
    have hcons : p.At pc ([i] ++ is) := hat
    have hhead : p.At pc [i] := hcons.left
    have hrest : p.At (pc + 1) is := hcons.right
    have hi := follows_step s h hhead
    have hlast {e : Error} {m : Machine σ} (hr : p.step pc i ⟨c, s⟩ = .error e m) :
        p.LastFails [⟨pc, i, ⟨c, s⟩⟩] ⟨pc, i, ⟨c, s⟩⟩ e m :=
      ⟨rfl, hhead.getElem?, hr⟩
    rw [traceFrom, steps]
    simp only [bind, EStateM.bind]
    generalize hw : i.op.walk c.capacities c.level = w at hi
    generalize p.step pc i ⟨c, s⟩ = r at hi hlast ⊢
    cases hi with
    | @ok c' s' hc' hcapacities =>
      have hall := ih s' hc' hrest
      rw [hcapacities] at hall
      rw [walkFrom, hw]
      exact hall.cons _
    | fault =>
      rw [walkFrom, hw]
      exact .fault (hlast rfl) (Op.cases_of_walk hw)
    | operation => exact .operation (hlast rfl) fun k o f hk => le_of_walkFrom hk

/-- The walk comes by every instruction that is executed, at the level that the context has
    there. -/
theorem exists_walk_of_mem_traceFrom {is : List (Instruction σ)} {pc : Nat} (h : p.Consistent c)
    (hat : p.At pc is) {x : Executed σ} (hx : x ∈ p.traceFrom pc ⟨c, s⟩ is) :
    p.Consistent x.before.context ∧ x.before.context.capacities = c.capacities ∧
      p.code[x.pc]? = some x.instruction ∧
      ∃ behind, walkFrom c.capacities pc c.level is =
        walkFrom c.capacities x.pc x.before.context.level (x.instruction :: behind) := by
  induction is generalizing pc c s with
  | nil => exact absurd hx List.not_mem_nil
  | cons i is ih =>
    have hcons : p.At pc ([i] ++ is) := hat
    have hhead : p.At pc [i] := hcons.left
    have hi := follows_step s h hhead
    rw [traceFrom] at hx
    rcases List.mem_cons.1 hx with rfl | hx
    · exact ⟨h, rfl, hhead.getElem?, is, rfl⟩
    · generalize hw : i.op.walk c.capacities c.level = w at hi
      generalize p.step pc i ⟨c, s⟩ = r at hi hx
      cases hi with
      | @ok c' s' hc' hcapacities =>
        obtain ⟨hconsistent, hx', hplace, behind, hwalk⟩ := ih s' hc' hcons.right hx
        rw [hcapacities] at hx' hwalk
        refine ⟨hconsistent, hx', hplace, behind, ?_⟩
        rw [walkFrom, hw]
        exact hwalk
      | fault | operation => exact absurd hx List.not_mem_nil

/-- A program that leaves one value has it as its result. -/
theorem exists_value_of_finish (h : p.Consistent c) (hdepth : c.depth = 1) :
    ∃ v m, p.finish ⟨c, s⟩ = .ok v m := by
  obtain ⟨base, slot, v, rfl, hrefers, -⟩ := h.exists_put_one (Nat.le_of_eq hdepth.symm)
  have hv := value_of_lookup (c := base) (List.forall₂_cons.1 hrefers).1 p.lastOffset s
  have hp : Run.onContext p.lastOffset Context.pop ⟨base.put [slot] base.heap, s⟩ =
      .ok slot ⟨base, s⟩ := rfl
  refine ⟨v, ⟨base, s⟩, ?_⟩
  simp only [finish, hdepth, if_true, bind, EStateM.bind, hp, hv]

/-- How a run ends is told by the walk through the program, whatever the program, its
    variables and functions, the context and the host are. Either an operation fails, that of
    an instruction not behind the one where the walk meets a fault, if it meets one. Or the
    run does as the walk: it ends with the fault that the walk meets, at the instruction where
    it meets it, or gets behind all instructions and has a value if the walk has counted one,
    and otherwise reports how many it has counted. In no case does a slot dangle. -/
theorem run_follows_walk (p : Program σ) (c : Context) (s : σ) :
    (∀ o, (p.run c s).result ≠ .error ⟨o, .fault .danglingSlot⟩) ∧
      ((∃ x e m, p.LastFails (p.trace c s) x ⟨x.instruction.offset, .operation e⟩ m ∧
          (p.run c s).result = .error ⟨x.instruction.offset, .operation e⟩ ∧
          ∀ pc o f, p.walk c.capacities = .faultAt pc o f → x.pc ≤ pc) ∨
        match p.walk c.capacities with
        | .behind l =>
          if l.depth = 1 then ∃ v, (p.run c s).result = .ok v
          else (p.run c s).result = .error ⟨p.lastOffset, .fault (.unbalancedStack l.depth)⟩
        | .faultAt pc o f =>
          (f = .stackUnderflow ∨ f = .stackOverflow c.capacities.stack ∨
            f = .heapExhausted c.capacities.heap) ∧
          (p.run c s).result = .error ⟨o, .fault f⟩ ∧
          ∃ x m, p.LastFails (p.trace c s) x ⟨o, .fault f⟩ m ∧ x.pc = pc) := by
  have hall : p.FollowsAll c.capacities (p.walk c.capacities) (p.trace c s)
      (p.steps 0 p.code.toList ⟨c.reset, s⟩) :=
    follows_steps s (p.consistent_reset c) p.at_zero
  generalize hw : p.walk c.capacities = w at hall ⊢
  generalize hr : p.steps 0 p.code.toList ⟨c.reset, s⟩ = r at hall
  cases hall with
  | @behind c' s' _ hc' =>
    -- All is executed, so it is the depth that is left that decides.
    have hrun : p.execute ⟨c.reset, s⟩ = p.finish ⟨c', s'⟩ := by
      simp only [execute, bind, EStateM.bind, hr]
    by_cases hdepth : c'.depth = 1
    · obtain ⟨v, m, hv⟩ := exists_value_of_finish s' hc' hdepth
      have hresult : (p.run c s).result = .ok v := by simp only [run, hrun, hv]
      refine ⟨fun o => by rw [hresult]; simp, .inr ?_⟩
      exact (if_pos hdepth).mpr ⟨v, hresult⟩
    · have hresult : (p.run c s).result =
          .error ⟨p.lastOffset, .fault (.unbalancedStack c'.depth)⟩ := by
        simp only [run, hrun, finish, hdepth, if_false]
      refine ⟨fun o => by rw [hresult]; simp, .inr ?_⟩
      exact (if_neg hdepth).mpr hresult
  | @fault x f _ m hx hf =>
    -- The run ends where the walk does.
    have hresult : (p.run c s).result = .error ⟨x.instruction.offset, .fault f⟩ := by
      rw [run_of_steps_error hr]
    refine ⟨fun o => ?_, .inr ⟨hf, hresult, x, m, hx, rfl⟩⟩
    rw [hresult]
    rcases hf with rfl | rfl | rfl <;> simp
  | @operation _ x e _ m hx hle =>
    -- An operation is rejected, and the walk would have gone on at least to there.
    have hresult : (p.run c s).result = .error ⟨x.instruction.offset, .operation e⟩ := by
      rw [run_of_steps_error hr]
    exact ⟨fun o => by rw [hresult]; simp, .inl ⟨x, e, m, hx, hresult, hle⟩⟩

end Program

end Formula
