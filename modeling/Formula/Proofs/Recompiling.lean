import Formula.Evaluation
import Formula.Proofs.Generation
import Formula.Proofs.Keeping
import Mathlib

/-!
# Compiling once

A program holds on to the cells that its names had when it was compiled. Whatever
happens to the table afterwards, as long as no name is defined anew, these are the cells
that its names still have; so compiling the formula again gives the same program, and
it does not matter how long ago it was compiled, or what its context was used for in
the meantime (`run_recompiled`).

* A host that knows all that another one knows compiles what that one compiles, to the
  same program (`compile_extends`).
* Writing to names and running programs leave a table whose host knows all that it knew
  before (`extends_afterAll`).
-/

namespace Formula

variable {σ τ : Type}

/-- `host'` knows all that `host` knows, and it has the same units. -/
structure Host.Extends (host host' : Host σ) : Prop where
  reference : ∀ {r x}, host.reference? r = some x → host'.reference? r = some x
  function : ∀ {name f}, host.function? name = some f → host'.function? name = some f
  units : host'.units = host.units

namespace Host.Extends

theorem refl (host : Host σ) : host.Extends host := ⟨id, id, rfl⟩

theorem trans {host host' host'' : Host σ} (h : host.Extends host') (h' : host'.Extends host'') :
    host.Extends host'' :=
  ⟨h'.reference ∘ h.reference, h'.function ∘ h.function, h'.units.trans h.units⟩

variable {host host' : Host σ} (h : host.Extends host')

include h

/-! ## Looking up names -/

/-- A reference that was bound is bound to the same. -/
theorem bind {o : Nat} {r : Reference} {b : Binding σ} (hb : host.bind o r = .ok b) :
    host'.bind o r = .ok b := by
  rw [Host.bind.eq_def] at hb ⊢
  rcases hr : host.reference? r with _ | x
  · rw [hr] at hb
    cases r <;> cases hb
  · rw [hr] at hb
    rw [h.reference hr]
    exact hb

/-- A function that was found is found. -/
theorem function_ok {o : Nat} {name : String} {f : Function σ}
    (hf : host.function o name = .ok f) : host'.function o name = .ok f := by
  rw [Host.function] at hf ⊢
  rcases hname : host.function? name with _ | g
  · rw [hname] at hf
    cases hf
  · rw [hname] at hf
    rw [h.function hname]
    exact hf

/-- A number has the same value. -/
theorem literal {o : Nat} {n : Numeral} : host'.literal o n = host.literal o n := by
  rw [Host.literal, Host.literal, h.units]

/-- A method is called on the same. -/
theorem receiver {o : Nat} {name : String} {e : Expr} {b : Binding σ}
    (hb : e.receiver host o name = .ok b) : e.receiver host' o name = .ok b := by
  cases e with
  | reference => exact h.bind hb
  | _ => cases hb

/-! ## Code -/

omit h in
/-- If the code of each expression stays the same, so does that of all. -/
theorem codeAll_of_forall {es : List Expr}
    (hes : ∀ e ∈ es, ∀ {is}, e.code host = .ok is → e.code host' = .ok is)
    {is : List (Instruction σ)} (his : Expr.codeAll host es = .ok is) :
    Expr.codeAll host' es = .ok is := by
  induction es generalizing is with
  | nil => exact his
  | cons e es ih =>
    obtain ⟨first, hfirst, his⟩ := exists_of_bind_eq_ok his
    obtain ⟨rest, hrest, his⟩ := exists_of_bind_eq_ok his
    cases his
    have hrest := ih (fun d hd => hes d (List.mem_cons_of_mem _ hd)) hrest
    rw [Expr.codeAll, hes e List.mem_cons_self hfirst, hrest]
    rfl

/-- An expression that could be linked has the same code for a host that knows more. -/
theorem code {e : Expr} {is : List (Instruction σ)} (his : e.code host = .ok is) :
    e.code host' = .ok is := by
  induction e using Expr.induction generalizing is with
  | number o n =>
    rw [Expr.code] at his ⊢
    rwa [h.literal]
  | text o s => exact his
  | reference o r =>
    obtain ⟨b, hb, his⟩ := exists_of_bind_eq_ok his
    cases his
    rw [Expr.code, h.bind hb]
    rfl
  | unary o op x ih =>
    obtain ⟨before, hbefore, his⟩ := exists_of_bind_eq_ok his
    cases his
    rw [Expr.code, ih hbefore]
    rfl
  | binary o op l r ihl ihr =>
    obtain ⟨left, hleft, his⟩ := exists_of_bind_eq_ok his
    obtain ⟨right, hright, his⟩ := exists_of_bind_eq_ok his
    cases his
    rw [Expr.code, ihl hleft, ihr hright]
    rfl
  | call o name args ih =>
    obtain ⟨before, hbefore, his⟩ := exists_of_bind_eq_ok his
    obtain ⟨f, hf, his⟩ := exists_of_bind_eq_ok his
    cases his
    rw [Expr.code, codeAll_of_forall (fun e he _ => ih e he) hbefore, h.function_ok hf]
    rfl
  | method o e name args _ ih =>
    obtain ⟨b, hb, his⟩ := exists_of_bind_eq_ok his
    obtain ⟨before, hbefore, his⟩ := exists_of_bind_eq_ok his
    obtain ⟨f, hf, his⟩ := exists_of_bind_eq_ok his
    cases his
    rw [Expr.code, h.receiver hb, codeAll_of_forall (fun e he _ => ih e he) hbefore,
      h.function_ok hf]
    rfl

/-- A formula that could be linked has the same code for a host that knows more. -/
theorem statement_code {s : Statement} {is : List (Instruction σ)} (his : s.code host = .ok is) :
    s.code host' = .ok is := by
  cases s with
  | expression e => exact h.code his
  | assignment o targetOffset r e =>
    obtain ⟨before, hbefore, his⟩ := exists_of_bind_eq_ok his
    obtain ⟨b, hb, his⟩ := exists_of_bind_eq_ok his
    cases his
    rw [Statement.code, h.code hbefore, h.bind hb]
    rfl

/-- What a host compiles, one that knows more compiles to the same program. -/
theorem compile {settings : Settings} {source : String} {p : Program σ}
    (hp : Formula.compile host settings source = .ok p) :
    Formula.compile host' settings source = .ok p := by
  simp only [Formula.compile, Program.compile, Program.generate_arena, h.units] at hp ⊢
  rcases hs : Statement.read host.units.names settings source with e | s <;>
    simp only [hs] at hp ⊢
  · cases hp
  -- With the same units, the formula is the same; only its code depends on the names.
  · rcases his : s.code host with e | is <;> simp only [his] at hp
    · cases hp
    · simp only [h.statement_code his]
      exact hp

end Host.Extends

/-! ## Tables -/

namespace Table

variable {t : Table τ}

/-- A new name does not hide another one: what stood for a place stands for it still. -/
theorem lookup_assign {names : List (String × Nat)} {name other : String} {place : Nat}
    (hnew : names.lookup name = none) {n : Nat} (hn : names.lookup other = some n) :
    (assign names name place).lookup other = some n := by
  induction names with
  | nil => cases hn
  | cons entry names ih =>
    obtain ⟨m, p⟩ := entry
    have hne : m ≠ name := by
      rintro rfl
      simp at hnew
    rw [assign, if_neg hne]
    rw [List.lookup_cons] at hnew hn ⊢
    rw [beq_false_of_ne hne.symm] at hnew
    rcases hother : other == m <;> rw [hother] at hn
    · exact ih hnew hn
    · exact hn

/-- Writing to a name keeps the cells of all names. -/
theorem extends_set (t : Table τ) (name : String) (v : Value) :
    t.host.Extends (t.set name v).host := by
  rw [set]
  split
  · exact .refl _
  · -- A new name gets a new cell, and the others still stand for theirs.
    rename_i hname
    refine ⟨fun {r x} hr => ?_, id, rfl⟩
    obtain ⟨place, hplace, rfl⟩ := Option.map_eq_some_iff.1 hr
    exact congrArg (Option.map _) (lookup_assign hname hplace)

/-- Whatever happens to a table, its host goes on knowing what it knew. -/
theorem extends_afterAll (t : Table τ) (events : List (Event τ)) :
    t.host.Extends (t.afterAll events).host := by
  induction events generalizing t with
  | nil => exact .refl _
  | cons event events ih =>
    have hevent : t.host.Extends (t.after event).host := by
      cases event with
      | set name v => exact t.extends_set name v
      | run p c => exact .refl _
    exact hevent.trans (ih _)

/-- A program that was compiled before things happened to its table runs, in a context
    that has been used, as the program of the same formula that is compiled now runs in
    a fresh context of the same capacities and data: the formula can be compiled now,
    the result is the same, and the table is the same afterwards. -/
theorem run_recompiled {settings : Settings} {source : String} {p : Program (Store τ)}
    (hp : compile t.host settings source = .ok p) (events : List (Event τ)) (k : Capacities)
    (data : Value) (uses : List Context.Use) :
    let now := t.afterAll events
    let fresh : Context := { capacities := k, data := data }
    let used := fresh.useAll uses
    ∃ p', compile now.host settings source = .ok p' ∧
      (p.run used now.store).result = (p'.run fresh now.store).result ∧
      now.after (.run p used) = now.after (.run p' fresh) := by
  intro now fresh used
  have hreset : used.reset = fresh.reset := fresh.reset_useAll uses
  have hrun : p.run used now.store = p.run fresh now.store := by
    rw [Program.run, Program.run, hreset]
  exact ⟨p, (t.extends_afterAll events).compile hp, by rw [hrun], by simp only [after, hrun]⟩

/-- A constant is written to by the application, a name is added, and the program has
    run before, the last time in this context. -/
theorem run_recompiled_assignment :
    let t : Table Unit := (({ store := { own := () } } : Table Unit).withConstant "a"
      (.text "x")).withVariable "b" .undefined
    let p : Program (Store Unit) :=
      ⟨#[⟨4, .load ⟨"a", .cell 0⟩⟩, ⟨0, .store ⟨"b", .cell 1⟩⟩]⟩
    let now := t.afterAll [.set "a" (.text "y"), .set "c" (.text "z"), .run p {}]
    let used := ({} : Context).useAll [.run p t.store, .push (.scratch 7)]
    compile t.host {} "b = a" = .ok p ∧
      ∃ p', compile now.host {} "b = a" = .ok p' ∧
        (p.run used now.store).result = (p'.run {} now.store).result ∧
        now.after (.run p used) = now.after (.run p' {}) := by
  intro t p now used
  have hp : compile t.host {} "b = a" = .ok p := by cbv
  exact ⟨hp, run_recompiled hp _ {} .undefined _⟩

end Table

end Formula
