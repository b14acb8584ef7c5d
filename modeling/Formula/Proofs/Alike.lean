import Formula.Host.Alike
import Formula.Proofs.Assignment
import Formula.Proofs.Generation
import Formula.Proofs.Keeping

/-!
# A program sees only what it names

Tables that look alike to a formula compile it to the same program, up to where the cells
are. Every instruction keeps the tables alike in what the formula mentions, as two of its
references never share a cell in one table only: what a name stands for is a cell that no
other name has (`Table.Built.place_inj`). So the runs go side by side (`Table.alike_run`).
-/

namespace Formula

variable {τ : Type}

namespace Table

variable {t t' : Table τ} {xs : List Expr}

/-! ## Cells of names -/

/-- A name stands for a place where there is a cell. -/
theorem Built.place_lt (h : t.Built) {name : String} {place : Nat}
    (hplace : t.place? name = some place) : place < t.store.cells.size := by
  induction h with
  | empty => cases hplace
  | define n v writable _ ih =>
    rw [place?_define] at hplace
    show place < (Array.push _ _).size
    rw [Array.size_push]
    split at hplace
    · cases hplace
      exact Nat.lt_succ_self _
    · exact Nat.lt_succ_of_lt (ih hplace)
  | functions _ _ ih | units _ _ ih => exact ih hplace
  | store s hle _ ih => exact Nat.lt_of_lt_of_le (ih hplace) hle

/-- No cell belongs to two names. -/
theorem Built.place_inj (h : t.Built) {m n : String} {place : Nat}
    (hm : t.place? m = some place) (hn : t.place? n = some place) : m = n := by
  induction h with
  | empty => cases hm
  | @define t name v writable h ih =>
    rw [place?_define] at hm hn
    -- The new cell comes behind those of the other names.
    have hnew {k : String} (hk : t.place? k = some place) : place ≠ t.store.cells.size :=
      Nat.ne_of_lt (h.place_lt hk)
    split at hm <;> split at hn
    · rename_i hm' hn'
      exact hm'.trans hn'.symm
    · cases hm
      exact absurd rfl (hnew hn)
    · cases hn
      exact absurd rfl (hnew hm)
    · exact ih hm hn
  | functions _ _ ih | units _ _ ih | store _ _ _ ih => exact ih hm hn

/-- A name that stands for a place has a cell. -/
theorem Built.cell?_of_place? (h : t.Built) {name : String} {place : Nat}
    (hplace : t.place? name = some place) : ∃ c, t.cell? name = some c := by
  rw [cell?, hplace, Option.bind_some, Array.getElem?_eq_getElem (h.place_lt hplace)]
  exact ⟨_, rfl⟩

/-- What is mentioned has a cell in both tables or in none of them. -/
theorem Alike.places (h : t.Alike t' xs) (ht : t.Built) (ht' : t'.Built) {r : Reference}
    (hr : Expr.Mentions xs r) :
    (t.place? r.text = none ∧ t'.place? r.text = none) ∨
      ∃ place place', t.place? r.text = some place ∧ t'.place? r.text = some place' := by
  have hcell := h.cell hr
  rcases hp : t.place? r.text with _ | place <;> rcases hp' : t'.place? r.text with _ | place'
  · exact .inl ⟨rfl, rfl⟩
  · obtain ⟨c, hc⟩ := ht'.cell?_of_place? hp'
    rw [hc, cell?, hp] at hcell
    cases hcell
  · obtain ⟨c, hc⟩ := ht.cell?_of_place? hp
    rw [hc, cell?, hp'] at hcell
    cases hcell
  · exact .inr ⟨place, place', rfl, rfl⟩

end Table

/-! ## The same code -/

/-- The same error, or results that are related. -/
inductive Agreed {ε α β : Type} (Q : α → β → Prop) : Except ε α → Except ε β → Prop
  | ok {a : α} {b : β} : Q a b → Agreed Q (.ok a) (.ok b)
  | error (e : ε) : Agreed Q (.error e) (.error e)

namespace Agreed

variable {ε α α' β β' : Type} {Q : α → α' → Prop} {P : β → β' → Prop}

theorem refl (x : Except ε α) : Agreed Eq x x := by
  cases x with
  | error e => exact .error e
  | ok a => exact .ok rfl

/-- Where the results agree, so does what is made from them. -/
theorem bind {x : Except ε α} {x' : Except ε α'} {f : α → Except ε β} {f' : α' → Except ε β'}
    (hx : Agreed Q x x') (hf : ∀ a a', Q a a' → Agreed P (f a) (f' a')) :
    Agreed P (x >>= f) (x' >>= f') := by
  cases hx with
  | ok h => exact hf _ _ h
  | error e => exact .error e

end Agreed

namespace Table

variable {t t' : Table τ} {xs : List Expr}

/-- With the same units a number has the same value, or the same unit is unknown. -/
theorem agreed_literal (hunits : t.units = t'.units) (o : Nat) (n : Numeral) :
    Agreed Eq (t.host.literal o n) (t'.host.literal o n) := by
  have hhost : t.host.literal o n = t'.host.literal o n := by simp only [Host.literal, host, hunits]
  rw [hhost]
  exact .refl _

section Code

variable (h : t.Alike t' xs)

include h

/-- A function that is called is the same in both tables, or missing in both. -/
theorem agreed_function (o : Nat) {name : String} (hname : Expr.Calls xs name) :
    Agreed (fun f f' => f = f' ∧ t.functions.lookup name = some f ∧
      t'.functions.lookup name = some f') (t.host.function o name) (t'.host.function o name) := by
  have hlookup := h.function hname
  simp only [Host.function, host, ← hlookup]
  rcases hf : t.functions.lookup name with _ | f
  · exact .error _
  · exact .ok ⟨rfl, rfl, rfl⟩

variable (ht : t.Built) (ht' : t'.Built)

include ht ht'

/-- A reference that is mentioned is bound to the cells of its name in the two tables. -/
theorem agreed_bind (o : Nat) {r : Reference} (hr : Expr.Mentions xs r) :
    Agreed (SameBinding t t' xs) (t.host.bind o r) (t'.host.bind o r) := by
  rcases h.places ht ht' hr with ⟨hp, hp'⟩ | ⟨place, place', hp, hp'⟩
  · simp only [Host.bind, host, hp, hp', Option.map_none]
    cases r <;> exact .error _
  · rw [Host.bind_of_reference? (congrArg (Option.map _) hp),
      Host.bind_of_reference? (congrArg (Option.map _) hp')]
    exact .ok (.cell hr hp hp')

/-- What a method is called on is bound as it is mentioned. -/
theorem agreed_receiver (o : Nat) (name : String) {e : Expr} (he : e ∈ xs) :
    Agreed (SameBinding t t' xs) (e.receiver t.host o name) (e.receiver t'.host o name) := by
  cases e with
  | reference o r => exact agreed_bind h ht ht' o ⟨o, he⟩
  | _ => exact .error _

omit h ht ht' in
/-- As expressions agree, so do lists of them. -/
theorem agreed_codeAll {es : List Expr}
    (hes : ∀ e ∈ es, e.nodes ⊆ xs →
      Agreed (List.Forall₂ (SameInstruction t t' xs)) (e.code t.host) (e.code t'.host))
    (hsub : Expr.nodesAll es ⊆ xs) :
    Agreed (List.Forall₂ (SameInstruction t t' xs)) (Expr.codeAll t.host es)
      (Expr.codeAll t'.host es) := by
  induction es with
  | nil => exact .ok .nil
  | cons e es ih =>
    obtain ⟨he, hes⟩ := List.forall_mem_cons.1 hes
    rw [Expr.nodesAll, List.append_subset] at hsub
    exact (he hsub.1).bind fun is is' his => (ih hes hsub.2).bind fun js js' hjs =>
      .ok (List.rel_append his hjs)

variable (hunits : t.units = t'.units)

include hunits

/-- For tables that look alike to its nodes an expression has the same code, up to the places
    of cells, or cannot be linked for the same reason. -/
theorem agreed_code (e : Expr) (hsub : e.nodes ⊆ xs) :
    Agreed (List.Forall₂ (SameInstruction t t' xs)) (e.code t.host) (e.code t'.host) := by
  induction e using Expr.induction with
  | number o n =>
    exact (agreed_literal hunits o n).bind fun v v' hv => .ok (.cons ⟨rfl, hv ▸ .const v⟩ .nil)
  | text o s => exact .ok (.cons ⟨rfl, .const _⟩ .nil)
  | reference o r =>
    exact (agreed_bind h ht ht' o ⟨o, hsub List.mem_cons_self⟩).bind fun b b' hb =>
      .ok (.cons ⟨rfl, .load hb⟩ .nil)
  | unary o op x ih =>
    rw [Expr.nodes, List.cons_subset] at hsub
    exact (ih hsub.2).bind fun is is' his =>
      .ok (List.rel_append his (.cons ⟨rfl, .unary _⟩ .nil))
  | binary o op l r ihl ihr =>
    rw [Expr.nodes, List.cons_subset, List.append_subset] at hsub
    exact (ihl hsub.2.1).bind fun is is' his => (ihr hsub.2.2).bind fun js js' hjs =>
      .ok (List.rel_append (List.rel_append his hjs) (.cons ⟨rfl, .binary _⟩ .nil))
  | call o name args ih =>
    have hcalls : Expr.Calls xs name := ⟨_, hsub List.mem_cons_self, rfl⟩
    rw [Expr.nodes, List.cons_subset] at hsub
    refine (agreed_codeAll ih hsub.2).bind fun is is' his =>
      (agreed_function h o hcalls).bind fun f f' hf => ?_
    obtain ⟨rfl, hf, hf'⟩ := hf
    exact .ok (List.rel_append his (.cons ⟨rfl, .call hcalls hf hf' .none⟩ .nil))
  | method o e name args ihe ih =>
    have hcalls : Expr.Calls xs name := ⟨_, hsub List.mem_cons_self, rfl⟩
    rw [Expr.nodes, List.cons_subset, List.append_subset] at hsub
    refine (agreed_receiver h ht ht' o name (hsub.2.1 e.mem_nodes_self)).bind fun b b' hb =>
      (agreed_codeAll ih hsub.2.2).bind fun is is' his =>
        (agreed_function h o hcalls).bind fun f f' hf => ?_
    obtain ⟨rfl, hf, hf'⟩ := hf
    exact .ok (List.rel_append his (.cons ⟨rfl, .call hcalls hf hf' (.some hb)⟩ .nil))

/-- A formula, be it an assignment or not, has the same code for tables that look alike to its
    nodes, up to the places of cells, or cannot be linked for the same reason. -/
theorem agreed_statement (s : Statement) (hsub : s.nodes ⊆ xs) :
    Agreed (List.Forall₂ (SameInstruction t t' xs)) (s.code t.host) (s.code t'.host) := by
  cases s with
  | expression e => exact agreed_code h ht ht' hunits e hsub
  | assignment _ o r e =>
    rw [Statement.nodes, List.cons_subset] at hsub
    exact (agreed_code h ht ht' hunits e hsub.2).bind fun is is' his =>
      (agreed_bind h ht ht' o ⟨o, hsub.1⟩).bind fun b b' hb =>
        .ok (List.rel_append his (.cons ⟨rfl, .store hb⟩ .nil))

end Code

/-! ## Side by side -/

/-- No cell is that of two references in one table and of one in the other. -/
theorem SamePlace.eq_iff (ht : t.Built) (ht' : t'.Built) {p p' q q' : Nat}
    (hp : SamePlace t t' xs p p') (hq : SamePlace t t' xs q q') : p = q ↔ p' = q' := by
  obtain ⟨r, -, hr, hr'⟩ := hp
  obtain ⟨u, -, hu, hu'⟩ := hq
  constructor
  · rintro rfl
    rw [ht.place_inj hr hu, hu'] at hr'
    exact (Option.some.inj hr').symm
  · rintro rfl
    rw [ht'.place_inj hr' hu', hu] at hr
    exact (Option.some.inj hr).symm

/-- The cells of what is mentioned are the same in two stores. -/
def SameCells (t t' : Table τ) (xs : List Expr) (s s' : Store τ) : Prop :=
  ∀ ⦃place place' : Nat⦄, SamePlace t t' xs place place' → s.cells[place]? = s'.cells[place']?

theorem Alike.sameCells (h : t.Alike t' xs) : SameCells t t' xs t.store t'.store := by
  rintro place place' ⟨r, hr, hp, hp'⟩
  have hcell := h.cell hr
  rwa [cell?, cell?, hp, hp'] at hcell

section Stores

variable (ht : t.Built) (ht' : t'.Built) {s s' : Store τ}

include ht ht'

/-- Stores stay the same in the cells of what is mentioned if the same value is written to the
    cell of one name. -/
theorem SameCells.replace (h : SameCells t t' xs s s') {place place' : Nat}
    (hplace : SamePlace t t' xs place place') (v : Value) :
    SameCells t t' xs (s.replace place v) (s'.replace place' v) := by
  intro q q' hq
  by_cases hne : q = place
  · have hne' := (hq.eq_iff ht ht' hplace).1 hne
    simp [Store.replace, Array.getElem?_modify, hne, hne', h hplace]
  · have hne' := mt (hq.eq_iff ht ht' hplace).2 hne
    rw [Store.getElem?_replace _ _ _ hne, Store.getElem?_replace _ _ _ hne', h hq]

/-- A function that is confined to what it is given does the same to both stores. -/
theorem Confines.coupled {f : Function (Store τ)} (hf : t.Confines t' xs f) (view : View)
    (args : List Value) {on on' : Option Nat} (hon : Option.Rel (SamePlace t t' xs) on on') :
    Coupled (SameCells t t' xs) (f view args (on.map .cell)) (f view args (on'.map .cell)) := by
  intro s s' h
  have hreceiver : on.map (s.cells[·]?) = on'.map (s'.cells[·]?) := by
    cases hon with
    | none => rfl
    | some hplace => exact congrArg some (h hplace)
  have hmatched := hf.dependsOnReceiver view args on on' hreceiver
  refine hmatched.of_stateLeft fun q q' hq => ?_
  obtain ⟨r, hr, hp, hp'⟩ := id hq
  by_cases hne : on = some q
  · -- The cell that the function is called on.
    have hleft := hmatched.stateLeft
    cases hon with
    | none => cases hne
    | some hplace =>
      cases hne
      rw [← (hplace.eq_iff ht ht' hq).1 rfl]
      exact Option.some.inj hleft
  · have hne' : on' ≠ some q' := by
      rintro rfl
      cases hon with
      | some hplace => exact hne (congrArg some ((hplace.eq_iff ht ht' hq).2 rfl))
    rw [hf.spares hr (.inl hp) view args on s hne, hf.spares hr (.inr hp') view args on' s' hne',
      h hq]

/-- The same operation, but for the places of cells, does the same to both stores. -/
theorem SameOp.coupled
    (hf : ∀ name f, Expr.Calls xs name → t.functions.lookup name = some f → t.Confines t' xs f)
    {op op' : Op (Store τ)} (hop : SameOp t t' xs op op') :
    op.Coupled (SameCells t t' xs) op' := by
  cases hop with
  | const v => exact .const v
  | load hb =>
    obtain ⟨hr, hp, hp'⟩ := hb
    refine .load fun view s s' h => ⟨?_, h⟩
    show s.value _ = s'.value _
    rw [Store.value, Store.value, h ⟨_, hr, hp, hp'⟩]
  | store hb =>
    obtain ⟨hr, hp, hp'⟩ := hb
    have hplace : SamePlace t t' xs _ _ := ⟨_, hr, hp, hp'⟩
    refine .store rfl fun view v s s' h => ?_
    have hwritable : s.writable _ = s'.writable _ := congrArg (Option.any _) (h hplace)
    simp only [Variable.cell, hwritable]
    split
    · exact .ok (h.replace ht ht' hplace v)
    · exact .error h
  | binary op => exact .binary op
  | unary op => exact .unary op
  | call hcalls hlookup _ hreceiver =>
    refine .call fun view args => ?_
    cases hreceiver with
    | none => exact (hf _ _ hcalls hlookup).coupled ht ht' view args .none
    | some hb =>
      obtain ⟨hr, hp, hp'⟩ := hb
      exact (hf _ _ hcalls hlookup).coupled ht ht' view args (.some ⟨_, hr, hp, hp'⟩)

/-- Two programs that differ in the places of cells only can be followed side by side. -/
theorem SameProgram.coupled
    (hf : ∀ name f, Expr.Calls xs name → t.functions.lookup name = some f → t.Confines t' xs f)
    {p p' : Program (Store τ)} (hp : SameProgram t t' xs p p') :
    p.Coupled (SameCells t t' xs) p' :=
  hp.imp fun _ _ hi => ⟨hi.1, hi.2.coupled ht ht' hf⟩

end Stores

/-- Tables that look alike still do so when their cells are changed in the same way. -/
theorem Alike.of_sameCells (h : t.Alike t' xs) (ht : t.Built) (ht' : t'.Built) {s s' : Store τ}
    (hs : SameCells t t' xs s s') :
    ({ t with store := s } : Table τ).Alike { t' with store := s' } xs where
  cell {r} hr := by
    show (t.place? r.text).bind (s.cells[·]?) = (t'.place? r.text).bind (s'.cells[·]?)
    rcases h.places ht ht' hr with ⟨hp, hp'⟩ | ⟨place, place', hp, hp'⟩
    · rw [hp, hp']
      rfl
    · rw [hp, hp']
      exact hs ⟨r, hr, hp, hp'⟩
  function := h.function

/-! ## Cells that are not mentioned -/

theorem SameBinding.symm {b b' : Binding (Store τ)} (h : SameBinding t t' xs b b') :
    SameBinding t' t xs b' b := by
  obtain ⟨hr, hp, hp'⟩ := h
  exact .cell hr hp' hp

/-- Which of the two tables comes first does not matter. -/
theorem SameOp.symm {op op' : Op (Store τ)} (h : SameOp t t' xs op op') :
    SameOp t' t xs op' op := by
  cases h with
  | const v => exact .const v
  | load hb => exact .load hb.symm
  | store hb => exact .store hb.symm
  | binary op => exact .binary op
  | unary op => exact .unary op
  | call hcalls hf hf' hreceiver =>
    refine .call hcalls hf' hf ?_
    cases hreceiver with
    | none => exact .none
    | some hb => exact .some hb.symm

theorem SameProgram.symm {p p' : Program (Store τ)} (h : SameProgram t t' xs p p') :
    SameProgram t' t xs p' p :=
  h.flip.imp fun _ _ hi => ⟨hi.1.symm, hi.2.symm⟩

section Aside

variable {place : Nat} (hplace : t.Aside xs place)

include hplace

/-- A cell that none of the names stands for is left alone by every instruction. -/
theorem SameInstruction.keeps_step (p : Program (Store τ)) (pc : Nat)
    {i i' : Instruction (Store τ)} (hi : SameInstruction t t' xs i i') :
    Keeps (fun m : Machine (Store τ) => m.host.cells[place]?) (p.step pc i) := by
  obtain ⟨o, op⟩ := i
  obtain ⟨_, op'⟩ := i'
  obtain ⟨-, hop⟩ := hi
  refine p.keeps_step (fun _ => Run.keeps_host_onContext _ (fun s : Store τ => s.cells[place]?) _)
    (fun b hb => ?_) (fun b v hb => ?_) (fun name f argc receiver args hcall => ?_) pc
  · subst hb
    cases hop with
    | load hb =>
      cases hb
      exact fun _ => rfl
  · subst hb
    cases hop with
    | store hb =>
      obtain ⟨hr, hp, -⟩ := hb
      refine Run.keeps_onHost (π := fun s : Store τ => s.cells[place]?) _ _ fun view s => ?_
      simp only [Variable.cell]
      split
      · exact Store.getElem?_replace _ _ _ fun h => hplace.reference hr (h ▸ hp)
      · rfl
  · subst hcall
    cases hop with
    | call hcalls hf _ hreceiver =>
      refine Run.keeps_onHost (π := fun s : Store τ => s.cells[place]?) _ _ fun view s => ?_
      cases hreceiver with
      | none => exact hplace.function hcalls hf view args none s (by simp)
      | some hb =>
        obtain ⟨hr, hp, -⟩ := hb
        exact hplace.function hcalls hf view args (some _) s
          fun h => hplace.reference hr (h ▸ hp)

/-- A cell that none of the names stands for is left alone by all instructions together. -/
theorem SameInstruction.keeps_steps (p : Program (Store τ)) (pc : Nat)
    {is is' : List (Instruction (Store τ))} (h : List.Forall₂ (SameInstruction t t' xs) is is') :
    Keeps (fun m : Machine (Store τ) => m.host.cells[place]?) (p.steps pc is) := by
  induction h generalizing pc with
  | nil => exact .pure ()
  | cons hi _ ih => exact (hi.keeps_step hplace p pc).bind fun _ => ih (pc + 1)

/-- After a run, however it ends, it holds what it held before. -/
theorem SameProgram.cells_run {p p' : Program (Store τ)} (h : SameProgram t t' xs p p')
    (c : Context) (s : Store τ) : (p.run c s).host.cells[place]? = s.cells[place]? := by
  have hkeeps : Keeps (fun m : Machine (Store τ) => m.host.cells[place]?) p.execute :=
    (SameInstruction.keeps_steps hplace p 0 h).bind fun _ =>
      p.keeps_finish fun _ => Run.keeps_host_onContext _ (fun s : Store τ => s.cells[place]?) _
  have hrun := hkeeps ⟨c.reset, s⟩
  rwa [p.left_run] at hrun

end Aside

end Table

/-! ## A function that reads its receiver -/

namespace Function

/-- Gives the value of what it is called on. -/
def content : Function (Store τ) := fun view _ on s =>
  match on with
  | some x => .ok (x.read view s).1 (x.read view s).2
  | none => .ok .undefined s

/-- The function `content` reads no other cell than the one it is called on. -/
theorem content_dependsOnReceiver : (content : Function (Store τ)).DependsOnReceiver := by
  rintro view args (_ | place) (_ | place') s s' h
  · exact .ok h
  · cases h
  · cases h
  · have hvalue : s.value place = s'.value place' :=
      congrArg (fun c : Option Cell => c.elim Value.undefined Cell.value) (Option.some.inj h)
    show Matched _ (.ok (s.value place) s) (.ok (s'.value place') s')
    rw [hvalue]
    exact .ok h

/-- The function `content` writes to no cell. -/
theorem content_spares (place : Nat) : (content : Function (Store τ)).Spares place := by
  rintro view args (_ | _) s _ <;> rfl

end Function

namespace Table

variable {t t' : Table τ}

/-! ## Formulas -/

/-- For tables that look alike to its nodes a formula is compiled to the same program, up to
    the places of cells, or fails with the same error. -/
theorem agreed_compile (ht : t.Built) (ht' : t'.Built) (hunits : t.units = t'.units)
    {settings : Settings} {source : String}
    (h : ∀ st, Statement.read t.units.units.names settings source = .ok st →
      t.Alike t' st.nodes) :
    Agreed (fun p p' => ∃ st, Statement.read t.units.units.names settings source = .ok st ∧
      SameProgram t t' st.nodes p p')
      (compile t.host settings source) (compile t'.host settings source) := by
  have hnames : t.host.units.names = t.units.units.names := rfl
  have hnames' : t'.host.units.names = t.units.units.names := by rw [hunits]; rfl
  rw [compile_eq, compile_eq, hnames, hnames']
  rcases hread : Statement.read t.units.units.names settings source with e | st <;> dsimp only
  · exact .error _
  · have hcode := agreed_statement (h st hread) ht ht' hunits st (List.Subset.refl _)
    generalize st.code t.host = r at hcode ⊢
    generalize st.code t'.host = r' at hcode ⊢
    cases hcode with
    | ok his => exact .ok ⟨st, rfl, his⟩
    | error e => exact .error _

/-- A program sees only what its formula names. Two tables with the same units that look
    alike to a formula, and to the functions that it calls, give the same error or the same
    program for it. In contexts with the same capacities and data, the program has the same
    result on both of them, and they look alike still. All cells that the formula does not
    name stay as they are, where none of the functions writes to them. -/
theorem alike_run (ht : t.Built) (ht' : t'.Built) (hunits : t.units = t'.units)
    {settings : Settings} {source : String}
    (halike : ∀ st, Statement.read t.units.units.names settings source = .ok st →
      t.Alike t' st.nodes)
    (hconfines : ∀ st, Statement.read t.units.units.names settings source = .ok st →
      ∀ name f, Expr.Calls st.nodes name → t.functions.lookup name = some f →
        t.Confines t' st.nodes f) :
    (∃ e, compile t.host settings source = .error e ∧
      compile t'.host settings source = .error e) ∨
    ∃ st p p', Statement.read t.units.units.names settings source = .ok st ∧
      compile t.host settings source = .ok p ∧ compile t'.host settings source = .ok p' ∧
      SameProgram t t' st.nodes p p' ∧
      ∀ c c' : Context, c.reset = c'.reset →
        (p.run c t.store).result = (p'.run c' t'.store).result ∧
        (t.after (.run p c)).Alike (t'.after (.run p' c')) st.nodes ∧
        (∀ place, t.Aside st.nodes place →
          (t.after (.run p c)).store.cells[place]? = t.store.cells[place]?) ∧
        ∀ place, t'.Aside st.nodes place →
          (t'.after (.run p' c')).store.cells[place]? = t'.store.cells[place]? := by
  have hcompile := agreed_compile ht ht' hunits halike
  generalize hr : compile t.host settings source = r at hcompile ⊢
  generalize hr' : compile t'.host settings source = r' at hcompile ⊢
  cases hcompile with
  | error e => exact .inl ⟨e, rfl, rfl⟩
  | ok h =>
    obtain ⟨st, hread, hp⟩ := h
    have h := halike st hread
    refine .inr ⟨st, _, _, hread, rfl, rfl, hp, fun c c' hc => ?_⟩
    obtain ⟨hresult, hcells⟩ := (hp.coupled ht ht' (hconfines st hread)).run hc h.sameCells
    exact ⟨hresult, h.of_sameCells ht ht' hcells, fun _ hplace => hp.cells_run hplace c _,
      fun _ hplace => hp.symm.cells_run hplace c' _⟩

/-- One of the tables has a constant in front of the variable. -/
theorem alike_run_receiver :
    let t : Table Unit := (({ store := { own := () } } : Table Unit).withVariable "a"
      (.text "x")).withFunction "content" Function.content
    let t' : Table Unit := ((({ store := { own := () } } : Table Unit).withConstant "b"
      .undefined).withVariable "a" (.text "x")).withFunction "content" Function.content
    ∃ p p', compile t.host {} "a = a.content()" = .ok p ∧
      compile t'.host {} "a = a.content()" = .ok p' ∧
      (p.run {} t.store).result = (p'.run {} t'.store).result ∧
      (t'.after (.run p' {})).store.cells[0]? = t'.store.cells[0]? := by
  intro t t'
  let st := Statement.assignment 2 0 (.name "a")
    (.method 6 (.reference 4 (.name "a")) "content" [])
  have hread : Statement.read t.units.units.names {} "a = a.content()" = .ok st := by cbv
  have hmentions {r : Reference} (hr : Expr.Mentions st.nodes r) : r = .name "a" := by
    obtain ⟨o, ho⟩ := hr
    simp only [st, Statement.nodes, Expr.nodes, Expr.nodesAll, List.append_nil, List.mem_cons,
      Expr.reference.injEq, reduceCtorEq, List.not_mem_nil, or_false, false_or] at ho
    rcases ho with ⟨-, rfl⟩ | ⟨-, rfl⟩ <;> rfl
  have halike : t.Alike t' st.nodes := {
    cell := fun hr => by rw [hmentions hr]; rfl
    function := fun _ => rfl }
  have hfunction {name : String} {f : Function (Store Unit)}
      (hf : t.functions.lookup name = some f) : f = Function.content := by
    simp only [t, withFunction, List.lookup] at hf
    split at hf
    · exact (Option.some.inj hf).symm
    · cases hf
  have ht : t.Built := .functions _ (.define _ _ _ (.empty ()))
  have ht' : t'.Built := .functions _ (.define _ _ _ (.define _ _ _ (.empty ())))
  obtain ⟨e, he, -⟩ | ⟨st', p, p', hst, hp, hp', -, hrun⟩ :=
    @alike_run _ t t' ht ht' rfl {} "a = a.content()"
      (fun st' hst => by cases hread.symm.trans hst; exact halike)
      (fun st' hst name f _ hf => by
        cases hfunction hf
        exact ⟨Function.content_dependsOnReceiver, fun _ _ => Function.content_spares _⟩)
  · have hp : compile t.host {} "a = a.content()" =
        .ok ⟨#[⟨6, .call "content" Function.content 0 (some ⟨"a", .cell 0⟩)⟩,
          ⟨0, .store ⟨"a", .cell 0⟩⟩]⟩ := by
      rw [compile_eq]
      exact hread ▸ rfl
    cases hp.symm.trans he
  · cases hread.symm.trans hst
    obtain ⟨hresult, -, -, hcells⟩ := hrun {} {} rfl
    have haside : t'.Aside st.nodes 0 := {
      reference := fun hr => by rw [hmentions hr]; decide
      function := fun _ hf => hfunction hf ▸ Function.content_spares 0 }
    exact ⟨p, p', hp, hp', hresult, hcells 0 haside⟩

end Table

end Formula
