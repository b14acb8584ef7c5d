import Formula.Proofs.Emission
import Formula.Proofs.Failing
import Formula.Proofs.Lexing.Places
import Formula.Proofs.Linking
import Formula.Proofs.Parsing.Places
import Mathlib

/-!
# Errors are reported in their places

Whatever is wrong with a formula, and whatever goes wrong when its program is run, is
reported in its place in the text (`placed_of_error`). The place is found by the lexer or
the reader, or it is that of a node of the formula: nodes hand their places on to the
instructions and to what is reported when these cannot be generated (`Expr.Reports`), and
the machine reports an error at the instruction that fails, with one of the causes that
this instruction can fail with (`Op.CanFail`).
-/

namespace Formula

open Text (byteLength)

variable {σ : Type} {host : Host σ}

/-! ## Code -/

/-- What is reported at `o` is reported at the node; if that is the call of a method, it
    concerns this method. -/
def Expr.Reports (x : Expr) (o : Nat) (concerns : String → Prop) : Prop :=
  o = x.offset ∧ ∀ name ∈ x.method?, concerns name

/-- The function that an operation calls. -/
def Op.function? : Op σ → Option String
  | .call name _ _ _ => some name
  | _ => none

/-- The instruction is reported at one of the nodes. -/
def Instruction.ReportedAt (xs : List Expr) (i : Instruction σ) : Prop :=
  ∃ x ∈ xs, x.Reports i.offset fun name => i.op.function? = some name

/-- An instruction is reported at the node that it comes from. -/
theorem Expr.Emits.reportedAt {xs : List Expr} {x : Expr} {i : Instruction σ}
    (h : x.Emits host i) (hx : x ∈ xs) : i.ReportedAt xs := by
  refine ⟨x, hx, ?_⟩
  cases x with
  | number =>
    obtain ⟨v, _, rfl⟩ := h
    exact ⟨rfl, by simp [method?]⟩
  | reference =>
    obtain ⟨b, _, rfl | rfl⟩ := h <;> exact ⟨rfl, by simp [method?]⟩
  | text | unary | binary =>
    obtain rfl := h
    exact ⟨rfl, by simp [method?]⟩
  | call =>
    obtain ⟨f, _, rfl⟩ := h
    exact ⟨rfl, by simp [method?]⟩
  | method =>
    obtain ⟨_, _, _, _, _, _, _, rfl⟩ := h
    exact ⟨rfl, by simp [method?, Op.function?]⟩

namespace Expr

/-! ## Names that cannot be linked -/

/-- A reference that is not known is reported where it stands. -/
theorem offset_of_bind {o : Nat} {r : Reference} {e : Located LinkError}
    (h : host.bind o r = .error e) : e.offset = o := by
  unfold Host.bind at h
  split at h <;> cases h <;> rfl

/-- A unit that is not known is reported where its number stands. -/
theorem offset_of_literal {o : Nat} {n : Numeral} {e : Located LinkError}
    (h : host.literal o n = .error e) : e.offset = o := by
  unfold Host.literal at h
  split at h
  · cases h
  · split at h <;> cases h
    rfl

/-- What is lacking at a node is reported there. -/
theorem Lacks.reports {x : Expr} {e : Located LinkError} (h : x.Lacks host e) :
    x.Reports e.offset fun name => Cause.Concerns name (.linking e.cause) := by
  cases x with
  | number => exact ⟨offset_of_literal h, by simp [method?]⟩
  | reference => exact ⟨offset_of_bind h, by simp [method?]⟩
  | call =>
    obtain rfl := eq_of_function h
    exact ⟨rfl, by simp [method?]⟩
  | method =>
    rcases h with rfl | h
    · exact ⟨rfl, by simp [method?, Cause.Concerns]⟩
    · obtain rfl := eq_of_function h
      exact ⟨rfl, by simp [method?, Cause.Concerns]⟩
  | text | unary | binary => exact h.elim

end Expr

namespace Statement

variable {s : Statement}

/-- The code of a formula is reported at its nodes. -/
theorem reportedAt_of_code {is : List (Instruction σ)} (his : s.code host = .ok is) :
    ∀ i ∈ is, i.ReportedAt s.nodes := by
  intro i hi
  obtain ⟨x, hx, hemits⟩ := exists_emits his i hi
  exact hemits.reportedAt hx

/-- A formula has code. -/
theorem code_ne_nil {is : List (Instruction σ)} (his : s.code host = .ok is) : is ≠ [] := by
  rintro rfl
  exact s.steps_ne_nil (List.forall₂_nil_right_iff.1 (emits_of_code his))

end Statement

/-- Behind a compilation a program is empty just if that has failed: a formula has code, and of
    what the program was before nothing is left. -/
theorem Program.isEmpty_compile (q : Program σ) (host : Host σ) (settings : Settings)
    (source : String) :
    (q.compile host settings source).1.isEmpty = true ↔
      ∃ e, (q.compile host settings source).2 = .error e := by
  rw [Program.compile]
  rcases Statement.read host.units.names settings source with e | st
  · exact iff_of_true rfl ⟨_, rfl⟩
  · simp only [Program.generate_arena]
    rcases his : st.code host with e | is
    · exact iff_of_true rfl ⟨_, rfl⟩
    · refine iff_of_false (fun hempty => Statement.code_ne_nil his ?_) ?_
      · simpa [Program.isEmpty] using hempty
      · rintro ⟨e, he⟩
        cases he

/-! ## Runs -/

/-- A cause that an operation can fail with concerns the function that it calls. -/
theorem Op.CanFail.concerns {op : Op σ} {cause : Cause} (h : op.CanFail cause) {name : String}
    (hname : op.function? = some name) : cause.Concerns name := by
  cases op with
  | call name' f argc receiver =>
    cases hname
    cases cause with
    | fault f => trivial
    | operation e =>
      obtain ⟨reason, rfl⟩ := h
      rfl
    | reading e | linking e => cases h
  | _ => cases hname

/-- What an operation fails with may be reported at any token. -/
theorem Op.CanFail.at {op : Op σ} {cause : Cause} (h : op.CanFail cause) (t : Token) :
    cause.At t := by
  cases cause with
  | operation e | fault f => trivial
  | reading e | linking e => cases h

/-! ## Places -/

section Placed

variable {lx : Lexicon} {source : String} {ts : List Lexeme}

/-- What is reported at a node of a formula is in its place. -/
theorem Expr.Reports.placed {x : Expr} {e : Error} (h : x.Reports e.offset (e.cause.Concerns ·))
    (hts : tokenize lx source = .ok ts) (hx : Syntax.NodePlaced ts x) (he : ∀ t, e.cause.At t) :
    e.Placed lx source := by
  obtain ⟨o, cause⟩ := e
  obtain ⟨rfl, hconcerns⟩ := h
  rcases hx with ⟨t, ht, hoffset, -⟩ | ⟨name, hname, hmember⟩
  · exact hoffset ▸ .token hts ht (he _)
  · obtain ⟨object, start, left, hfield, ho⟩ := hmember
    obtain ⟨front, c, cs, hsource, ⟨behind, hbehind⟩, hfront⟩ :=
      (Token.segments_of_tokenize hts).exists_member (hfield.subset List.mem_cons_self)
    have htext : source.toList = front ++ name.toList ++ behind := by
      rw [hsource, ← hbehind, List.append_assoc]
    have hplace : x.offset = byteLength front := (ho.trans hfront).trans (Nat.zero_add _)
    rw [hplace] at ho ⊢
    exact .member hts ⟨object, start, left, hfield, ho⟩ htext (hconcerns name hname)

/-- What cannot be cut or read is in its place. -/
theorem placed_of_read {units : List String} {settings : Settings} {e : Located SyntaxError}
    (h : Statement.read units settings source = .error e) :
    Error.Placed { units, separator := settings.decimalSeparator } source (e.map .reading) := by
  rcases of_bind_eq_error h with h | ⟨ts, hts, h⟩
  · obtain ⟨o, cause⟩ := e
    obtain ⟨before, c, behind, hreaches, rfl | ⟨rfl, rfl⟩⟩ := Token.tokenize_error h
    · exact .character hreaches
    · exact .quote hreaches
  · obtain ⟨o, cause⟩ := e
    rcases Syntax.ofLexemes_blamed h with ⟨rfl, hcause⟩ | ⟨t, ht, rfl, hat⟩
    · exact .stop hcause
    · exact .token hts ht hat

/-- What is reported at a character is within the text. -/
theorem Error.within_of_character {e : Error} {front behind : List Char} {c : Char}
    (h : source.toList = front ++ c :: behind) (ho : e.offset = 0 + byteLength front) :
    e.Within source := by
  have hlt : e.offset < source.utf8ByteSize := by
    rw [← Text.byteLength_toList, h, ho, Text.byteLength_append, Text.byteLength_cons]
    have := c.utf8Size_pos
    omega
  exact ⟨⟨front, c :: behind, h, ho.trans (Nat.zero_add _)⟩, Nat.le_of_lt hlt,
    fun heq => absurd heq (Nat.ne_of_lt hlt)⟩

/-- An error that is placed by its cause is between two characters or at the end: tokens and
    characters start there, and names of members within a field, too. -/
theorem Error.Placed.within {e : Error} (h : e.Placed lx source) : e.Within source := by
  cases h with
  | character hreaches | quote hreaches =>
    obtain ⟨front, hsource, ho⟩ := hreaches.exists_front
    exact within_of_character hsource ho
  | stop hcause =>
    exact ⟨⟨source.toList, [], (List.append_nil _).symm, (Text.byteLength_toList source).symm⟩,
      Nat.le_refl _, fun _ => hcause⟩
  | token hts ht _ =>
    obtain ⟨front, c, behind, hsource, ho⟩ := (Token.segments_of_tokenize hts).exists_front ht
    exact within_of_character hsource ho
  | member hts hmember _ _ =>
    obtain ⟨object, start, left, hfield, hplace⟩ := hmember
    obtain ⟨front, c, behind, hsource, _, ho⟩ :=
      (Token.segments_of_tokenize hts).exists_member (hfield.subset List.mem_cons_self)
    exact within_of_character hsource (hplace.trans ho)

end Placed

/-- Every error that a formula gives when it is compiled, and that its program gives when it
    is run, for whatever host, context and state, is reported in its place, which is within
    the text. -/
theorem placed_of_error {q : Program σ} {settings : Settings} {source : String} {e : Error}
    (h : (∃ p, q.compile host settings source = (p, .error e)) ∨
      ∃ p, q.compile host settings source = (p, .ok ()) ∧
        ∃ (c : Context) (s : σ), (p.run c s).result = .error e) :
    e.Placed { units := host.units.names, separator := settings.decimalSeparator } source ∧
      e.Within source := by
  suffices hplaced : e.Placed
      { units := host.units.names, separator := settings.decimalSeparator } source from
    ⟨hplaced, hplaced.within⟩
  simp only [Program.compile, Program.generate_arena] at h
  rcases hread : Statement.read host.units.names settings source with err | st <;>
    simp only [hread] at h
  · rcases h with ⟨p, h⟩ | ⟨p, h, _⟩ <;> cases h
    exact placed_of_read hread
  obtain ⟨ts, hts, hst⟩ := Syntax.exists_tokens_of_read hread
  rcases his : st.code host with err | is <;> simp only [his] at h
  · rcases h with ⟨p, h⟩ | ⟨p, h, _⟩ <;> cases h
    obtain ⟨x, hx, hlacks⟩ := Statement.exists_lacks his
    exact hlacks.reports.placed hts (hst.placed x hx) fun _ => trivial
  · rcases h with ⟨p, h⟩ | ⟨p, h, c, s, hrun⟩ <;> cases h
    obtain ⟨i, hi, hoffset, hfails⟩ := Program.run_error (Statement.code_ne_nil his) hrun
    obtain ⟨x, hx, hx', hconcerns⟩ := Statement.reportedAt_of_code his i hi
    exact Expr.Reports.placed ⟨hoffset.trans hx', fun name hname =>
      hfails.concerns (hconcerns name hname)⟩ hts (hst.placed x hx) hfails.at

/-- A function that is not known is reported behind the point, which is nine bytes and
    eight characters into the formula. -/
theorem placed_of_error_member :
    let x : Variable Unit := .fixed .undefined
    let host : Host Unit := { reference? := fun _ => some x, function? := fun _ => none }
    let e : Error := ⟨9, .linking (.unknownFunction "f")⟩
    Program.compile {} host {} "'é' + o.f()" = ({}, .error e) ∧ e.Placed {} "'é' + o.f()" := by
  intro x host e
  have hcompile : Program.compile {} host {} "'é' + o.f()" = ({}, .error e) := by cbv
  exact ⟨hcompile, (placed_of_error (.inl ⟨_, hcompile⟩)).1⟩

end Formula
