import Formula.Program.Listing
import Formula.Proofs.Emission
import Formula.Proofs.Lexing.Places
import Formula.Proofs.Parsing.Acceptance
import Formula.Proofs.Parsing.Literals
import Formula.Proofs.Parsing.Places
import Formula.Text.Lines
import Mathlib

/-!
# Lines of a listing

The line of an instruction shows names of the formula, digits, and fixed words, in none of
which is a line feed (`Token.breaks_name`, `Decimal.breaks_text`), and texts as they are. So
an instruction has a line of its own unless it pushes a text with line feeds, which has as
many lines more as there are line feeds in it (`Expr.Emits.breaks_display`); where the lines
of the instructions begin is counted off the texts before them (`lines_listing`).
-/

namespace Formula

open Text (breaks)

variable {σ : Type} {host : Host σ}

/-! ## What has no line feed -/

namespace Text

/-- Breaks add up. -/
theorem breaks_append (s t : String) : breaks (s ++ t) = breaks s + breaks t := by
  rw [breaks, String.toList_append, List.count_append]
  rfl

theorem breaks_eq_zero {s : String} (h : '\n' ∉ s.toList) : breaks s = 0 :=
  List.count_eq_zero.2 h

/-- Texts without breaks have none together. -/
theorem sum_breaks_eq_zero {texts : List String} (h : ∀ t ∈ texts, '\n' ∉ t.toList) :
    (texts.map breaks).sum = 0 := by
  induction texts with
  | nil => rfl
  | cons t texts ih =>
    obtain ⟨ht, htexts⟩ := List.forall_mem_cons.1 h
    rw [List.map_cons, List.sum_cons, breaks_eq_zero ht, ih htexts]

theorem breaks_pushn {c : Char} (hc : c ≠ '\n') (n : Nat) : breaks ("".pushn c n) = 0 := by
  rw [String.pushn_eq_repeat_push]
  induction n with
  | zero => rfl
  | succ n ih =>
    rw [Nat.repeat, breaks, String.toList_push, List.count_append, List.count_singleton]
    simpa [hc, breaks] using ih

/-- A numeral is digits only. -/
theorem not_mem_toDigits (n : Nat) : '\n' ∉ Nat.toDigits 10 n := fun h => by
  have hdigit := Nat.isDigit_of_mem_toDigits (by decide) (by decide) h
  revert hdigit
  decide

theorem breaks_toString (n : Nat) : breaks (toString n) = 0 := by
  rw [Nat.toString_eq_ofList_toDigits]
  exact breaks_eq_zero (by rw [String.toList_ofList]; exact not_mem_toDigits n)

/-! ### Texts with lines of their own -/

/-- Chunks that are ended by a line feed are a line each, and one more for every break in
    them. -/
theorem length_lines_flatMap (chunks : List (List Char)) :
    (lines (chunks.flatMap (· ++ ['\n']))).length =
      chunks.length + (chunks.map (·.count '\n')).sum := by
  rw [lines_flatMap]
  induction chunks with
  | nil => rfl
  | cons cs chunks ih =>
    rw [List.flatMap_cons, List.length_append, ih, length_lines, List.length_cons, List.map_cons,
      List.sum_cons]
    omega

/-- A text begins the line that comes behind those of the texts before it. -/
theorem exists_line_flatMap {cs : List Char} (hne : cs ≠ []) (hcs : '\n' ∉ cs) (ds : List Char)
    (before behind : List (List Char)) :
    ∃ line, cs <+: line ∧
      (lines ((before ++ (cs ++ ds) :: behind).flatMap (· ++ ['\n'])))[before.length +
        (before.map (·.count '\n')).sum]? = some line := by
  obtain ⟨line, rest, hlines, hprefix⟩ := exists_lines_append hne hcs (ds ++ ['\n'])
  refine ⟨line, hprefix, ?_⟩
  rw [← length_lines_flatMap, lines_flatMap, lines_flatMap, List.flatMap_append,
    List.getElem?_append_right (Nat.le_refl _), Nat.sub_self, List.flatMap_cons,
    List.append_assoc, hlines]
  rfl

end Text

open Text

namespace Decimal

/-- A number that is written out is on one line. -/
theorem breaks_positional (n : Nat) (k : Int) : breaks (positional n k) = 0 := by
  refine breaks_eq_zero fun h => ?_
  have hdigits := not_mem_toDigits n
  have hpadded (m : Nat) : '\n' ∉ List.replicate m '0' ++ Nat.toDigits 10 n := by
    simpa [List.mem_replicate] using hdigits
  cases k with
  | ofNat k =>
    simp [positional, hdigits, List.mem_replicate] at h
  | negSucc k =>
    simp only [positional, String.toList_ofList, List.mem_append, List.mem_cons] at h
    rcases h with h | h | h
    · exact hpadded _ (List.mem_of_mem_take h)
    · exact absurd h (by decide)
    · exact hpadded _ (List.mem_of_mem_drop h)

/-- A number is on one line, be it finite or not. -/
theorem breaks_text (x : Float) : breaks (text x) = 0 := by
  have hsign : breaks (if x.toBits >>> 63 = 1 then "-" else "") = 0 := by
    split <;> decide
  unfold text
  simp only []
  split
  · rw [breaks_append, hsign]
    decide
  · split
    · rw [breaks_append, hsign]
      decide
    · split
      · decide
      · rw [breaks_append, hsign, breaks_positional]

end Decimal

/-! ## Names -/

/-- A name is on one line. -/
theorem Token.IsName.not_mem {cs : List Char} (h : IsName cs) : '\n' ∉ cs := by
  obtain ⟨c, ds, rfl, hc, hds⟩ := h
  rintro (_ | ⟨_, h⟩)
  · revert hc
    decide
  · have := hds _ h
    revert this
    decide

/-- The names of a formula are on one line. -/
theorem Token.breaks_name {lx : Lexicon} {source : String} {ts : List Lexeme}
    (h : tokenize lx source = .ok ts) {t : Lexeme} (ht : t ∈ ts) {name : String}
    (hname : name ∈ t.token.names) : breaks name = 0 := by
  obtain ⟨_, span, _, _, _, hcuts⟩ := (segments_of_tokenize h).exists_cut ht
  obtain ⟨token, o⟩ := t
  refine breaks_eq_zero ?_
  cases token with
  | name n =>
    obtain rfl := List.mem_singleton.1 hname
    cases hcuts with
    | plain hspells =>
      cases hspells with
      | name hn => exact hn.not_mem
      | sign hmem => simp [signs] at hmem
  | field o f =>
    cases hcuts with
    | plain hspells =>
      cases hspells with
      | field ho hf =>
        rcases hname with _ | ⟨_, hname⟩
        · exact ho.not_mem
        · obtain rfl := List.mem_singleton.1 hname
          exact hf.not_mem
      | sign hmem => simp [signs] at hmem
  | _ => cases hname

/-! ## Instructions -/

/-- The names in a node and in those under it are on one line. -/
def Expr.Plain (x : Expr) : Prop := ∀ y ∈ x.nodes, ∀ name ∈ y.names, breaks name = 0

/-- A reference is on one line if its names are. -/
theorem Reference.breaks_text {o : Nat} {r : Reference} (h : (Expr.reference o r).Plain) :
    breaks r.text = 0 := by
  have hself := h _ (Expr.mem_nodes_self _)
  cases r with
  | name n => exact hself n (by simp [Expr.names])
  | field object f =>
    rw [Reference.text, breaks_append, breaks_append, hself object (by simp [Expr.names]),
      hself f (by simp [Expr.names])]
    decide

/-- A reference is listed as it is written. -/
theorem Host.name_of_bind {o : Nat} {r : Reference} {b : Binding σ} (h : host.bind o r = .ok b) :
    b.name = r.text := by
  unfold bind at h
  split at h <;> cases h
  rfl

/-- An operation is written on one line, unless it shows a text with line feeds. -/
theorem Expr.Emits.breaks_display {x : Expr} {i : Instruction σ} (h : x.Emits host i)
    (hx : x.Plain) (s : σ) : breaks (i.op.display s) = (i.text?.map breaks).getD 0 := by
  have hself := hx _ (Expr.mem_nodes_self _)
  cases x with
  | number o n =>
    obtain ⟨v, hv, rfl⟩ := h
    obtain ⟨x, rfl⟩ := exists_number_of_literal hv
    show breaks ("PUSH_CONST " ++ Decimal.text x) = 0
    rw [breaks_append, Decimal.breaks_text]
    decide
  | text o t =>
    obtain rfl := h
    show breaks ("PUSH_CONST '" ++ t ++ "'") = breaks t
    rw [breaks_append, breaks_append]
    exact Nat.zero_add _
  | reference =>
    obtain ⟨b, hb, rfl | rfl⟩ := h
    · show breaks ("PUSH_VAR " ++ b.name ++ " (" ++ (b.target.kind s).name ++ ")") = 0
      simp only [breaks_append, Host.name_of_bind hb, Reference.breaks_text hx]
      cases b.target.kind s <;> decide
    · show breaks ("STORE " ++ b.name) = 0
      rw [breaks_append, Host.name_of_bind hb, Reference.breaks_text hx]
      decide
  | unary o op =>
    obtain rfl := h
    show breaks (Opcode.mnemonic (.unary op)) = 0
    cases op <;> decide
  | binary o op =>
    obtain rfl := h
    show breaks (Opcode.mnemonic (.binary op)) = 0
    cases op <;> decide
  | call o name args =>
    obtain ⟨f, _, rfl⟩ := h
    show breaks ("CALL " ++ name ++ "/" ++ toString args.length ++ "") = 0
    simp only [breaks_append, breaks_toString, hself name (by simp [Expr.names])]
    decide
  | method o e name args =>
    obtain ⟨o', r, b, f, rfl, hb, _, rfl⟩ := h
    have hr : breaks r.text = 0 := Reference.breaks_text (o := o') fun y hy =>
      hx y (List.mem_cons_of_mem _ (List.mem_append_left _ hy))
    show breaks ("CALL " ++ name ++ "/" ++ toString args.length ++ (" ON " ++ b.name)) = 0
    simp only [breaks_append, breaks_toString, hself name (by simp [Expr.names]),
      Host.name_of_bind hb, hr]
    decide

/-! ## Lines -/

/-- The line of an instruction behind its label, without its end. -/
def Instruction.tail (s : σ) (i : Instruction σ) : String :=
  "".pushn ' ' (4 - (toString i.offset).length) ++ " " ++ i.op.display s

/-- A line is a label, what stands behind it and a line feed. -/
theorem Instruction.line_eq (s : σ) (index : Nat) (i : Instruction σ) :
    i.line s index = i.label index ++ i.tail s ++ "\n" := by
  simp only [line, label, tail, String.append_assoc]

/-- A label is on one line. -/
theorem Instruction.breaks_label (index : Nat) (i : Instruction σ) :
    breaks (i.label index) = 0 := by
  simp only [label, breaks_append, breaks_pushn (show '0' ≠ '\n' by decide), breaks_toString]
  decide

/-- Behind its label the line of an instruction has the breaks of its text, if it has one. -/
theorem Expr.Emits.breaks_tail {x : Expr} {i : Instruction σ} (h : x.Emits host i)
    (hx : x.Plain) (s : σ) : breaks (i.tail s) = (i.text?.map breaks).getD 0 := by
  have hblank : breaks " " = 0 := by decide
  simp only [Instruction.tail, breaks_append, breaks_pushn (show ' ' ≠ '\n' by decide), hblank,
    h.breaks_display hx, Nat.zero_add]

/-- The instruction of a node whose names are on one line. -/
def Instruction.Regular (host : Host σ) (i : Instruction σ) : Prop :=
  ∃ x : Expr, x.Emits host i ∧ x.Plain

/-- The lines of instructions, the first of which has the place `n`, without their ends. -/
def bodies (s : σ) (is : List (Instruction σ)) (n : Nat) : List (List Char) :=
  (is.zipIdx n).map fun (i, index) => (i.label index).toList ++ (i.tail s).toList

/-- A listing is the lines of its instructions, each with its end. -/
theorem toList_listing (p : Program σ) (s : σ) :
    (p.listing s).toList = (bodies s p.code.toList 0).flatMap (· ++ ['\n']) := by
  rw [Program.listing, String.toList_join, bodies, List.flatMap_map, List.flatMap_map]
  refine List.flatMap_congr fun (i, index) _ => ?_
  simp only [Instruction.line_eq, String.toList_append]
  rfl

/-- All breaks within lines are those of texts. -/
theorem sum_count_bodies {is : List (Instruction σ)} (h : ∀ i ∈ is, i.Regular host) (s : σ)
    (n : Nat) :
    ((bodies s is n).map (·.count '\n')).sum =
      ((is.filterMap Instruction.text?).map breaks).sum := by
  induction is generalizing n with
  | nil => rfl
  | cons i is ih =>
    obtain ⟨⟨x, hemits, hplain⟩, his⟩ := List.forall_mem_cons.1 h
    have hlabel : (i.label n).toList.count '\n' = 0 := i.breaks_label n
    have htail : (i.tail s).toList.count '\n' = _ := hemits.breaks_tail hplain s
    have hrest := ih his (n + 1)
    rw [bodies] at hrest ⊢
    rw [List.zipIdx_cons, List.map_cons, List.map_cons, List.sum_cons, hrest, List.count_append,
      hlabel, htail, List.filterMap_cons]
    cases i.text? <;> simp

/-! ## Programs -/

/-- The text of a lexeme. -/
def Lexeme.text? (t : Lexeme) : Option String :=
  match t.token with
  | .text s => some s
  | _ => none

/-- The text of a node. -/
def Expr.text? : Expr → Option String
  | .text _ s => some s
  | _ => none

/-- The texts of a program are those of its formula. -/
theorem texts_of_code {depth : Nat} {ts : List Lexeme} {st : Statement}
    {is : List (Instruction σ)} (hst : Syntax.IsStatement depth ts st)
    (his : st.code host = .ok is) :
    ts.filterMap Lexeme.text? = is.filterMap Instruction.text? := by
  have hliteral (x : Expr) (hx : x.isLiteral = false) : x.text? = none := by
    cases x <;> first | rfl | cases hx
  rw [hst.filterMap_literals (fun ⟨token, o⟩ => by cases token <;> rfl) hliteral]
  rw [← List.forall₂_eq_eq_eq]
  refine Statement.forall₂_literals hliteral (fun x i hi => ?_) his
  cases x with
  | number o n =>
    obtain ⟨v, hv, rfl⟩ := hi
    obtain ⟨x, rfl⟩ := Expr.exists_number_of_literal hv
    exact .none
  | text o t =>
    obtain rfl := hi
    exact .some rfl
  | unary | binary =>
    obtain rfl := hi
    exact .none
  | reference =>
    obtain ⟨b, _, rfl | rfl⟩ := hi <;> exact .none
  | call =>
    obtain ⟨f, _, rfl⟩ := hi
    exact .none
  | method =>
    obtain ⟨_, _, _, _, _, _, _, rfl⟩ := hi
    exact .none

/-- The instructions of a formula come from nodes with names that are on one line. -/
theorem regular_of_code {depth : Nat} {lx : Lexicon} {source : String} {ts : List Lexeme}
    {st : Statement} {is : List (Instruction σ)} (hts : tokenize lx source = .ok ts)
    (hst : Syntax.IsStatement depth ts st) (his : st.code host = .ok is) :
    ∀ i ∈ is, i.Regular host := by
  intro i hi
  obtain ⟨x, hx, hemits⟩ := Statement.exists_emits his i hi
  refine ⟨x, hemits, fun y hy name hname => ?_⟩
  obtain ⟨t, ht, hname⟩ := (hst.placed y (Statement.nodes_subset_of_mem hx hy)).exists_name hname
  exact Token.breaks_name hts ht hname

/-- The line of an instruction comes behind those of the instructions before it. -/
theorem exists_line {before : List (Instruction σ)} (h : ∀ j ∈ before, j.Regular host)
    (i : Instruction σ) (behind : List (Instruction σ)) (s : σ) :
    ∃ line, (i.label before.length).toList <+: line ∧
      (Text.lines ((bodies s (before ++ i :: behind) 0).flatMap (· ++ ['\n'])))[before.length +
        ((before.filterMap Instruction.text?).map breaks).sum]? = some line := by
  have hne : (i.label before.length).toList ≠ [] := by
    simp [Instruction.label]
  have hlabel : '\n' ∉ (i.label before.length).toList :=
    List.count_eq_zero.1 (i.breaks_label before.length)
  obtain ⟨line, hprefix, hline⟩ := Text.exists_line_flatMap hne hlabel (i.tail s).toList
    (bodies s before 0) (bodies s behind (before.length + 1))
  refine ⟨line, hprefix, ?_⟩
  rw [sum_count_bodies h] at hline
  simpa [bodies, List.zipIdx_append, List.zipIdx_cons] using hline

/-- The listing of a program has a line for each instruction, and one more for each line feed
    in a text of the formula. The line of an instruction begins with its place, behind the
    lines of the instructions before it. So if there is no line feed in the texts, there are
    as many lines as instructions, and each line is that of the instruction in its place. -/
theorem lines_listing {p : Program σ} {settings : Settings} {source : String}
    (h : compile host settings source = .ok p) (s : σ) :
    let lines := Text.lines (p.listing s).toList
    ∃ ts, tokenize { units := host.units.names, separator := settings.decimalSeparator } source =
        .ok ts ∧
      ts.filterMap Lexeme.text? = p.code.toList.filterMap Instruction.text? ∧
      lines.length = p.size + ((ts.filterMap Lexeme.text?).map breaks).sum ∧
      (∀ (k : Nat) (i : Instruction σ), p.code[k]? = some i → ∃ line, (i.label k).toList <+: line ∧
        lines[k + (((p.code.toList.take k).filterMap Instruction.text?).map breaks).sum]? =
          some line) ∧
      ((∀ t ∈ ts.filterMap Lexeme.text?, '\n' ∉ t.toList) →
        lines.length = p.size ∧
          ∀ (k : Nat) (i : Instruction σ), p.code[k]? = some i → ∃ line, (i.label k).toList <+: line ∧
            lines[k]? = some line) := by
  rw [compile_eq] at h
  rcases hread : Statement.read host.units.names settings source with e | st <;>
    simp only [hread] at h
  · cases h
  obtain ⟨ts, hts, hst⟩ := Syntax.exists_tokens_of_read hread
  rcases his : st.code host with e | is <;> simp only [his] at h <;> cases h
  have hregular := regular_of_code hts hst his
  have htexts := texts_of_code hst his
  intro lines
  have hlines : lines = Text.lines ((bodies s is 0).flatMap (· ++ ['\n'])) :=
    congrArg Text.lines (toList_listing _ s)
  have hlength : lines.length = is.length + ((ts.filterMap Lexeme.text?).map breaks).sum := by
    rw [hlines, Text.length_lines_flatMap, sum_count_bodies hregular, htexts]
    simp [bodies]
  -- What is listed before instruction `k` takes a line each, and one more per line feed.
  have hline : ∀ (k : Nat) (i : Instruction σ), is[k]? = some i → ∃ line, (i.label k).toList <+: line ∧
      lines[k + (((is.take k).filterMap Instruction.text?).map breaks).sum]? = some line := by
    intro k i hk
    obtain ⟨hlt, rfl⟩ := List.getElem?_eq_some_iff.1 hk
    have hbefore : (is.take k).length = k := List.length_take_of_le (Nat.le_of_lt hlt)
    have hsplit : is.take k ++ is[k] :: is.drop (k + 1) = is := by
      rw [List.getElem_cons_drop, List.take_append_drop]
    have hearlier : ∀ j ∈ is.take k, j.Regular host :=
      fun j hj => hregular j (List.mem_of_mem_take hj)
    have hline := exists_line hearlier is[k] (is.drop (k + 1)) s
    rwa [hsplit, hbefore, ← hlines] at hline
  refine ⟨ts, hts, htexts, hlength, fun k i hk => hline k i (by simpa using hk), fun hplain => ?_⟩
  refine ⟨by rw [hlength, sum_breaks_eq_zero hplain]; rfl, fun k i hk => ?_⟩
  obtain ⟨line, hprefix, hline⟩ := hline k i (by simpa using hk)
  rw [htexts] at hplain
  have hbefore : (((is.take k).filterMap Instruction.text?).map breaks).sum = 0 :=
    sum_breaks_eq_zero fun t ht => hplain t (((List.take_sublist k is).filterMap _).subset ht)
  exact ⟨line, hprefix, by rwa [hbefore] at hline⟩

/-- A comparison of a text of two lines. -/
theorem lines_listing_comparison :
    let host : Host Unit := { reference? := fun _ => none, function? := fun _ => none }
    let p : Program Unit := ⟨#[⟨0, .const (.text "a\nb")⟩, ⟨10, .const (.text "c")⟩,
      ⟨7, .binary (.binary .equal)⟩]⟩
    compile host {} "'a\\nb' == 'c'" = .ok p ∧
      ∃ line, "0001 @10".toList <+: line ∧ (Text.lines (p.listing ()).toList)[2]? = some line := by
  intro host p
  have hcompile : compile host {} "'a\\nb' == 'c'" = .ok p := by cbv
  obtain ⟨_, -, -, -, hline, -⟩ := lines_listing hcompile ()
  exact ⟨hcompile, hline 1 ⟨10, .const (.text "c")⟩ rfl⟩

/-- The listing of a single instruction has two lines, and the second one does not begin with
    the place of an instruction. -/
theorem two_lines_of_text :
    let host : Host Unit := { reference? := fun _ => none, function? := fun _ => none }
    let p : Program Unit := ⟨#[⟨0, .const (.text "a\nb")⟩]⟩
    compile host {} "'a\\nb'" = .ok p ∧ p.size = 1 ∧
      Text.lines (p.listing ()).toList = ["0000 @0    PUSH_CONST 'a\n".toList, "b'\n".toList] := by
  refine ⟨by cbv, rfl, by cbv⟩

end Formula
