/-!
# Plain text

A text for a terminal holds more than what is shown: control characters, and
sequences of characters that set colours, move the cursor or talk to the device.
Elsewhere only the shown part is of use, and `plain` takes it out; tabs and line
breaks count as shown.

A sequence starts with the character ESC, and what is behind it tells how far the
sequence goes (`Sequence`). ESC always starts a new sequence, whatever it interrupts,
and CAN and SUB break any sequence off. A tab or line break *suspends* a sequence
that is not meant for the device: text is shown again, until another control
character resumes the sequence, or a character outside ASCII ends it.

* Text without control characters is shown as it is (`plainFrom_append`).
* Highlighting a text does not change what it shows (`plain_highlighted`).
-/

namespace Formula.Text

/-- The kinds of sequences, as far as they are known behind some of their characters. -/
inductive Sequence
  /-- Only ESC is known. -/
  | escape
  /-- ESC and some characters from the space to `/`; it ends at another one. -/
  | intermediate
  /-- A control sequence, `ESC [`; it ends at a character from `@` to `~`. -/
  | control
  /-- A string for the device, `ESC P`, of which nothing else is known. -/
  | device
  /-- A string for the device, with some of its parameters. -/
  | deviceParameters
  /-- A string for the device with some characters from the space to `/` behind its
      parameters. -/
  | deviceIntermediate
  /-- The rest of a string for the device or another receiver; it ends at the byte 9C. -/
  | string
  /-- A command to the window system, `ESC ]`; it ends at the character BEL. -/
  | command
  deriving DecidableEq

/-- Where in a text for a terminal a character stands. -/
inductive Place
  /-- In shown text, perhaps while a sequence is suspended. -/
  | shown (suspended : Option Sequence)
  /-- In a sequence. -/
  | within (s : Sequence)
  deriving DecidableEq

/-- Whether `c` is a tab or breaks a line. -/
def isLayout (c : Char) : Bool := c == '\t' || c == '\n' || c == '\x0c' || c == '\r'

/-- Whether `c` can be shown. -/
def isVisible (c : Char) : Bool := isLayout c || (0x20 ≤ c.toNat && c.toNat != 0x7F)

/-- Whether the code of `c` lies between `first` and `last`. -/
def isBetween (first last : Nat) (c : Char) : Bool := first ≤ c.toNat && c.toNat ≤ last

namespace Sequence

/-- Whether a tab or line break suspends the sequence. -/
def isSuspendable : Sequence → Bool
  | escape | intermediate | control => true
  | _ => false

/-- What comes behind `c`, a character of the sequence that does not break it off. -/
def continued (s : Sequence) (c : Char) : Place :=
  match s with
  | escape =>
    if isBetween 0x20 0x2F c then .within intermediate
    else if c = '[' then .within control
    else if c = ']' then .within command
    else if c = 'P' then .within device
    else if c = 'X' ∨ c = '^' ∨ c = '_' then .within string
    else if isBetween 0x30 0x7E c then .shown none
    else .within escape
  | intermediate => if isBetween 0x30 0x7E c then .shown none else .within intermediate
  | control => if isBetween 0x40 0x7E c then .shown none else .within control
  | device =>
    if isBetween 0x20 0x2F c then .within deviceIntermediate
    else if isBetween 0x30 0x3F c then .within deviceParameters
    else if isBetween 0x40 0x7E c then .within string
    else .within device
  | deviceParameters =>
    if isBetween 0x20 0x2F c then .within deviceIntermediate
    else if isBetween 0x3C 0x7E c then .within string
    else .within deviceParameters
  | deviceIntermediate =>
    if isBetween 0x30 0x7E c then .within string else .within deviceIntermediate
  -- The byte counts wherever it occurs, also as a part of a character.
  | string => if (String.utf8EncodeChar c).contains 0x9C then .shown none else .within string
  | command => if c = '\x07' then .shown none else .within command

/-- What comes behind `c`, a character of the sequence. -/
def next (s : Sequence) (c : Char) : Place :=
  if c = '\x1b' then .within escape
  else if c = '\x18' ∨ c = '\x1a' then .shown none
  else s.continued c

end Sequence

namespace Place

/-- Whether `c` is shown in this place. -/
def shows : Place → Char → Bool
  | shown _, c => isVisible c
  | within s, c => s.isSuspendable && isLayout c

/-- The place behind `c`, which is shown in this one. -/
def behindShown : Place → Char → Place
  | shown suspended, c => if c.toNat < 0x80 then shown suspended else shown none
  | within s, _ => shown (some s)

/-- The place behind `c`, which is not shown in this one. -/
def behindHidden : Place → Char → Place
  | shown none, c => if c = '\x1b' then within .escape else shown none
  | shown (some s), c => s.next c
  | within s, c => s.next c

end Place

/-- The shown part of `cs`, whose first character stands in the place `p`. -/
def plainFrom (p : Place) (cs : List Char) : List Char :=
  match cs with
  | [] => []
  | c :: cs =>
    if p.shows c then c :: plainFrom (p.behindShown c) cs else plainFrom (p.behindHidden c) cs

/-- The shown part of a text for a terminal. -/
def plain (s : String) : String := String.ofList (plainFrom (.shown none) s.toList)

/-- A text in bold letters on a terminal. -/
def highlighted (s : String) : String := "\x1b[1m" ++ s ++ "\x1b[0m"

theorem plainFrom_append {cs : List Char} (h : ∀ c ∈ cs, isVisible c) (ds : List Char) :
    plainFrom (.shown none) (cs ++ ds) = cs ++ plainFrom (.shown none) ds := by
  induction cs with
  | nil => rfl
  | cons c cs ih =>
    have hs : (Place.shown none).shows c := h c List.mem_cons_self
    have hn : (Place.shown none).behindShown c = .shown none := ite_self _
    rw [List.cons_append, plainFrom, if_pos hs, hn,
      ih fun d hd => h d (List.mem_cons_of_mem _ hd), List.cons_append]

/-- Highlighting is not seen in plain text. -/
theorem plain_highlighted {s : String} (h : ∀ c ∈ s.toList, isVisible c) :
    plain (highlighted s) = s := by
  have hs := plainFrom_append h "\x1b[0m".toList
  rw [plain, highlighted, String.toList_append, String.toList_append, List.append_assoc]
  exact (congrArg String.ofList (hs.trans (List.append_nil _))).trans String.ofList_toList

end Formula.Text
