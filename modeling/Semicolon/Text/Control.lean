import Semicolon.Text.Blank

/-!
# Control sequences

What is left of a text when nothing in it may drive a terminal.  A control sequence begins with the
character ESC, and `Control.next` says how a character continues or ends it.  `visible` leaves the
sequences out, and every control character but those that are white space.  White space in a short
sequence is kept and interrupts it: what follows is text up to the next control character, and with
that character the sequence goes on.
-/

namespace Semicolon.Text

/-- How far a control sequence has come. -/
inductive Control
  /-- Behind ESC. -/
  | escape
  /-- Behind ESC and an intermediate character, as in the choice of a character set. -/
  | intermediate
  /-- In a sequence for the screen, behind `ESC [`. -/
  | screen
  /-- At the beginning of a string for the device, behind `ESC P`. -/
  | device
  /-- Behind a parameter of a string for the device. -/
  | deviceParam
  /-- Behind an intermediate character of a string for the device. -/
  | deviceIntermediate
  /-- In a string that runs up to the terminator. -/
  | string
  /-- In a string for the operating system, behind `ESC ]`, which BEL ends. -/
  | system
deriving DecidableEq, Repr

namespace Control

/-- The string terminator, as one byte. -/
def terminator : UInt8 := 0x9c

/-- How a character leads on in a sequence; `none` if it is the last one. -/
def next (q : Control) (c : Char) : Option Control :=
  let n := c.toNat
  match q with
  | escape =>
    if n < 0x20 ∨ 0x7f ≤ n then some escape
    else if n < 0x30 then some intermediate
    else if c = '[' then some screen
    else if c = ']' then some system
    else if c = 'P' then some device
    else if c = 'X' ∨ c = '^' ∨ c = '_' then some string
    else none
  | intermediate => if n < 0x30 ∨ 0x7f ≤ n then some intermediate else none
  | screen => if n < 0x40 ∨ 0x7f ≤ n then some screen else none
  | device =>
    if n < 0x20 ∨ 0x7f ≤ n then some device
    else if n < 0x30 then some deviceIntermediate
    else if n < 0x40 then some deviceParam
    else some string
  | deviceParam =>
    if n < 0x20 ∨ 0x7f ≤ n then some deviceParam
    else if n < 0x30 then some deviceIntermediate
    else if n < 0x3c then some deviceParam
    else some string
  | deviceIntermediate => if n < 0x30 ∨ 0x7f ≤ n then some deviceIntermediate else some string
  | string => if (String.utf8EncodeChar c).contains terminator then none else some string
  | system => if c = '\x07' then none else some system

/-- Whether white space is kept inside a sequence. -/
def isShort : Control → Bool
  | escape | intermediate | screen => true
  | device | deviceParam | deviceIntermediate | string | system => false

end Control

/-- Where a text stands towards its control sequences. -/
inductive Showing
  /-- Outside of any. -/
  | plain
  | inside (q : Control)
  /-- In text behind white space in a sequence. -/
  | interrupted (q : Control)
deriving DecidableEq, Repr

/-- Whether a character can be shown: no control character but white space can. -/
def isShown (c : Char) : Bool :=
  isSpace c || (0x20 ≤ c.toNat && c.toNat != 0x7f)

namespace Showing

/-- Whether the character `c` is shown, and where the text stands behind it. -/
def step (s : Showing) (c : Char) : Bool × Showing :=
  if c = '\x1b' then
    (false, inside .escape)
  else if c = '\x18' ∨ c = '\x1a' then
    (false, plain)
  else
    match s with
    | plain => (isShown c, plain)
    | inside q =>
      if q.isShort && isSpace c && c != ' ' then
        (true, interrupted q)
      else
        match q.next c with
        | some q => (false, inside q)
        | none => (false, plain)
    | interrupted q =>
      if 0x80 ≤ c.toNat then (true, plain)
      else if isShown c then (true, interrupted q)
      else (false, inside q)

end Showing

/-- What is shown of a text. -/
def visibleFrom (s : Showing) : Text → Text
  | [] => []
  | c :: cs =>
    match s.step c with
    | (true, s) => c :: visibleFrom s cs
    | (false, s) => visibleFrom s cs

/-- A text without its control sequences. -/
def visible (cs : Text) : Text :=
  visibleFrom .plain cs

theorem step_plain {c : Char} (h : isShown c = true) : Showing.plain.step c = (true, .plain) := by
  have hEsc : c ≠ '\x1b' := by
    rintro rfl
    exact absurd h (by decide)
  have hCancel : ¬(c = '\x18' ∨ c = '\x1a') := by
    rintro (rfl | rfl) <;> exact absurd h (by decide)
  rw [Showing.step, if_neg hEsc, if_neg hCancel, h]

/-- Nothing is lost of a text without control characters. -/
theorem visible_eq_self {cs : Text} (h : ∀ c ∈ cs, isShown c = true) : visible cs = cs := by
  unfold visible
  induction cs with
  | nil => rfl
  | cons c cs ih =>
    rw [visibleFrom, step_plain (h c List.mem_cons_self)]
    exact congrArg (c :: ·) (ih fun d hd => h d (List.mem_cons_of_mem c hd))

end Semicolon.Text
