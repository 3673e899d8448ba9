import Semicolon.Diagnostic
import Semicolon.Expr

/-!
# Reading statements

Words are read one at a time.  Between two words the reader is between two statements, or it wants
an operand, or it has one and can take an operator; `State` says which, and keeps what is still
open: brackets, assignments that wait for their value, and operators that wait for their right
operand.  An operator takes as its left operand all that binds at least as tightly, so operators of
one level group to the left; assignments wait until their statement or bracket ends, so they group
to the right.
-/

namespace Semicolon

/-- What the grammar wants at a place where it can name one thing. -/
inductive Expected
  | number | semicolon | closeParen
deriving DecidableEq, Repr

def Expected.text : Expected → String
  | number => "a number"
  | semicolon => "\";\""
  | closeParen => "\")\""

/-- Why some words are no program.  Words are counted from `0`. -/
inductive ParseError
  /-- The word at `index`, or the end of the input there, is not what is wanted. -/
  | expected (what : Expected) (index : Nat)
  /-- The word at `index` is a number without a value. -/
  | missingValue (index : Nat)
  /-- The `=` at `index` follows a phrase, from `phrase` on, that denotes no variable. -/
  | notLvalue (phrase index : Nat)
deriving DecidableEq, Repr

namespace Parse

/-- What is open at one bracket depth. -/
structure Level where
  /-- Where the phrase begins that a following `=` would assign to. -/
  start : Nat
  /-- The targets of the assignments that wait for their value, the last one first. -/
  targets : List Expr := []
  /-- The operators that wait for their right operand, with their left one, the last one first. -/
  pending : List (Expr × Op) := []
deriving DecidableEq, Repr

/-- An open bracket: what was open before it, and its sign. -/
structure Bracket where
  outside : Level
  sign : Option Sign
deriving DecidableEq, Repr

/-- The operand `e` under the sign that was read before it. -/
def underSign (sign : Option Sign) (e : Expr) : Expr :=
  match sign with
  | some s => .signed s e
  | none => e

/-- Gives `e` as right operand to each of the waiting operators that binds at least as tightly as
`level`, from the last one on. -/
def collapse (level : Nat) : List (Expr × Op) → Expr → List (Expr × Op) × Expr
  | [], e => ([], e)
  | (l, op) :: rest, e =>
    if level ≤ op.level then collapse level rest (.binary op l e) else ((l, op) :: rest, e)

namespace Level

/-- The right side of the last `=`, if it ends with the operand `e`. -/
def side (lv : Level) (e : Expr) : Expr :=
  (collapse 0 lv.pending e).2

/-- The whole expression, if it ends with the operand `e`. -/
def close (lv : Level) (e : Expr) : Expr :=
  lv.targets.foldl (fun value target => .assign target value) (lv.side e)

/-- What is open after an operator behind the operand `e`. -/
def shift (lv : Level) (op : Op) (e : Expr) : Level :=
  let (rest, left) := collapse op.level lv.pending e
  { lv with pending := (left, op) :: rest }

/-- What is open after a `=` behind the operand `e`, if the next word has the given index. -/
def assign (lv : Level) (e : Expr) (index : Nat) : Level :=
  { start := index, targets := lv.side e :: lv.targets }

end Level

inductive State
  /-- Between two statements. -/
  | start
  /-- An operand is wanted, which a sign may stand before. -/
  | operand (isRet : Bool) (outer : List Bracket) (here : Level) (sign : Option Sign)
  /-- An operand was read. -/
  | operator (isRet : Bool) (outer : List Bracket) (here : Level) (left : Expr)
deriving DecidableEq, Repr

/-- What an error asks for. -/
def State.wants : State → Expected
  | .start | .operand .. => .number
  | .operator _ [] .. => .semicolon
  | .operator _ (_ :: _) .. => .closeParen

/-- The state in which a phrase begins at the word `index`. -/
def State.phrase (isRet : Bool) (outer : List Bracket) (index : Nat) : State :=
  .operand isRet outer { start := index } none

def statement (isRet : Bool) (e : Expr) : Stmt :=
  if isRet then .ret e else .expr e

/-- Reads the word at `index` where an operand is wanted. -/
def readOperand (index : Nat) (isRet : Bool) (outer : List Bracket) (here : Level)
    (sign : Option Sign) (w : Word) : Except ParseError State :=
  match w with
  | .ident x => .ok (.operator isRet outer here (underSign sign (.name x)))
  | .num (some v) => .ok (.operator isRet outer here (underSign sign (.num v)))
  | .num none => .error (.missingValue index)
  | .punct p =>
    if p = .openParen then
      .ok (.phrase isRet ({ outside := here, sign } :: outer) (index + 1))
    else
      match Sign.ofPunct? p, sign with
      | some s, none => .ok (.operand isRet outer here (some s))
      | _, _ => .error (.expected .number index)
  | .ret | .other => .error (.expected .number index)

/-- Reads the word at `index` after the operand `left`, and gives the statement that it ends, if
any. -/
def readOperator (index : Nat) (isRet : Bool) (outer : List Bracket) (here : Level) (left : Expr)
    (w : Word) : Except ParseError (Option Stmt × State) :=
  match w, outer with
  | .punct .assign, outer =>
    match (here.side left).place? with
    | some _ => .ok (none, .operand isRet outer (here.assign left (index + 1)) none)
    | none => .error (.notLvalue here.start index)
  | .punct .closeParen, b :: outer =>
    .ok (none, .operator isRet outer b.outside (underSign b.sign (.paren (here.close left))))
  | .punct .semicolon, [] => .ok (some (statement isRet (here.close left)), .start)
  | w, outer =>
    match w.op? with
    | some op => .ok (none, .operand isRet outer (here.shift op left) none)
    | none => .error (.expected (State.operator isRet outer here left).wants index)

/-- Reads the word at `index`, and gives the statement that it ends, if any. -/
def State.step (index : Nat) (w : Word) : State → Except ParseError (Option Stmt × State)
  | .start =>
    if w = .ret then
      .ok (none, .phrase true [] (index + 1))
    else
      (readOperand index false [] { start := index } none w).map (none, ·)
  | .operand isRet outer here sign => (readOperand index isRet outer here sign w).map (none, ·)
  | .operator isRet outer here left => readOperator index isRet outer here left w

/-- Reads the words from `index` on. -/
def readFrom (index : Nat) (s : State) : List Word → Except ParseError (List Stmt)
  | [] =>
    match s with
    | .start => .ok []
    | s => .error (.expected s.wants index)
  | w :: ws =>
    match s.step index w with
    | .error e => .error e
    | .ok (done, s) => (readFrom (index + 1) s ws).map (done.toList ++ ·)

end Parse

/-- The statements that some words are. -/
def Stmt.parse (ws : List Word) : Except ParseError (List Stmt) :=
  Parse.readFrom 0 .start ws

namespace ParseError

/-- How many words were accepted before the error was found. -/
def consumed : ParseError → Nat
  | expected _ index | missingValue index => index
  | notLvalue _ index => index + 1

/-- Where the word at `index` stands; the end of the source if there is none. -/
def locOf (source : Text) (tokens : List Token) (index : Nat) : Nat :=
  match tokens[index]? with
  | some t => t.loc
  | none => source.byteLength

/-- The diagnostic for an error in the words of `tokens`.  There is none if it has to quote a token
whose span has no text. -/
def diagnostic? (source : Text) (tokens : List Token) : ParseError → Option Diagnostic
  | expected what index =>
    (Token.describe? source tokens[index]?).map fun got =>
      report index ("expected " ++ what.text ++ ", but got \"" ++ got ++ "\"")
  | missingValue index => some (report index "internal error: numeric token missing value")
  | notLvalue phrase _ => some (report phrase "not an lvalue")
where
  report (index : Nat) (message : String) : Diagnostic :=
    Diagnostic.about .parse source (locOf source tokens index) message

end ParseError

/-- How many words are accepted of some words. -/
def Stmt.consumed (ws : List Word) : Nat :=
  match Stmt.parse ws with
  | .ok _ => ws.length
  | .error e => e.consumed

end Semicolon
