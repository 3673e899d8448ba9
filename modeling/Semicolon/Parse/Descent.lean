import Semicolon.Event
import Semicolon.Grammar
import Semicolon.Program

/-!
# Parsing by descent

One routine for each nonterminal of the grammar, which calls the routines of its parts, so the open
calls take the place of the stack of `Parse.State`.  The routines move a cursor over any tokens,
with or without an end mark, and enter names into the table as they meet them.  Each name that is
new is reported at once, so the report is there also if parsing fails later on.

Nothing in the text of the routines bounds the calls.  So each call is given a `depth`, to which
further calls may be nested in it, and has no result if it would need more.  Every round of a
repetition counts as nested in the round before.
-/

namespace Semicolon

/-- The operators of a repetition, in the order in which they are looked for. -/
def Phrase.ops : Phrase → List Op
  | equality => [.eq, .ne]
  | relational => [.lt, .le, .gt, .ge]
  | add => [.add, .sub]
  | mul => [.mul, .div]
  | assign | unary | primary => []

namespace Descent

/-- What is parsed. -/
structure Input where
  source : Text
  tokens : List Token

/-- How an error is reported.  To quote a token without a text is a fault. -/
def Input.failure (input : Input) (e : ParseError) : Failure :=
  match e.diagnostic? input.source input.tokens with
  | some d => .diagnosed d
  | none => .faulted .badSpan

/-- The index of the next token, the table so far, and what was reported of it. -/
structure Cursor where
  pos : Nat := 0
  locals : Locals := {}
  log : List Event := []

namespace Cursor

def next (c : Cursor) : Cursor :=
  { c with pos := c.pos + 1 }

/-- Enters a name into the table, and reports it if it is new. -/
def enter (c : Cursor) (x : String) : Cursor :=
  { c with
    locals := (c.locals.declare x).2
    log :=
      match c.locals.find? x with
      | some _ => c.log
      | none => c.log ++ [.declared x (Locals.offset c.locals.length)] }

end Cursor

/-- A routine leaves the cursor somewhere also if it fails. -/
abbrev Parser := ReaderT Input (ExceptT Failure (StateT Cursor Option))

/-! ### Tokens -/

def peek : Parser (Option Token) := do
  return (← read).tokens[(← get).pos]?

def advance : Parser Unit :=
  modify Cursor.next

def failWith {α : Type} (e : ParseError) : Parser α := do
  throw ((← read).failure e)

/-- The text of a token, which has to have one. -/
def quote (t : Token) : Parser String := do
  match t.text? (← read).source with
  | some s => return s
  | none => throw (.faulted .badSpan)

/-- Takes the next token if it is of this kind and has this text.  The text is not looked at if the
kind or the length is another one. -/
def consume (kind : Token.Kind) (s : String) : Parser Bool := do
  match ← peek with
  | none => return false
  | some t =>
    if t.kind = kind ∧ t.len = s.utf8ByteSize then
      if (← quote t) = s then
        advance
        return true
      else
        return false
    else
      return false

def equal (p : Punct) : Parser Bool :=
  consume .punctuator p.text

def skip (p : Punct) (what : Expected) : Parser Unit := do
  unless ← equal p do
    failWith (.expected what (← get).pos)

/-- Takes the first of some operators that comes next. -/
def takeOp : List Op → Parser (Option Op)
  | [] => return none
  | op :: ops => do
    if ← equal op.punct then
      return some op
    else
      takeOp ops

def takeIdent : Parser (Option String) := do
  match ← peek with
  | none => return none
  | some t =>
    if t.kind = .ident then
      let x ← quote t
      advance
      return some x
    else
      return none

def number : Parser Int64 := do
  let index := (← get).pos
  match ← peek with
  | none => failWith (.expected .number index)
  | some t =>
    if t.kind = .num then
      match t.value with
      | none => failWith (.missingValue index)
      | some v =>
        advance
        return v
    else
      failWith (.expected .number index)

def declare (x : String) : Parser Nat :=
  modifyGet fun c => ((c.locals.declare x).1, c.enter x)

/-! ### Nonterminals -/

def unfinished {α : Type} : Parser α :=
  fun _ _ => none

mutual

def phrase : Nat → Phrase → Parser (Node Nat)
  | 0, _ => unfinished
  | depth + 1, .assign => do
    let start := (← get).pos
    let target ← phrase depth .equality
    let index := (← get).pos
    if ← equal .assign then
      match target with
      | .var _ => return .assign target (← phrase depth .assign)
      | _ => failWith (.notLvalue start index)
    else
      return target
  | depth + 1, .equality => do
    repeated depth .equality .relational (← phrase depth .relational)
  | depth + 1, .relational => do
    repeated depth .relational .add (← phrase depth .add)
  | depth + 1, .add => do
    repeated depth .add .mul (← phrase depth .mul)
  | depth + 1, .mul => do
    repeated depth .mul .unary (← phrase depth .unary)
  | depth + 1, .unary => do
    if ← equal .plus then
      phrase depth .primary
    else if ← equal .minus then
      return Sign.minus.node (← phrase depth .primary)
    else
      phrase depth .primary
  | depth + 1, .primary => do
    if ← equal .openParen then
      let e ← phrase depth .assign
      skip .closeParen .closeParen
      return e
    else
      match ← takeIdent with
      | some x => return .var (← declare x)
      | none => return .num (← number)

/-- The repetitions behind the operand `left`, with an operand `q` behind each operator. -/
def repeated : Nat → Phrase → Phrase → Node Nat → Parser (Node Nat)
  | 0, _, _, _ => unfinished
  | depth + 1, p, q, left => do
    match ← takeOp p.ops with
    | none => return left
    | some op => repeated depth p q (op.node left (← phrase depth q))

end

def stmt (depth : Nat) : Parser (Node Nat) := do
  let isRet ← consume .keyword Token.returnText
  let e ← phrase depth .assign
  skip .semicolon .semicolon
  return if isRet then .ret e else e

def atEnd : Parser Bool := do
  match ← peek with
  | none => return true
  | some t => return t.kind = .eof

/-- The statements up to the end, behind those that were parsed. -/
def body : Nat → List (Node Nat) → Parser (List (Node Nat))
  | 0, _ => unfinished
  | depth + 1, done => do
    if ← atEnd then
      return done
    else
      body depth (done ++ [← stmt depth])

def parse (depth : Nat) (source : Text) (tokens : List Token) :
    Option (Except Failure Program) :=
  (body depth [] { source, tokens } {}).map fun (result, c) =>
    result.map fun body => { body, locals := c.locals }

end Descent

end Semicolon
