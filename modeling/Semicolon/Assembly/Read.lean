import Semicolon.Assembly
import Semicolon.Text.Blank

/-!
# Reading assembly text

A line is trimmed.  It is a mark if it starts with `.` or ends with `:`.  Otherwise the operation
ends at the first space, and what follows is cut at each `, ` into operands, of which empty ones do
not count.  `[r]` stands for memory where an operand is read or stored to, a numeral for its value
where one is read, and any other text for the register of that name.
-/

namespace Semicolon

namespace Text

/-- The pieces between the separators `, `. -/
def pieces : Text → List Text
  | [] => [[]]
  | ',' :: ' ' :: cs => [] :: pieces cs
  | c :: cs =>
    match pieces cs with
    | [] => [[c]]
    | p :: ps => (c :: p) :: ps

/-- What stands between `[` and `]`, if the text is so enclosed. -/
def bracketed? : Text → Option Text
  | '[' :: cs => if cs.getLast? = some ']' then some cs.dropLast else none
  | _ => none

end Text

/-- The register that a bracketed name stands in. -/
def Reg.bracketed? (s : Text) : Option Reg :=
  s.bracketed?.map fun name => ofText (String.ofList name)

def Operand.read (s : Text) : Operand :=
  match Reg.bracketed? s with
  | some r => mem r
  | none =>
    match Text.readWord? s with
    | some v => imm v
    | none => reg (.ofText (String.ofList s))

/-- The instruction of an operation and its operands. -/
def Instr.read? (op : String) (args : List Text) : Option Instr :=
  match op, args with
  | "push", [src] => some (push (.read src))
  | "pop", [dst] => some (pop (register dst))
  | "mov", [dst, src] =>
    match Reg.bracketed? dst with
    | some addr => some (store addr (.read src))
    | none => some (mov (register dst) (.read src))
  | "add", [dst, src] => some (arith .add (register dst) (.read src))
  | "sub", [dst, src] => some (arith .sub (register dst) (.read src))
  | "imul", [dst, src] => some (arith .imul (register dst) (.read src))
  | "cqo", [] => some cqo
  | "idiv", [src] => some (idiv (.read src))
  | "cmp", [left, right] => some (cmp (.read left) (.read right))
  | "sete", [dst] => some (setcc .e (register dst))
  | "setne", [dst] => some (setcc .ne (register dst))
  | "setl", [dst] => some (setcc .l (register dst))
  | "setle", [dst] => some (setcc .le (register dst))
  | "movzb", [dst, src] => some (movzb (register dst) (.read src))
  | "ret", [] => some ret
  | _, _ => none
where
  register (s : Text) : Reg := .ofText (String.ofList s)

/-- Reads a line; the error is the trimmed text of a line that is no instruction. -/
def Line.read (line : String) : Except String Line :=
  let text := Text.trim line.toList
  if text.head? = some '.' ∨ text.getLast? = some ':' then
    .ok (mark (String.ofList text))
  else
    let op := text.takeWhile (· != ' ')
    let args := (Text.pieces (text.drop (op.length + 1))).filter (· ≠ [])
    match Instr.read? (String.ofList op) args with
    | some i => .ok (instr i)
    | none => .error (String.ofList text)

end Semicolon
