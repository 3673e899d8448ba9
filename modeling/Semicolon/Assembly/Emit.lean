import Semicolon.Assembly
import Semicolon.Failure
import Semicolon.Program

/-!
# Code generation

The code of a node leaves its value on top of the stack.  A binary operator takes its two operands
from there, and each statement's value goes to `rax` before the next one runs.  Variables lie below
`rbp`.
-/

namespace Semicolon

/-- Whether a word can be pushed as it is. -/
def fitsImmediate (v : Int64) : Bool :=
  -0x80000000 ≤ v.toInt && v.toInt < 0x80000000

/-- Takes the operands of an operator from the stack, the right one first. -/
def popOperands : List Instr :=
  [.pop .rdi, .pop .rax]

/-- Leaves the answer of a comparison in `rax`. -/
def comparison (c : Cond) : List Instr :=
  [.cmp (.reg .rax) (.reg .rdi), .setcc c .al, .movzb .rax (.reg .al)]

/-- Computes an operator on `rax` and `rdi`, into `rax`. -/
def BinOp.code : BinOp → List Instr
  | add => [.arith .add .rax (.reg .rdi)]
  | sub => [.arith .sub .rax (.reg .rdi)]
  | mul => [.arith .imul .rax (.reg .rdi)]
  | div => [.cqo, .idiv (.reg .rdi)]
  | eq => comparison .e
  | ne => comparison .ne
  | lt => comparison .l
  | le => comparison .le

/-- Gives the frame back and returns. -/
def epilogue : List Instr :=
  [.mov .rsp (.reg .rbp), .pop .rbp, .ret]

/-- An offset as an operand. -/
def Operand.ofNat (n : Nat) : Operand :=
  imm (Int64.ofNat n)

namespace Node

/-- Pushes the address of a variable. -/
def emitAddress (locals : Locals) : Node Nat → Except Fault (List Instr)
  | var i =>
    match locals.get? i with
    | some (_, offset) =>
      .ok [.mov .rax (.reg .rbp), .arith .sub .rax (.ofNat offset), .push (.reg .rax)]
    | none => .error .unknownLocal
  | _ => .error .notLvalue

/-- Pushes the value of a node. -/
def emit (locals : Locals) : Node Nat → Except Fault (List Instr)
  | num v =>
    .ok (if fitsImmediate v then [.push (.imm v)] else [.mov .rax (.imm v), .push (.reg .rax)])
  | var i => do
    let address ← emitAddress locals (var i)
    return address ++ [.pop .rax, .mov .rax (.mem .rax), .push (.reg .rax)]
  | assign target value => do
    let address ← emitAddress locals target
    let value ← emit locals value
    return address ++ (value ++ (popOperands ++ [.store .rax (.reg .rdi), .push (.reg .rdi)]))
  | ret e => do
    let value ← emit locals e
    return value ++ .pop .rax :: epilogue
  | binary op left right => do
    let left ← emit locals left
    let right ← emit locals right
    return left ++ (right ++ (popOperands ++ (op.code ++ [.push (.reg .rax)])))

end Node

namespace Program

/-- Keeps the caller's frame and sets a new one aside. -/
def prologue (frameSize : Nat) : List Instr :=
  [.push (.reg .rbp), .mov .rbp (.reg .rsp), .arith .sub .rsp (.ofNat frameSize)]

/-- Statements in order, each of which leaves its value in `rax`. -/
def emitStmts (locals : Locals) : List (Node Nat) → Except Fault (List Instr)
  | [] => .ok []
  | stmt :: stmts => do
    let first ← stmt.emit locals
    let rest ← emitStmts locals stmts
    return first ++ .pop .rax :: rest

/-- An empty program has the value `0`. -/
def emitBody (p : Program) : Except Fault (List Instr) :=
  if p.body = [] then .ok [.mov .rax (.imm 0)] else emitStmts p.locals p.body

/-- The whole assembly file. -/
def emit (p : Program) : Except Fault (List Line) := do
  let body ← p.emitBody
  let code := prologue p.locals.frameSize ++ (body ++ epilogue)
  return [.mark ".intel_syntax noprefix", .mark ".global main", .mark mainLabel]
    ++ (code.map .instr ++ [.mark ".section .note.GNU-stack,\"\",@progbits"])

/-- The lines of the assembly file. -/
def generate (p : Program) : Except Fault (List String) :=
  p.emit.map fun lines => lines.map Line.text

end Program

end Semicolon
