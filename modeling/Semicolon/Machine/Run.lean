import Semicolon.Assembly.Read
import Semicolon.Machine

/-!
# Running assembly text

A run starts behind the first label `main:` with one word on the stack, the address that the routine
has to return to.  There are no jumps, so it reads the lines one after the other until it returns:
`run` takes them off the list, and `runAt` leaves the list as it is and counts.
-/

namespace Semicolon

namespace Cond

def holds (c : Cond) (left right : Int64) : Bool :=
  match c with
  | e => left == right
  | ne => left != right
  | l => left < right
  | le => left ≤ right

end Cond

def Arith.apply (op : Arith) (a b : Int64) : Int64 :=
  match op with
  | add => a + b
  | sub => a - b
  | imul => a * b

namespace Machine

/-- Where the stack begins. -/
def stackTop : Int64 := 0x100000

/-- The address that `main` has to return to. -/
def returnAddress : Int64 := -1

/-- The machine before the first line of `main`. -/
def initial : Machine :=
  (({} : Machine).setReg .rsp (stackTop - 8)).write (stackTop - 8) returnAddress

/-- What follows an instruction. -/
inductive Next
  | goes (m : Machine)
  | returns (value : Int64)

/-- Returns to where `main` was called from, with all that was pushed popped again. -/
def return? (m : Machine) : Except Crash Int64 := do
  let (target, m) ← m.pop
  if target ≠ returnAddress then
    .error .bogusReturn
  else if m.reg .rsp ≠ stackTop then
    .error .unbalancedReturn
  else
    .ok (m.reg .rax)

/-- Executes one instruction. -/
def step (m : Machine) : Instr → Except Crash Next
  | .push src => do return .goes (← m.push (← m.value src))
  | .pop dst => do
    let (v, m) ← m.pop
    return .goes (m.setReg dst v)
  | .mov dst src => do return .goes (m.setReg dst (← m.value src))
  | .store addr src => do return .goes (m.write (m.reg addr) (← m.value src))
  | .arith op dst src => do return .goes (m.setReg dst (op.apply (m.reg dst) (← m.value src)))
  | .cqo => .ok (.goes (m.setReg .rdx (if m.reg .rax < 0 then -1 else 0)))
  | .idiv src => do
    let divisor ← m.value src
    if divisor = 0 then
      .error .divisionByZero
    else
      let dividend := m.reg .rax
      return .goes ((m.setReg .rax (dividend / divisor)).setReg .rdx (dividend % divisor))
  | .cmp left right => do return .goes { m with compared := (← m.value left, ← m.value right) }
  | .setcc c dst =>
    .ok (.goes (m.setReg dst (if c.holds m.compared.1 m.compared.2 then 1 else 0)))
  | .movzb dst src => do return .goes (m.setReg dst (lowByte (← m.value src)))
  | .ret => return .returns (← m.return?)

/-- Executes one line.  A mark does nothing. -/
def execLine (m : Machine) (line : String) : Except Crash Next :=
  match Line.read line with
  | .error text => .error (.unsupported text)
  | .ok (.mark _) => .ok (.goes m)
  | .ok (.instr i) => m.step i

/-- Runs the lines of a routine with a number of steps left.  Marks take a step too. -/
def run (m : Machine) : Nat → List String → Except Crash Int64
  | 0, _ => .error .stepLimit
  | _ + 1, [] => .error .fellOff
  | budget + 1, line :: lines =>
    match m.execLine line with
    | .error crash => .error crash
    | .ok (.returns v) => .ok v
    | .ok (.goes m) => m.run budget lines

/-- Runs some lines from the one at `pc` on, which moves by one with each step. -/
def runAt (m : Machine) (lines : List String) (pc : Nat) : Nat → Except Crash Int64
  | 0 => .error .stepLimit
  | budget + 1 =>
    match lines[pc]? with
    | none => .error .fellOff
    | some line =>
      match m.execLine line with
      | .error crash => .error crash
      | .ok (.returns v) => .ok v
      | .ok (.goes m) => m.runAt lines (pc + 1) budget

end Machine

/-- The lines behind the first label `main:`. -/
def routine? : List String → Option (List String)
  | [] => none
  | line :: lines => if line = mainLabel then some lines else routine? lines

/-- The result of the routine `main` in some lines of assembly. -/
def execute (lines : List String) : Except Crash Int64 :=
  match routine? lines with
  | none => .error .noMain
  | some lines => Machine.initial.run stepLimit lines

end Semicolon
