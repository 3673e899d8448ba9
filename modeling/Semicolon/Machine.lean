import Semicolon.Assembly
import Std.Data.TreeMap
import Std.Data.TreeMap.Lemmas

/-!
# The machine

Registers, memory in words of eight bytes, and the two sides of the last comparison.  A register
that was never set holds `0`; memory that was never written cannot be read.  `reg_setReg` and
`read?_write` say what is found after a change.
-/

namespace Semicolon

/-- Why a run ends without a result. -/
inductive Crash
  | noMain
  | fellOff
  | stepLimit
  | uninitialisedRead (addr : Int64)
  | emptyPop (addr : Int64)
  | divisionByZero
  | bogusReturn
  | unbalancedReturn
  | unsupported (line : String)
  /-- The stack pointer would leave the range of a word. -/
  | pointerOverflow
deriving DecidableEq, Repr

/-- The machine can make this many steps. -/
def stepLimit : Nat := 1000000

namespace Crash

/-- What is reported; a stack pointer out of range stops the machine without a word. -/
def message? : Crash → Option String
  | noMain => some "no main label"
  | fellOff => some "fell off the end of the routine"
  | stepLimit => some ("program did not return within " ++ Nat.repr Semicolon.stepLimit ++ " steps")
  | uninitialisedRead addr => some ("read of uninitialised address " ++ Text.hex addr)
  | emptyPop addr => some ("pop from empty slot " ++ Text.hex addr)
  | divisionByZero => some "division by zero"
  | bogusReturn => some "returned to a bogus address"
  | unbalancedReturn => some "stack not balanced on return"
  | unsupported line => some ("unsupported instruction: " ++ line)
  | pointerOverflow => none

end Crash

structure Machine where
  regs : Std.TreeMap String Int64 := {}
  memory : Std.TreeMap Int64 Int64 := {}
  /-- The two sides of the last comparison. -/
  compared : Int64 × Int64 := (0, 0)

namespace Machine

/-- Keeps the low byte of a word. -/
def lowByte (v : Int64) : Int64 :=
  v &&& 0xff

def full (m : Machine) (name : String) : Int64 :=
  m.regs.getD name 0

def reg (m : Machine) : Reg → Int64
  | .al => lowByte (m.full "rax")
  | .full name => m.full name

def setFull (m : Machine) (name : String) (v : Int64) : Machine :=
  { m with regs := m.regs.insert name v }

/-- Sets a register.  The rest of `rax` stays when its low byte is set. -/
def setReg (m : Machine) (r : Reg) (v : Int64) : Machine :=
  match r with
  | .al => m.setFull "rax" ((m.full "rax" &&& ~~~0xff) ||| lowByte v)
  | .full name => m.setFull name v

def read? (m : Machine) (addr : Int64) : Option Int64 :=
  m.memory[addr]?

def write (m : Machine) (addr v : Int64) : Machine :=
  { m with memory := m.memory.insert addr v }

/-- The value of an operand. -/
def value (m : Machine) : Operand → Except Crash Int64
  | .imm v => .ok v
  | .reg r => .ok (m.reg r)
  | .mem r =>
    match m.read? (m.reg r) with
    | some v => .ok v
    | none => .error (.uninitialisedRead (m.reg r))

/-- Moves an address, if it stays in range. -/
def advance (addr : Int64) (delta : Int) : Except Crash Int64 :=
  let target := addr.toInt + delta
  if -0x8000000000000000 ≤ target ∧ target < 0x8000000000000000 then
    .ok (Int64.ofInt target)
  else
    .error .pointerOverflow

def push (m : Machine) (v : Int64) : Except Crash Machine := do
  let top ← advance (m.reg .rsp) (-8)
  return (m.setReg .rsp top).write top v

/-- The word on top of the stack, and the machine without it. -/
def pop (m : Machine) : Except Crash (Int64 × Machine) := do
  let top := m.reg .rsp
  match m.read? top with
  | none => .error (.emptyPop top)
  | some v => return (v, m.setReg .rsp (← advance top 8))

@[simp] theorem full_setFull (m : Machine) (x y : String) (v : Int64) :
    (m.setFull x v).full y = if x = y then v else m.full y := by
  simp only [full, setFull, Std.TreeMap.getD_insert, Std.compare_eq_iff_eq]

@[simp] theorem read?_setFull (m : Machine) (x : String) (v addr : Int64) :
    (m.setFull x v).read? addr = m.read? addr := rfl

theorem read?_setReg (m : Machine) (r : Reg) (v addr : Int64) :
    (m.setReg r v).read? addr = m.read? addr := by
  cases r <;> rfl

theorem reg_setReg (m : Machine) (x y : String) (v : Int64) :
    (m.setReg (.full x) v).reg (.full y) = if x = y then v else m.reg (.full y) :=
  full_setFull m x y v

@[simp] theorem reg_write (m : Machine) (addr v : Int64) (r : Reg) :
    (m.write addr v).reg r = m.reg r := by
  cases r <;> rfl

theorem read?_write (m : Machine) (a b v : Int64) :
    (m.write a v).read? b = if a = b then some v else m.read? b := by
  simp only [read?, write, Std.TreeMap.getElem?_insert, Std.compare_eq_iff_eq]

end Machine

end Semicolon
