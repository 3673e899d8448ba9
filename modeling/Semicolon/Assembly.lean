import Semicolon.Text.Numeral

/-!
# Assembly text

The instructions that are emitted and executed, and how they are written.  Any name is a register;
`al` is the low byte of `rax`.
-/

namespace Semicolon

inductive Reg
  /-- The low byte of `rax`. -/
  | al
  | full (name : String)
deriving DecidableEq, Repr

namespace Reg

abbrev rax : Reg := full "rax"
abbrev rdi : Reg := full "rdi"
abbrev rdx : Reg := full "rdx"
abbrev rbp : Reg := full "rbp"
abbrev rsp : Reg := full "rsp"

def text : Reg → String
  | al => "al"
  | full name => name

def ofText (s : String) : Reg :=
  if s = "al" then al else full s

end Reg

inductive Operand
  | imm (value : Int64)
  | reg (r : Reg)
  /-- The word in memory at the address that a register holds. -/
  | mem (r : Reg)
deriving DecidableEq, Repr

def Operand.text : Operand → String
  | imm v => Text.decimal v
  | reg r => r.text
  | mem r => "[" ++ r.text ++ "]"

/-- Arithmetic in place. -/
inductive Arith
  | add | sub | imul
deriving DecidableEq, Repr

def Arith.text : Arith → String
  | add => "add"
  | sub => "sub"
  | imul => "imul"

/-- What a comparison can be asked. -/
inductive Cond
  | e | ne | l | le
deriving DecidableEq, Repr

def Cond.text : Cond → String
  | e => "e"
  | ne => "ne"
  | l => "l"
  | le => "le"

inductive Instr
  | push (src : Operand)
  | pop (dst : Reg)
  | mov (dst : Reg) (src : Operand)
  /-- `mov` into memory at the address that a register holds. -/
  | store (addr : Reg) (src : Operand)
  | arith (op : Arith) (dst : Reg) (src : Operand)
  | cqo
  | idiv (src : Operand)
  | cmp (left right : Operand)
  | setcc (c : Cond) (dst : Reg)
  | movzb (dst : Reg) (src : Operand)
  | ret
deriving DecidableEq, Repr

def Instr.text : Instr → String
  | push src => "push " ++ src.text
  | pop dst => "pop " ++ dst.text
  | mov dst src => "mov " ++ dst.text ++ ", " ++ src.text
  | store addr src => "mov [" ++ addr.text ++ "], " ++ src.text
  | arith op dst src => op.text ++ " " ++ dst.text ++ ", " ++ src.text
  | cqo => "cqo"
  | idiv src => "idiv " ++ src.text
  | cmp left right => "cmp " ++ left.text ++ ", " ++ right.text
  | setcc c dst => "set" ++ c.text ++ " " ++ dst.text
  | movzb dst src => "movzb " ++ dst.text ++ ", " ++ src.text
  | ret => "ret"

inductive Line
  /-- A directive or a label, flush left. -/
  | mark (text : String)
  /-- An instruction, indented. -/
  | instr (i : Instr)
deriving DecidableEq, Repr

def Line.text : Line → String
  | mark s => s
  | instr i => "  " ++ i.text

/-- The label at which a run starts. -/
def mainLabel : String := "main:"

end Semicolon
