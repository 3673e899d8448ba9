import Semicolon.Node

/-!
# The meaning of nodes

`Node.eval` computes a tree over a store in which some variables have values.  The left operand
comes before the right one, arithmetic wraps around, and a division is cut off toward zero.  A
return stops everything at once, so it is one of the ways in which an evaluation stops.
-/

namespace Semicolon

/-- The values of the variables that have one. -/
abbrev Store (ν : Type) := ν → Option Int64

namespace Store

variable {ν : Type} [DecidableEq ν]

def empty : Store ν := fun _ => none

def set (s : Store ν) (x : ν) (v : Int64) : Store ν :=
  fun y => if y = x then some v else s y

@[simp] theorem set_self (s : Store ν) (x : ν) (v : Int64) : s.set x v x = some v := by
  simp [set]

theorem set_of_ne (s : Store ν) {x y : ν} (v : Int64) (h : y ≠ x) : s.set x v y = s y := by
  simp [set, h]

end Store

/-- A truth value as a word. -/
def truth (b : Bool) : Int64 :=
  if b then 1 else 0

/-- The value of an operator; a division by zero has none. -/
def BinOp.apply? (op : BinOp) (a b : Int64) : Option Int64 :=
  match op with
  | add => some (a + b)
  | sub => some (a - b)
  | mul => some (a * b)
  | div => if b = 0 then none else some (a / b)
  | eq => some (truth (a == b))
  | ne => some (truth (a != b))
  | lt => some (truth (a < b))
  | le => some (truth (a ≤ b))

/-- How an evaluation stops early. -/
inductive Stop (ν : Type)
  | returned (v : Int64)
  | divisionByZero
  /-- The variable has no value yet. -/
  | unassigned (x : ν)
  /-- The target of an assignment is no variable. -/
  | notLvalue
deriving DecidableEq, Repr

namespace Node

variable {ν : Type} [DecidableEq ν]

/-- The value of a node, and the store after it. -/
def eval : Node ν → Store ν → Except (Stop ν) (Int64 × Store ν)
  | num v, s => .ok (v, s)
  | var x, s =>
    match s x with
    | some v => .ok (v, s)
    | none => .error (.unassigned x)
  | binary op l r, s => do
    let (a, s) ← l.eval s
    let (b, s) ← r.eval s
    match op.apply? a b with
    | some v => .ok (v, s)
    | none => .error .divisionByZero
  | assign (var x) e, s => do
    let (v, s) ← e.eval s
    .ok (v, s.set x v)
  | assign _ _, _ => .error .notLvalue
  | ret e, s => do
    let (v, _) ← e.eval s
    .error (.returned v)

/-- The value of some statements after one of value `last`: that of the first return, else that of
the last statement. -/
def evalAll (last : Int64) : List (Node ν) → Store ν → Except (Stop ν) Int64
  | [], _ => .ok last
  | n :: ns, s =>
    match n.eval s with
    | .ok (v, s) => evalAll v ns s
    | .error (.returned v) => .ok v
    | .error stop => .error stop

end Node

end Semicolon
