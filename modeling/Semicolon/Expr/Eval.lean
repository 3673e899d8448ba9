import Semicolon.Expr
import Semicolon.Node.Eval

/-!
# The meaning of expressions as written

`Expr.eval` computes an expression without turning it into a tree first: operands from left to
right as they are written, those of `>` and `>=` too, and a sign as a change of sign.  It has no
value if it divides by zero or reads a variable that has none.
-/

namespace Semicolon

/-- The value of an operator as it is written. -/
def Op.apply? (op : Op) (a b : Int64) : Option Int64 :=
  match op with
  | eq => some (truth (a == b))
  | ne => some (truth (a != b))
  | lt => some (truth (a < b))
  | le => some (truth (a ≤ b))
  | gt => some (truth (a > b))
  | ge => some (truth (a ≥ b))
  | add => some (a + b)
  | sub => some (a - b)
  | mul => some (a * b)
  | div => if b = 0 then none else some (a / b)

def Sign.apply (s : Sign) (v : Int64) : Int64 :=
  match s with
  | plus => v
  | minus => -v

/-- The value of an expression, and the store after it. -/
def Expr.eval : Expr → Store String → Option (Int64 × Store String)
  | .num v, s => some (v, s)
  | .name x, s => (s x).map (·, s)
  | .paren e, s => e.eval s
  | .signed sign e, s => do
    let (v, s) ← e.eval s
    some (sign.apply v, s)
  | .binary op l r, s => do
    let (a, s) ← l.eval s
    let (b, s) ← r.eval s
    let v ← op.apply? a b
    some (v, s)
  | .assign t e, s => do
    let x ← t.place?
    let (v, s) ← e.eval s
    some (v, s.set x v)

/-- The value of some statements after one of value `last`. -/
def Stmt.evalAll (last : Int64) : List Stmt → Store String → Option Int64
  | [], _ => some last
  | .ret e :: _, s => (e.eval s).map (·.1)
  | .expr e :: stmts, s => do
    let (v, s) ← e.eval s
    evalAll v stmts s

end Semicolon
