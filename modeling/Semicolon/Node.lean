import Semicolon.Expr

/-!
# Nodes

The trees that are computed: eight operators, no signs and no brackets.  `Expr.node` takes an
expression to its tree: `a > b` becomes `b < a`, and `-a` becomes `0 - a`.  Variables are of any
type: names at first, then indices into a table.
-/

namespace Semicolon

/-- The operators that are computed. -/
inductive BinOp
  | add | sub | mul | div | eq | ne | lt | le
deriving DecidableEq, Repr

inductive Node (ν : Type)
  | num (value : Int64)
  | var (x : ν)
  | binary (op : BinOp) (left right : Node ν)
  | assign (target value : Node ν)
  | ret (e : Node ν)
deriving DecidableEq, Repr

namespace Node

variable {ν μ : Type}

/-- Renames every variable. -/
def map (f : ν → μ) : Node ν → Node μ
  | num v => num v
  | var x => var (f x)
  | binary op l r => binary op (l.map f) (r.map f)
  | assign t v => assign (t.map f) (v.map f)
  | ret e => ret (e.map f)

/-- The variables, from left to right. -/
def vars : Node ν → List ν
  | num _ => []
  | var x => [x]
  | binary _ l r => l.vars ++ r.vars
  | assign t v => t.vars ++ v.vars
  | ret e => e.vars

theorem vars_map (f : ν → μ) (n : Node ν) : (n.map f).vars = n.vars.map f := by
  induction n with
  | num v => rfl
  | var x => rfl
  | binary op l r ihl ihr => simp [map, vars, ihl, ihr]
  | assign t v iht ihv => simp [map, vars, iht, ihv]
  | ret e ih => simp [map, vars, ih]

end Node

/-- The node of an operator between two operands. -/
def Op.node {ν : Type} (op : Op) (l r : Node ν) : Node ν :=
  match op with
  | .add => .binary .add l r
  | .sub => .binary .sub l r
  | .mul => .binary .mul l r
  | .div => .binary .div l r
  | .eq => .binary .eq l r
  | .ne => .binary .ne l r
  | .lt => .binary .lt l r
  | .le => .binary .le l r
  | .gt => .binary .lt r l
  | .ge => .binary .le r l

/-- The node of an operand under a sign. -/
def Sign.node {ν : Type} (s : Sign) (e : Node ν) : Node ν :=
  match s with
  | .plus => e
  | .minus => .binary .sub (.num 0) e

def Expr.node : Expr → Node String
  | .num v => .num v
  | .name x => .var x
  | .paren e => e.node
  | .signed s e => s.node e.node
  | .binary op l r => op.node l.node r.node
  | .assign t v => .assign t.node v.node

def Stmt.node : Stmt → Node String
  | .expr e => e.node
  | .ret e => .ret e.node

/-- An expression denotes a variable exactly when its tree is one. -/
theorem Expr.place?_eq_some {e : Expr} {x : String} : e.place? = some x ↔ e.node = .var x := by
  induction e with
  | num v => simp [place?, node]
  | name y => simp [place?, node]
  | paren e ih => simpa [place?, node] using ih
  | signed s e ih => cases s <;> simp [place?, node, Sign.node, ih]
  | binary op l r => cases op <;> simp [place?, node, Op.node]
  | assign t v => simp [place?, node]

end Semicolon
