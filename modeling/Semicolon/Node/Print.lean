import Semicolon.Node
import Semicolon.Text.Numeral

/-!
# Writing nodes

`Node.expr` writes a tree as an expression with brackets only where a part binds less tightly than
its place asks for.  An operator takes its own level to the left and the next tighter one to the
right; an assignment takes any expression to the right.  `Word.typed` spells words out with text of
one's choice behind each of them.
-/

namespace Semicolon

/-- How an operator is written. -/
def BinOp.op : BinOp → Op
  | add => .add
  | sub => .sub
  | mul => .mul
  | div => .div
  | eq => .eq
  | ne => .ne
  | lt => .lt
  | le => .le

/-- An expression in a place for those that bind at least as tightly as `level`. -/
def Expr.atLevel (level : Nat) (e : Expr) : Expr :=
  if level ≤ e.level then e else .paren e

/-- A return is written where a statement begins and nowhere else, so inside a tree only its operand
is. -/
def Node.expr : Node String → Expr
  | num v => .num v
  | var x => .name x
  | binary op l r => .binary op.op (l.expr.atLevel op.op.level) (r.expr.atLevel (op.op.level + 1))
  | assign t v => .assign (t.expr.atLevel 1) v.expr
  | ret e => e.expr

def Node.stmt : Node String → Stmt
  | ret e => .ret e.expr
  | e => .expr e.expr

namespace Word

/-- How a word is written; a number without a value is not. -/
def spelling : Word → Text
  | punct p => p.text.toList
  | ret => Token.returnText.toList
  | ident x => x.toList
  | num (some v) => (Text.decimal v).toList
  | num none | other => []

/-- Words with a text behind each. -/
def typed (ws : List (Word × Text)) : Text :=
  ws.flatMap fun (w, gap) => w.spelling ++ gap

end Word

@[simp] theorem BinOp.node_op {ν : Type} (op : BinOp) (l r : Node ν) :
    op.op.node l r = .binary op l r := by
  cases op <;> rfl

@[simp] theorem Expr.node_atLevel (level : Nat) (e : Expr) : (e.atLevel level).node = e.node := by
  unfold atLevel
  split <;> rfl

/-- Whether no return stands in a tree. -/
def Node.noRet {ν : Type} : Node ν → Bool
  | num _ | var _ => true
  | binary _ l r => l.noRet && r.noRet
  | assign t v => t.noRet && v.noRet
  | ret _ => false

/-- Writing loses nothing of a tree without returns. -/
theorem Node.node_expr {n : Node String} (h : n.noRet = true) : n.expr.node = n := by
  induction n with
  | num v => rfl
  | var x => rfl
  | binary op l r ihl ihr =>
    simp only [noRet, Bool.and_eq_true] at h
    simp [expr, Expr.node, ihl h.1, ihr h.2]
  | assign t v iht ihv =>
    simp only [noRet, Bool.and_eq_true] at h
    simp [expr, Expr.node, iht h.1, ihv h.2]
  | ret e => simp [noRet] at h

end Semicolon
