import Semicolon.Word

/-!
# Expressions as written

The trees of the source language before any of its abbreviations is taken away: brackets, signs and
all ten binary operators are still there, so that the words of an expression can be read off it.
`Expr.place?` says which expressions can stand to the left of `=`.
-/

namespace Semicolon

/-- The binary operators. -/
inductive Op
  | eq | ne | lt | le | gt | ge | add | sub | mul | div
deriving DecidableEq, Repr

namespace Op

/-- How tightly an operator binds.  Operators of one level group to the left. -/
def level : Op → Nat
  | eq | ne => 1
  | lt | le | gt | ge => 2
  | add | sub => 3
  | mul | div => 4

def punct : Op → Punct
  | eq => .eqEq
  | ne => .notEq
  | lt => .lt
  | le => .le
  | gt => .gt
  | ge => .ge
  | add => .plus
  | sub => .minus
  | mul => .star
  | div => .slash

def ofPunct? : Punct → Option Op
  | .eqEq => some eq
  | .notEq => some ne
  | .lt => some lt
  | .le => some le
  | .gt => some gt
  | .ge => some ge
  | .plus => some add
  | .minus => some sub
  | .star => some mul
  | .slash => some div
  | .openParen | .closeParen | .assign | .semicolon => none

theorem ofPunct?_eq_some {p : Punct} {op : Op} : ofPunct? p = some op ↔ p = op.punct := by
  cases p <;> cases op <;> simp [ofPunct?, punct]

end Op

/-- The operator that a word is. -/
def Word.op? : Word → Option Op
  | .punct p => Op.ofPunct? p
  | _ => none

theorem Word.op?_eq_some {w : Word} {op : Op} : w.op? = some op ↔ w = .punct op.punct := by
  cases w with
  | punct p => simp [op?, Op.ofPunct?_eq_some]
  | _ => simp [op?]

/-- A sign in front of an operand. -/
inductive Sign
  | plus | minus
deriving DecidableEq, Repr

def Sign.punct : Sign → Punct
  | plus => .plus
  | minus => .minus

def Sign.ofPunct? : Punct → Option Sign
  | .plus => some plus
  | .minus => some minus
  | _ => none

theorem Sign.ofPunct?_eq_some {p : Punct} {s : Sign} : ofPunct? p = some s ↔ p = s.punct := by
  cases p <;> cases s <;> simp [ofPunct?, punct]

inductive Expr
  | num (value : Int64)
  | name (x : String)
  | paren (e : Expr)
  | signed (s : Sign) (e : Expr)
  | binary (op : Op) (left right : Expr)
  | assign (target value : Expr)
deriving DecidableEq, Repr

namespace Expr

/-- How tightly an expression is bound together: an assignment least, an operand without a sign
most. -/
def level : Expr → Nat
  | assign .. => 0
  | binary op .. => op.level
  | signed .. => 5
  | num _ | name _ | paren _ => 6

/-- The variable that an expression denotes, brackets and `+` signs aside. -/
def place? : Expr → Option String
  | name x => some x
  | paren e => place? e
  | signed .plus e => place? e
  | _ => none

def words : Expr → List Word
  | num v => [.num (some v)]
  | name x => [.ident x]
  | paren e => .punct .openParen :: (words e ++ [.punct .closeParen])
  | signed s e => .punct s.punct :: words e
  | binary op l r => words l ++ .punct op.punct :: words r
  | assign t v => words t ++ .punct .assign :: words v

/-- The variables of an expression, in the order in which they are written. -/
def names (e : Expr) : List String :=
  Word.names e.words

end Expr

inductive Stmt
  | expr (e : Expr)
  | ret (e : Expr)
deriving DecidableEq, Repr

namespace Stmt

def words : Stmt → List Word
  | expr e => e.words ++ [.punct .semicolon]
  | ret e => .ret :: (e.words ++ [.punct .semicolon])

def names (s : Stmt) : List String :=
  Word.names s.words

end Stmt

end Semicolon
