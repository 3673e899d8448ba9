import Semicolon.Node

/-!
# The grammar

    program    = stmt*
    stmt       = expr ";" | "return" expr ";"
    expr       = assign
    assign     = equality ("=" assign)?
    equality   = relational ("==" relational | "!=" relational)*
    relational = add ("<" add | "<=" add | ">" add | ">=" add)*
    add        = mul ("+" mul | "-" mul)*
    mul        = unary ("*" unary | "/" unary)*
    unary      = ("+" | "-")? primary
    primary    = num | ident | "(" expr ")"

A `Derivation p` is a derivation from the nonterminal `p`, with its words and its tree.  A
repetition nests to the left, so a longer one is made from a shorter one and one more operand.
`Allowed` is the one condition that is not context-free: the phrase to the left of `=` has to be a
variable.
-/

namespace Semicolon

/-- The nonterminals inside a statement. -/
inductive Phrase
  | assign | equality | relational | add | mul | unary | primary
deriving DecidableEq, Repr

namespace Phrase

/-- The nonterminal whose repetitions an operator joins. -/
def ofOp : Op → Phrase
  | .eq | .ne => equality
  | .lt | .le | .gt | .ge => relational
  | .add | .sub => add
  | .mul | .div => mul

/-- The nonterminal one step tighter. -/
def tighter? : Phrase → Option Phrase
  | assign => some equality
  | equality => some relational
  | relational => some add
  | add => some mul
  | mul => some unary
  | unary => some primary
  | primary => none

end Phrase

inductive Derivation : Phrase → Type
  | num (v : Int64) : Derivation .primary
  | ident (x : String) : Derivation .primary
  | paren (d : Derivation .assign) : Derivation .primary
  | signed (s : Sign) (d : Derivation .primary) : Derivation .unary
  /-- A repetition that is longer by one. -/
  | chain {p q : Phrase} (op : Op) (hOp : Phrase.ofOp op = p) (hNext : p.tighter? = some q)
      (left : Derivation p) (right : Derivation q) : Derivation p
  | assign (target : Derivation .equality) (value : Derivation .assign) : Derivation .assign
  /-- A phrase without its sign, its `=` or any repetition. -/
  | tighter {p q : Phrase} (hNext : p.tighter? = some q) (d : Derivation q) : Derivation p

namespace Derivation

/-- The words that are derived. -/
def words {p : Phrase} : Derivation p → List Word
  | num v => [.num (some v)]
  | ident x => [.ident x]
  | paren d => .punct .openParen :: (d.words ++ [.punct .closeParen])
  | signed s d => .punct s.punct :: d.words
  | chain op _ _ l r => l.words ++ .punct op.punct :: r.words
  | assign t v => t.words ++ .punct .assign :: v.words
  | tighter _ d => d.words

/-- The tree of the derived words.  `>` and `>=` turn their operands around. -/
def node {p : Phrase} : Derivation p → Node String
  | num v => .num v
  | ident x => .var x
  | paren d => d.node
  | signed .plus d => d.node
  | signed .minus d => .binary .sub (.num 0) d.node
  | chain op _ _ l r =>
    match op with
    | .eq => .binary .eq l.node r.node
    | .ne => .binary .ne l.node r.node
    | .lt => .binary .lt l.node r.node
    | .le => .binary .le l.node r.node
    | .gt => .binary .lt r.node l.node
    | .ge => .binary .le r.node l.node
    | .add => .binary .add l.node r.node
    | .sub => .binary .sub l.node r.node
    | .mul => .binary .mul l.node r.node
    | .div => .binary .div l.node r.node
  | assign t v => .assign t.node v.node
  | tighter _ d => d.node

theorem node_signed (s : Sign) (d : Derivation .primary) : (signed s d).node = s.node d.node := by
  cases s <;> rfl

theorem node_chain {p q : Phrase} (op : Op) (hOp : Phrase.ofOp op = p) (hNext : p.tighter? = some q)
    (l : Derivation p) (r : Derivation q) :
    (chain op hOp hNext l r).node = op.node l.node r.node := by
  cases op <;> rfl

/-- The tree to the left of every `=` is a variable. -/
def Allowed {p : Phrase} : Derivation p → Prop
  | num _ | ident _ => True
  | paren d | signed _ d | tighter _ d => d.Allowed
  | chain _ _ _ l r => l.Allowed ∧ r.Allowed
  | assign t v => (∃ x, t.node = .var x) ∧ t.Allowed ∧ v.Allowed

end Derivation

/-- A derivation of a statement. -/
inductive StmtDerivation
  | expr (d : Derivation .assign)
  | ret (d : Derivation .assign)

namespace StmtDerivation

def words : StmtDerivation → List Word
  | expr d => d.words ++ [.punct .semicolon]
  | ret d => .ret :: (d.words ++ [.punct .semicolon])

def node : StmtDerivation → Node String
  | expr d => d.node
  | ret d => .ret d.node

def Allowed : StmtDerivation → Prop
  | expr d | ret d => d.Allowed

end StmtDerivation

end Semicolon
