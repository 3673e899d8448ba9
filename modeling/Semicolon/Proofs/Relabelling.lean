import Semicolon.Proofs.Reading

/-!
# Reading under other names and at another place

The reader never looks at a name, and it does not count on where the first word stands.  So it reads
renamed words behind `n` others as it reads the words themselves: each step gives the same with its
names renamed and its indices moved by `n` (`State.step_map`), and so does the whole
(`readFrom_map`).
-/

namespace Semicolon

/-! ### Renaming -/

/-- Renames an identifier. -/
def Word.map (f : String → String) : Word → Word
  | ident x => ident (f x)
  | punct p => punct p
  | ret => ret
  | num v => num v
  | other => other

/-- Renames every variable. -/
def Expr.map (f : String → String) : Expr → Expr
  | num v => num v
  | name x => name (f x)
  | paren e => paren (e.map f)
  | signed s e => signed s (e.map f)
  | binary op l r => binary op (l.map f) (r.map f)
  | assign t v => assign (t.map f) (v.map f)

def Stmt.map (f : String → String) : Stmt → Stmt
  | expr e => expr (e.map f)
  | ret e => ret (e.map f)

theorem Word.map_id (w : Word) : w.map id = w := by
  cases w <;> rfl

theorem Word.names_map (f : String → String) (ws : List Word) :
    Word.names (ws.map (Word.map f)) = (Word.names ws).map f := by
  have hName : ∀ w : Word, (w.map f).name? = w.name?.map f := by
    intro w
    cases w <;> rfl
  rw [names, names, List.filterMap_map, List.map_filterMap]
  exact congrArg (List.filterMap · ws) (funext hName)

namespace Expr

variable (f : String → String)

theorem map_id (e : Expr) : e.map id = e := by
  induction e with
  | num v => rfl
  | name x => rfl
  | paren e ih => rw [map, ih]
  | signed s e ih => rw [map, ih]
  | binary op l r ihl ihr => rw [map, ihl, ihr]
  | assign t v iht ihv => rw [map, iht, ihv]

theorem place?_map (e : Expr) : (e.map f).place? = e.place?.map f := by
  induction e with
  | num v => rfl
  | name x => rfl
  | paren e ih => exact ih
  | signed s e ih =>
    cases s with
    | plus => exact ih
    | minus => rfl
  | binary op l r => rfl
  | assign t v => rfl

theorem node_map (e : Expr) : (e.map f).node = e.node.map f := by
  induction e with
  | num v => rfl
  | name x => rfl
  | paren e ih => exact ih
  | signed s e ih =>
    rw [map, node, ih, node]
    cases s <;> rfl
  | binary op l r ihl ihr =>
    rw [map, node, ihl, ihr, node]
    cases op <;> rfl
  | assign t v iht ihv => rw [map, node, iht, ihv, node, Node.map]

end Expr

namespace Stmt

theorem map_id (s : Stmt) : s.map id = s := by
  cases s with
  | expr e => rw [map, e.map_id]
  | ret e => rw [map, e.map_id]

theorem node_map (f : String → String) (s : Stmt) : (s.map f).node = s.node.map f := by
  cases s with
  | expr e => exact e.node_map f
  | ret e => rw [map, node, e.node_map f, node, Node.map]

end Stmt

/-! ### Moving -/

/-- The error that is found behind `n` more words. -/
def ParseError.shift (n : Nat) : ParseError → ParseError
  | expected what index => expected what (n + index)
  | missingValue index => missingValue (n + index)
  | notLvalue phrase index => notLvalue (n + phrase) (n + index)

namespace Parse

/-- A result of the reader behind `n` more words. -/
def moved {α β : Type} (n : Nat) (g : α → β) : Except ParseError α → Except ParseError β
  | .ok a => .ok (g a)
  | .error e => .error (e.shift n)

variable (f : String → String) (n : Nat)

def renamePending (pending : List (Expr × Op)) : List (Expr × Op) :=
  pending.map fun (l, op) => (l.map f, op)

/-- What is open, with other names and behind `n` more words. -/
def Level.map (lv : Level) : Level :=
  { start := n + lv.start
    targets := lv.targets.map (Expr.map f)
    pending := renamePending f lv.pending }

def Bracket.map (b : Bracket) : Bracket :=
  { outside := b.outside.map f n, sign := b.sign }

def State.map : State → State
  | .start => .start
  | .operand isRet outer here sign =>
    .operand isRet (outer.map (Bracket.map f n)) (here.map f n) sign
  | .operator isRet outer here left =>
    .operator isRet (outer.map (Bracket.map f n)) (here.map f n) (left.map f)

theorem collapse_map (k : Nat) (pending : List (Expr × Op)) (e : Expr) :
    collapse k (renamePending f pending) (e.map f) =
      (renamePending f (collapse k pending e).1, (collapse k pending e).2.map f) := by
  induction pending generalizing e with
  | nil => rfl
  | cons p rest ih =>
    obtain ⟨l, op⟩ := p
    show collapse k ((l.map f, op) :: renamePending f rest) (e.map f) = _
    rw [collapse, collapse]
    split
    · exact ih (.binary op l e)
    · rfl

theorem underSign_map (sign : Option Sign) (e : Expr) :
    (underSign sign e).map f = underSign sign (e.map f) := by
  cases sign <;> rfl

namespace Level

theorem side_map (lv : Level) (e : Expr) : (lv.map f n).side (e.map f) = (lv.side e).map f := by
  rw [side, side, map, collapse_map]

theorem foldl_assign_map (targets : List Expr) (e : Expr) :
    (targets.map (Expr.map f)).foldl (fun value target => Expr.assign target value) (e.map f) =
      (targets.foldl (fun value target => Expr.assign target value) e).map f := by
  induction targets generalizing e with
  | nil => rfl
  | cons t rest ih => exact ih (.assign t e)

theorem close_map (lv : Level) (e : Expr) : (lv.map f n).close (e.map f) = (lv.close e).map f := by
  rw [close, close, side_map]
  exact foldl_assign_map f lv.targets (lv.side e)

theorem shift_map (lv : Level) (op : Op) (e : Expr) :
    (lv.map f n).shift op (e.map f) = (lv.shift op e).map f n := by
  rw [shift, map, collapse_map]
  rfl

theorem assign_map (lv : Level) (e : Expr) (index : Nat) :
    (lv.map f n).assign (e.map f) (n + index) = (lv.assign e index).map f n := by
  rw [assign, side_map]
  rfl

end Level

theorem readOperand_map (index : Nat) (isRet : Bool) (outer : List Bracket) (here : Level)
    (sign : Option Sign) (w : Word) :
    readOperand (n + index) isRet (outer.map (Bracket.map f n)) (here.map f n) sign (w.map f) =
      moved n (State.map f n) (readOperand index isRet outer here sign w) := by
  cases w with
  | ident x => cases sign <;> rfl
  | num v =>
    cases v with
    | none => rfl
    | some v => cases sign <;> rfl
  | punct p =>
    cases p with
    | openParen => rfl
    | _ => cases sign <;> rfl
  | ret => rfl
  | other => rfl

theorem statement_map (isRet : Bool) (e : Expr) :
    (statement isRet e).map f = statement isRet (e.map f) := by
  cases isRet <;> rfl

theorem step_operator_map (index : Nat) (isRet : Bool) (outer : List Bracket) (here : Level)
    (left : Expr) (w : Word) :
    ((State.operator isRet outer here left).map f n).step (n + index) (w.map f) =
      moved n (fun p => (p.1.map (Stmt.map f), p.2.map f n))
        ((State.operator isRet outer here left).step index w) := by
  cases w with
  | punct p =>
    cases hOp : Op.ofPunct? p with
    | some op =>
      obtain rfl := Op.ofPunct?_eq_some.mp hOp
      rw [Word.map, State.map, step_op, step_op, Level.shift_map]
      rfl
    | none =>
      -- what is no operator ends the phrase, its bracket or its statement
      cases p with
      | openParen => cases outer <;> rfl
      | assign =>
        cases hPlace : (here.side left).place? with
        | none =>
          have hPlace' : ((here.map f n).side (left.map f)).place? = none := by
            rw [Level.side_map, Expr.place?_map, hPlace]
            rfl
          simp only [State.map, Word.map, State.step, readOperator, hPlace, hPlace']
          rfl
        | some x =>
          have hPlace' : ((here.map f n).side (left.map f)).place? = some (f x) := by
            rw [Level.side_map, Expr.place?_map, hPlace]
            rfl
          rw [Word.map, State.map, step_assign hPlace, step_assign hPlace',
            show n + index + 1 = n + (index + 1) from rfl, Level.assign_map]
          rfl
      | closeParen =>
        cases outer with
        | nil => rfl
        | cons b outer =>
          have hClose := Level.close_map f n here left
          show Except.ok (none, State.operator isRet _ _ (underSign b.sign (.paren _))) = _
          rw [hClose]
          show _ = Except.ok (none, State.operator isRet _ _ (Expr.map f (underSign b.sign _)))
          rw [underSign_map]
          rfl
      | semicolon =>
        cases outer with
        | nil =>
          have hClose := Level.close_map f n here left
          show Except.ok (some (statement isRet _), State.start) = _
          rw [hClose, ← statement_map]
          rfl
        | cons b outer => rfl
      | _ => cases hOp
  | ident x => cases outer <;> rfl
  | num v => cases outer <;> rfl
  | ret => cases outer <;> rfl
  | other => cases outer <;> rfl

/-- **A step does not look at names, nor at where the first word stands.** -/
theorem State.step_map (s : State) (index : Nat) (w : Word) :
    (s.map f n).step (n + index) (w.map f) =
      moved n (fun p => (p.1.map (Stmt.map f), p.2.map f n)) (s.step index w) := by
  have hNone : ∀ x : Except ParseError State,
      (moved n (State.map f n) x).map ((none : Option Stmt), ·) =
        moved n (fun p => (p.1.map (Stmt.map f), p.2.map f n)) (x.map (none, ·)) := by
    intro x
    cases x <;> rfl
  cases s with
  | start =>
    by_cases hw : w = .ret
    · subst hw
      rfl
    · have hw' : w.map f ≠ .ret := by
        intro h
        cases w with
        | ret => exact hw rfl
        | _ => cases h
      have hRead := readOperand_map f n index false [] { start := index } none w
      rw [State.map, step, step, if_neg hw, if_neg hw', ← hNone, ← hRead]
      rfl
  | operand isRet outer here sign =>
    rw [State.map, step, step, readOperand_map]
    exact hNone _
  | operator isRet outer here left => exact step_operator_map f n index isRet outer here left w

/-- **Nor does a whole run.** -/
theorem readFrom_map (s : State) (index : Nat) (ws : List Word) :
    readFrom (n + index) (s.map f n) (ws.map (Word.map f)) =
      moved n (List.map (Stmt.map f)) (readFrom index s ws) := by
  induction ws generalizing s index with
  | nil =>
    cases s with
    | start => rfl
    | operand isRet outer here sign => rfl
    | operator isRet outer here left => cases outer <;> rfl
  | cons w ws ih =>
    rw [List.map_cons, readFrom, readFrom, State.step_map]
    cases hStep : s.step index w with
    | error e => rfl
    | ok p =>
      obtain ⟨done, s'⟩ := p
      show (readFrom (n + (index + 1)) (s'.map f n) (ws.map (Word.map f))).map _ = _
      rw [ih]
      dsimp only
      cases readFrom (index + 1) s' ws with
      | error e => rfl
      | ok stmts =>
        show Except.ok ((done.map (Stmt.map f)).toList ++ stmts.map (Stmt.map f)) =
          .ok ((done.toList ++ stmts).map (Stmt.map f))
        cases done <;> rfl

end Parse

namespace Stmt

/-- Renamed words are read as the words themselves. -/
theorem parse_map (f : String → String) (ws : List Word) :
    Stmt.parse (ws.map (Word.map f)) = (Stmt.parse ws).map (List.map (Stmt.map f)) := by
  have hRead := Parse.readFrom_map f 0 .start 0 ws
  have hZero : ∀ e : ParseError, e.shift 0 = e := by
    intro e
    cases e <;> simp only [ParseError.shift, Nat.zero_add]
  rw [Stmt.parse, Stmt.parse]
  refine hRead.trans ?_
  cases Parse.readFrom 0 .start ws with
  | error e => exact congrArg Except.error (hZero e)
  | ok stmts => rfl

/-- Between two statements, the reader goes on as it begins. -/
theorem readFrom_start_eq_moved (n : Nat) (ws : List Word) :
    Parse.readFrom n .start ws = Parse.moved n id (Stmt.parse ws) := by
  have hRead := Parse.readFrom_map id n .start 0 ws
  have hWords : ws.map (Word.map id) = ws := by
    rw [show Word.map id = id from funext Word.map_id, List.map_id]
  have hStmts : List.map (Stmt.map id) = id := by
    rw [show Stmt.map id = id from funext Stmt.map_id, List.map_id_fun]
  rwa [hWords, hStmts] at hRead

end Stmt

end Semicolon
