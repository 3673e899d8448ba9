import Semicolon.Except
import Semicolon.Parse

/-!
# Reading keeps every word

`State.words` reads off a state the words that were read since the last statement ended.  A step
adds its word to them (`State.words_step`), so the statements that are read are made of exactly the
words that were given: `Stmt.words_of_parse`.
-/

namespace Semicolon

namespace Parse

/-- The words of the operators that wait, each behind its left operand. -/
def pendingWords (pending : List (Expr × Op)) : List Word :=
  pending.reverse.flatMap fun (l, op) => l.words ++ [.punct op.punct]

/-- The words of the assignments that wait for their value. -/
def targetWords (targets : List Expr) : List Word :=
  targets.reverse.flatMap fun t => t.words ++ [.punct .assign]

@[simp] theorem pendingWords_nil : pendingWords [] = [] := rfl

@[simp] theorem pendingWords_cons (l : Expr) (op : Op) (pending : List (Expr × Op)) :
    pendingWords ((l, op) :: pending) = pendingWords pending ++ (l.words ++ [.punct op.punct]) := by
  simp [pendingWords]

@[simp] theorem targetWords_nil : targetWords [] = [] := rfl

@[simp] theorem targetWords_cons (t : Expr) (targets : List Expr) :
    targetWords (t :: targets) = targetWords targets ++ (t.words ++ [.punct .assign]) := by
  simp [targetWords]

theorem words_collapse (level : Nat) (pending : List (Expr × Op)) (e : Expr) :
    pendingWords (collapse level pending e).1 ++ (collapse level pending e).2.words =
      pendingWords pending ++ e.words := by
  induction pending generalizing e with
  | nil => rfl
  | cons p rest ih =>
    obtain ⟨l, op⟩ := p
    rw [collapse]
    split
    · rw [ih]
      simp [Expr.words]
    · rfl

/-- Nothing waits that binds at least as tightly as an assignment's value. -/
theorem collapse_zero_fst (pending : List (Expr × Op)) (e : Expr) :
    (collapse 0 pending e).1 = [] := by
  induction pending generalizing e with
  | nil => rfl
  | cons p rest ih =>
    rw [collapse, if_pos (Nat.zero_le _)]
    exact ih _

def signWords : Option Sign → List Word
  | some s => [.punct s.punct]
  | none => []

theorem words_underSign (sign : Option Sign) (e : Expr) :
    (underSign sign e).words = signWords sign ++ e.words := by
  cases sign <;> rfl

namespace Level

def words (lv : Level) : List Word :=
  targetWords lv.targets ++ pendingWords lv.pending

@[simp] theorem words_start (index : Nat) : words { start := index } = [] := rfl

theorem words_side (lv : Level) (e : Expr) :
    (lv.side e).words = pendingWords lv.pending ++ e.words := by
  have h := words_collapse 0 lv.pending e
  rw [collapse_zero_fst] at h
  exact h

theorem words_shift (lv : Level) (op : Op) (e : Expr) :
    (lv.shift op e).words = lv.words ++ (e.words ++ [.punct op.punct]) := by
  have h := words_collapse op.level lv.pending e
  simp only [shift, words, pendingWords_cons]
  rw [← List.append_assoc (pendingWords _), h]
  simp

theorem words_assign (lv : Level) (e : Expr) (index : Nat) :
    (lv.assign e index).words = lv.words ++ (e.words ++ [.punct .assign]) := by
  simp [assign, words, words_side]

theorem words_foldl_assign (targets : List Expr) (e : Expr) :
    (targets.foldl (fun value target => Expr.assign target value) e).words =
      targetWords targets ++ e.words := by
  induction targets generalizing e with
  | nil => rfl
  | cons t rest ih =>
    rw [List.foldl_cons, ih]
    simp [Expr.words]

theorem words_close (lv : Level) (e : Expr) :
    (lv.close e).words = lv.words ++ e.words := by
  rw [close, words_foldl_assign, words_side, words, List.append_assoc]

end Level

/-- The words up to the innermost open bracket. -/
def outerWords (outer : List Bracket) : List Word :=
  outer.reverse.flatMap fun b => b.outside.words ++ (signWords b.sign ++ [.punct .openParen])

@[simp] theorem outerWords_nil : outerWords [] = [] := rfl

@[simp] theorem outerWords_cons (b : Bracket) (outer : List Bracket) :
    outerWords (b :: outer) =
      outerWords outer ++ (b.outside.words ++ (signWords b.sign ++ [.punct .openParen])) := by
  simp [outerWords]

def headWords (isRet : Bool) : List Word :=
  if isRet then [.ret] else []

theorem words_statement (isRet : Bool) (e : Expr) :
    (statement isRet e).words = headWords isRet ++ (e.words ++ [.punct .semicolon]) := by
  cases isRet <;> rfl

/-- The words that were read since the last statement ended. -/
def State.words : State → List Word
  | .start => []
  | .operand isRet outer here sign =>
    headWords isRet ++ (outerWords outer ++ (here.words ++ signWords sign))
  | .operator isRet outer here left =>
    headWords isRet ++ (outerWords outer ++ (here.words ++ left.words))

theorem words_readOperand {index : Nat} {isRet : Bool} {outer : List Bracket} {here : Level}
    {sign : Option Sign} {w : Word} {s : State}
    (h : readOperand index isRet outer here sign w = .ok s) :
    s.words = headWords isRet ++ (outerWords outer ++ (here.words ++ (signWords sign ++ [w]))) := by
  unfold readOperand at h
  split at h
  · cases h
    rw [State.words, words_underSign, Expr.words]
  · cases h
    rw [State.words, words_underSign, Expr.words]
  · cases h
  · split at h
    next hp =>
      cases h
      simp [State.words, State.phrase, signWords, hp]
    next =>
      split at h
      next hs =>
        cases h
        rw [Sign.ofPunct?_eq_some.mp hs]
        rfl
      next => cases h
  · cases h
  · cases h

theorem words_readOperator {index : Nat} {isRet : Bool} {outer : List Bracket} {here : Level}
    {left : Expr} {w : Word} {done : Option Stmt} {s : State}
    (h : readOperator index isRet outer here left w = .ok (done, s)) :
    done.toList.flatMap Stmt.words ++ s.words =
      headWords isRet ++ (outerWords outer ++ (here.words ++ (left.words ++ [w]))) := by
  unfold readOperator at h
  split at h
  · split at h
    · cases h
      simp [State.words, Level.words_assign, signWords]
    · cases h
  · cases h
    simp [State.words, Level.words_close, words_underSign, Expr.words]
  · cases h
    simp [State.words, Level.words_close, words_statement]
  · split at h
    next op hop =>
      cases h
      simp [State.words, Level.words_shift, signWords, Word.op?_eq_some.mp hop]
    next => cases h

/-- A step adds its word. -/
theorem State.words_step {index : Nat} {w : Word} {s s' : State} {done : Option Stmt}
    (h : s.step index w = .ok (done, s')) :
    done.toList.flatMap Stmt.words ++ s'.words = s.words ++ [w] := by
  cases s with
  | start =>
    rw [step] at h
    split at h
    next hw =>
      subst hw
      cases h
      rfl
    next =>
      obtain ⟨t, ht, he⟩ := exists_of_map_eq_ok h
      cases he
      simpa [State.words, headWords, signWords] using words_readOperand ht
  | operand isRet outer here sign =>
    obtain ⟨t, ht, he⟩ := exists_of_map_eq_ok h
    cases he
    simpa [State.words] using words_readOperand ht
  | operator isRet outer here left =>
    simpa [State.words] using words_readOperator h

theorem words_readFrom {index : Nat} {s : State} {ws : List Word} {stmts : List Stmt}
    (h : readFrom index s ws = .ok stmts) : stmts.flatMap Stmt.words = s.words ++ ws := by
  induction ws generalizing index s stmts with
  | nil =>
    unfold readFrom at h
    split at h <;> cases h
    rfl
  | cons w ws ih =>
    rw [readFrom] at h
    split at h
    · cases h
    · next done s' hs =>
      obtain ⟨rest, hr, he⟩ := exists_of_map_eq_ok h
      subst he
      rw [List.flatMap_append, ih hr, ← List.append_assoc, State.words_step hs]
      simp

end Parse

/-- **The statements that are read are made of the words that are given.** -/
theorem Stmt.words_of_parse {ws : List Word} {stmts : List Stmt} (h : Stmt.parse ws = .ok stmts) :
    stmts.flatMap Stmt.words = ws :=
  Parse.words_readFrom h

end Semicolon
