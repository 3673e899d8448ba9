import Semicolon.Proofs.Reading

/-!
# Where the reader stops

A reader that stops has read some words and finds one that it cannot take (`exists_stuck`).  The
words that it has read are good: `State.completion` are words with which it would have ended well,
whatever is open.  The next word is bad: no words behind it help (`State.Stuck.not_accepts`).

`State.Reached` is what holds after any number of words, and each step keeps it
(`State.Reached.step`).  Where an assignment is turned down, it gives the phrase to the left of the
`=` (`State.Reached.exists_phrase`), and this phrase cannot be made longer to the left
(`Derivation.words_ne_of_opens`).
-/

namespace Semicolon

namespace Parse

/-! ### Why a step fails -/

/-- A step fails because of the kind of its word, because a number has no value, or because an
assignment is to no variable. -/
theorem State.step_eq_error {s : State} {index : Nat} {w : Word} {e : ParseError}
    (h : s.step index w = .error e) :
    e = .expected s.wants index ∨ (w = .num none ∧ e = .missingValue index) ∨
      ∃ isRet outer here left, s = .operator isRet outer here left ∧ w = .punct .assign ∧
        e = .notLvalue here.start index := by
  have hOperand : ∀ isRet outer here sign, readOperand index isRet outer here sign w = .error e →
      e = .expected .number index ∨ (w = .num none ∧ e = .missingValue index) := by
    intro isRet outer here sign h
    unfold readOperand at h
    split at h
    · cases h
    · cases h
    · cases h
      exact Or.inr ⟨rfl, rfl⟩
    · split at h
      · cases h
      · split at h
        · cases h
        · cases h
          exact Or.inl rfl
    · cases h
      exact Or.inl rfl
    · cases h
      exact Or.inl rfl
  have hMap : ∀ {x : Except ParseError State}, x.map ((none : Option Stmt), ·) = .error e →
      x = .error e := by
    intro x hx
    cases x with
    | error e' => exact congrArg Except.error (Except.error.inj hx)
    | ok s' => cases hx
  cases s with
  | start =>
    rw [State.step] at h
    split at h
    · cases h
    · rcases hOperand _ _ _ _ (hMap h) with he | he
      · exact Or.inl he
      · exact Or.inr (Or.inl he)
  | operand isRet outer here sign =>
    rcases hOperand _ _ _ _ (hMap h) with he | he
    · exact Or.inl he
    · exact Or.inr (Or.inl he)
  | operator isRet outer here left =>
    rw [State.step] at h
    unfold readOperator at h
    split at h
    · split at h
      · cases h
      · cases h
        exact Or.inr (Or.inr ⟨_, _, _, _, rfl, rfl, rfl⟩)
    · cases h
    · cases h
    · split at h
      · cases h
      · cases h
        exact Or.inl rfl

/-! ### Words that are accepted -/

/-- From the state `s` on, the words `ws` are the rest of a program. -/
def Accepts (index : Nat) (s : State) (ws : List Word) : Prop :=
  ∃ stmts, readFrom index s ws = .ok stmts

variable {index : Nat} {s s' : State} {w : Word} {ws : List Word} {e : ParseError}

theorem accepts_cons {done : Option Stmt} (h : s.step index w = .ok (done, s')) :
    Accepts index s (w :: ws) ↔ Accepts (index + 1) s' ws := by
  rw [Accepts, readFrom, h]
  dsimp only
  constructor
  · rintro ⟨stmts, hStmts⟩
    obtain ⟨rest, hRest, -⟩ := exists_of_map_eq_ok hStmts
    exact ⟨rest, hRest⟩
  · rintro ⟨rest, hRest⟩
    rw [hRest]
    exact ⟨_, rfl⟩

/-- The words that close every open bracket and end the statement. -/
def closers (outer : List Bracket) : List Word :=
  List.replicate outer.length (.punct .closeParen) ++ [.punct .semicolon]

/-- Words that end all that is open. -/
def State.completion : State → List Word
  | .start => []
  | .operand _ outer _ _ => .num (some 0) :: closers outer
  | .operator _ outer _ _ => closers outer

theorem accepts_closers (index : Nat) (isRet : Bool) (outer : List Bracket) (here : Level)
    (left : Expr) : Accepts index (.operator isRet outer here left) (closers outer) := by
  induction outer generalizing index here left with
  | nil => exact ⟨[statement isRet (here.close left)], rfl⟩
  | cons b outer ih =>
    have hStep : (State.operator isRet (b :: outer) here left).step index (.punct .closeParen) =
        .ok (none, .operator isRet outer b.outside
          (underSign b.sign (.paren (here.close left)))) := rfl
    show Accepts index _ (.punct .closeParen :: closers outer)
    exact (accepts_cons hStep).mpr (ih _ _ _)

/-- **Whatever is open can be ended.** -/
theorem accepts_completion (index : Nat) (s : State) : Accepts index s s.completion := by
  cases s with
  | start => exact ⟨[], rfl⟩
  | operand isRet outer here sign =>
    have hStep : (State.operand isRet outer here sign).step index (.num (some 0)) =
        .ok (none, .operator isRet outer here (underSign sign (.num 0))) := rfl
    exact (accepts_cons hStep).mpr (accepts_closers _ _ _ _ _)
  | operator isRet outer here left => exact accepts_closers _ _ _ _ _

/-! ### Where phrases begin -/

/-- The phrase that a following `=` would assign to begins behind the open brackets and the last
assignment, if the expression begins at the word `base`. -/
def Level.PlacedAt (base : Nat) (outer : List Bracket) (here : Level) : Prop :=
  here.start = base + (outerWords outer).length + (targetWords here.targets).length

def BracketsPlaced (base : Nat) : List Bracket → Prop
  | [] => True
  | b :: outer => b.outside.PlacedAt base outer ∧ BracketsPlaced base outer

/-- Every open phrase begins where the state says, if the statement begins at the word `base`. -/
def State.Placed (base : Nat) : State → Prop
  | .start => True
  | .operand isRet outer here _ | .operator isRet outer here _ =>
    here.PlacedAt (base + (headWords isRet).length) outer ∧
      BracketsPlaced (base + (headWords isRet).length) outer

theorem placed_readOperand {base : Nat} {isRet : Bool} {outer : List Bracket} {here : Level}
    {sign : Option Sign} (h : (State.operand isRet outer here sign).Placed base)
    (hIndex : index = base + (State.operand isRet outer here sign).words.length)
    (hRead : readOperand index isRet outer here sign w = .ok s') : s'.Placed base := by
  unfold readOperand at hRead
  split at hRead
  · cases hRead
    exact h
  · cases hRead
    exact h
  · cases hRead
  · split at hRead
    next =>
      cases hRead
      refine ⟨?_, h⟩
      rw [Level.PlacedAt, hIndex, outerWords_cons]
      simp only [State.words, targetWords_nil, List.length_append, List.length_cons,
        List.length_nil]
      omega
    next =>
      split at hRead
      next =>
        cases hRead
        exact h
      next => cases hRead
  · cases hRead
  · cases hRead

theorem placed_readOperator {base : Nat} {isRet : Bool} {outer : List Bracket} {here : Level}
    {left : Expr} {done : Option Stmt} (h : (State.operator isRet outer here left).Placed base)
    (hIndex : index = base + (State.operator isRet outer here left).words.length)
    (hRead : readOperator index isRet outer here left w = .ok (done, s')) : s'.Placed base := by
  unfold readOperator at hRead
  split at hRead
  · split at hRead
    next =>
      cases hRead
      refine ⟨?_, h.2⟩
      show index + 1 = _
      rw [hIndex, Level.assign, targetWords_cons, Level.words_side]
      simp only [State.words, Level.words, List.length_append, List.length_cons, List.length_nil]
      omega
    next => cases hRead
  · cases hRead
    exact h.2
  · cases hRead
    trivial
  · split at hRead
    next =>
      cases hRead
      exact h
    next => cases hRead

theorem State.Placed.step {base : Nat} {done : Option Stmt} (h : s.Placed base)
    (hIndex : index = base + s.words.length) (hStep : s.step index w = .ok (done, s')) :
    s'.Placed base := by
  cases s with
  | start =>
    have hFirst : index = base := hIndex
    rw [State.step] at hStep
    split at hStep
    next =>
      cases hStep
      rw [hFirst]
      exact ⟨rfl, trivial⟩
    next =>
      obtain ⟨t, ht, he⟩ := exists_of_map_eq_ok hStep
      cases he
      have hPlaced : (State.operand false [] { start := index } none).Placed base := by
        rw [hFirst]
        exact ⟨rfl, trivial⟩
      exact placed_readOperand hPlaced hIndex ht
  | operand isRet outer here sign =>
    obtain ⟨t, ht, he⟩ := exists_of_map_eq_ok hStep
    cases he
    exact placed_readOperand h hIndex ht
  | operator isRet outer here left => exact placed_readOperator h hIndex hStep

/-! ### Reading from the beginning -/

/-- What holds in the state `s` if the words `read` were read, from the first one on. -/
structure State.Reached (read : List Word) (s : State) : Prop where
  accepts : ∀ ws, Accepts 0 .start (read ++ ws) ↔ Accepts read.length s ws
  sound : s.Sound
  /-- Before the open statement there are complete statements. -/
  exists_past : ∃ past, read = past ++ s.words ∧ s.Placed past.length ∧
    ∀ v ∈ past.getLast?, v = .punct .semicolon

variable {read : List Word}

theorem State.reached_start : State.start.Reached [] :=
  ⟨fun _ => Iff.rfl, trivial, [], rfl, trivial, nofun⟩

/-- A statement ends with a semicolon. -/
theorem State.step_eq_some {stmt : Stmt} (h : s.step index w = .ok (some stmt, s')) :
    s' = .start ∧ w = .punct .semicolon := by
  cases s with
  | start =>
    rw [State.step] at h
    split at h
    · cases h
    · obtain ⟨t, -, he⟩ := exists_of_map_eq_ok h
      cases he
  | operand isRet outer here sign =>
    obtain ⟨t, -, he⟩ := exists_of_map_eq_ok h
    cases he
  | operator isRet outer here left =>
    rw [State.step] at h
    unfold readOperator at h
    split at h
    · split at h <;> cases h
    · cases h
    · cases h
      exact ⟨rfl, rfl⟩
    · split at h <;> cases h

theorem State.Reached.step {done : Option Stmt} (h : s.Reached read)
    (hStep : s.step read.length w = .ok (done, s')) : s'.Reached (read ++ [w]) := by
  obtain ⟨past, hRead, hPlaced, hPast⟩ := h.exists_past
  refine ⟨?_, (h.sound.step hStep).1, ?_⟩
  · intro ws
    rw [List.append_assoc, List.singleton_append, h.accepts, accepts_cons hStep,
      List.length_append, List.length_singleton]
  · have hWords := State.words_step hStep
    cases done with
    | none =>
      refine ⟨past, ?_, hPlaced.step (by rw [hRead, List.length_append]) hStep, hPast⟩
      rw [hRead, List.append_assoc, ← hWords]
      rfl
    | some stmt =>
      obtain ⟨rfl, rfl⟩ := State.step_eq_some hStep
      refine ⟨read ++ [.punct .semicolon], (List.append_nil _).symm, trivial, ?_⟩
      intro v hv
      rw [List.getLast?_concat] at hv
      exact (Option.some.inj hv).symm

/-- In the state `s`, the reader stops with the error `e` at the first of the words `ws`. -/
inductive State.Stuck (index : Nat) (s : State) : List Word → ParseError → Prop
  | atEnd : s ≠ .start → Stuck index s [] (.expected s.wants index)
  | atWord {w : Word} {ws : List Word} {e : ParseError} :
      s.step index w = .error e → Stuck index s (w :: ws) e

theorem State.Stuck.error_cases {rest : List Word} (h : s.Stuck index rest e) :
    e = .expected s.wants index ∨ (rest.head? = some (.num none) ∧ e = .missingValue index) ∨
      ∃ isRet outer here left, s = .operator isRet outer here left ∧
        rest.head? = some (.punct .assign) ∧ e = .notLvalue here.start index := by
  cases h with
  | atEnd _ => exact Or.inl rfl
  | atWord hStep =>
    rcases State.step_eq_error hStep with he | ⟨rfl, he⟩ | ⟨isRet, outer, here, left, hs, rfl, he⟩
    · exact Or.inl he
    · exact Or.inr (Or.inl ⟨rfl, he⟩)
    · exact Or.inr (Or.inr ⟨isRet, outer, here, left, hs, rfl, he⟩)

/-- A reader that fails gets stuck in a state that it has reached. -/
theorem exists_stuck (hs : s.Reached read) (h : readFrom read.length s ws = .error e) :
    ∃ (more rest : List Word) (s' : State), ws = more ++ rest ∧ s'.Reached (read ++ more) ∧
      s'.Stuck (read ++ more).length rest e := by
  induction ws generalizing read s with
  | nil =>
    refine ⟨[], [], s, rfl, by rwa [List.append_nil], ?_⟩
    rw [List.append_nil]
    cases s with
    | start => cases h
    | operand isRet outer here sign =>
      cases h
      exact .atEnd nofun
    | operator isRet outer here left =>
      cases h
      exact .atEnd nofun
  | cons w ws ih =>
    rw [readFrom] at h
    cases hStep : s.step read.length w with
    | error e' =>
      rw [hStep] at h
      cases h
      refine ⟨[], w :: ws, s, rfl, by rwa [List.append_nil], ?_⟩
      rw [List.append_nil]
      exact .atWord hStep
    | ok p =>
      obtain ⟨done, s'⟩ := p
      rw [hStep] at h
      have hRest : readFrom (read ++ [w]).length s' ws = .error e := by
        rw [List.length_append, List.length_singleton]
        dsimp only at h
        cases hr : readFrom (read.length + 1) s' ws with
        | error e' =>
          rw [hr] at h
          exact congrArg Except.error (Except.error.inj h)
        | ok stmts =>
          rw [hr] at h
          cases h
      obtain ⟨more, rest, s'', rfl, hReached, hStuck⟩ := ih (hs.step hStep) hRest
      rw [List.append_assoc, List.singleton_append] at hReached hStuck
      exact ⟨w :: more, rest, s'', rfl, hReached, hStuck⟩

/-- Words that begin like those at which the reader got stuck do not help it. -/
theorem State.Stuck.not_accepts {rest rest' : List Word} (h : s.Stuck index rest e)
    (hSame : rest'.take 1 = rest.take 1) : ¬ Accepts index s rest' := by
  rintro ⟨stmts, hStmts⟩
  cases h with
  | atEnd hs =>
    cases rest' with
    | cons w ws => cases hSame
    | nil =>
      cases s with
      | start => exact hs rfl
      | operand isRet outer here sign => cases hStmts
      | operator isRet outer here left => cases hStmts
  | @atWord w ws e hStep =>
    cases rest' with
    | nil => cases hSame
    | cons w' ws' =>
      obtain rfl : w' = w := (List.cons.inj hSame).1
      rw [readFrom, hStep] at hStmts
      cases hStmts

/-! ### The phrase to the left of `=` -/

/-- Words behind which an expression begins. -/
def Opens (w : Word) : Prop :=
  w = .punct .semicolon ∨ w = .ret ∨ w = .punct .openParen ∨ w = .punct .assign

theorem opens_append {a b : List Word} (ha : ∀ v ∈ a.getLast?, Opens v)
    (hb : ∀ v ∈ b.getLast?, Opens v) : ∀ v ∈ (a ++ b).getLast?, Opens v := by
  intro v hv
  rw [List.getLast?_append] at hv
  cases hLast : b.getLast? with
  | none =>
    rw [hLast] at hv
    exact ha v hv
  | some u =>
    rw [hLast] at hv
    exact hb v (by rwa [hLast])

theorem opens_headWords (isRet : Bool) : ∀ v ∈ (headWords isRet).getLast?, Opens v := by
  intro v hv
  cases isRet with
  | false => cases hv
  | true =>
    cases hv
    exact Or.inr (Or.inl rfl)

theorem opens_outerWords (outer : List Bracket) : ∀ v ∈ (outerWords outer).getLast?, Opens v := by
  intro v hv
  cases outer with
  | nil => cases hv
  | cons b outer =>
    rw [outerWords_cons, ← List.append_assoc, ← List.append_assoc, List.getLast?_concat] at hv
    cases hv
    exact Or.inr (Or.inr (Or.inl rfl))

theorem opens_targetWords (targets : List Expr) :
    ∀ v ∈ (targetWords targets).getLast?, Opens v := by
  intro v hv
  cases targets with
  | nil => cases hv
  | cons t targets =>
    rw [targetWords_cons, ← List.append_assoc, List.getLast?_concat] at hv
    cases hv
    exact Or.inr (Or.inr (Or.inr rfl))

/-- What was read ends with the phrase that a following `=` would assign to, and an expression
begins where this phrase does. -/
theorem State.Reached.exists_phrase {isRet : Bool} {outer : List Bracket} {here : Level}
    {left : Expr} (h : (State.operator isRet outer here left).Reached read) :
    ∃ before, read = before ++ (here.side left).words ∧ before.length = here.start ∧
      ∀ v ∈ before.getLast?, Opens v := by
  obtain ⟨past, hRead, hPlaced, hPast⟩ := h.exists_past
  refine ⟨past ++ (headWords isRet ++ (outerWords outer ++ targetWords here.targets)), ?_, ?_, ?_⟩
  · rw [hRead, State.words, Level.words_side, Level.words]
    simp only [List.append_assoc]
  · have hStart := hPlaced.1
    rw [Level.PlacedAt] at hStart
    simp only [List.length_append]
    omega
  · refine opens_append ?_ (opens_append (opens_headWords isRet)
      (opens_append (opens_outerWords outer) (opens_targetWords here.targets)))
    intro v hv
    exact Or.inl (hPast v hv)

end Parse

/-! ### Phrases do not reach across the beginning of an expression -/

namespace Word

/-- A bracket that is closed counts one, and one that is opened takes one away. -/
def turn : Word → Int
  | .punct .closeParen => 1
  | .punct .openParen => -1
  | _ => 0

/-- How many more brackets some words close than they open. -/
def excess : List Word → Int
  | [] => 0
  | w :: ws => w.turn + excess ws

/-- With words behind them that close `k` brackets, the words `ws` could be in an expression: no
bracket stays open, every assignment is inside of a bracket, and no statement ends or begins. -/
def Nested (k : Int) : List Word → Prop
  | [] => True
  | w :: ws =>
    0 ≤ k + excess (w :: ws) ∧ (w = .punct .assign → 0 < k + excess ws) ∧
      w ≠ .punct .semicolon ∧ w ≠ .ret ∧ Nested k ws

theorem excess_cons (w : Word) (ws : List Word) : excess (w :: ws) = w.turn + excess ws := rfl

theorem excess_append (a b : List Word) : excess (a ++ b) = excess a + excess b := by
  induction a with
  | nil => exact (Int.zero_add _).symm
  | cons w a ih => rw [List.cons_append, excess_cons, excess_cons, ih, Int.add_assoc]

theorem turn_op (op : Op) : turn (.punct op.punct) = 0 := by
  cases op <;> rfl

theorem turn_sign (s : Sign) : turn (.punct s.punct) = 0 := by
  cases s <;> rfl

/-- Whether a word neither assigns nor belongs to a statement as a whole. -/
def isInner : Word → Bool
  | .punct .assign | .punct .semicolon | .ret => false
  | _ => true

theorem nested_cons {k : Int} {w : Word} {ws : List Word} (hw : w.isInner = true)
    (h : 0 ≤ k + excess (w :: ws)) (hs : Nested k ws) : Nested k (w :: ws) := by
  refine ⟨h, ?_, ?_, ?_, hs⟩
  · rintro rfl
    cases hw
  · rintro rfl
    cases hw
  · rintro rfl
    cases hw

theorem nested_append {k : Int} {a b : List Word} :
    Nested k (a ++ b) ↔ Nested (k + excess b) a ∧ Nested k b := by
  induction a with
  | nil => exact ⟨fun h => ⟨trivial, h⟩, fun h => h.2⟩
  | cons w a ih =>
    have hWhole := excess_append (w :: a) b
    have hRest := excess_append a b
    rw [List.cons_append] at hWhole
    rw [List.cons_append, Nested, Nested, ih, hWhole, hRest]
    constructor
    · rintro ⟨h₁, h₂, h₃, h₄, h₅, h₆⟩
      exact ⟨⟨by omega, fun hw => by have := h₂ hw; omega, h₃, h₄, h₅⟩, h₆⟩
    · rintro ⟨⟨h₁, h₂, h₃, h₄, h₅⟩, h₆⟩
      exact ⟨by omega, fun hw => by have := h₂ hw; omega, h₃, h₄, h₅, h₆⟩

end Word

namespace Derivation

open Word

theorem excess_words {p : Phrase} (d : Derivation p) : excess d.words = 0 := by
  induction d with
  | num v => rfl
  | ident x => rfl
  | paren d ih =>
    rw [words, excess_cons, excess_append, ih]
    rfl
  | signed s d ih =>
    rw [words, excess_cons, turn_sign, ih]
    rfl
  | chain op hOp hNext l r ihl ihr =>
    rw [words, excess_append, excess_cons, turn_op, ihl, ihr]
    rfl
  | assign t v iht ihv =>
    rw [words, excess_append, excess_cons, iht, ihv]
    rfl
  | tighter hNext d ih => exact ih

theorem tighter_ne_assign {p q : Phrase} (h : p.tighter? = some q) : q ≠ .assign := by
  rintro rfl
  cases p <;> cases h

/-- The words of a phrase are nested, and so are those of an assignment inside of a bracket. -/
theorem nested_words {p : Phrase} (d : Derivation p) {k : Int} (hk : 0 ≤ k)
    (hp : p ≠ .assign ∨ 0 < k) : Nested k d.words := by
  -- a phrase as a whole closes what it opens, so its first word is always fine
  have hWhole : ∀ {q : Phrase} (e : Derivation q) {j : Int}, 0 ≤ j → 0 ≤ j + excess e.words := by
    intro q e j hj
    rw [e.excess_words]
    omega
  induction d generalizing k with
  | num v => exact nested_cons rfl (hWhole (num v) hk) trivial
  | ident x => exact nested_cons rfl (hWhole (ident x) hk) trivial
  | paren d ih =>
    have hOne : excess [Word.punct .closeParen] = 1 := rfl
    refine nested_cons rfl (hWhole (paren d) hk) (nested_append.mpr ⟨?_, ?_⟩)
    · rw [hOne]
      exact ih (by omega) (Or.inr (by omega))
    · exact nested_cons rfl (by omega) trivial
  | signed s d ih =>
    have hInner : isInner (.punct s.punct) = true := by
      cases s <;> rfl
    exact nested_cons hInner (hWhole (signed s d) hk) (ih hk (Or.inl (by decide)))
  | @chain p q op hOp hNext l r ihl ihr =>
    have hZero : excess (.punct op.punct :: r.words) = 0 := by
      rw [excess_cons, turn_op, r.excess_words]
      rfl
    have hInner : isInner (.punct op.punct) = true := by
      cases op <;> rfl
    rw [words, nested_append, hZero, Int.add_zero]
    exact ⟨ihl hk hp, nested_cons hInner (by omega) (ihr hk (Or.inl (tighter_ne_assign hNext)))⟩
  | assign t v iht ihv =>
    have hPos : 0 < k := hp.resolve_left fun h => h rfl
    have hRight := v.excess_words
    have hZero : excess (.punct .assign :: v.words) = 0 := by
      rw [excess_cons, hRight]
      rfl
    rw [words, nested_append, hZero, Int.add_zero]
    refine ⟨iht hk (Or.inr hPos), by omega, fun _ => by omega, ?_, ?_, ihv hk (Or.inr hPos)⟩
    · intro h
      cases h
    · intro h
      cases h
  | tighter hNext d ih => exact ih hk (Or.inl (tighter_ne_assign hNext))

/-- Behind the beginning of an expression, a phrase cannot go on to the left. -/
theorem words_ne_of_opens {p q : Phrase} (hp : p ≠ .assign) (d : Derivation p) (e : Derivation q)
    {w : Word} (hw : Parse.Opens w) (a : List Word) : d.words ≠ a ++ w :: e.words := by
  intro h
  have hNested := d.nested_words (Int.le_refl 0) (Or.inl hp)
  rw [h, nested_append] at hNested
  obtain ⟨-, hBrackets, hAssign, hSemicolon, hRet, -⟩ := hNested
  have hZero := e.excess_words
  rcases hw with rfl | rfl | rfl | rfl
  · exact hSemicolon rfl
  · exact hRet rfl
  · have hOpen : excess (.punct .openParen :: e.words) = -1 + excess e.words := rfl
    omega
  · have hPos := hAssign rfl
    omega

end Derivation

/-! ### Errors -/

/-- The reader fails in a state that it has reached, at the first word that it cannot take. -/
theorem Stmt.exists_stuck_of_parse {ws : List Word} {e : ParseError}
    (h : Stmt.parse ws = .error e) :
    ∃ (read rest : List Word) (s : Parse.State), ws = read ++ rest ∧ s.Reached read ∧
      s.Stuck read.length rest e :=
  Parse.exists_stuck Parse.State.reached_start h

end Semicolon
