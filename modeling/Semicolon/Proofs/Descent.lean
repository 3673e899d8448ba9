import Semicolon.Proofs.Concatenation
import Semicolon.Proofs.Cursor

/-!
# Descent does what the reader does

`Parse.readFrom` reads an expression with a stack of brackets and of operators that wait for their
second operand; `Descent.phrase` reads it with calls.  Here the two run side by side over the same
tokens.  `Spans` says of a call with a value that the words it went over are those of an expression
whose tree it gave, so the reader takes them as one operand.  `Stops` says of a call that fails
that the reader fails from there on, with the same report.

What a call has to be told about the reader is small: the operators that wait in the current bracket
bind less tightly than the phrase that is called for.  What it tells its caller is that the next
word does not continue the phrase (`Looser`), which is why the caller, on seeing neither an operator
of its own nor a bracket, may give up just where the reader does.

The induction is on the depth.  Nine nested calls for each word are enough: at most seven lead from
an assignment down to a primary expression, and a round of a repetition and one of the loop over the
statements are a call each.
-/

namespace Semicolon

open Parse

/-! ### Trees over a table that grows -/

theorem Op.map_node {ν μ : Type} (f : ν → μ) (op : Op) (l r : Node ν) :
    (op.node l r).map f = op.node (l.map f) (r.map f) := by
  cases op <;> rfl

theorem Sign.map_node {ν μ : Type} (f : ν → μ) (s : Sign) (e : Node ν) :
    (s.node e).map f = s.node (e.map f) := by
  cases s <;> rfl

/-- Names that are entered later do not change a tree. -/
theorem Node.map_indexOf_declareAll {n : Node String} {t : Locals} (h : ∀ x ∈ n.vars, x ∈ t.names)
    (xs : List String) : n.map (t.declareAll xs).indexOf = n.map t.indexOf :=
  Node.map_congr fun x hx => Locals.indexOf_declareAll (h x hx) xs

theorem Phrase.mem_ops {p : Phrase} {op : Op} : op ∈ p.ops ↔ op.level = p.level := by
  cases p <;> cases op <;> decide

theorem Phrase.level_pos_of_ops {p : Phrase} (h : p.ops ≠ []) : 0 < p.level := by
  obtain ⟨op, hOp⟩ := List.exists_mem_of_ne_nil _ h
  rw [← mem_ops.mp hOp]
  exact op.level_pos

/-- The operands of a repetition are neither the loosest phrases nor the tightest ones. -/
theorem Phrase.operand_ne {p q : Phrase} (hOps : p.ops ≠ []) (hNext : p.tighter? = some q) :
    q ≠ .assign ∧ q ≠ .primary := by
  cases p with
  | equality | relational | add | mul =>
    cases hNext
    decide
  | _ => exact absurd rfl hOps

namespace Descent

/-! ### The reader beside the cursor -/

section

variable {input : Input} {i j k : Nat} {s s' s'' : State} {c c' : Cursor} {e : Failure}

/-- The tokens from `i` to `j` take the reader from `s` to `s'`. -/
def Reaches (input : Input) (i : Nat) (s : State) (j : Nat) (s' : State) : Prop :=
  ∃ ws, input.Covers i ws j ∧ Leads i s ws s'

theorem Reaches.trans (h : Reaches input i s j s') (h' : Reaches input j s' k s'') :
    Reaches input i s k s'' := by
  obtain ⟨ws, hCovers, hLeads⟩ := h
  obtain ⟨vs, hCovers', hLeads'⟩ := h'
  refine ⟨ws ++ vs, hCovers.trans hCovers', hLeads.trans ?_⟩
  rwa [← hCovers.2]

theorem Takes.reaches {w : Word} (h : Takes input c w c')
    (hStep : s.step c.pos w = .ok (none, s')) : Reaches input c.pos s c'.pos s' := by
  obtain ⟨rfl, hRest⟩ := h
  exact ⟨[w], .word hRest, .cons hStep .nil⟩

/-- From the state `s` at the token `i` on, the reader fails with what is reported as `e`, and the
cursor stands at the end of some words from there on, just behind those that the reader took. -/
structure Stops (input : Input) (i : Nat) (s : State) (e : Failure) (c : Cursor) : Prop where
  covers : ∃ ws, input.Covers i ws c.pos
  error : ∃ err, readFrom i s (input.rest i) = .error err ∧ input.failure err = e ∧
    c.pos = err.consumed

theorem Reaches.stops (h : Reaches input i s j s') (hStops : Stops input j s' e c) :
    Stops input i s e c := by
  obtain ⟨ws, hCovers, hLeads⟩ := h
  obtain ⟨⟨vs, hCovers'⟩, err, hErr, hFailure⟩ := hStops
  refine ⟨⟨ws ++ vs, hCovers.trans hCovers'⟩, err, ?_, hFailure⟩
  rw [hCovers.1, hLeads, ← hCovers.2, hErr]

theorem stops_of_error {err : ParseError} (h : readFrom c.pos s (input.rest c.pos) = .error err)
    (hPos : c.pos = err.consumed) : Stops input c.pos s (input.failure err) c :=
  ⟨⟨[], .nil⟩, err, h, rfl, hPos⟩

theorem readFrom_other (index : Nat) (s : State) (ws : List Word) :
    readFrom index s (.other :: ws) = .error (.expected s.wants index) := by
  cases s with
  | start => rfl
  | operand isRet outer here sign => rfl
  | operator isRet outer here left => cases outer <;> rfl

/-- The reader has no use for a token without a text either. -/
theorem Unreadable.stops (h : Unreadable input c e c') (s : State) : Stops input c.pos s e c' := by
  obtain ⟨rfl, rfl, ⟨ws, hRest⟩, hDescribe⟩ := h
  refine ⟨⟨[], .nil⟩, .expected s.wants c'.pos, ?_, ?_, rfl⟩
  · rw [hRest, readFrom_other]
  · rw [Input.failure, ParseError.diagnostic?, hDescribe]
    rfl

/-- How tightly a word binds behind an operand: `=` less than every operator. -/
def binding? (w : Word) : Option Nat :=
  if w = .punct .assign then some 0 else w.op?.map Op.level

/-- The next word, if any, binds less tightly than `level`. -/
def Looser (level : Nat) (ws : List Word) : Prop :=
  ∀ w ∈ ws.head?, ∀ n ∈ binding? w, n < level

theorem binding?_op (op : Op) : binding? (.punct op.punct) = some op.level := by
  cases op <;> rfl

theorem eq_of_binding? {w : Word} {n : Nat} (h : binding? w = some n) :
    (w = .punct .assign ∧ n = 0) ∨ ∃ op : Op, w = .punct op.punct ∧ n = op.level := by
  rw [binding?] at h
  split at h
  next hw => exact .inl ⟨hw, (Option.some.inj h).symm⟩
  next hw =>
    obtain ⟨op, hOp, rfl⟩ := Option.map_eq_some_iff.mp h
    exact .inr ⟨op, Word.op?_eq_some.mp hOp, rfl⟩

/-- No word binds more tightly than an operand holds together. -/
theorem looser_unary (ws : List Word) : Looser Phrase.unary.level ws := by
  intro w _ n hn
  rcases eq_of_binding? hn with ⟨-, rfl⟩ | ⟨op, -, rfl⟩
  · decide
  · exact op.level_lt_unary

theorem Looser.mono {m n : Nat} {ws : List Word} (h : Looser m ws) (hLe : m ≤ n) : Looser n ws :=
  fun w hw k hk => Nat.lt_of_lt_of_le (h w hw k hk) hLe

/-- Without `=`, nothing that binds at all. -/
theorem Looser.of_ne_assign {ws : List Word} (h : Looser Phrase.equality.level ws)
    (hAssign : ws.head? ≠ some (.punct .assign)) : Looser Phrase.assign.level ws := by
  intro w hw n hn
  have hLess := h w hw n hn
  rcases eq_of_binding? hn with ⟨rfl, -⟩ | ⟨op, -, rfl⟩
  · exact absurd hw hAssign
  · exact absurd hLess (Nat.not_lt.mpr op.level_pos)

/-- Without its operators, nothing that binds as tightly as a repetition. -/
theorem Looser.of_ne_ops {p q : Phrase} {ws : List Word} (h : Looser q.level ws)
    (hNext : p.tighter? = some q) (hPos : 0 < p.level)
    (hOps : ∀ op ∈ p.ops, ws.head? ≠ some (.punct op.punct)) : Looser p.level ws := by
  intro w hw n hn
  have hLess := h w hw n hn
  rw [Phrase.level_of_tighter? hNext] at hLess
  rcases eq_of_binding? hn with ⟨-, rfl⟩ | ⟨op, rfl, rfl⟩
  · exact hPos
  · refine Nat.lt_of_le_of_ne (Nat.le_of_lt_succ hLess) fun hLevel => ?_
    exact hOps op (Phrase.mem_ops.mpr hLevel) hw

/-- What ends the innermost bracket, or else the statement. -/
def closer : List Bracket → Punct
  | [] => .semicolon
  | _ :: _ => .closeParen

theorem readFrom_unclosed {index : Nat} {isRet : Bool} {outer : List Bracket} {here : Level}
    {left : Expr} {ws : List Word} (hLooser : Looser 0 ws)
    (hClose : ws.head? ≠ some (.punct (closer outer))) :
    readFrom index (.operator isRet outer here left) ws =
      .error (.expected (State.operator isRet outer here left).wants index) := by
  cases ws with
  | nil => rfl
  | cons w ws =>
    have hNone : binding? w = none := by
      cases hw : binding? w with
      | none => rfl
      | some n => exact absurd (hLooser w rfl n hw) (Nat.not_lt_zero n)
    have hStep : readOperator index isRet outer here left w =
        .error (.expected (State.operator isRet outer here left).wants index) := by
      unfold readOperator
      split
      · cases hNone
      · exact absurd rfl hClose
      · exact absurd rfl hClose
      · split
        next op hOp =>
          rw [Word.op?_eq_some.mp hOp, binding?_op] at hNone
          cases hNone
        next => rfl
    rw [readFrom, State.step, hStep]

theorem readFrom_no_operand {index : Nat} {isRet : Bool} {outer : List Bracket} {here : Level}
    {sign : Option Sign} {ws : List Word} (hParen : ws.head? ≠ some (.punct .openParen))
    (hSign : sign = none → ∀ s : Sign, ws.head? ≠ some (.punct s.punct))
    (hIdent : ∀ x, ws.head? ≠ some (.ident x)) (hNum : ∀ v, ws.head? ≠ some (.num v)) :
    readFrom index (.operand isRet outer here sign) ws = .error (.expected .number index) := by
  cases ws with
  | nil => rfl
  | cons w ws =>
    have hStep : readOperand index isRet outer here sign w = .error (.expected .number index) := by
      unfold readOperand
      split
      · exact absurd rfl (hIdent _)
      · exact absurd rfl (hNum _)
      · exact absurd rfl (hNum _)
      · split
        next hp => exact absurd (congrArg (some ∘ Word.punct) hp) hParen
        next =>
          split
          next hs => exact absurd (by rw [Sign.ofPunct?_eq_some.mp hs]; rfl) (hSign rfl _)
          next => rfl
      · rfl
      · rfl
    rw [readFrom, State.step, hStep]
    rfl

end

/-! ### Expressions -/

/-- From `c` to `c'` stand the words of `e`.  Their names were entered into the table, and `n` is
the tree of `e` over this table. -/
structure Spans (input : Input) (c : Cursor) (e : Expr) (n : Node Nat) (c' : Cursor) : Prop where
  graded : e.Graded
  words : input.Covers c.pos e.words c'.pos
  locals : c'.locals = c.locals.declareAll e.names
  node : n = e.node.map c'.locals.indexOf

/-- From `c` to `c'` stands a phrase `p`, and what follows does not continue it. -/
def Reads (input : Input) (p : Phrase) (c : Cursor) (n : Node Nat) (c' : Cursor) : Prop :=
  ∃ e, Spans input c e n c' ∧ p.level ≤ e.level ∧ Looser p.level (input.rest c'.pos)

namespace Spans

variable {input : Input} {c c₁ c₂ c₃ : Cursor} {e l r : Expr} {m n : Node Nat}

theorem num {v : Int64} (h : Takes input c (.num (some v)) c₁) :
    Spans input c (.num v) (.num v) c₁ := by
  obtain ⟨rfl, hRest⟩ := h
  exact ⟨trivial, .word hRest, rfl, rfl⟩

theorem name {x : String} (h : Takes input c (.ident x) c₁) :
    Spans input c (.name x) (.var (c₁.locals.declare x).1) (c₁.enter x) := by
  obtain ⟨rfl, hRest⟩ := h
  refine ⟨trivial, .word hRest, rfl, ?_⟩
  rw [Expr.node, Node.map, Locals.declare_fst]
  rfl

theorem paren (h : Spans input c₁ e n c₂) (hOpen : Takes input c (.punct .openParen) c₁)
    (hClose : Takes input c₂ (.punct .closeParen) c₃) : Spans input c (.paren e) n c₃ := by
  obtain ⟨rfl, hOpen⟩ := hOpen
  obtain ⟨rfl, hClose⟩ := hClose
  refine ⟨h.graded, ?_, ?_, h.node⟩
  · exact (Input.Covers.word hOpen).trans (h.words.trans (.word hClose))
  · rw [Expr.names_paren]
    exact h.locals

theorem signed {s : Sign} (hSign : Takes input c (.punct s.punct) c₁) (h : Spans input c₁ e n c₂)
    (hLevel : Phrase.primary.level ≤ e.level) : Spans input c (.signed s e) (s.node n) c₂ := by
  obtain ⟨rfl, hSign⟩ := hSign
  refine ⟨⟨h.graded, hLevel⟩, (Input.Covers.word hSign).trans h.words, h.locals, ?_⟩
  rw [h.node, Expr.node, Sign.map_node]

/-- The words and the tables of two expressions with a word between them. -/
theorem join {w : Word} (hl : Spans input c l m c₁) (hw : Takes input c₁ w c₂)
    (hr : Spans input c₂ r n c₃) :
    input.Covers c.pos (l.words ++ w :: r.words) c₃.pos ∧
      c₃.locals = c.locals.declareAll (l.names ++ r.names) ∧
      m = l.node.map c₃.locals.indexOf := by
  obtain ⟨rfl, hw⟩ := hw
  have hLocals : c₃.locals = (c.locals.declareAll l.names).declareAll r.names := by
    rw [← hl.locals]
    exact hr.locals
  refine ⟨hl.words.trans ((Input.Covers.word hw).trans hr.words), ?_, ?_⟩
  · rw [hLocals, Locals.declareAll_append]
  · have hVars : ∀ x ∈ l.node.vars, x ∈ (c.locals.declareAll l.names).names :=
      fun x hx => Locals.mem_names_declareAll.mpr (.inr (l.vars_node_perm.mem_iff.mp hx))
    rw [hLocals, Node.map_indexOf_declareAll hVars, ← hl.locals]
    exact hl.node

theorem binary {op : Op} (hl : Spans input c l m c₁) (hOp : Takes input c₁ (.punct op.punct) c₂)
    (hr : Spans input c₂ r n c₃) (hLeft : op.level ≤ l.level) (hRight : op.level < r.level) :
    Spans input c (.binary op l r) (op.node m n) c₃ := by
  obtain ⟨hWords, hLocals, hNode⟩ := hl.join hOp hr
  refine ⟨⟨hl.graded, hr.graded, hLeft, hRight⟩, hWords, ?_, ?_⟩
  · rw [Expr.names_binary]
    exact hLocals
  · rw [Expr.node, Op.map_node, ← hNode, ← hr.node]

theorem assign {x : String} (hl : Spans input c l m c₁)
    (hAssign : Takes input c₁ (.punct .assign) c₂) (hr : Spans input c₂ r n c₃)
    (hLevel : 0 < l.level) (hPlace : l.node = .var x) :
    Spans input c (.assign l r) (.assign m n) c₃ := by
  obtain ⟨hWords, hLocals, hNode⟩ := hl.join hAssign hr
  refine ⟨⟨hl.graded, hr.graded, hLevel, x, hPlace⟩, hWords, ?_, ?_⟩
  · rw [Expr.names_assign]
    exact hLocals
  · rw [Expr.node, Node.map, ← hNode, ← hr.node]

/-- The reader takes the expression as one operand. -/
theorem exists_reaches (h : Spans input c e n c₁) (isRet : Bool) (outer : List Bracket)
    (here : Level) (hHead : ∀ q ∈ here.pending.head?, q.2.level < e.level) :
    ∃ here' left, Reaches input c.pos (.operand isRet outer here none) c₁.pos
        (.operator isRet outer here' left) ∧ Settles here' left here e := by
  obtain ⟨here', left, hLeads, hSettles⟩ :=
    leads_words isRet c.pos outer here none h.graded (.inl rfl) hHead
  exact ⟨here', left, ⟨_, h.words, hLeads⟩, hSettles⟩

end Spans

/-! ### Routines -/

/-- The routine of a phrase does what the reader does where it wants an operand. -/
def Parses (input : Input) (depth : Nat) (p : Phrase) (c : Cursor) : Prop :=
  ∀ isRet outer here, (∀ q ∈ here.pending.head?, q.2.level < p.level) →
    (p = .assign → here.start = c.pos) →
      Ends input (phrase depth p) c (Reads input p c)
        (Stops input c.pos (.operand isRet outer here none))

/-- If the depth suffices for the words that are left, all routines do what the reader does. -/
structure Correct (input : Input) (depth : Nat) : Prop where
  parses : ∀ p c, p ≠ .primary → 9 * (input.rest c.pos).length + 8 ≤ depth + p.level →
    Parses input depth p c
  primary : ∀ c isRet outer here sign, 9 * (input.rest c.pos).length + 2 ≤ depth →
    (sign = none → ∀ s : Sign, (input.rest c.pos).head? ≠ some (.punct s.punct)) →
      Ends input (phrase depth .primary) c (Reads input .primary c)
        (Stops input c.pos (.operand isRet outer here sign))
  repeats : ∀ p q c₀ c e n isRet outer here, p.tighter? = some q → p.ops ≠ [] →
    9 * (input.rest c.pos).length + 1 ≤ depth → (∀ r ∈ here.pending.head?, r.2.level < p.level) →
      Spans input c₀ e n c → p.level ≤ e.level → Looser q.level (input.rest c.pos) →
        Ends input (repeated depth p q n) c (Reads input p c₀)
          (Stops input c₀.pos (.operand isRet outer here none))

section

variable {input : Input} {depth : Nat} {c : Cursor}

theorem Takes.length_rest {w : Word} {c' : Cursor} (h : Takes input c w c') :
    (input.rest c.pos).length = (input.rest c'.pos).length + 1 := by
  obtain ⟨rfl, hRest⟩ := h
  rw [hRest]
  rfl

theorem Spans.length_rest {e : Expr} {n : Node Nat} {c' : Cursor} (h : Spans input c e n c') :
    (input.rest c'.pos).length < (input.rest c.pos).length := by
  obtain ⟨w, ws, hWords, -⟩ := exists_head_words e
  rw [h.words.length_rest, hWords, List.length_cons]
  omega

theorem ends_skip (isRet : Bool) (outer : List Bracket) (here : Level) (left : Expr)
    (hLooser : Looser 0 (input.rest c.pos)) :
    Ends input (skip (closer outer) (State.operator isRet outer here left).wants) c
      (fun _ c' => Takes input c (.punct (closer outer)) c')
      (Stops input c.pos (.operator isRet outer here left)) := by
  unfold skip
  refine (ends_equal (closer outer)).bind (fun _ _ hBad => hBad.stops _) ?_
  rintro b c' (⟨rfl, hTakes⟩ | ⟨rfl, rfl, hNone⟩)
  · exact .pure hTakes
  · exact .get (.failWith (stops_of_error (readFrom_unclosed hLooser hNone) rfl))

theorem Correct.primary_succ (h : Correct input depth) (isRet : Bool) (outer : List Bracket)
    (here : Level) (sign : Option Sign) (hDepth : 9 * (input.rest c.pos).length + 2 ≤ depth + 1)
    (hSign : sign = none → ∀ s : Sign, (input.rest c.pos).head? ≠ some (.punct s.punct)) :
    Ends input (phrase (depth + 1) .primary) c (Reads input .primary c)
      (Stops input c.pos (.operand isRet outer here sign)) := by
  have hLooser : ∀ ws, Looser Phrase.primary.level ws :=
    fun ws => (looser_unary ws).mono (Nat.le_succ _)
  rw [phrase]
  refine (ends_equal .openParen).bind (fun _ _ hBad => hBad.stops _) ?_
  rintro b c₁ (⟨rfl, hOpen⟩ | ⟨rfl, rfl, hParen⟩)
  · have hReaches : Reaches input c.pos (.operand isRet outer here sign) c₁.pos
        (.phrase isRet ({ outside := here, sign } :: outer) c₁.pos) := by
      refine hOpen.reaches ?_
      rw [hOpen.1]
      rfl
    have hInner : Parses input depth .assign c₁ := by
      refine h.parses _ _ (by decide) ?_
      have hLength := hOpen.length_rest
      rw [show Phrase.assign.level = 0 from rfl]
      omega
    refine (hInner isRet _ _ (by nofun) (fun _ => rfl)).bind
      (fun _ _ hStops => hReaches.stops hStops) ?_
    rintro n c₂ ⟨e, hSpans, hLevel, hNext⟩
    obtain ⟨here', left, hReaches', hSettles⟩ := hSpans.exists_reaches isRet
      ({ outside := here, sign } :: outer) { start := c₁.pos } (by nofun)
    refine (ends_skip isRet ({ outside := here, sign } :: outer) here' left hNext).bind
      (fun _ _ hStops => (hReaches.trans hReaches').stops hStops) ?_
    intro _ c₃ hClose
    exact .pure ⟨.paren e, hSpans.paren hOpen hClose, Nat.le_refl _, hLooser _⟩
  · refine ends_takeIdent.bind (fun _ _ hBad => hBad.stops _) ?_
    rintro r c₂ (⟨x, rfl, hIdent⟩ | ⟨rfl, rfl, hIdent⟩)
    · exact .value rfl ⟨.name x, .name hIdent, Nat.le_refl _, hLooser _⟩
    · refine ends_number.bind ?_ ?_
      · rintro e c₃ ⟨rfl, ⟨hNone, rfl⟩ | ⟨hNum, rfl⟩⟩
        · refine stops_of_error ?_ rfl
          rw [Input.rest_of_head hNone]
          rfl
        · exact stops_of_error (readFrom_no_operand hParen hSign hIdent hNum) rfl
      · intro v c₃ hNum
        exact .pure ⟨.num v, .num hNum, Nat.le_refl _, hLooser _⟩

/-- A sign before an operand. -/
theorem Reads.signed {s : Sign} {n : Node Nat} {c₁ c₂ : Cursor}
    (hSign : Takes input c (.punct s.punct) c₁) (h : Reads input .primary c₁ n c₂) :
    Reads input .unary c (s.node n) c₂ := by
  obtain ⟨e, hSpans, hLevel, -⟩ := h
  exact ⟨.signed s e, hSpans.signed hSign hLevel, Nat.le_refl _, looser_unary _⟩

theorem Correct.unary_succ (h : Correct input depth)
    (hDepth : 9 * (input.rest c.pos).length + 8 ≤ depth + 1 + Phrase.unary.level) :
    Parses input (depth + 1) .unary c := by
  rw [show Phrase.unary.level = 5 from rfl] at hDepth
  intro isRet outer here _ _
  have hSigned : ∀ (s : Sign) (c₁ : Cursor), Takes input c (.punct s.punct) c₁ →
      Ends input (phrase depth .primary) c₁ (fun n c₂ => Reads input .unary c (s.node n) c₂)
        (Stops input c.pos (.operand isRet outer here none)) := by
    intro s c₁ hSign
    have hLength := hSign.length_rest
    refine (h.primary c₁ isRet outer here (some s) (by omega) nofun).imp ?_ ?_
    · exact fun n c₂ hReads => hReads.signed hSign
    · exact fun e c₂ hStops => (hSign.reaches (step_sign s)).stops hStops
  rw [phrase]
  refine (ends_equal .plus).bind (fun _ _ hBad => hBad.stops _) ?_
  rintro b c₁ (⟨rfl, hPlus⟩ | ⟨rfl, rfl, hPlus⟩)
  · exact hSigned .plus c₁ hPlus
  · refine (ends_equal .minus).bind (fun _ _ hBad => hBad.stops _) ?_
    rintro b c₂ (⟨rfl, hMinus⟩ | ⟨rfl, rfl, hMinus⟩)
    · refine (hSigned .minus c₂ hMinus).bind (fun _ _ hStops => hStops) ?_
      exact fun n c₃ hReads => .pure hReads
    · have hNone : ∀ s : Sign, (input.rest c₂.pos).head? ≠ some (.punct s.punct) := by
        intro s
        cases s with
        | plus => exact hPlus
        | minus => exact hMinus
      refine (h.primary c₂ isRet outer here none (by omega) (fun _ => hNone)).imp ?_
        (fun _ _ hStops => hStops)
      rintro n c₃ ⟨e, hSpans, hLevel, -⟩
      exact ⟨e, hSpans, Nat.le_of_succ_le hLevel, looser_unary _⟩

theorem phrase_succ {p q : Phrase} (hNext : p.tighter? = some q) (hOps : p.ops ≠ []) :
    phrase (depth + 1) p = phrase depth q >>= repeated depth p q := by
  cases p with
  | equality | relational | add | mul =>
    cases hNext
    rw [phrase]
  | _ => exact absurd rfl hOps

theorem Correct.chain_succ (h : Correct input depth) {p q : Phrase} (hNext : p.tighter? = some q)
    (hOps : p.ops ≠ []) (hDepth : 9 * (input.rest c.pos).length + 8 ≤ depth + 1 + p.level) :
    Parses input (depth + 1) p c := by
  have hq := Phrase.level_of_tighter? hNext
  intro isRet outer here hHead _
  have hOperand := Phrase.operand_ne hOps hNext
  rw [phrase_succ hNext hOps]
  refine (h.parses q c hOperand.2 (by omega) isRet outer here ?_ ?_).bind
    (fun _ _ hStops => hStops) ?_
  · intro r hr
    exact Nat.lt_of_lt_of_le (hHead r hr) (by omega)
  · exact fun hq => absurd hq hOperand.1
  · rintro n c₁ ⟨e, hSpans, hLevel, hLooser⟩
    have hLength := hSpans.length_rest
    have hp := p.level_le_primary
    rw [show Phrase.primary.level = 6 from rfl] at hp
    exact h.repeats p q c c₁ e n isRet outer here hNext hOps (by omega) hHead hSpans (by omega)
      hLooser

theorem Correct.repeats_succ (h : Correct input depth) {p q : Phrase} {c₀ : Cursor} {e : Expr}
    {n : Node Nat} (isRet : Bool) (outer : List Bracket) (here : Level)
    (hNext : p.tighter? = some q) (hOps : p.ops ≠ [])
    (hDepth : 9 * (input.rest c.pos).length + 1 ≤ depth + 1)
    (hHead : ∀ r ∈ here.pending.head?, r.2.level < p.level) (hSpans : Spans input c₀ e n c)
    (hLevel : p.level ≤ e.level) (hLooser : Looser q.level (input.rest c.pos)) :
    Ends input (repeated (depth + 1) p q n) c (Reads input p c₀)
      (Stops input c₀.pos (.operand isRet outer here none)) := by
  have hq := Phrase.level_of_tighter? hNext
  obtain ⟨here', left, hReaches, hSettles⟩ := hSpans.exists_reaches isRet outer here
    (fun r hr => Nat.lt_of_lt_of_le (hHead r hr) hLevel)
  rw [repeated]
  refine (ends_takeOp p.ops).bind (fun _ _ hBad => hReaches.stops (hBad.stops _)) ?_
  rintro r c₁ (⟨op, hMem, rfl, hOp⟩ | ⟨rfl, rfl, hNone⟩)
  · have hOpLevel := Phrase.mem_ops.mp hMem
    -- the operators that the reader still holds are exactly those it held before `e`
    have hShift := hSettles.shift (show op.level ≤ e.level by omega) (by rwa [hOpLevel])
    have hReaches₁ := hReaches.trans (hOp.reaches (step_op op left))
    have hLength := hOp.length_rest
    have hOperand := Phrase.operand_ne hOps hNext
    refine (h.parses q c₁ hOperand.2 (by omega) isRet outer (here'.shift op left) ?_ ?_).bind
      (fun _ _ hStops => hReaches₁.stops hStops) ?_
    · rw [hShift]
      rintro _ ⟨⟩
      show op.level < q.level
      omega
    · exact fun hq => absurd hq hOperand.1
    · rintro m c₂ ⟨r, hSpansRight, hLevelRight, hLooserRight⟩
      have hLength' := hSpansRight.length_rest
      refine h.repeats p q c₀ c₂ (.binary op e r) (op.node n m) isRet outer here hNext hOps
        (by omega) hHead ?_ ?_ hLooserRight
      · exact hSpans.binary hOp hSpansRight (by omega) (by omega)
      · exact Nat.le_of_eq hOpLevel.symm
  · exact .pure ⟨e, hSpans, hLevel, hLooser.of_ne_ops hNext (Phrase.level_pos_of_ops hOps) hNone⟩

/-- A `=` behind what denotes no variable. -/
theorem Takes.stops_notLvalue {c' : Cursor} (h : Takes input c (.punct .assign) c') (isRet : Bool)
    (outer : List Bracket) {here : Level} {left : Expr} (hPlace : (here.side left).place? = none) :
    Stops input c.pos (.operator isRet outer here left)
      (input.failure (.notLvalue here.start c.pos)) c' := by
  obtain ⟨rfl, hRest⟩ := h
  refine ⟨⟨_, .word hRest⟩, .notLvalue here.start c.pos, ?_, rfl, rfl⟩
  rw [hRest, readFrom]
  simp only [State.step, readOperator, hPlace]

/-- A tree over indices is a variable only if the expression denotes one. -/
theorem Spans.ne_var {t : Expr} {n : Node Nat} {c' : Cursor} (h : Spans input c t n c')
    (hPlace : t.place? = none) (i : Nat) : n ≠ .var i := by
  rw [h.node]
  cases hNode : t.node with
  | var x =>
    rw [Expr.place?_eq_some.mpr hNode] at hPlace
    cases hPlace
  | _ => simp [Node.map]

theorem Correct.assign_succ (h : Correct input depth)
    (hDepth : 9 * (input.rest c.pos).length + 8 ≤ depth + 1 + Phrase.assign.level) :
    Parses input (depth + 1) .assign c := by
  rw [show Phrase.assign.level = 0 from rfl] at hDepth
  intro isRet outer here hHead hStart
  -- nothing binds less tightly than an assignment, so nothing waits
  have hNone : here.pending = [] := by
    cases hp : here.pending with
    | nil => rfl
    | cons q rest => exact absurd (hHead q (by rw [hp]; rfl)) (Nat.not_lt_zero _)
  have hTarget : Parses input depth .equality c := by
    refine h.parses _ _ (by decide) ?_
    rw [show Phrase.equality.level = 1 from rfl]
    omega
  rw [phrase]
  refine .get ((hTarget isRet outer here ?_ ?_).bind (fun _ _ hStops => hStops) ?_)
  · intro q hq
    exact Nat.lt_succ_of_lt (hHead q hq)
  · intro hEq
    cases hEq
  rintro target c₁ ⟨t, hSpans, hLevel, hLooser⟩
  obtain ⟨here', left, hReaches, hSettles⟩ := hSpans.exists_reaches isRet outer here
    (fun q hq => Nat.lt_of_lt_of_le (hHead q hq) (Nat.zero_le _))
  have hSide : here'.side left = t := hSettles.side hLevel hNone
  refine .get ((ends_equal .assign).bind (fun _ _ hBad => hReaches.stops (hBad.stops _)) ?_)
  rintro b c₂ (⟨rfl, hAssign⟩ | ⟨rfl, rfl, hAssign⟩)
  · cases hPlace : t.place? with
    | some x =>
      have hVar := Expr.place?_eq_some.mp hPlace
      have hNode := hSpans.node
      rw [hVar, Node.map] at hNode
      have hReaches₁ := hReaches.trans (hAssign.reaches (step_assign (by rw [hSide, hPlace])))
      have hValue : Parses input depth .assign c₂ := by
        refine h.parses _ _ (by decide) ?_
        have hLength := hSpans.length_rest
        have hLength' := hAssign.length_rest
        rw [show Phrase.assign.level = 0 from rfl]
        omega
      rw [hNode]
      refine (hValue isRet outer _ ?_ (fun _ => by rw [hAssign.1]; rfl)).bind
        (fun _ _ hStops => hReaches₁.stops hStops) ?_
      · intro q hq
        cases hq
      rintro n c₃ ⟨v, hSpansValue, -, hLooserValue⟩
      rw [← hNode]
      exact .pure ⟨.assign t v, hSpans.assign hAssign hSpansValue hLevel hVar, Nat.zero_le _,
        hLooserValue⟩
    | none =>
      -- the routine has taken the `=` by then, the reader blames the tokens before it all the same
      have hStops := hReaches.stops (hAssign.stops_notLvalue isRet outer (by rw [hSide, hPlace]))
      rw [hSettles.start hLevel, hStart rfl] at hStops
      cases target with
      | var i => exact absurd rfl (hSpans.ne_var hPlace i)
      | _ => exact .failWith hStops
  · exact .pure ⟨t, hSpans, Nat.zero_le _, hLooser.of_ne_assign hAssign⟩

/-- **With a depth that suffices, every routine does what the reader does.** -/
theorem correct (input : Input) (depth : Nat) : Correct input depth := by
  induction depth with
  | zero =>
    refine ⟨?_, ?_, ?_⟩
    · intro p c hp hDepth
      have hLess : p.level < Phrase.primary.level :=
        Nat.lt_of_le_of_ne p.level_le_primary fun h => hp (Phrase.level_inj h)
      rw [show Phrase.primary.level = 6 from rfl] at hLess
      omega
    · intro c isRet outer here sign hDepth
      omega
    · intro p q c₀ c e n isRet outer here hNext hOps hDepth
      omega
  | succ depth h =>
    refine ⟨?_, ?_, ?_⟩
    · intro p c hp hDepth
      cases p with
      | assign => exact h.assign_succ hDepth
      | equality => exact h.chain_succ rfl nofun hDepth
      | relational => exact h.chain_succ rfl nofun hDepth
      | add => exact h.chain_succ rfl nofun hDepth
      | mul => exact h.chain_succ rfl nofun hDepth
      | unary => exact h.unary_succ hDepth
      | primary => exact absurd rfl hp
    · intro c isRet outer here sign hDepth hSign
      exact h.primary_succ isRet outer here sign hDepth hSign
    · intro p q c₀ c e n isRet outer here hNext hOps hDepth hHead hSpans hLevel hLooser
      exact h.repeats_succ isRet outer here hNext hOps hDepth hHead hSpans hLevel hLooser

end

end Descent

end Semicolon
