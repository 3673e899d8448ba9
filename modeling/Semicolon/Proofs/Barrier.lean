import Semicolon.Proofs.Descent
import Semicolon.Proofs.Totality

/-!
# Parsing ends at the end mark

`Descent.correct` is carried over to statements and to the loop over them, so descent gives what
`Program.parse` gives as soon as the depth is nine times the number of tokens.  A routine that has
an outcome keeps it when the depth grows (`Extends`).  So each routine has one outcome from there
on, and where it leaves the cursor is known from the words between (`Advances`).

That tokens behind an end mark do not matter is said of `Program.parse`, which only looks at the
words and, for a diagnostic, at the token that is blamed.
-/

namespace Semicolon

open Parse

theorem Word.length_ofTokens_le (source : Text) (tokens : List Token) :
    (ofTokens source tokens).length ≤ tokens.length := by
  rw [ofTokens, List.length_map]
  exact (List.takeWhile_sublist _).length_le

theorem Stmt.names_expr (e : Expr) : (Stmt.expr e).names = e.names := by
  rw [names, words, Word.names_append]
  exact List.append_nil _

theorem Stmt.names_ret (e : Expr) : (Stmt.ret e).names = e.names := by
  show Word.names (e.words ++ [.punct .semicolon]) = e.names
  rw [Word.names_append]
  exact List.append_nil _

theorem Stmt.two_le_length_words (s : Stmt) : 2 ≤ s.words.length := by
  have hExpr : ∀ e : Expr, 1 ≤ e.words.length := by
    intro e
    obtain ⟨w, ws, hWords, -⟩ := exists_head_words e
    rw [hWords, List.length_cons]
    omega
  cases s with
  | expr e =>
    have he := hExpr e
    rw [words, List.length_append, List.length_singleton]
    omega
  | ret e =>
    rw [words, List.length_cons, List.length_append, List.length_singleton]
    omega

theorem Stmt.two_mul_length_le (stmts : List Stmt) :
    2 * stmts.length ≤ (stmts.flatMap Stmt.words).length := by
  induction stmts with
  | nil => exact Nat.le_refl _
  | cons s stmts ih =>
    have hTwo := s.two_le_length_words
    rw [List.flatMap_cons, List.length_append, List.length_cons]
    omega

namespace Descent

section

variable {input : Input} {depth : Nat} {c : Cursor}

/-! ### Statements -/

/-- From `c` to `c'` stands the statement `s`, and `n` is its tree. -/
structure SpansStmt (input : Input) (c : Cursor) (s : Stmt) (n : Node Nat) (c' : Cursor) :
    Prop where
  graded : s.Graded
  words : input.Covers c.pos s.words c'.pos
  locals : c'.locals = c.locals.declareAll s.names
  node : n = s.node.map c'.locals.indexOf

/-- An expression and a semicolon, which end a statement. -/
theorem ends_rest (isRet : Bool) (hDepth : 9 * (input.rest c.pos).length + 8 ≤ depth) :
    Ends input (do
        let e ← phrase depth .assign
        skip .semicolon .semicolon
        return if isRet then .ret e else e) c
      (fun n c' => ∃ e m c₁, Spans input c e m c₁ ∧ Takes input c₁ (.punct .semicolon) c' ∧
        n = if isRet then .ret m else m)
      (Stops input c.pos (.phrase isRet [] c.pos)) := by
  have hExpr : Parses input depth .assign c := (correct input depth).parses _ _ (by decide) hDepth
  refine (hExpr isRet [] { start := c.pos } (by nofun) (fun _ => rfl)).bind
    (fun _ _ hStops => hStops) ?_
  rintro m c₁ ⟨e, hSpans, -, hLooser⟩
  obtain ⟨here', left, hReaches, -⟩ := hSpans.exists_reaches isRet [] { start := c.pos } (by nofun)
  refine (ends_skip isRet [] here' left hLooser).bind (fun _ _ hStops => hReaches.stops hStops) ?_
  intro _ c₂ hSemicolon
  exact .pure ⟨e, m, c₁, hSpans, hSemicolon, rfl⟩

theorem Spans.expr {e : Expr} {n : Node Nat} {c₁ c₂ : Cursor} (h : Spans input c e n c₁)
    (hSemicolon : Takes input c₁ (.punct .semicolon) c₂) : SpansStmt input c (.expr e) n c₂ := by
  obtain ⟨rfl, hSemicolon⟩ := hSemicolon
  refine ⟨h.graded, h.words.trans (.word hSemicolon), ?_, h.node⟩
  rw [Stmt.names_expr]
  exact h.locals

theorem Spans.ret {e : Expr} {n : Node Nat} {c₁ c₂ c₃ : Cursor} (h : Spans input c₁ e n c₂)
    (hRet : Takes input c .ret c₁) (hSemicolon : Takes input c₂ (.punct .semicolon) c₃) :
    SpansStmt input c (.ret e) (.ret n) c₃ := by
  obtain ⟨rfl, hRet⟩ := hRet
  obtain ⟨rfl, hSemicolon⟩ := hSemicolon
  refine ⟨h.graded, (Input.Covers.word hRet).trans (h.words.trans (.word hSemicolon)), ?_, ?_⟩
  · rw [Stmt.names_ret]
    exact h.locals
  · rw [Stmt.node, Node.map, h.node]
    rfl

/-- At the end of the input the reader is done, while a routine still wants a statement. -/
theorem ends_stmt (hDepth : 9 * (input.rest c.pos).length + 8 ≤ depth) :
    Ends input (stmt depth) c (fun n c' => ∃ s, SpansStmt input c s n c')
      (fun e c' => (∃ ws, input.Covers c.pos ws c'.pos) ∧
        (input.rest c.pos ≠ [] → Stops input c.pos .start e c')) := by
  unfold stmt
  refine ends_return.bind ?_ ?_
  · intro e c' hBad
    exact ⟨(hBad.stops .start).covers, fun _ => hBad.stops .start⟩
  rintro b c₁ (⟨rfl, hRet⟩ | ⟨rfl, rfl, hRet⟩)
  · have hLength := hRet.length_rest
    refine (ends_rest true (by omega)).imp ?_ ?_
    · rintro n c₂ ⟨e, m, c₃, hSpans, hSemicolon, rfl⟩
      exact ⟨.ret e, hSpans.ret hRet hSemicolon⟩
    · intro e c₂ hStops
      have hReaches : Reaches input c.pos .start c₁.pos (.phrase true [] c₁.pos) := by
        refine hRet.reaches ?_
        rw [hRet.1]
        rfl
      exact ⟨(hReaches.stops hStops).covers, fun _ => hReaches.stops hStops⟩
  · refine (ends_rest false hDepth).imp ?_ ?_
    · rintro n c₂ ⟨e, m, c₃, hSpans, hSemicolon, rfl⟩
      exact ⟨.expr e, hSpans.expr hSemicolon⟩
    · intro e c₂ hStops
      refine ⟨hStops.covers, fun hRest => ⟨hStops.covers, ?_⟩⟩
      obtain ⟨w, ws, hw⟩ := List.exists_cons_of_ne_nil hRest
      rw [hw] at hRet
      obtain ⟨err, hErr, hFailure⟩ := hStops.error
      refine ⟨err, ?_, hFailure⟩
      rw [hw] at hErr ⊢
      rw [readFrom_start (fun h => hRet (congrArg some h)), hErr]

theorem ends_atEnd :
    Ends input atEnd c (fun b c' => c' = c ∧ (b = true ↔ input.rest c.pos = []))
      (fun _ _ => False) := by
  unfold atEnd
  refine .peek ?_
  cases ht : input.tokens[c.pos]? with
  | none =>
    refine .pure ⟨rfl, fun _ => Input.rest_of_end ?_, fun _ => rfl⟩
    rw [ht]
    nofun
  | some t =>
    refine .pure ⟨rfl, ?_⟩
    rw [decide_eq_true_iff]
    constructor
    · intro hKind
      refine Input.rest_of_end ?_
      rw [ht]
      rintro _ ⟨⟩
      exact hKind
    · intro hRest
      by_contra hKind
      rw [Input.rest_of_token ht hKind] at hRest
      cases hRest

theorem SpansStmt.readFrom_start {s : Stmt} {n : Node Nat} {c' : Cursor}
    (h : SpansStmt input c s n c') : readFrom c.pos .start (input.rest c.pos) =
      (readFrom c'.pos .start (input.rest c'.pos)).map (s :: ·) := by
  rw [h.words.1, readFrom_stmt _ h.graded, ← h.words.2]

/-- `ns` are the trees of the statements, all of whose names are in the table. -/
structure Done (stmts : List Stmt) (c : Cursor) (ns : List (Node Nat)) : Prop where
  nodes : ns = stmts.map fun s => s.node.map c.locals.indexOf
  names : ∀ s ∈ stmts, ∀ x ∈ s.node.vars, x ∈ c.locals.names

theorem Done.snoc {stmts : List Stmt} {ns : List (Node Nat)} {s : Stmt} {n : Node Nat} {c' : Cursor}
    (h : Done stmts c ns) (hSpans : SpansStmt input c s n c') :
    Done (stmts ++ [s]) c' (ns ++ [n]) := by
  constructor
  · rw [List.map_append, List.map_singleton, ← hSpans.node, h.nodes, hSpans.locals]
    refine congrArg (· ++ [n]) (List.map_congr_left fun u hu => ?_)
    exact (Node.map_indexOf_declareAll (h.names u hu) _).symm
  · intro u hu x hx
    rw [hSpans.locals, Locals.mem_names_declareAll]
    rcases List.mem_append.mp hu with hu | hu
    · exact .inl (h.names u hu x hx)
    · rw [List.mem_singleton.mp hu] at hx
      exact .inr (s.vars_node_perm.mem_iff.mp hx)

/-- The loop over the statements does what the reader does between two of them. -/
theorem ends_body {stmts : List Stmt} {ns : List (Node Nat)} (hDone : Done stmts c ns)
    (hDepth : 9 * (input.rest c.pos).length + 9 ≤ depth) :
    Ends input (body depth ns) c
      (fun ns' c' => ∃ more, readFrom c.pos .start (input.rest c.pos) = .ok more ∧
        input.Covers c.pos (input.rest c.pos) c'.pos ∧
        c'.locals = c.locals.declareAll (more.flatMap Stmt.names) ∧ Done (stmts ++ more) c' ns')
      (fun e c' => ∃ err, readFrom c.pos .start (input.rest c.pos) = .error err ∧
        input.failure err = e ∧ c'.pos = err.consumed) := by
  induction depth generalizing c stmts ns with
  | zero => omega
  | succ depth ih =>
    rw [body]
    refine ends_atEnd.bind (fun _ _ h => h.elim) ?_
    rintro b c₁ ⟨rfl, hEnd⟩
    by_cases hb : b = true
    · rw [if_pos hb]
      refine .pure ⟨[], ?_, ?_, rfl, ?_⟩
      · rw [hEnd.mp hb]
        rfl
      · rw [hEnd.mp hb]
        exact .nil
      · rwa [List.append_nil]
    · rw [if_neg hb]
      refine (ends_stmt (by omega)).bind ?_ ?_
      · intro e c₂ hStops
        exact (hStops.2 fun h => hb (hEnd.mpr h)).error
      rintro n c₂ ⟨s, hSpans⟩
      -- a statement has words, so the depth suffices for what is left
      have hLength := hSpans.words.length_rest
      have hTwo := s.two_le_length_words
      refine (ih (hDone.snoc hSpans) (by omega)).imp ?_ ?_
      · rintro ns' c₃ ⟨more, hMore, hCovers, hLocals, hDone'⟩
        refine ⟨s :: more, ?_, ?_, ?_, ?_⟩
        · rw [hSpans.readFrom_start, hMore]
          rfl
        · rw [hSpans.words.1]
          exact hSpans.words.trans hCovers
        · rw [hLocals, hSpans.locals, ← Locals.declareAll_append, List.flatMap_cons]
        · rwa [List.append_assoc, List.singleton_append] at hDone'
      · rintro e c₃ ⟨err, hErr, hFailure, hPos⟩
        refine ⟨err, ?_, hFailure, hPos⟩
        rw [hSpans.readFrom_start, hErr]
        rfl

end

theorem Input.length_rest_le (input : Input) (i : Nat) :
    (input.rest i).length ≤ input.tokens.length := by
  refine Nat.le_trans (Word.length_ofTokens_le _ _) ?_
  rw [List.length_drop]
  exact Nat.sub_le _ _

/-- How an error among the words ends the parsing. -/
theorem Input.program_parse_eq (input : Input) :
    Program.parse input.source input.tokens =
      match Stmt.parse (input.rest 0) with
      | .ok stmts => .ok (Program.ofStmts stmts)
      | .error err => .error (input.failure err) := by
  rw [Program.parse, Input.rest, List.drop_zero]
  cases Stmt.parse (Word.ofTokens input.source input.tokens) with
  | ok stmts => rfl
  | error err =>
    dsimp only [Input.failure]
    cases err.diagnostic? input.source input.tokens <;> rfl

/-- **Descent ends, and does what the reader does.** -/
theorem parse_eq_some (source : Text) (tokens : List Token) {depth : Nat}
    (hDepth : 9 * (tokens.length + 1) ≤ depth) :
    parse depth source tokens = some (Program.parse source tokens) := by
  have hLength : (Input.rest { source, tokens } 0).length ≤ tokens.length :=
    Input.length_rest_le { source, tokens } 0
  have hProgram : Program.parse source tokens =
      match readFrom 0 .start (Input.rest { source, tokens } 0) with
      | .ok stmts => .ok (Program.ofStmts stmts)
      | .error err => .error (Input.failure { source, tokens } err) :=
    Input.program_parse_eq { source, tokens }
  have hDone : Done [] {} [] := ⟨rfl, fun s hs => absurd hs List.not_mem_nil⟩
  have hBody : Ends { source, tokens } (body depth []) {} _ _ :=
    ends_body hDone (show 9 * (Input.rest { source, tokens } 0).length + 9 ≤ depth by omega)
  cases hBody with
  | @value ns c' hRun h =>
    obtain ⟨stmts, hRead, -, hLocals, hDone'⟩ := h
    rw [hRead] at hProgram
    rw [parse, hRun, hProgram, hDone'.nodes, List.nil_append]
    show some (Except.ok (Program.mk (stmts.map fun s => s.node.map c'.locals.indexOf) _)) = _
    rw [hLocals]
    rfl
  | failure hRun h =>
    obtain ⟨err, hErr, rfl, -⟩ := h
    rw [hErr] at hProgram
    rw [parse, hRun, hProgram]
    rfl

/-! ### More depth -/

section

variable {α β : Type}

/-- Where `x` has an outcome, `y` has the same one. -/
def Extends (x y : Parser α) : Prop :=
  ∀ input c r, x input c = some r → y input c = some r

theorem Extends.refl (x : Parser α) : Extends x x :=
  fun _ _ _ h => h

theorem Extends.bind {x y : Parser α} {f g : α → Parser β} (h : Extends x y)
    (hf : ∀ a, Extends (f a) (g a)) : Extends (x >>= f) (y >>= g) := by
  intro input c r hRun
  cases hx : x input c with
  | none =>
    rw [bind_of_none hx] at hRun
    cases hRun
  | some outcome =>
    have hy := h input c outcome hx
    obtain ⟨result, c'⟩ := outcome
    cases result with
    | error e =>
      rw [bind_of_error hx] at hRun
      rw [bind_of_error hy, hRun]
    | ok a =>
      rw [bind_of_ok hx] at hRun
      rw [bind_of_ok hy]
      exact hf a input c' r hRun

/-- The result of a routine is that of the same calls at one more depth.  Both kinds of routine at
once, since they call each other. -/
theorem extends_succ (depth : Nat) :
    (∀ p, Extends (phrase depth p) (phrase (depth + 1) p)) ∧
      ∀ p q left, Extends (repeated depth p q left) (repeated (depth + 1) p q left) := by
  induction depth with
  | zero =>
    refine ⟨fun p => ?_, fun p q left => ?_⟩
    · rw [phrase]
      intro input c r h
      cases h
    · rw [repeated]
      intro input c r h
      cases h
  | succ depth ih =>
    obtain ⟨hPhrase, hRepeated⟩ := ih
    refine ⟨fun p => ?_, fun p q left => ?_⟩
    · cases p with
      | assign =>
        rw [phrase, phrase]
        refine .bind (.refl _) fun _ => .bind (hPhrase _) fun target => .bind (.refl _) fun _ =>
          .bind (.refl _) fun b => ?_
        cases b with
        | false => exact .refl _
        | true =>
          cases target with
          | var i => exact .bind (hPhrase _) fun _ => .refl _
          | _ => exact .refl _
      | equality | relational | add | mul =>
        rw [phrase, phrase]
        exact .bind (hPhrase _) fun _ => hRepeated _ _ _
      | unary =>
        rw [phrase, phrase]
        refine .bind (.refl _) fun b => ?_
        cases b with
        | true => exact hPhrase _
        | false =>
          refine .bind (.refl _) fun b => ?_
          cases b with
          | true => exact .bind (hPhrase _) fun _ => .refl _
          | false => exact hPhrase _
      | primary =>
        rw [phrase, phrase]
        refine .bind (.refl _) fun b => ?_
        cases b with
        | true => exact .bind (hPhrase _) fun _ => .refl _
        | false => exact .refl _
    · rw [repeated, repeated]
      refine .bind (.refl _) fun op => ?_
      cases op with
      | none => exact .refl _
      | some op => exact .bind (hPhrase _) fun _ => hRepeated _ _ _

theorem extends_of_succ {routine : Nat → Parser α}
    (h : ∀ depth, Extends (routine depth) (routine (depth + 1))) {m n : Nat} (hLe : m ≤ n) :
    Extends (routine m) (routine n) := by
  induction n, hLe using Nat.le_induction with
  | base => exact .refl _
  | succ n _ ih => exact fun input c r hRun => h n input c r (ih input c r hRun)

theorem stmt_extends_succ (depth : Nat) : Extends (stmt depth) (stmt (depth + 1)) :=
  .bind (.refl _) fun _ => .bind ((extends_succ depth).1 _) fun _ => .refl _

/-- With every depth from `bound` on, the routine ends with the same outcome.  It does not move the
cursor over an end mark or out of the tokens, and it does move the cursor if it has a value. -/
def Advances (input : Input) (bound : Nat) (routine : Nat → Parser α) (c : Cursor) : Prop :=
  ∃ r c', (∀ depth, bound ≤ depth → routine depth input c = some (r, c')) ∧
    Passes input.tokens c.pos c'.pos ∧ ∀ a, r = .ok a → c.pos < c'.pos

theorem Ends.advances {input : Input} {bound : Nat} {routine : Nat → Parser α} {c : Cursor}
    {Q : α → Cursor → Prop} {E : Failure → Cursor → Prop} (h : Ends input (routine bound) c Q E)
    (hExtends : ∀ depth, Extends (routine depth) (routine (depth + 1)))
    (hQ : ∀ a c', Q a c' → ∃ w ws, input.Covers c.pos (w :: ws) c'.pos)
    (hE : ∀ e c', E e c' → ∃ ws, input.Covers c.pos ws c'.pos) :
    Advances input bound routine c := by
  have hOutcome : ∀ {r c'}, routine bound input c = some (r, c') →
      ∀ depth, bound ≤ depth → routine depth input c = some (r, c') :=
    fun hRun depth hLe => extends_of_succ hExtends hLe input c _ hRun
  cases h with
  | @value a c' hRun h =>
    obtain ⟨w, ws, hCovers⟩ := hQ a c' h
    refine ⟨.ok a, c', hOutcome hRun, hCovers.passes, ?_⟩
    intro _ _
    rw [hCovers.2, List.length_cons]
    omega
  | @failure e c' hRun h =>
    obtain ⟨ws, hCovers⟩ := hE e c' h
    refine ⟨.error e, c', hOutcome hRun, hCovers.passes, ?_⟩
    intro a ha
    cases ha

theorem Reads.exists_covers {input : Input} {p : Phrase} {c c' : Cursor} {n : Node Nat}
    (h : Reads input p c n c') : ∃ w ws, input.Covers c.pos (w :: ws) c'.pos := by
  obtain ⟨e, hSpans, -⟩ := h
  obtain ⟨w, ws, hWords, -⟩ := exists_head_words e
  exact ⟨w, ws, hWords ▸ hSpans.words⟩

theorem advances_phrase (input : Input) (p : Phrase) (c : Cursor) :
    Advances input (9 * (input.tokens.length + 1)) (phrase · p) c := by
  have hExtends : ∀ depth, Extends (phrase depth p) (phrase (depth + 1) p) :=
    fun depth => (extends_succ depth).1 p
  have hLength := input.length_rest_le c.pos
  by_cases hp : p = .primary
  · subst hp
    -- behind a sign a second one is refused by both
    have hEnds := (correct input (9 * (input.tokens.length + 1))).primary c false [] { start := 0 }
      (some .plus) (by omega) nofun
    exact hEnds.advances hExtends (fun _ _ h => h.exists_covers) (fun _ _ h => h.covers)
  · have hEnds := (correct input (9 * (input.tokens.length + 1))).parses p c hp (by omega) false []
      { start := c.pos } nofun (fun _ => rfl)
    exact hEnds.advances hExtends (fun _ _ h => h.exists_covers) (fun _ _ h => h.covers)

theorem advances_stmt (input : Input) (c : Cursor) :
    Advances input (9 * (input.tokens.length + 1)) stmt c := by
  have hLength := input.length_rest_le c.pos
  have hEnds : Ends input (stmt (9 * (input.tokens.length + 1))) c _ _ := ends_stmt (by omega)
  refine hEnds.advances stmt_extends_succ ?_ (fun _ _ h => h.1)
  rintro n c' ⟨s, hSpans⟩
  have hTwo := s.two_le_length_words
  cases hWords : s.words with
  | nil =>
    rw [hWords] at hTwo
    cases hTwo
  | cons w ws => exact ⟨w, ws, hWords ▸ hSpans.words⟩

end

end Descent

/-! ### Behind the end mark -/

theorem Word.ofTokens_append_eof {source : Text} {e : Token} (he : e.kind = .eof)
    (before after : List Token) :
    ofTokens source (before ++ e :: after) = ofTokens source before := by
  induction before with
  | nil =>
    rw [List.nil_append, ofTokens, List.takeWhile_cons_of_neg (by simp [he])]
    rfl
  | cons t before ih =>
    by_cases ht : t.kind = .eof
    · rw [List.cons_append, ofTokens, ofTokens, List.takeWhile_cons_of_neg (by simp [ht]),
        List.takeWhile_cons_of_neg (by simp [ht])]
    · rw [List.cons_append, ofTokens, ofTokens, List.takeWhile_cons_of_pos (by simp [ht]),
        List.takeWhile_cons_of_pos (by simp [ht]), List.map_cons, List.map_cons]
      exact congrArg _ ih

/-- A diagnostic only looks at one token. -/
theorem ParseError.diagnostic?_congr {source : Text} {tokens tokens' : List Token} {e : ParseError}
    (hDescribe : Token.describe? source tokens[e.blamed]? =
      Token.describe? source tokens'[e.blamed]?)
    (hLoc : locOf source tokens e.blamed = locOf source tokens' e.blamed) :
    e.diagnostic? source tokens = e.diagnostic? source tokens' := by
  cases e with
  | expected what index =>
    rw [blamed] at hDescribe hLoc
    simp only [diagnostic?, diagnostic?.report, hDescribe, hLoc]
  | missingValue index =>
    rw [blamed] at hLoc
    simp only [diagnostic?, diagnostic?.report, hLoc]
  | notLvalue phrase index =>
    rw [blamed] at hLoc
    simp only [diagnostic?, diagnostic?.report, hLoc]

namespace Program

variable {source : Text}

/-- Parsing looks at the tokens up to the end of the input, and at how the end is marked. -/
theorem parse_congr {tokens tokens' : List Token}
    (hWords : Word.ofTokens source tokens = Word.ofTokens source tokens')
    (hAt : ∀ i ≤ (Word.ofTokens source tokens).length,
      Token.describe? source tokens[i]? = Token.describe? source tokens'[i]? ∧
        ParseError.locOf source tokens i = ParseError.locOf source tokens' i) :
    Program.parse source tokens = Program.parse source tokens' := by
  rw [Program.parse, Program.parse, ← hWords]
  cases hParse : Stmt.parse (Word.ofTokens source tokens) with
  | ok stmts => rfl
  | error e =>
    obtain ⟨hDescribe, hLoc⟩ := hAt e.blamed (Stmt.blamed_le_of_parse hParse)
    dsimp only
    rw [ParseError.diagnostic?_congr hDescribe hLoc]

theorem parse_append_eof_append {e : Token} (he : e.kind = .eof)
    (before after after' : List Token) :
    Program.parse source (before ++ e :: after) = Program.parse source (before ++ e :: after') := by
  refine parse_congr ?_ ?_
  · rw [Word.ofTokens_append_eof he, Word.ofTokens_append_eof he]
  · intro i hi
    rw [Word.ofTokens_append_eof he] at hi
    have hLe := Nat.le_trans hi (Word.length_ofTokens_le source before)
    have hSame : (before ++ e :: after)[i]? = (before ++ e :: after')[i]? := by
      rcases Nat.lt_or_eq_of_le hLe with hLt | rfl
      · rw [List.getElem?_append_left hLt, List.getElem?_append_left hLt]
      · simp
    rw [ParseError.locOf, ParseError.locOf, hSame]
    exact ⟨rfl, rfl⟩

/-- A missing end mark is made up for by the end of the source. -/
theorem parse_append_eof (tokens : List Token) :
    Program.parse source (tokens ++ [.eof source.byteLength]) = Program.parse source tokens := by
  refine parse_congr (Word.ofTokens_append_eof rfl _ _) ?_
  intro i hi
  rw [Word.ofTokens_append_eof rfl] at hi
  have hLe := Nat.le_trans hi (Word.length_ofTokens_le source tokens)
  rw [ParseError.locOf, ParseError.locOf]
  rcases Nat.lt_or_eq_of_le hLe with hLt | rfl
  · rw [List.getElem?_append_left hLt]
    exact ⟨rfl, rfl⟩
  · rw [List.getElem?_concat_length, List.getElem?_eq_none (Nat.le_refl _)]
    exact ⟨rfl, rfl⟩

theorem two_mul_length_body_le {tokens : List Token} {p : Program}
    (h : Program.parse source tokens = .ok p) :
    2 * p.body.length ≤ (tokens.takeWhile (·.kind != .eof)).length := by
  obtain ⟨stmts, hStmts, rfl⟩ := parse_eq_ok.mp h
  have hWords := congrArg List.length (Stmt.words_of_parse hStmts)
  rw [Word.ofTokens, List.length_map] at hWords
  rw [← hWords, show (ofStmts stmts).body.length = stmts.length from List.length_map _]
  exact Stmt.two_mul_length_le stmts

end Program

/-- **Parsing ends, moves on, and does not look behind the end mark.**  For any tokens: every
routine ends from every place on, within a depth that is linear in the number of tokens; if it has a
value, it has moved the cursor, and it never moves the cursor over an end mark or out of the tokens.
So parsing ends, with what the reader gives.  No program has more statements than half of the tokens
before the first end mark; what stands behind an end mark does not matter; and where there is none,
one at the end of the source could be added. -/
theorem Descent.parse_stops_at_end_mark (source : Text) (tokens : List Token) :
    (∀ c, (∀ p, Advances { source, tokens } (9 * (tokens.length + 1)) (phrase · p) c) ∧
      Advances { source, tokens } (9 * (tokens.length + 1)) stmt c) ∧
    (∀ depth, 9 * (tokens.length + 1) ≤ depth →
      parse depth source tokens = some (Program.parse source tokens)) ∧
    (∀ p, Program.parse source tokens = .ok p →
      2 * p.body.length ≤ (tokens.takeWhile (·.kind != .eof)).length) ∧
    (∀ before e after after', tokens = before ++ e :: after → e.kind = .eof →
      Program.parse source tokens = Program.parse source (before ++ e :: after')) ∧
    Program.parse source tokens = Program.parse source (tokens ++ [.eof source.byteLength]) := by
  refine ⟨?_, ?_, ?_, ?_, ?_⟩
  · intro c
    exact ⟨fun p => advances_phrase { source, tokens } p c, advances_stmt { source, tokens } c⟩
  · intro depth hDepth
    exact parse_eq_some source tokens hDepth
  · intro p hp
    exact Program.two_mul_length_body_le hp
  · rintro before e after after' rfl he
    exact Program.parse_append_eof_append he before after after'
  · exact (Program.parse_append_eof tokens).symm

/-- A second end mark, a number without a value and a span that is not in the source, all behind the
first end mark. -/
theorem Descent.parse_stops_in_the_middle :
    parse 81 "a=1;".toList
        [⟨.ident, 0, 1, none⟩, ⟨.punctuator, 1, 1, none⟩, ⟨.num, 2, 1, some 1⟩,
          ⟨.punctuator, 3, 1, none⟩, ⟨.eof, 7, 2, none⟩, ⟨.num, 0, 1, none⟩, ⟨.ident, 9, 1, none⟩,
          .eof 4] =
      some (Program.parse "a=1;".toList
        [⟨.ident, 0, 1, none⟩, ⟨.punctuator, 1, 1, none⟩, ⟨.num, 2, 1, some 1⟩,
          ⟨.punctuator, 3, 1, none⟩, ⟨.eof, 7, 2, none⟩]) := by
  obtain ⟨-, hParse, -, hBarrier, -⟩ := parse_stops_at_end_mark "a=1;".toList
    [⟨.ident, 0, 1, none⟩, ⟨.punctuator, 1, 1, none⟩, ⟨.num, 2, 1, some 1⟩,
      ⟨.punctuator, 3, 1, none⟩, ⟨.eof, 7, 2, none⟩, ⟨.num, 0, 1, none⟩, ⟨.ident, 9, 1, none⟩,
      .eof 4]
  have hSame := hBarrier
    [⟨.ident, 0, 1, none⟩, ⟨.punctuator, 1, 1, none⟩, ⟨.num, 2, 1, some 1⟩,
      ⟨.punctuator, 3, 1, none⟩] ⟨.eof, 7, 2, none⟩ _ [] rfl rfl
  rw [hParse 81 (by decide), hSame]
  rfl

end Semicolon
