import Semicolon.Compile
import Semicolon.Proofs.Accounting
import Semicolon.Proofs.Barrier
import Semicolon.Proofs.CorrectPrefix
import Semicolon.Proofs.FrameBound

/-!
# The log of a compilation

`events` says what is reported from the words that were accepted; descent reports each name when it
enters it.  That the two agree is an invariant of the cursor (`Faithful`): its table and its log
are those of the words behind it.  Every routine keeps it on every path, also on one that fails, so
nothing has to be known about where in the recursion a failure occurs (`keeps_phrase`).  Where the
cursor stands then is known from `ends_body`.
-/

namespace Semicolon

theorem Locals.events_declare (t : Locals) (x : String) :
    (t.declare x).2.events =
      match t.find? x with
      | some _ => t.events
      | none => t.events ++ [.declared x (offset t.length)] := by
  cases hFind : t.find? x with
  | some i => rw [declare, hFind]
  | none =>
    rw [declare, hFind]
    simp [events, entries, List.zipIdx_append, length]

namespace Descent

section

variable {α β : Type} {input : Input} {c c' : Cursor}

/-- The table and the log are those of the words behind the cursor. -/
def Faithful (input : Input) (c : Cursor) : Prop :=
  ∃ ws, input.Covers 0 ws c.pos ∧ c.locals = Locals.ofNames (Word.names ws) ∧
    c.log = c.locals.events

theorem faithful_start (input : Input) : Faithful input {} :=
  ⟨[], .nil, rfl, rfl⟩

/-- To take a word that is no name changes nothing. -/
theorem Faithful.takes {w : Word} (h : Faithful input c) (hTakes : Takes input c w c')
    (hw : w.name? = none) : Faithful input c' := by
  obtain ⟨ws, hCovers, hLocals, hLog⟩ := h
  obtain ⟨rfl, hRest⟩ := hTakes
  refine ⟨ws ++ [w], hCovers.trans (.word hRest), ?_, hLog⟩
  have hNames : Word.names [w] = [] := by
    rw [Word.names, List.filterMap_cons_none hw, List.filterMap_nil]
  rw [Word.names_append, hNames, List.append_nil]
  exact hLocals

/-- A name that is taken is entered, and reported if it is new. -/
theorem Faithful.enter {x : String} (h : Faithful input c) (hTakes : Takes input c (.ident x) c') :
    Faithful input (c'.enter x) := by
  obtain ⟨ws, hCovers, hLocals, hLog⟩ := h
  obtain ⟨rfl, hRest⟩ := hTakes
  refine ⟨ws ++ [.ident x], hCovers.trans (.word hRest), ?_, ?_⟩
  · show (c.locals.declare x).2 = _
    rw [Word.names_append, Locals.ofNames, Locals.declareAll_append, hLocals]
    rfl
  · show _ = ((c.locals.declare x).2).events
    rw [Locals.events_declare, ← hLog]
    rfl

theorem Faithful.unreadable {e : Failure} (h : Faithful input c)
    (hBad : Unreadable input c e c') : Faithful input c' := by
  rw [hBad.cursor]
  exact h

/-- Wherever the routine ends, with a value or not, the cursor is faithful if it was so before. -/
def Keeps (input : Input) (x : Parser α) : Prop :=
  ∀ c r c', x input c = some (r, c') → Faithful input c → Faithful input c'

theorem Keeps.bind {x : Parser α} {f : α → Parser β} (h : Keeps input x)
    (hf : ∀ a, Keeps input (f a)) : Keeps input (x >>= f) := by
  intro c r c' hRun hc
  cases hx : x input c with
  | none =>
    rw [bind_of_none hx] at hRun
    cases hRun
  | some outcome =>
    obtain ⟨result, c₁⟩ := outcome
    have hc₁ := h c result c₁ hx hc
    cases result with
    | error e =>
      rw [bind_of_error hx] at hRun
      cases hRun
      exact hc₁
    | ok a =>
      rw [bind_of_ok hx] at hRun
      exact hf a c₁ r c' hRun hc₁

/-- What is known of where a routine ends is enough. -/
theorem Keeps.of_ends {x : Parser α} {Q : Cursor → α → Cursor → Prop}
    {E : Cursor → Failure → Cursor → Prop} (h : ∀ c, Ends input x c (Q c) (E c))
    (hQ : ∀ c a c', Q c a c' → Faithful input c → Faithful input c')
    (hE : ∀ c e c', E c e c' → Faithful input c → Faithful input c') : Keeps input x := by
  intro c r c' hRun hc
  cases h c with
  | value hRun' hValue =>
    rw [hRun'] at hRun
    cases hRun
    exact hQ c _ _ hValue hc
  | failure hRun' hFailure =>
    rw [hRun'] at hRun
    cases hRun
    exact hE c _ _ hFailure hc

theorem Keeps.pure (a : α) : Keeps input (pure a : Parser α) := by
  intro c r c' hRun hc
  cases hRun
  exact hc

theorem Keeps.get : Keeps input (get : Parser Cursor) := by
  intro c r c' hRun hc
  cases hRun
  exact hc

theorem Keeps.failWith (e : ParseError) : Keeps input (failWith e : Parser α) := by
  intro c r c' hRun hc
  cases hRun
  exact hc

theorem keeps_unfinished : Keeps input (unfinished : Parser α) := by
  intro c r c' hRun
  cases hRun

/-! ### Routines -/

theorem keeps_tests {x : Parser Bool} {w : Word} (hw : w.name? = none)
    (h : ∀ c, Ends input x c (Tests input c w) (Unreadable input c)) : Keeps input x := by
  refine Keeps.of_ends h ?_ fun c e c' hBad hc => hc.unreadable hBad
  intro c b c' hTests hc
  rcases hTests with ⟨-, hTakes⟩ | ⟨-, hSame, -⟩
  · exact hc.takes hTakes hw
  · rwa [hSame]

theorem keeps_equal (p : Punct) : Keeps input (equal p) :=
  keeps_tests rfl fun _ => ends_equal p

theorem keeps_return : Keeps input (consume .keyword Token.returnText) :=
  keeps_tests rfl fun _ => ends_return

theorem keeps_skip (p : Punct) (what : Expected) : Keeps input (skip p what) := by
  refine (keeps_equal p).bind fun b => ?_
  cases b with
  | true => exact .pure _
  | false => exact Keeps.get.bind fun c => .failWith _

theorem keeps_takeOp (ops : List Op) : Keeps input (takeOp ops) := by
  induction ops with
  | nil => exact .pure _
  | cons op ops ih =>
    refine (keeps_equal op.punct).bind fun b => ?_
    cases b with
    | true => exact .pure _
    | false => exact ih

theorem keeps_number : Keeps input number := by
  refine Keeps.of_ends (fun c => ends_number) ?_ ?_
  · intro c v c' hTakes hc
    exact hc.takes hTakes rfl
  · intro c e c' hFailure hc
    rw [hFailure.1]
    exact hc

/-- Between a name that is taken and its entry the cursor is not faithful, so the two go
together. -/
theorem Keeps.takeIdent {f : Option String → Parser β} {g : Nat → Parser β}
    (hSome : ∀ x, f (some x) = declare x >>= g) (hg : ∀ i, Keeps input (g i))
    (hNone : Keeps input (f none)) : Keeps input (takeIdent >>= f) := by
  intro c r c' hRun hc
  cases (ends_takeIdent : Ends input Descent.takeIdent c _ _) with
  | failure hIdent hBad =>
    rw [bind_of_error hIdent] at hRun
    cases hRun
    exact hc.unreadable hBad
  | @value _ c₁ hIdent hTaken =>
    rw [bind_of_ok hIdent] at hRun
    rcases hTaken with ⟨x, rfl, hTakes⟩ | ⟨rfl, rfl, -⟩
    · rw [hSome] at hRun
      have hDeclare : declare x input c₁ =
          some (.ok (c₁.locals.declare x).1, c₁.enter x) := rfl
      rw [bind_of_ok hDeclare] at hRun
      exact hg _ _ r c' hRun (hc.enter hTakes)
    · exact hNone _ r c' hRun hc

/-- **Every routine keeps the log faithful, wherever it ends.**  Both kinds of routine at once,
since they call each other. -/
theorem keeps_phrase (depth : Nat) :
    (∀ p, Keeps input (phrase depth p)) ∧
      ∀ p q left, Keeps input (repeated depth p q left) := by
  induction depth with
  | zero =>
    refine ⟨fun p => ?_, fun p q left => ?_⟩
    · rw [phrase]
      exact keeps_unfinished
    · rw [repeated]
      exact keeps_unfinished
  | succ depth ih =>
    obtain ⟨hPhrase, hRepeated⟩ := ih
    refine ⟨fun p => ?_, fun p q left => ?_⟩
    · cases p with
      | assign =>
        rw [phrase]
        refine Keeps.get.bind fun _ => (hPhrase _).bind fun target => Keeps.get.bind fun _ =>
          (keeps_equal .assign).bind fun b => ?_
        cases b with
        | false => exact .pure _
        | true =>
          cases target with
          | var i => exact (hPhrase _).bind fun _ => .pure _
          | _ => exact .failWith _
      | equality | relational | add | mul =>
        rw [phrase]
        exact (hPhrase _).bind fun _ => hRepeated _ _ _
      | unary =>
        rw [phrase]
        refine (keeps_equal .plus).bind fun b => ?_
        cases b with
        | true => exact hPhrase _
        | false =>
          refine (keeps_equal .minus).bind fun b => ?_
          cases b with
          | true => exact (hPhrase _).bind fun _ => .pure _
          | false => exact hPhrase _
      | primary =>
        rw [phrase]
        refine (keeps_equal .openParen).bind fun b => ?_
        cases b with
        | true => exact (hPhrase _).bind fun _ => (keeps_skip _ _).bind fun _ => .pure _
        | false =>
          refine .takeIdent (fun x => rfl) (fun i => .pure _) ?_
          exact keeps_number.bind fun _ => .pure _
    · rw [repeated]
      refine (keeps_takeOp p.ops).bind fun op => ?_
      cases op with
      | none => exact .pure _
      | some op => exact (hPhrase _).bind fun _ => hRepeated _ _ _

theorem keeps_stmt (depth : Nat) : Keeps input (stmt depth) :=
  keeps_return.bind fun _ => ((keeps_phrase depth).1 _).bind fun _ =>
    (keeps_skip _ _).bind fun _ => .pure _

theorem keeps_body (depth : Nat) (done : List (Node Nat)) : Keeps input (body depth done) := by
  induction depth generalizing done with
  | zero =>
    rw [body]
    exact keeps_unfinished
  | succ depth ih =>
    rw [body]
    have hEnd : Keeps input atEnd := by
      refine Keeps.of_ends (fun c => ends_atEnd) ?_ fun c e c' hFalse => hFalse.elim
      intro c b c' hSame hc
      rw [hSame.1]
      exact hc
    refine hEnd.bind fun b => ?_
    cases b with
    | true => exact .pure _
    | false => exact (keeps_stmt depth).bind fun _ => ih _

end

/-- Where descent ends, and what it has reported by then. -/
theorem exists_end (source : Text) (tokens : List Token) {depth : Nat}
    (hDepth : 9 * (tokens.length + 1) ≤ depth) :
    ∃ r c, body depth [] { source, tokens } {} = some (r, c) ∧
      c.pos = Stmt.consumed (Word.ofTokens source tokens) ∧ Faithful { source, tokens } c := by
  have hLength : (Input.rest { source, tokens } 0).length ≤ tokens.length :=
    Input.length_rest_le { source, tokens } 0
  have hDone : Done [] {} [] := ⟨rfl, fun s hs => absurd hs List.not_mem_nil⟩
  have hEnds : Ends { source, tokens } (body depth []) {} _ _ :=
    ends_body hDone (show 9 * (Input.rest { source, tokens } 0).length + 9 ≤ depth by omega)
  have hKeeps : ∀ r c, body depth [] { source, tokens } {} = some (r, c) →
      Faithful { source, tokens } c :=
    fun r c hRun => keeps_body depth [] {} r c hRun (faithful_start _)
  cases hEnds with
  | @value ns c hRun h =>
    obtain ⟨stmts, hRead, hCovers, -⟩ := h
    refine ⟨.ok ns, c, hRun, ?_, hKeeps _ c hRun⟩
    have hParse : Stmt.parse (Word.ofTokens source tokens) = .ok stmts := hRead
    rw [Stmt.consumed, hParse, hCovers.2, Nat.zero_add]
    rfl
  | @failure e c hRun h =>
    obtain ⟨err, hRead, -, hPos⟩ := h
    refine ⟨.error e, c, hRun, ?_, hKeeps _ c hRun⟩
    have hParse : Stmt.parse (Word.ofTokens source tokens) = .error err := hRead
    rw [Stmt.consumed, hParse, hPos]

theorem Faithful.log_eq {source : Text} {tokens : List Token} {c : Cursor}
    (h : Faithful { source, tokens } c) :
    c.pos ≤ (Word.ofTokens source tokens).length ∧
      c.log = (Locals.ofNames (Word.names ((Word.ofTokens source tokens).take c.pos))).events := by
  obtain ⟨ws, ⟨hWords, hPos⟩, hLocals, hLog⟩ := h
  have hSplit : Word.ofTokens source tokens = ws ++ Input.rest { source, tokens } c.pos := hWords
  rw [Nat.zero_add] at hPos
  rw [hLog, hLocals, hSplit, hPos, List.take_left, List.length_append]
  exact ⟨Nat.le_add_right _ _, rfl⟩

end Descent

/-! ### Events of a source -/

/-- One event for each name among some tokens, in the order in which the names first occur. -/
def Token.declarations (source : Text) (tokens : List Token) : List Event :=
  (idents source tokens).eraseDups.zipIdx.map fun (x, k) => .declared x (8 * (k + 1))

theorem Locals.events_ofNames (xs : List String) :
    (ofNames xs).events = xs.eraseDups.zipIdx.map fun (x, k) => .declared x (8 * (k + 1)) := by
  rw [events, entries_eq, names_ofNames, List.map_map]
  rfl

/-- How parsing fails behind the tokens `consumed`, with the tokens `rest` before it. -/
inductive FailsBehind (source : Text) (consumed rest : List Token) (d : Diagnostic) : Prop
  /-- The next token is reported. -/
  | expected {what : Expected} {got : String} {t : Token}
      (hMessage : d.message = "expected " ++ what.text ++ ", but got \"" ++ got ++ "\"")
      (hGot : Token.describe? source (some t) = some got) (hNext : rest.head? = some t)
      (hLoc : d.place.loc = t.loc)
  /-- The last token is a `=`, with which no source compiles. -/
  | notLvalue {before : List Token} {t : Token} (hMessage : d.message = "not an lvalue")
      (hLast : consumed = before ++ [t]) (hAssign : t.seen source = (.punctuator, some "="))
      (hBad : FirstBad source (consumed ++ rest) before.length t)

section

variable {source : Text} {tokens : List Token}

theorem Token.declarations_take (hScan : Token.scan source = .ok tokens) {n : Nat}
    (hn : n ≤ (Word.ofTokens source tokens).length) :
    declarations source (tokens.take n) =
      (Locals.ofNames (Word.names ((Word.ofTokens source tokens).take n))).events := by
  have hWords : (tokens.take n).map (Word.ofToken source) =
      (Word.ofTokens source tokens).take n := by
    rw [List.map_take, map_ofToken_of_scan hScan, List.take_append_of_le_length hn]
  rw [declarations, Locals.events_ofNames, ← hWords, Word.names, List.filterMap_map, idents,
    ← funext name?_ofToken]
  rfl

theorem Stmt.consumed_le (source : Text) (tokens : List Token) :
    Stmt.consumed (Word.ofTokens source tokens) ≤ (Word.ofTokens source tokens).length := by
  obtain ⟨r, c, -, hPos, hFaithful⟩ := Descent.exists_end source tokens (Nat.le_refl _)
  rw [← hPos]
  exact hFaithful.log_eq.1

/-- Descent reports what is said of the words. -/
theorem Descent.log_eq_declarations (hScan : Token.scan source = .ok tokens) {depth : Nat}
    (hDepth : 9 * (tokens.length + 1) ≤ depth) :
    ∃ r c, body depth [] { source, tokens } {} = some (r, c) ∧
      c.pos = Stmt.consumed (Word.ofTokens source tokens) ∧
      c.log = Token.declarations source
        (tokens.take (Stmt.consumed (Word.ofTokens source tokens))) := by
  obtain ⟨r, c, hRun, hPos, hFaithful⟩ := exists_end source tokens hDepth
  obtain ⟨hLe, hLog⟩ := hFaithful.log_eq
  refine ⟨r, c, hRun, hPos, ?_⟩
  rw [← hPos, hLog, Token.declarations_take hScan hLe]

theorem events_of_parse_error (hScan : Token.scan source = .ok tokens) {failure : Failure}
    (h : Program.parse source tokens = .error failure) :
    events source = .tokenized tokens.length ::
      Token.declarations source (tokens.take (Stmt.consumed (Word.ofTokens source tokens))) := by
  rw [events, hScan, Token.declarations_take hScan (Stmt.consumed_le source tokens)]
  dsimp only
  rw [h, List.append_nil]

theorem events_of_parse (hScan : Token.scan source = .ok tokens) {p : Program}
    (h : Program.parse source tokens = .ok p) {lines : List String}
    (hLines : p.generate = .ok lines) :
    events source = .tokenized tokens.length ::
      Token.declarations source (tokens.take (Stmt.consumed (Word.ofTokens source tokens))) ++
        [.parsed p.body.length p.locals.length, .generated p.locals.frameSize lines.length] := by
  rw [events, hScan, Token.declarations_take hScan (Stmt.consumed_le source tokens)]
  dsimp only
  rw [h]
  dsimp only
  rw [Program.events, hLines]

/-- A program is made of all tokens but the end mark. -/
theorem drop_consumed_of_parse (hScan : Token.scan source = .ok tokens) {p : Program}
    (h : Program.parse source tokens = .ok p) :
    tokens.drop (Stmt.consumed (Word.ofTokens source tokens)) = [.eof source.byteLength] := by
  obtain ⟨stmts, hStmts, -⟩ := Program.parse_eq_ok.mp h
  obtain ⟨fs, body, rfl, hStands, -⟩ := Token.exists_forms_of_scan hScan
  have hConsumed : Stmt.consumed (Word.ofTokens source (body ++ [.eof source.byteLength])) =
      body.length := by
    rw [Stmt.consumed, hStmts, Token.ofTokens_of_stands hStands, List.length_map]
    exact hStands.length_eq
  rw [hConsumed, List.drop_left]

/-- The reader has taken the tokens before the one that is reported, or those up to the `=`. -/
theorem failsBehind_of_parse (hScan : Token.scan source = .ok tokens) {failure : Failure}
    (h : Program.parse source tokens = .error failure) :
    ∃ d, failure = .diagnosed d ∧ d.stage = .parse ∧
      FailsBehind source (tokens.take (Stmt.consumed (Word.ofTokens source tokens)))
        (tokens.drop (Stmt.consumed (Word.ofTokens source tokens))) d := by
  obtain ⟨e, d, rfl, hParse, hd, hValue, hLoc⟩ := Program.exists_diagnostic hScan h
  have hConsumed : Stmt.consumed (Word.ofTokens source tokens) = e.consumed := by
    rw [Stmt.consumed, hParse]
  rw [hConsumed]
  obtain ⟨fs, body, rfl, hStands, -⟩ := Token.exists_forms_of_scan hScan
  obtain ⟨read, rest, s, hWords, hReached, hStuck⟩ := Stmt.exists_stuck_of_parse hParse
  rw [Token.ofTokens_of_stands hStands] at hWords
  obtain ⟨t, hBad⟩ := exists_firstBad hStands source.byteLength hWords hReached hStuck
  have ht := hBad.getElem?
  refine ⟨d, rfl, by rw [ParseError.eq_about hd]; rfl, ?_⟩
  rcases hStuck.error_cases with rfl | ⟨-, rfl⟩ | ⟨isRet, outer, here, left, rfl, hHead, rfl⟩
  · obtain ⟨got, hGot, rfl⟩ := Option.map_eq_some_iff.mp hd
    rw [ht] at hGot
    refine .expected rfl hGot (t := t) ?_ ?_
    · rw [List.head?_drop]
      exact ht
    · rw [hLoc, ParseError.blamed, ParseError.locOf, ht]
  · exact absurd rfl (hValue read.length)
  · have hMessage : d.message = "not an lvalue" := by
      cases hd
      rfl
    have hLength := (List.getElem?_eq_some_iff.mp ht).1
    have hLast : (body ++ [Token.eof source.byteLength]).take (read.length + 1) =
        (body ++ [Token.eof source.byteLength]).take read.length ++ [t] := by
      rw [List.take_add_one, ht]
      rfl
    refine .notLvalue hMessage hLast ?_ ?_
    · exact seen_of_punct (ofToken_of_head hStands hWords hHead ht)
    · rw [List.take_append_drop, List.length_take, Nat.min_eq_left (Nat.le_of_lt hLength)]
      exact hBad

/-- The line that sets the frame aside is written with its size. -/
theorem Program.getElem?_of_generate {p : Program} {lines : List String}
    (h : p.generate = .ok lines) (hSize : p.locals.frameSize < 2 ^ 63) :
    lines[5]? = some ("  sub rsp, " ++ p.locals.frameSize.repr) := by
  obtain ⟨body, -, rfl⟩ := generate_eq_ok.mp h
  have hDecimal : Text.decimal (Int64.ofNat p.locals.frameSize) = p.locals.frameSize.repr := by
    rw [Text.decimal, Int64.toInt_ofNat_of_lt hSize]
    rfl
  rw [← hDecimal]
  rfl

theorem frameSize_lt_of_parse (hScan : Token.scan source = .ok tokens)
    (hSource : source.byteLength < 2 ^ 63) {p : Program}
    (h : Program.parse source tokens = .ok p) : p.locals.frameSize < 2 ^ 63 := by
  obtain ⟨stmts, hStmts, rfl⟩ := Program.parse_eq_ok.mp h
  rw [Program.locals_ofStmts hStmts, ← Token.idents_eq_names hScan]
  exact frameSize_lt_of_scan hScan hSource

/-- **The log is faithful.**  A source that has no tokens reports nothing.  Otherwise the first
event has the number of tokens, and then there is one event for each name among the tokens that are
consumed, which are those before the cursor of the descent when it ends.  If parsing fails, these
are the tokens before the one that is reported, or those up to a `=` behind what is no variable, and
nothing follows.  If it succeeds, they are all tokens but the end mark, and two events follow. -/
theorem events_faithful (source : Text) :
    (∃ d, compile source = .error (.diagnosed d) ∧ d.stage = .lex ∧ events source = []) ∨
      ∃ tokens consumed rest, Token.scan source = .ok tokens ∧ tokens = consumed ++ rest ∧
        (∀ depth, 9 * (tokens.length + 1) ≤ depth →
          ∃ r c, Descent.body depth [] { source, tokens } {} = some (r, c) ∧
            c.pos = consumed.length ∧ c.log = Token.declarations source consumed) ∧
        ((∃ d, compile source = .error (.diagnosed d) ∧ d.stage = .parse ∧
            FailsBehind source consumed rest d ∧
            events source = .tokenized tokens.length :: Token.declarations source consumed) ∨
          ∃ p lines, Program.parse source tokens = .ok p ∧ compile source = .ok lines ∧
            rest = [.eof source.byteLength] ∧
            events source = .tokenized tokens.length :: Token.declarations source consumed ++
              [.parsed p.body.length p.locals.length,
                .generated p.locals.frameSize lines.length] ∧
            (source.byteLength < 2 ^ 63 →
              lines[5]? = some ("  sub rsp, " ++ p.locals.frameSize.repr))) := by
  cases hScan : Token.scan source with
  | error e =>
    refine Or.inl ⟨e.diagnostic source, ?_, rfl, ?_⟩
    · rw [compile, Program.ofSource, hScan]
    · rw [events, hScan]
  | ok tokens =>
    have hConsumed : (tokens.take (Stmt.consumed (Word.ofTokens source tokens))).length =
        Stmt.consumed (Word.ofTokens source tokens) := by
      have hLe := Stmt.consumed_le source tokens
      have hWords := Word.length_ofTokens_le source tokens
      rw [List.length_take]
      omega
    refine Or.inr ⟨tokens, tokens.take (Stmt.consumed (Word.ofTokens source tokens)),
      tokens.drop (Stmt.consumed (Word.ofTokens source tokens)), rfl,
      (List.take_append_drop _ _).symm, ?_, ?_⟩
    · intro depth hDepth
      rw [hConsumed]
      exact Descent.log_eq_declarations hScan hDepth
    · cases hParse : Program.parse source tokens with
      | error failure =>
        obtain ⟨d, rfl, hStage, hFails⟩ := failsBehind_of_parse hScan hParse
        refine Or.inl ⟨d, ?_, hStage, hFails, events_of_parse_error hScan hParse⟩
        rw [compile, Program.ofSource, hScan]
        dsimp only
        rw [hParse]
      | ok p =>
        obtain ⟨lines, hLines⟩ := Program.exists_generate_of_parse hParse
        refine Or.inr ⟨p, lines, rfl, ?_, drop_consumed_of_parse hScan hParse,
          events_of_parse hScan hParse hLines, ?_⟩
        · obtain ⟨stmts, hStmts, rfl⟩ := Program.parse_eq_ok.mp hParse
          exact compile_of_parse hScan hStmts hLines
        · intro hSource
          exact Program.getElem?_of_generate hLines (frameSize_lt_of_parse hScan hSource hParse)

/-- A comparison whose operands are turned around, and a name that is written twice. -/
theorem events_faithful_turned :
    ∃ lines, compile "b=a>1;return b;".toList = .ok lines ∧
      events "b=a>1;return b;".toList =
        [.tokenized 10, .declared "b" 8, .declared "a" 16, .parsed 2 2,
          .generated 208 lines.length] ∧
      lines[5]? = some "  sub rsp, 208" := by
  have hCompile : ∃ lines, compile "b=a>1;return b;".toList = .ok lines := ⟨_, rfl⟩
  obtain ⟨lines, hLines⟩ := hCompile
  have hParse : ∃ tokens, Token.scan "b=a>1;return b;".toList = .ok tokens ∧
      Program.parse "b=a>1;return b;".toList tokens =
        .ok (.ofStmts [.expr (.assign (.name "b") (.binary .gt (.name "a") (.num 1))),
          .ret (.name "b")]) := ⟨_, rfl, rfl⟩
  obtain ⟨tokens, hScan, hProgram⟩ := hParse
  rcases events_faithful "b=a>1;return b;".toList with
    ⟨d, hError, -⟩ | ⟨tokens', consumed, rest, hScan', hSplit, -, hRest⟩
  · rw [hLines] at hError
    cases hError
  · rcases hRest with ⟨d, hError, -⟩ | ⟨p, lines', hProgram', hLines', -, -, hLine⟩
    · rw [hLines] at hError
      cases hError
    · rw [hLines] at hLines'
      cases hLines'
      rw [hScan] at hScan'
      cases hScan'
      rw [hProgram] at hProgram'
      cases hProgram'
      refine ⟨lines, hLines, ?_, hLine (by decide)⟩
      cases hLines
      rfl

/-- The name behind the `=` at which parsing fails is not reported, nor is a name reported twice. -/
example : events "b=a;c=b+1=d;".toList =
    [.tokenized 13, .declared "b" 8, .declared "a" 16, .declared "c" 24] := by
  decide +kernel

end

end Semicolon
