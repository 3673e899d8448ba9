import Mathlib.Data.List.Induction
import Semicolon.Proofs.Relabelling
import Semicolon.Proofs.Totality

/-!
# Programs one behind the other

A program ends with a semicolon, or there is nothing in it but spaces.  So its last token does not
go on behind it (`scanFrom_seam`), and what follows is scanned and read as if it stood alone, only
that every place in it is farther behind (`scanFrom_shift`, `Stmt.parse_append`).  The names of the
second program are declared behind those of the first (`Locals.names_declareAll_eq_filter`).
-/

namespace Semicolon

/-! ### Texts behind others -/

namespace Text

theorem dropBytes?_append (a b : Text) (n : Nat) :
    dropBytes? (a.byteLength + n) (a ++ b) = dropBytes? n b := by
  rw [dropBytes?, dropBytes?, splitBytes?, splitBytes?, cut_byteLength_add, Option.guard,
    Option.guard]
  by_cases h : (cut n b).1.byteLength = n
  · simp [h]
  · simp [h]

theorem slice?_append_right (a b : Text) (loc len : Nat) :
    slice? (a.byteLength + loc) len (a ++ b) = slice? loc len b := by
  rw [slice?, dropBytes?_append, slice?]

theorem slice?_append_left {a text : Text} {loc len : Nat} (h : slice? loc len a = some text)
    (b : Text) : slice? loc len (a ++ b) = some text := by
  obtain ⟨before, after, rfl, hLoc, hLen⟩ := slice?_eq_some.mp h
  exact slice?_eq_some.mpr ⟨before, after ++ b, by simp, hLoc, hLen⟩

end Text

/-! ### Tokens behind others -/

/-- The error `n` bytes farther behind. -/
def LexError.shift (n : Nat) (e : LexError) : LexError :=
  { e with loc := n + e.loc }

namespace Token

/-- The token `n` bytes farther behind. -/
def shift (n : Nat) (t : Token) : Token :=
  { t with loc := n + t.loc }

section

variable (a b : Text) (t : Token)

theorem text?_shift : (t.shift a.byteLength).text? (a ++ b) = t.text? b := by
  rw [text?, shift, Text.slice?_append_right, text?]

theorem ofToken_shift : Word.ofToken (a ++ b) (t.shift a.byteLength) = Word.ofToken b t := by
  rw [Word.ofToken, text?_shift, Word.ofToken]
  rfl

theorem text?_append_left {a : Text} {t : Token} {x : String} (h : t.text? a = some x) (b : Text) :
    t.text? (a ++ b) = some x := by
  obtain ⟨text, hText, rfl⟩ := Option.map_eq_some_iff.mp h
  rw [text?, Text.slice?_append_left hText]
  rfl

end

/-- What a scan gives, `n` bytes farther behind. -/
def shifted (n : Nat) : Except LexError (List Token) → Except LexError (List Token)
  | .ok ts => .ok (ts.map (shift n))
  | .error e => .error (e.shift n)

/-- A scan gives the same wherever its text begins. -/
theorem scanFrom_shift (n loc covered : Nat) (text : Text) :
    scanFrom (n + loc) covered text = shifted n (scanFrom loc covered text) := by
  induction text generalizing loc covered with
  | nil => rfl
  | cons c cs ih =>
    cases covered with
    | succ k =>
      rw [scanFrom, scanFrom, Nat.add_assoc]
      exact ih _ _
    | zero =>
      rw [scanFrom, scanFrom, Nat.add_assoc]
      by_cases hc : Text.isSpace c = true
      · rw [if_pos hc, if_pos hc]
        exact ih _ _
      · rw [if_neg hc, if_neg hc]
        cases lead c cs with
        | error cause => rfl
        | ok l =>
          dsimp only
          rw [ih]
          cases scanFrom (loc + c.utf8Size) (l.len - 1) cs <;> rfl

theorem text?_token {before : Text} {c : Char} {x rest : Text} {l : Lead}
    (hLen : l.len = x.length + 1) (hLexeme : l.kind.Lexeme (c :: x) l.value) :
    (l.token before.byteLength).text? (before ++ c :: (x ++ rest)) =
      some (String.ofList (c :: x)) := by
  have hSlice :
      Text.slice? before.byteLength l.len (before ++ c :: (x ++ rest)) = some (c :: x) := by
    refine Text.slice?_eq_some.mpr ⟨before, rest, ?_, rfl, ?_⟩
    · rw [List.append_assoc, List.cons_append]
    · rw [hLexeme.byteLength, List.length_cons, hLen]
  rw [text?, Lead.token, hSlice]
  rfl

/-- **Tokens behind others.**  If a text has tokens and the last of them is not made longer by what
follows, then what follows is scanned as if it stood alone. -/
theorem scanFrom_seam (before a b : Text) {body : List Token} {n : Nat}
    (h : scanFrom before.byteLength 0 a = .ok (body ++ [eof n]))
    (hLast : ∀ t ∈ body.getLast?, ∀ x, t.text? (before ++ a) = some (String.ofList x) →
      ∀ d, b.head? = some d → ¬ t.kind.Grows x d) :
    scanFrom before.byteLength 0 (a ++ b) =
      (scanFrom (before ++ a).byteLength 0 b).map (body ++ ·) := by
  induction a using scan_induction generalizing before body with
  | nil =>
    have hBody : body = [] := by
      have hEnd : [eof before.byteLength] = body ++ [eof n] := Except.ok.inj h
      simpa using congrArg List.length hEnd
    rw [hBody, List.nil_append, List.append_nil]
    cases scanFrom before.byteLength 0 b <;> rfl
  | space c cs hc ih =>
    have hSource : before ++ c :: cs = (before ++ [c]) ++ cs := by
      rw [List.append_assoc, List.singleton_append]
    rw [scanFrom_space _ _ hc, ← Text.byteLength_concat_of_isSpace before hc] at h
    rw [List.cons_append, scanFrom_space _ _ hc, ← Text.byteLength_concat_of_isSpace before hc,
      hSource]
    rw [hSource] at hLast
    exact ih (before ++ [c]) h hLast
  | stop c cs cause hc hLead =>
    rw [scanFrom_stop _ hc hLead] at h
    cases h
  | lexeme c x rest l hc hLead hLen hLexeme hGrows ih =>
    have hSource : before ++ c :: (x ++ rest) = (before ++ c :: x) ++ rest := by
      rw [List.append_assoc, List.cons_append]
    rw [scanFrom_lead _ hc hLead hLen] at h
    obtain ⟨ts, hTail, hTokens⟩ := exists_of_map_eq_ok h
    cases body with
    | nil =>
      have hEof : l.token before.byteLength = eof n := (List.cons.inj hTokens).1
      have hKind : l.kind = .eof := congrArg Token.kind hEof
      rw [hKind] at hLexeme
      exact hLexeme.elim
    | cons t body =>
      obtain ⟨rfl, rfl⟩ := List.cons.inj hTokens
      rw [← Text.byteLength_append] at hTail
      have hLast' : ∀ t ∈ body.getLast?, ∀ y,
          t.text? ((before ++ c :: x) ++ rest) = some (String.ofList y) →
          ∀ d, b.head? = some d → ¬ t.kind.Grows y d := by
        intro t ht
        rw [← hSource]
        refine hLast t ?_
        rw [List.getLast?_cons, Option.mem_def.mp ht]
        rfl
      -- the next character does not make the token longer, also if it comes from behind the seam
      have hGrows' : ∀ d, (rest ++ b).head? = some d → ¬ l.kind.Grows (c :: x) d := by
        cases rest with
        | cons e rest => exact hGrows
        | nil =>
          have hBody : body = [] := by
            have hEnd : [eof (before ++ c :: x).byteLength] = body ++ [eof n] := Except.ok.inj hTail
            simpa using congrArg List.length hEnd
          exact hLast (l.token before.byteLength) (by rw [hBody]; rfl) _ (text?_token hLen hLexeme)
      have hLead' : lead c (x ++ (rest ++ b)) = .ok l := by
        rw [lead_of_lexeme hLexeme hGrows', ← hLen]
      rw [List.cons_append, List.append_assoc, scanFrom_lead _ hc hLead' hLen,
        ← Text.byteLength_append, ih (before ++ c :: x) hTail hLast', ← hSource]
      cases scanFrom (before ++ c :: (x ++ rest)).byteLength 0 b <;> rfl

end Token

/-! ### Words behind others -/

namespace Stmt

theorem getLast?_words (s : Stmt) : s.words.getLast? = some (.punct .semicolon) := by
  cases s with
  | expr e => exact List.getLast?_concat
  | ret e => exact List.getLast?_concat (l := .ret :: e.words)

/-- A program ends with a semicolon. -/
theorem eq_semicolon_of_parse {ws : List Word} {stmts : List Stmt} (h : Stmt.parse ws = .ok stmts) :
    ∀ w ∈ ws.getLast?, w = .punct .semicolon := by
  intro w hw
  rw [← Stmt.words_of_parse h] at hw
  rcases List.eq_nil_or_concat stmts with rfl | ⟨first, s, rfl⟩
  · cases hw
  · rw [List.concat_eq_append, List.flatMap_append, List.flatMap_singleton, List.getLast?_append,
      getLast?_words] at hw
    exact (Option.some.inj hw).symm

theorem readFrom_stmts_append (index : Nat) {stmts : List Stmt} (h : ∀ s ∈ stmts, s.Graded)
    (rest : List Word) :
    Parse.readFrom index .start (stmts.flatMap Stmt.words ++ rest) =
      (Parse.readFrom (index + (stmts.flatMap Stmt.words).length) .start rest).map
        (stmts ++ ·) := by
  induction stmts generalizing index with
  | nil =>
    show Parse.readFrom index .start rest = (Parse.readFrom index .start rest).map ([] ++ ·)
    cases Parse.readFrom index .start rest <;> rfl
  | cons s stmts ih =>
    rw [List.forall_mem_cons] at h
    rw [List.flatMap_cons, List.append_assoc, Parse.readFrom_stmt index h.1, ih _ h.2,
      List.length_append, Nat.add_assoc]
    cases Parse.readFrom (index + (s.words.length + (stmts.flatMap Stmt.words).length)) .start rest
      <;> rfl

/-- **What follows a program is read as if it stood alone.** -/
theorem parse_append {ws : List Word} {stmts : List Stmt} (h : Stmt.parse ws = .ok stmts)
    (vs : List Word) :
    Stmt.parse (ws ++ vs) = Parse.moved ws.length (stmts ++ ·) (Stmt.parse vs) := by
  obtain ⟨hGraded, rfl⟩ := Stmt.parse_eq_ok.mp h
  rw [Stmt.parse, readFrom_stmts_append 0 hGraded, Nat.zero_add, readFrom_start_eq_moved]
  cases Stmt.parse vs <;> rfl

end Stmt

namespace Token

variable {a : Text} {fs : List Form} {body : List Token}

theorem Form.Stands.append {f : Form} {t : Token} (h : Form.Stands a f t) (b : Text) :
    Form.Stands (a ++ b) f t :=
  ⟨h.kind, h.value, text?_append_left h.text b⟩

/-- The words of tokens behind others. -/
theorem ofTokens_append (hStands : List.Forall₂ (Form.Stands a) fs body) (b : Text)
    (ts : List Token) :
    Word.ofTokens (a ++ b) (body ++ ts.map (shift a.byteLength)) =
      fs.map Form.word ++ Word.ofTokens b ts := by
  have hStands' : List.Forall₂ (Form.Stands (a ++ b)) fs body :=
    hStands.imp fun _ _ h => h.append b
  have hKinds : ∀ t ∈ body, (t.kind != .eof) = true := by
    intro t ht
    rw [← takeWhile_of_stands hStands 0] at ht
    exact List.mem_takeWhile_imp (p := fun t : Token => t.kind != .eof) ht
  rw [Word.ofTokens, List.takeWhile_append_of_pos hKinds, List.map_append,
    map_ofToken_of_stands hStands', List.takeWhile_map, List.map_map, Word.ofTokens]
  refine congrArg (fs.map Form.word ++ ·) (List.map_congr_left fun t _ => ?_)
  exact ofToken_shift a b t

/-- What follows a program is scanned as if it stood alone. -/
theorem scan_append {stmts : List Stmt} {n : Nat} (hScan : scan a = .ok (body ++ [eof n]))
    (hStands : List.Forall₂ (Form.Stands a) fs body)
    (hParse : Stmt.parse (fs.map Form.word) = .ok stmts) (b : Text) :
    scan (a ++ b) = (shifted a.byteLength (scan b)).map (body ++ ·) := by
  -- the last token is a semicolon, and nothing makes it longer
  have hLast : ∀ t ∈ body.getLast?, ∀ x, t.text? ([] ++ a) = some (String.ofList x) →
      ∀ d, b.head? = some d → ¬ t.kind.Grows x d := by
    intro t ht x hText d _
    have hWord : Word.ofToken a t = .punct .semicolon := by
      refine Stmt.eq_semicolon_of_parse hParse _ ?_
      rw [← map_ofToken_of_stands hStands, List.getLast?_map, Option.mem_def.mp ht]
      rfl
    obtain ⟨hKind, hSemicolon⟩ := (Word.spells_iff Word.noConfusion).mpr hWord
    rw [List.nil_append, hSemicolon] at hText
    have hx : x = [';'] := String.ofList_injective (Option.some.inj hText).symm
    rw [hKind, hx]
    rintro ⟨hSign, -⟩
    exact absurd hSign (by decide)
  have hSeam := scanFrom_seam [] a b hScan hLast
  rw [scan, scan, ← scanFrom_shift]
  exact hSeam

end Token

/-! ### Errors behind a program -/

namespace ParseError

variable {a : Text} {body : List Token}

theorem blamed_shift (n : Nat) (e : ParseError) : (e.shift n).blamed = n + e.blamed := by
  cases e <;> rfl

/-- Tokens behind others stand farther behind. -/
theorem locOf_append (a b : Text) (body ts : List Token) (index : Nat) :
    locOf (a ++ b) (body ++ ts.map (Token.shift a.byteLength)) (body.length + index) =
      a.byteLength + locOf b ts index := by
  rw [locOf, List.getElem?_append_right (Nat.le_add_right _ _), Nat.add_sub_cancel_left,
    List.getElem?_map, locOf]
  cases ts[index]? with
  | none => exact Text.byteLength_append a b
  | some t => rfl

theorem describe?_append (a b : Text) (body ts : List Token) (index : Nat) :
    Token.describe? (a ++ b) (body ++ ts.map (Token.shift a.byteLength))[body.length + index]? =
      Token.describe? b ts[index]? := by
  rw [List.getElem?_append_right (Nat.le_add_right _ _), Nat.add_sub_cancel_left, List.getElem?_map]
  cases ts[index]? with
  | none => rfl
  | some t =>
    show (if t.kind = .eof then some "EOF" else (t.shift a.byteLength).text? (a ++ b)) = _
    rw [Token.text?_shift]
    rfl

/-- The message about an error is the same behind a program. -/
theorem exists_diagnostic?_append (a : Text) {b : Text} (body : List Token) {ts : List Token}
    {e : ParseError} {d : Diagnostic} (h : e.diagnostic? b ts = some d) :
    ∃ d', (e.shift body.length).diagnostic? (a ++ b)
        (body ++ ts.map (Token.shift a.byteLength)) = some d' ∧
      d'.stage = d.stage ∧ d'.message = d.message := by
  cases e with
  | expected what index =>
    obtain ⟨got, hGot, rfl⟩ := Option.map_eq_some_iff.mp h
    have hSame := describe?_append a b body ts index
    rw [hGot] at hSame
    exact ⟨_, congrArg (Option.map _) hSame, rfl, rfl⟩
  | missingValue index =>
    cases h
    exact ⟨_, rfl, rfl, rfl⟩
  | notLvalue phrase index =>
    cases h
    exact ⟨_, rfl, rfl, rfl⟩

end ParseError

/-! ### Tables -/

namespace Locals

/-- The index that the entry of `t` at `i` has in another table, by its name. -/
def renumber (t u : Locals) (i : Nat) : Option Nat :=
  t.names[i]?.bind u.find?

/-- The names of a table that is built on top of another one. -/
theorem names_declareAll_eq_filter (t : Locals) (xs : List String) :
    (t.declareAll xs).names = t.names ++ (ofNames xs).names.filter (· ∉ t.names) := by
  induction xs using List.reverseRecOn with
  | nil => simp [ofNames, empty]
  | append_singleton xs x ih =>
    rw [ofNames, declareAll_append, declareAll_append, declareAll_cons, declareAll_cons,
      declareAll_nil, declareAll_nil, names_declare, names_declare]
    by_cases hx : x ∈ xs <;> by_cases ht : x ∈ t.names
    all_goals
      simp [mem_names_declareAll, hx, ht, ih, ofNames, empty]

/-- A name keeps its index when more names are declared. -/
theorem indexOf_declareAll {t : Locals} {x : String} (h : x ∈ t.names) (xs : List String) :
    (t.declareAll xs).indexOf x = t.indexOf x := by
  have hFind := find?_eq_indexOf h
  have hFind' : (t.declareAll xs).find? x = some (t.indexOf x) := by
    rw [find?, names_declareAll_eq_filter, List.findIdx?_append]
    rw [find?] at hFind
    rw [hFind]
    rfl
  rw [indexOf, hFind', Option.getD_some]

theorem renumber_indexOf {t u : Locals} {x : String} (ht : x ∈ t.names) (hu : x ∈ u.names) :
    t.renumber u (t.indexOf x) = some (u.indexOf x) := by
  rw [renumber, getElem?_indexOf ht, Option.bind_some, find?_eq_indexOf hu]

/-- The entries that are declared on top of a table go on where its own entries end. -/
theorem entries_declareAll (t : Locals) (xs : List String) :
    (t.declareAll xs).entries = t.entries ++
      (((ofNames xs).names.filter (· ∉ t.names)).zipIdx t.length).map
        fun (x, i) => (x, 8 * (i + 1)) := by
  rw [entries_eq, entries_eq, names_declareAll_eq_filter, List.zipIdx_append, List.map_append,
    Nat.zero_add, length]

end Locals

namespace Program

theorem locals_ofStmts_append (stmts₁ stmts₂ : List Stmt) :
    (ofStmts (stmts₁ ++ stmts₂)).locals =
      (ofStmts stmts₁).locals.declareAll (stmts₂.flatMap Stmt.names) := by
  show Locals.ofNames ((stmts₁ ++ stmts₂).flatMap Stmt.names) = _
  rw [List.flatMap_append, Locals.ofNames, Locals.declareAll_append]
  rfl

/-- The trees of the second program get the indices that their names have in the common table. -/
theorem body_ofStmts_append (stmts₁ stmts₂ : List Stmt) :
    (ofStmts (stmts₁ ++ stmts₂)).body.map (Node.map some) =
      (ofStmts stmts₁).body.map (Node.map some) ++ (ofStmts stmts₂).body.map
        (Node.map ((ofStmts stmts₂).locals.renumber (ofStmts (stmts₁ ++ stmts₂)).locals)) := by
  show ((stmts₁ ++ stmts₂).map fun s =>
      s.node.map (ofStmts (stmts₁ ++ stmts₂)).locals.indexOf).map _ =
    (stmts₁.map fun s => s.node.map (ofStmts stmts₁).locals.indexOf).map _ ++
      (stmts₂.map fun s => s.node.map (ofStmts stmts₂).locals.indexOf).map _
  rw [List.map_append, List.map_append, List.map_map, List.map_map, List.map_map, List.map_map]
  congr 1
  · refine List.map_congr_left fun s hs => ?_
    rw [Function.comp_apply, Function.comp_apply, Node.map_map, Node.map_map]
    refine Node.map_congr fun x hx => ?_
    rw [Function.comp_apply, Function.comp_apply, locals_ofStmts_append,
      Locals.indexOf_declareAll (mem_names_of_mem_vars hs hx)]
  · refine List.map_congr_left fun s hs => ?_
    rw [Function.comp_apply, Function.comp_apply, Node.map_map, Node.map_map]
    refine Node.map_congr fun x hx => ?_
    have hBoth : x ∈ (ofStmts (stmts₁ ++ stmts₂)).locals.names :=
      mem_names_of_mem_vars (List.mem_append_right stmts₁ hs) hx
    exact (Locals.renumber_indexOf (mem_names_of_mem_vars hs hx) hBoth).symm

theorem ofSource_eq_ok {source : Text} {p : Program} :
    ofSource source = .ok p ↔
      ∃ tokens, Token.scan source = .ok tokens ∧ Program.parse source tokens = .ok p := by
  rw [ofSource]
  cases Token.scan source with
  | error e =>
    constructor
    · intro h
      cases h
    · rintro ⟨tokens, h, -⟩
      cases h
  | ok tokens =>
    constructor
    · intro h
      exact ⟨tokens, rfl, h⟩
    · rintro ⟨tokens', h, hParse⟩
      cases h
      exact hParse

/-- A source that is a program, with its tokens, their forms and its statements. -/
structure Understood (source : Text) (body : List Token) (stmts : List Stmt) : Prop where
  scan : Token.scan source = .ok (body ++ [.eof source.byteLength])
  exists_forms : ∃ fs, List.Forall₂ (Token.Form.Stands source) fs body ∧
    Stmt.parse (fs.map Token.Form.word) = .ok stmts

theorem exists_understood {source : Text} {p : Program} (h : ofSource source = .ok p) :
    ∃ body stmts, p = ofStmts stmts ∧ Understood source body stmts := by
  obtain ⟨tokens, hScan, hParse⟩ := ofSource_eq_ok.mp h
  obtain ⟨stmts, hStmts, rfl⟩ := parse_eq_ok.mp hParse
  obtain ⟨fs, body, rfl, hStands, -⟩ := Token.exists_forms_of_scan hScan
  rw [Token.ofTokens_of_stands hStands] at hStmts
  exact ⟨body, stmts, rfl, hScan, fs, hStands, hStmts⟩

namespace Understood

variable {source₁ : Text} {body : List Token} {stmts₁ : List Stmt}

theorem scan_append (h : Understood source₁ body stmts₁) (source₂ : Text) :
    Token.scan (source₁ ++ source₂) =
      (Token.shifted source₁.byteLength (Token.scan source₂)).map (body ++ ·) := by
  obtain ⟨fs, hStands, hParse⟩ := h.exists_forms
  exact Token.scan_append h.scan hStands hParse source₂

theorem parse_append (h : Understood source₁ body stmts₁) (source₂ : Text) (ts : List Token) :
    Stmt.parse (Word.ofTokens (source₁ ++ source₂)
        (body ++ ts.map (Token.shift source₁.byteLength))) =
      Parse.moved body.length (stmts₁ ++ ·) (Stmt.parse (Word.ofTokens source₂ ts)) := by
  obtain ⟨fs, hStands, hParse⟩ := h.exists_forms
  rw [Token.ofTokens_append hStands, Stmt.parse_append hParse, List.length_map, hStands.length_eq]

/-- A program behind a program is read with it. -/
theorem ofSource_eq_ok (h : Understood source₁ body stmts₁) {source₂ : Text} {ts : List Token}
    {stmts₂ : List Stmt} (hScan : Token.scan source₂ = .ok ts)
    (hParse : Stmt.parse (Word.ofTokens source₂ ts) = .ok stmts₂) :
    ofSource (source₁ ++ source₂) = .ok (ofStmts (stmts₁ ++ stmts₂)) := by
  refine Program.ofSource_eq_ok.mpr ⟨body ++ ts.map (Token.shift source₁.byteLength), ?_, ?_⟩
  · rw [h.scan_append, hScan]
    rfl
  · refine parse_eq_ok.mpr ⟨stmts₁ ++ stmts₂, ?_, rfl⟩
    rw [h.parse_append, hParse]
    rfl

/-- A text without tokens has none behind a program either. -/
theorem exists_lexError (h : Understood source₁ body stmts₁) {source₂ : Text} {e : LexError}
    (hScan : Token.scan source₂ = .error e) :
    ∃ d, ofSource (source₁ ++ source₂) = .error (.diagnosed d) ∧ d.stage = .lex ∧
      d.message = e.message ∧ d.place.loc = e.loc + source₁.byteLength := by
  have hScan' : Token.scan (source₁ ++ source₂) = .error (e.shift source₁.byteLength) := by
    rw [h.scan_append, hScan]
    rfl
  refine ⟨(e.shift source₁.byteLength).diagnostic (source₁ ++ source₂), ?_, rfl, rfl, ?_⟩
  · rw [ofSource, hScan']
  · rw [Nat.add_comm]
    exact Place.loc_find (Token.isBoundary_of_scan_error hScan')

/-- Tokens that are no program are none behind a program either. -/
theorem exists_parseError (h : Understood source₁ body stmts₁) {source₂ : Text} {ts : List Token}
    {e : ParseError} {d₂ : Diagnostic} (hScan : Token.scan source₂ = .ok ts)
    (hParse : Stmt.parse (Word.ofTokens source₂ ts) = .error e)
    (hDiagnostic : e.diagnostic? source₂ ts = some d₂) :
    ∃ d, ofSource (source₁ ++ source₂) = .error (.diagnosed d) ∧ d.stage = d₂.stage ∧
      d.message = d₂.message ∧
      d.place.loc = ParseError.locOf source₂ ts e.blamed + source₁.byteLength := by
  have hScan' : Token.scan (source₁ ++ source₂) =
      .ok (body ++ ts.map (Token.shift source₁.byteLength)) := by
    rw [h.scan_append, hScan]
    rfl
  have hParse' := h.parse_append source₂ ts
  rw [hParse] at hParse'
  obtain ⟨d, hd, hStage, hMessage⟩ := ParseError.exists_diagnostic?_append source₁ body hDiagnostic
  have hFails : Program.parse (source₁ ++ source₂)
      (body ++ ts.map (Token.shift source₁.byteLength)) = .error (.diagnosed d) := by
    rw [Program.parse, hParse']
    dsimp only [Parse.moved]
    rw [hd]
  refine ⟨d, ?_, hStage, hMessage, ?_⟩
  · rw [ofSource, hScan']
    exact hFails
  · rw [ParseError.eq_about hd]
    show (Place.find _ _).loc = _
    rw [Place.loc_find (Token.isBoundary_locOf hScan' _), ParseError.blamed_shift,
      ParseError.locOf_append, Nat.add_comm]

end Understood

/-- **Programs one behind the other.**  If a program is followed by another one, both together are a
program: the entries of the second table whose names are new go on behind those of the first one,
and the trees of the second program, with the indices that their names have now, behind the trees of
the first one.  If it is followed by what is no program, there is the same error, farther behind by
the length of the program. -/
theorem ofSource_append {source₁ : Text} {p₁ : Program} (h₁ : ofSource source₁ = .ok p₁)
    (source₂ : Text) :
    (∀ p₂, ofSource source₂ = .ok p₂ →
      ∃ p, ofSource (source₁ ++ source₂) = .ok p ∧
        p.locals.entries = p₁.locals.entries ++
          ((p₂.locals.names.filter (· ∉ p₁.locals.names)).zipIdx p₁.locals.length).map
            (fun (x, i) => (x, 8 * (i + 1))) ∧
        p.body.map (Node.map some) = p₁.body.map (Node.map some) ++
          p₂.body.map (Node.map (p₂.locals.renumber p.locals))) ∧
      ∀ failure, ofSource source₂ = .error failure →
        ∃ d₂ d, failure = .diagnosed d₂ ∧ ofSource (source₁ ++ source₂) = .error (.diagnosed d) ∧
          d.stage = d₂.stage ∧ d.message = d₂.message ∧
          d.place.loc = d₂.place.loc + source₁.byteLength := by
  obtain ⟨body, stmts₁, rfl, hFirst⟩ := exists_understood h₁
  constructor
  · intro p₂ h₂
    obtain ⟨ts, hScan, hParse⟩ := ofSource_eq_ok.mp h₂
    obtain ⟨stmts₂, hStmts, rfl⟩ := parse_eq_ok.mp hParse
    refine ⟨_, hFirst.ofSource_eq_ok hScan hStmts, ?_, body_ofStmts_append stmts₁ stmts₂⟩
    rw [locals_ofStmts_append]
    exact Locals.entries_declareAll _ _
  · intro failure h₂
    rw [ofSource] at h₂
    cases hScan : Token.scan source₂ with
    | error e =>
      rw [hScan] at h₂
      cases h₂
      obtain ⟨d, hd, hStage, hMessage, hLoc⟩ := hFirst.exists_lexError hScan
      refine ⟨e.diagnostic source₂, d, rfl, hd, hStage, hMessage, ?_⟩
      rw [hLoc, LexError.diagnostic, Diagnostic.about,
        Place.loc_find (Token.isBoundary_of_scan_error hScan)]
    | ok ts =>
      rw [hScan] at h₂
      obtain ⟨e, d₂, rfl, hParse, hDiagnostic, -, hLoc₂⟩ := exists_diagnostic hScan h₂
      obtain ⟨d, hd, hStage, hMessage, hLoc⟩ := hFirst.exists_parseError hScan hParse hDiagnostic
      exact ⟨d₂, d, rfl, hd, hStage, hMessage, by rw [hLoc, hLoc₂]⟩

/-- Two of the three names of the second program are in the first table already, in another order;
and a second program that ends too early. -/
theorem ofSource_append_common_names :
    (∃ p₁ p₂ p, ofSource "b=1;a=b;".toList = .ok p₁ ∧ ofSource "c=a>b;".toList = .ok p₂ ∧
      ofSource ("b=1;a=b;".toList ++ "c=a>b;".toList) = .ok p ∧
      p.locals.entries = [("b", 8), ("a", 16), ("c", 24)] ∧
      p.body.map (Node.map some) = p₁.body.map (Node.map some) ++
        [.assign (.var (some 2)) (.binary .lt (.var (some 0)) (.var (some 1)))]) ∧
      ∃ d₂ d, ofSource "c=;".toList = .error (.diagnosed d₂) ∧ d₂.place.loc = 2 ∧
        ofSource ("b=1;a=b;".toList ++ "c=;".toList) = .error (.diagnosed d) ∧
        d.message = d₂.message ∧ d.place.loc = 2 + 8 := by
  have h₁ : ofSource "b=1;a=b;".toList = .ok
      { body := [.assign (.var 0) (.num 1), .assign (.var 1) (.var 0)],
        locals := { names := ["b", "a"] } } := rfl
  have h₂ : ofSource "c=a>b;".toList = .ok
      { body := [.assign (.var 0) (.binary .lt (.var 2) (.var 1))],
        locals := { names := ["c", "a", "b"] } } := rfl
  refine ⟨?_, ?_⟩
  · obtain ⟨p, hp, hEntries, hBody⟩ := (ofSource_append h₁ _).1 _ h₂
    have hNames : p.locals.names = ["b", "a", "c"] := by
      have hFirst := congrArg (List.map Prod.fst) hEntries
      simpa [Locals.entries, Function.comp_def] using hFirst
    refine ⟨_, _, p, h₁, h₂, hp, hEntries.trans rfl, hBody.trans ?_⟩
    rw [show p.locals = { names := ["b", "a", "c"] } from congrArg Locals.mk hNames]
    rfl
  · obtain ⟨d₂, h₂, hLoc₂⟩ : ∃ d₂, ofSource "c=;".toList = .error (.diagnosed d₂) ∧
        d₂.place.loc = 2 := ⟨_, rfl, rfl⟩
    obtain ⟨d₂', d, hd₂, hd, -, hMessage, hLoc⟩ := (ofSource_append h₁ _).2 _ h₂
    cases hd₂
    exact ⟨d₂, d, h₂, hLoc₂, hd, hMessage, by rw [hLoc, hLoc₂]; rfl⟩

end Program

end Semicolon
