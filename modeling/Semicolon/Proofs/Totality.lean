import Semicolon.Compile
import Semicolon.Proofs.Emission
import Semicolon.Proofs.Rejection
import Semicolon.Proofs.Spelling

/-!
# Every source is answered

A compilation ends with assembly or with a diagnostic, and never with a fault.  Each stage can rely
on the one before: the tokens of a scan have texts and numbers have values
(`Token.exists_forms_of_scan`), and what is read from them has code
(`Program.exists_generate_ofStmts`).  A scan that fails does so at a character at which no token
begins (`Token.exists_lead_of_scanFrom`), and what it cuts out there has a text as well
(`Token.exists_digitRun_of_scan_error`).  A diagnostic is about a place at which a character begins
or the source ends, so it stands where it was put (`Place.loc_find`).  `Program.parse` also takes
tokens that no scan gives, and there a fault is due to a token whose span has no text.
-/

namespace Semicolon

/-! ### Code for what is read -/

namespace Node

variable {ν : Type}

/-- Every assignment is to a variable. -/
def Assignable : Node ν → Prop
  | num _ | var _ => True
  | binary _ l r => l.Assignable ∧ r.Assignable
  | assign t v => t.isVar = true ∧ v.Assignable
  | ret e => e.Assignable

theorem wellFormed_map {n : Node ν} (h : n.Assignable) {f : ν → Nat} {count : Nat}
    (hf : ∀ x ∈ n.vars, f x < count) : (n.map f).WellFormed count := by
  induction n with
  | num v => trivial
  | var x => exact hf x List.mem_cons_self
  | binary op l r ihl ihr =>
    rw [vars, List.forall_mem_append] at hf
    exact ⟨ihl h.1 hf.1, ihr h.2 hf.2⟩
  | assign t v _ ihv =>
    rw [vars, List.forall_mem_append] at hf
    obtain ⟨x, rfl⟩ := isVar_iff.mp h.1
    exact ⟨rfl, hf.1 x List.mem_cons_self, ihv h.2 hf.2⟩
  | ret e ih => exact ih h hf

end Node

theorem Op.assignable_node {ν : Type} (op : Op) {l r : Node ν} (hl : l.Assignable)
    (hr : r.Assignable) : (op.node l r).Assignable := by
  cases op <;> first | exact ⟨hl, hr⟩ | exact ⟨hr, hl⟩

theorem Expr.assignable_node {e : Expr} (h : e.Graded) : e.node.Assignable := by
  induction e with
  | num v => trivial
  | name x => trivial
  | paren e ih => exact ih h
  | signed s e ih =>
    cases s with
    | plus => exact ih h.1
    | minus => exact ⟨trivial, ih h.1⟩
  | binary op l r ihl ihr => exact op.assignable_node (ihl h.1) (ihr h.2.1)
  | assign t v _ ihv => exact ⟨Node.isVar_iff.mpr h.2.2.2, ihv h.2.1⟩

theorem Stmt.assignable_node {s : Stmt} (h : s.Graded) : s.node.Assignable := by
  cases s with
  | expr e => exact Expr.assignable_node h
  | ret e => exact Expr.assignable_node h

theorem Stmt.flatMap_names (stmts : List Stmt) :
    stmts.flatMap Stmt.names = Word.names (stmts.flatMap Stmt.words) := by
  induction stmts with
  | nil => rfl
  | cons s stmts ih =>
    rw [List.flatMap_cons, List.flatMap_cons, Word.names_append, ih]
    rfl

theorem Locals.indexOf_lt {t : Locals} {x : String} (h : x ∈ t.names) : t.indexOf x < t.length := by
  have hEntry := getElem?_indexOf h
  exact (List.getElem?_eq_some_iff.mp hEntry).1

namespace Program

/-- There is code for every program that is read. -/
theorem exists_generate_ofStmts {stmts : List Stmt} (h : ∀ s ∈ stmts, s.Graded) :
    ∃ lines, (ofStmts stmts).generate = .ok lines := by
  rw [generate_isOk_iff]
  intro n hn
  obtain ⟨s, hs, rfl⟩ := List.mem_map.mp hn
  refine Node.wellFormed_map (Stmt.assignable_node (h s hs)) ?_
  intro x hx
  exact Locals.indexOf_lt (mem_names_of_mem_vars hs hx)

theorem exists_generate_of_parse {source : Text} {tokens : List Token} {p : Program}
    (h : Program.parse source tokens = .ok p) : ∃ lines, p.generate = .ok lines := by
  obtain ⟨stmts, hStmts, rfl⟩ := parse_eq_ok.mp h
  exact exists_generate_ofStmts (Stmt.parse_eq_ok.mp hStmts).1

/-- The table of a program has the names among its words. -/
theorem locals_ofStmts {ws : List Word} {stmts : List Stmt} (h : Stmt.parse ws = .ok stmts) :
    (ofStmts stmts).locals = Locals.ofNames (Word.names ws) := by
  show Locals.ofNames (stmts.flatMap Stmt.names) = _
  rw [Stmt.flatMap_names, Stmt.words_of_parse h]

end Program

/-! ### Runs of digits -/

namespace Text

/-- The bytes of a text from `start` up to `stop` are digits, and no digit follows. -/
structure DigitRun (text : Text) (start stop : Nat) : Prop where
  le : start ≤ stop
  digits : ∀ i, start ≤ i → i < stop → ∃ b, text.bytes[i]? = some b ∧ IsDigitByte b
  ends : ∀ b, text.bytes[stop]? = some b → ¬ IsDigitByte b

/-- No digit stands at the end of a text, or where another character begins. -/
theorem not_isDigitByte_of_head (before : Text) {after : Text}
    (h : ∀ c, after.head? = some c → c.isDigit = false) {b : UInt8}
    (hb : (bytes (before ++ after))[before.byteLength]? = some b) : ¬ IsDigitByte b := by
  cases after with
  | nil =>
    rw [List.append_nil, ← length_bytes, List.getElem?_eq_none (Nat.le_refl _)] at hb
    cases hb
  | cons c after =>
    rw [getElem?_bytes] at hb
    rw [isDigitByte_iff hb, h c rfl]
    decide

theorem digitRun_append (before : Text) {digits after : Text}
    (hDigits : ∀ c ∈ digits, c.isDigit = true)
    (hAfter : ∀ c, after.head? = some c → c.isDigit = false) :
    DigitRun (before ++ (digits ++ after)) before.byteLength (before ++ digits).byteLength := by
  induction digits generalizing before with
  | nil =>
    rw [List.nil_append, List.append_nil]
    refine ⟨Nat.le_refl _, ?_, fun b hb => not_isDigitByte_of_head before hAfter hb⟩
    intro i hStart hStop
    omega
  | cons d digits ih =>
    rw [List.forall_mem_cons] at hDigits
    have hStep : (before ++ [d]).byteLength = before.byteLength + 1 := by
      rw [byteLength_append, byteLength_cons, utf8Size_of_isDigit hDigits.1]
      rfl
    have hRun := ih (before ++ [d]) hDigits.2
    rw [hStep, List.append_assoc, List.append_assoc] at hRun
    refine ⟨Nat.le_of_succ_le hRun.le, ?_, hRun.ends⟩
    intro i hStart hStop
    by_cases hFirst : i = before.byteLength
    · have hByte : (String.utf8EncodeChar d)[0]? = some _ :=
        List.getElem?_eq_getElem (by rw [String.length_utf8EncodeChar]; exact d.utf8Size_pos)
      rw [hFirst, List.cons_append, getElem?_bytes]
      exact ⟨_, hByte, (isDigitByte_iff hByte).mpr hDigits.1⟩
    · exact hRun.digits i (by omega) hStop

end Text

/-! ### Places -/

/-- A place that is a boundary is kept. -/
theorem Place.loc_find {source : Text} {loc : Nat} (h : source.IsBoundary loc) :
    (Place.find source loc).loc = loc := by
  obtain ⟨before, after, rfl, rfl⟩ := h
  rw [find, Text.cut_byteLength]

/-- The word that a diagnostic points at. -/
def ParseError.blamed : ParseError → Nat
  | expected _ index | missingValue index => index
  | notLvalue phrase _ => phrase

theorem ParseError.eq_about {source : Text} {tokens : List Token} {e : ParseError} {d : Diagnostic}
    (h : e.diagnostic? source tokens = some d) :
    d = .about .parse source (locOf source tokens e.blamed) d.message := by
  cases e with
  | expected what index =>
    obtain ⟨got, -, rfl⟩ := Option.map_eq_some_iff.mp h
    rfl
  | missingValue index =>
    cases h
    rfl
  | notLvalue phrase index =>
    cases h
    rfl

namespace Token

variable {source : Text}

/-- The scan fails at a character at which no token begins. -/
theorem exists_lead_of_scanFrom (before : Text) {text : Text} {e : LexError}
    (h : scanFrom before.byteLength 0 text = .error e) :
    ∃ (front : Text) (c : Char) (cs : Text), before ++ text = front ++ c :: cs ∧
      front.byteLength = e.loc ∧ lead c cs = .error e.cause := by
  induction text using scan_induction generalizing before with
  | nil => cases h
  | space c cs hc ih =>
    rw [scanFrom_space _ _ hc, ← Text.byteLength_concat_of_isSpace before hc] at h
    have hRest := ih _ h
    rwa [List.append_assoc] at hRest
  | stop c cs cause hc hLead =>
    rw [scanFrom_stop _ hc hLead] at h
    cases h
    exact ⟨before, c, cs, rfl, rfl, hLead⟩
  | lexeme c a b l hc hLead hLen _ _ ih =>
    rw [scanFrom_lead _ hc hLead hLen, map_eq_error, ← Text.byteLength_append] at h
    have hRest := ih _ h
    rwa [List.append_assoc, List.cons_append] at hRest

theorem isBoundary_of_scan_error {e : LexError} (h : scan source = .error e) :
    source.IsBoundary e.loc := by
  obtain ⟨front, c, cs, hSource, hLoc, -⟩ := exists_lead_of_scanFrom [] h
  exact ⟨front, c :: cs, hSource, hLoc⟩

/-- A number that is too large is cut out of the source as all of its digits. -/
theorem exists_digitRun_of_scan_error {e : LexError} (h : scan source = .error e)
    (hLarge : e.cause = .numberTooLarge) :
    ∃ stop digits, source.DigitRun e.loc stop ∧ source.IsBoundary stop ∧
      source.slice? e.loc (stop - e.loc) = some digits ∧
      2 ^ 63 - 1 < Text.digitsValue digits := by
  obtain ⟨front, c, cs, hSource, hLoc, hLead⟩ := exists_lead_of_scanFrom [] h
  rw [List.nil_append] at hSource
  rw [hLarge] at hLead
  rcases lead_eq_error hLead with ⟨hDigit, hValue, -⟩ | ⟨-, -, -, hCause⟩
  · have hSplit : source =
        front ++ (c :: cs.takeWhile Char.isDigit) ++ cs.dropWhile Char.isDigit := by
      rw [List.append_assoc, List.cons_append, List.takeWhile_append_dropWhile]
      exact hSource
    have hDigits : ∀ d ∈ c :: cs.takeWhile Char.isDigit, d.isDigit = true := by
      rw [List.forall_mem_cons]
      exact ⟨hDigit, fun d hd => List.mem_takeWhile_imp hd⟩
    have hRun := Text.digitRun_append front hDigits
      (fun d (hd : (cs.dropWhile Char.isDigit).head? = some d) => head?_dropWhile hd)
    rw [← List.append_assoc, ← hSplit, hLoc] at hRun
    refine ⟨_, _, hRun, ⟨_, _, hSplit, rfl⟩,
      Text.slice?_eq_some.mpr ⟨front, _, hSplit, hLoc, ?_⟩, hValue⟩
    rw [Text.byteLength_append, hLoc, Nat.add_sub_cancel_left]
  · cases hCause

variable {ts : List Token}

/-- The tokens of a source lie on its characters. -/
theorem exists_text_of_scan (h : scan source = .ok ts) {t : Token} (ht : t ∈ ts) :
    source.IsBoundary t.loc ∧ t.loc + t.len ≤ source.byteLength ∧ ∃ x, t.text? source = some x := by
  have hSlice : ∃ a, source.slice? t.loc t.len = some a := by
    obtain ⟨-, body, rfl, -, hBody⟩ := exists_forms_of_scan h
    rcases List.mem_append.mp ht with ht | ht
    · obtain ⟨a, ha, -⟩ := hBody.lexemes t ht
      exact ⟨a, ha⟩
    · rw [List.mem_singleton.mp ht]
      exact ⟨[], Text.slice?_eq_some.mpr ⟨source, [], by simp, rfl, rfl⟩⟩
  obtain ⟨a, ha⟩ := hSlice
  obtain ⟨before, after, hSource, hLoc, hLen⟩ := Text.slice?_eq_some.mp ha
  refine ⟨⟨before, a ++ after, by rw [hSource, List.append_assoc], hLoc⟩, ?_, ?_⟩
  · rw [hSource, Text.byteLength_append, Text.byteLength_append]
    omega
  · exact ⟨String.ofList a, by rw [text?, ha]; rfl⟩

theorem isBoundary_locOf (h : scan source = .ok ts) (index : Nat) :
    source.IsBoundary (ParseError.locOf source ts index) := by
  unfold ParseError.locOf
  split
  next t ht => exact (exists_text_of_scan h (List.mem_of_getElem? ht)).1
  next => exact ⟨source, [], (List.append_nil source).symm, rfl⟩

/-- A number has its value. -/
theorem Form.word_ne_num_none (f : Form) : f.word ≠ .num none := by
  intro h
  have hLexeme := f.isLexeme
  have hOther : f.word ≠ .other := by
    rw [h]
    exact Word.noConfusion
  have hSpells : f.word.Spells f.text (f.token 0) := Word.spells_ofToken hOther
  rw [h] at hSpells
  obtain ⟨hKind, hValue⟩ := hSpells
  change f.kind = .num at hKind
  change f.value = none at hValue
  rw [hKind, hValue] at hLexeme
  obtain ⟨-, -, -, w, hw, -⟩ := hLexeme
  cases hw

theorem num_none_notMem (h : scan source = .ok ts) :
    Word.num none ∉ Word.ofTokens source ts := by
  obtain ⟨fs, body, rfl, hForms, -⟩ := exists_forms_of_scan h
  rw [ofTokens_of_stands hForms]
  intro hm
  obtain ⟨f, -, hf⟩ := List.mem_map.mp hm
  exact f.word_ne_num_none hf

/-- A source has at least a byte for every token. -/
theorem Segmentation.length_le {start : Nat} {body : List Token}
    (h : Segmentation source start body) (hStart : start ≤ source.byteLength) :
    start + body.length ≤ source.byteLength := by
  induction body generalizing start with
  | nil => exact hStart
  | cons t ts ih =>
    obtain ⟨hFirst, hEnd⟩ := h.inside t List.mem_cons_self
    have hRest := ih h.tail hEnd
    obtain ⟨a, hSlice, hLexeme, -⟩ := h.lexemes t List.mem_cons_self
    obtain ⟨-, -, -, -, hLen⟩ := Text.slice?_eq_some.mp hSlice
    have hPos := List.length_pos_iff.mpr hLexeme.ne_nil
    rw [hLexeme.byteLength] at hLen
    rw [List.length_cons]
    omega

theorem length_le_of_scan (h : scan source = .ok ts) : ts.length ≤ source.byteLength + 1 := by
  obtain ⟨-, body, rfl, -, hBody⟩ := exists_forms_of_scan h
  have hLength := hBody.length_le (Nat.zero_le _)
  rw [List.length_append, List.length_singleton]
  omega

end Token

/-! ### Faults -/

/-- What a diagnostic points at is a word or the end behind the last one. -/
theorem Stmt.blamed_le_of_parse {ws : List Word} {e : ParseError}
    (h : Stmt.parse ws = .error e) : e.blamed ≤ ws.length := by
  obtain ⟨read, rest, s, rfl, hReached, hStuck⟩ := exists_stuck_of_parse h
  rw [List.length_append]
  rcases hStuck.error_cases with rfl | ⟨-, rfl⟩ | ⟨isRet, outer, here, left, rfl, -, rfl⟩
  · exact Nat.le_add_right _ _
  · exact Nat.le_add_right _ _
  · -- the phrase that cannot be assigned to has been read
    obtain ⟨before, rfl, hBefore, -⟩ := hReached.exists_phrase
    show here.start ≤ _
    rw [List.length_append]
    omega

theorem Stmt.parse_ne_missingValue {ws : List Word} (h : Word.num none ∉ ws) (index : Nat) :
    Stmt.parse ws ≠ .error (.missingValue index) := by
  intro hParse
  obtain ⟨read, rest, s, rfl, -, hStuck⟩ := exists_stuck_of_parse hParse
  rcases hStuck.error_cases with he | ⟨hHead, -⟩ | ⟨_, _, _, _, -, -, he⟩
  · cases he
  · exact h (List.mem_append_right read (List.mem_of_head? hHead))
  · cases he

/-- What stands behind the words is no token that would have to be quoted. -/
theorem Token.describe?_length (source : Text) (tokens : List Token) :
    Token.describe? source tokens[(Word.ofTokens source tokens).length]? = some "EOF" := by
  induction tokens with
  | nil => rfl
  | cons t ts ih =>
    rw [Word.ofTokens]
    by_cases hEof : t.kind = .eof
    · rw [List.takeWhile_cons_of_neg (by simp [hEof])]
      show describe? source (some t) = _
      rw [describe?, if_pos hEof]
    · rw [List.takeWhile_cons_of_pos (p := fun t : Token => t.kind != .eof) (by simp [hEof])]
      exact ih

/-- **A fault in reading tokens is due to a token without a text**, before the end of the input. -/
theorem Program.exists_bad_span {source : Text} {tokens : List Token} {f : Fault}
    (h : Program.parse source tokens = .error (.faulted f)) :
    ∃ t ∈ tokens.takeWhile (·.kind != .eof), t.text? source = none := by
  unfold Program.parse at h
  split at h
  · cases h
  · next e he =>
    split at h
    · cases h
    · next hNone =>
      cases e with
      | missingValue index => cases hNone
      | notLvalue phrase index => cases hNone
      | expected what index =>
        rw [ParseError.diagnostic?, Option.map_eq_none_iff] at hNone
        have hLe : index ≤ _ := Stmt.blamed_le_of_parse he
        by_cases hEnd : index = (Word.ofTokens source tokens).length
        · rw [hEnd, Token.describe?_length] at hNone
          cases hNone
        · have hLt : index < (tokens.takeWhile (·.kind != .eof)).length := by
            rw [Word.ofTokens, List.length_map] at hLe hEnd
            omega
          have hAt : tokens[index]? = (tokens.takeWhile (·.kind != .eof))[index]? := by
            obtain ⟨later, hLater⟩ := List.takeWhile_prefix (l := tokens) (·.kind != .eof)
            have hSame : (tokens.takeWhile (·.kind != .eof) ++ later)[index]? =
                (tokens.takeWhile (·.kind != .eof))[index]? := List.getElem?_append_left hLt
            rwa [hLater] at hSame
          rw [hAt, List.getElem?_eq_getElem hLt] at hNone
          refine ⟨_, List.getElem_mem hLt, ?_⟩
          unfold Token.describe? at hNone
          dsimp only at hNone
          split at hNone
          · cases hNone
          · exact hNone

/-- Reading the tokens of a source fails with a diagnostic that stands where it was put. -/
theorem Program.exists_diagnostic {source : Text} {tokens : List Token} {failure : Failure}
    (hScan : Token.scan source = .ok tokens)
    (h : Program.parse source tokens = .error failure) :
    ∃ e d, failure = .diagnosed d ∧ Stmt.parse (Word.ofTokens source tokens) = .error e ∧
      e.diagnostic? source tokens = some d ∧ (∀ index, e ≠ .missingValue index) ∧
      d.place.loc = ParseError.locOf source tokens e.blamed := by
  cases failure with
  | faulted f =>
    -- every token has a text
    obtain ⟨t, ht, hNone⟩ := exists_bad_span h
    obtain ⟨-, -, x, hText⟩ :=
      Token.exists_text_of_scan hScan ((List.takeWhile_prefix _).subset ht)
    rw [hText] at hNone
    cases hNone
  | diagnosed d =>
    unfold Program.parse at h
    split at h
    · cases h
    · next e he =>
      split at h
      · next d' hd =>
        cases h
        refine ⟨e, d, rfl, he, hd, ?_, ?_⟩
        · rintro index rfl
          exact Stmt.parse_ne_missingValue (Token.num_none_notMem hScan) index he
        · rw [ParseError.eq_about hd]
          exact Place.loc_find (Token.isBoundary_locOf hScan e.blamed)
      · cases h

/-! ### Counts -/

/-- The offset of the next entry and the size of all entries, before it is rounded, are words. -/
structure Locals.InRange (t : Locals) : Prop where
  next : offset t.length < 2 ^ 63
  frame : t.size + 15 < 2 ^ 63

theorem Locals.inRange_of_length {t : Locals} (h : t.length ≤ 2 ^ 53) : t.InRange := by
  refine ⟨?_, ?_⟩
  · rw [offset, wordSize]
    omega
  · rw [size, wordSize]
    omega

/-- Every table that is built while the tokens are read is in range. -/
def TablesInRange (source : Text) (tokens : List Token) : Prop :=
  ∀ n, (Locals.ofNames (Word.names ((Word.ofTokens source tokens).take n))).InRange

theorem tablesInRange {source : Text} {tokens : List Token} (h : tokens.length ≤ 2 ^ 53) :
    TablesInRange source tokens := by
  intro n
  refine Locals.inRange_of_length ?_
  calc (Locals.ofNames (Word.names ((Word.ofTokens source tokens).take n))).length
      ≤ (Word.names ((Word.ofTokens source tokens).take n)).length := Locals.length_ofNames_le _
    _ ≤ ((Word.ofTokens source tokens).take n).length := List.length_filterMap_le _ _
    _ ≤ (Word.ofTokens source tokens).length := List.length_take_le' _ _
    _ = (tokens.takeWhile (·.kind != .eof)).length := List.length_map _
    _ ≤ tokens.length := (List.takeWhile_prefix _).length_le
    _ ≤ 2 ^ 53 := h

theorem TablesInRange.locals {source : Text} {tokens : List Token}
    (h : TablesInRange source tokens) {p : Program} (hp : Program.parse source tokens = .ok p) :
    p.locals.InRange := by
  obtain ⟨stmts, hStmts, rfl⟩ := Program.parse_eq_ok.mp hp
  have hAll := h (Word.ofTokens source tokens).length
  rw [List.take_length] at hAll
  rw [Program.locals_ofStmts hStmts]
  exact hAll

/-! ### Compiling -/

theorem compile_of_parse {source : Text} {tokens : List Token} {stmts : List Stmt}
    {lines : List String} (hScan : Token.scan source = .ok tokens)
    (h : Stmt.parse (Word.ofTokens source tokens) = .ok stmts)
    (hLines : (Program.ofStmts stmts).generate = .ok lines) : compile source = .ok lines := by
  have hSource : Program.ofSource source = .ok (Program.ofStmts stmts) := by
    rw [Program.ofSource, hScan]
    exact Program.parse_eq_ok.mpr ⟨stmts, h, rfl⟩
  rw [compile, hSource]
  dsimp only
  rw [hLines]

/-- How a compilation ends: with the lines of a program, or with a diagnostic that stands at the
offset to which the scan or the reader put it. -/
inductive Answered (source : Text) : Except Failure (List String) → Prop
  | lines (lines : List String) : Answered source (.ok lines)
  | lexError {e : LexError} :
      Token.scan source = .error e → source.IsBoundary e.loc → e.loc ≤ source.byteLength →
      (e.diagnostic source).place.loc = e.loc →
      Answered source (.error (.diagnosed (e.diagnostic source)))
  | parseError {tokens : List Token} {e : ParseError} {message : String} {loc : Nat} :
      Token.scan source = .ok tokens → Stmt.parse (Word.ofTokens source tokens) = .error e →
      (∀ index, e ≠ .missingValue index) → loc = ParseError.locOf source tokens e.blamed →
      e.diagnostic? source tokens = some (.about .parse source loc message) →
      source.IsBoundary loc → loc ≤ source.byteLength →
      (Diagnostic.about .parse source loc message).place.loc = loc →
      Answered source (.error (.diagnosed (.about .parse source loc message)))

theorem answered_compile (source : Text) : Answered source (compile source) := by
  rw [compile, Program.ofSource]
  cases hScan : Token.scan source with
  | error e =>
    have hBoundary := Token.isBoundary_of_scan_error hScan
    exact .lexError hScan hBoundary hBoundary.le (Place.loc_find hBoundary)
  | ok tokens =>
    dsimp only
    cases hParse : Program.parse source tokens with
    | ok p =>
      obtain ⟨lines, hLines⟩ := Program.exists_generate_of_parse hParse
      dsimp only
      rw [hLines]
      exact .lines lines
    | error failure =>
      obtain ⟨e, d, rfl, he, hd, hValue, hLoc⟩ := Program.exists_diagnostic hScan hParse
      have hBoundary := Token.isBoundary_locOf hScan e.blamed
      have hAbout := ParseError.eq_about hd
      rw [hAbout] at hd hLoc ⊢
      exact .parseError hScan he hValue rfl hd hBoundary hBoundary.le hLoc

/-- **Every source is answered.**  A source of less than `2 ^ 53` bytes compiles to lines, or there
is a diagnostic at the offset to which the scan or the reader put it; the spans of its tokens have
texts, and so have the digits of a number that is too large, and whatever is counted on the way is
in range.  For any tokens at all, as long as there are less than `2 ^ 53` of them, reading them is
faulted only because of a token before the end of the input whose span has no text. -/
theorem compile_never_faults :
    (∀ source : Text, source.byteLength < 2 ^ 53 →
      Answered source (compile source) ∧
        (∀ e, Token.scan source = .error e → e.cause = .numberTooLarge →
          ∃ stop digits, source.DigitRun e.loc stop ∧ source.IsBoundary stop ∧ stop < 2 ^ 53 ∧
            source.slice? e.loc (stop - e.loc) = some digits ∧
            2 ^ 63 - 1 < Text.digitsValue digits) ∧
        ∀ tokens, Token.scan source = .ok tokens →
          tokens.length ≤ 2 ^ 53 ∧ TablesInRange source tokens ∧
          (∀ t ∈ tokens, t.loc + t.len < 2 ^ 53 ∧ ∃ x, t.text? source = some x) ∧
          ∀ p, Program.parse source tokens = .ok p →
            p.locals.InRange ∧ ∃ lines, p.generate = .ok lines) ∧
      ∀ (source : Text) (tokens : List Token), tokens.length < 2 ^ 53 →
        TablesInRange source tokens ∧
          ∀ f, Program.parse source tokens = .error (.faulted f) →
            ∃ t ∈ tokens.takeWhile (·.kind != .eof), t.text? source = none := by
  refine ⟨?_, ?_⟩
  · intro source hSource
    refine ⟨answered_compile source, ?_, ?_⟩
    · intro e hScan hLarge
      obtain ⟨stop, digits, hRun, hBoundary, hRest⟩ :=
        Token.exists_digitRun_of_scan_error hScan hLarge
      exact ⟨stop, digits, hRun, hBoundary, Nat.lt_of_le_of_lt hBoundary.le hSource, hRest⟩
    · intro tokens hScan
      have hLength := Token.length_le_of_scan hScan
      have hTables : TablesInRange source tokens := tablesInRange (by omega)
      refine ⟨by omega, hTables, ?_, ?_⟩
      · intro t ht
        obtain ⟨-, hEnd, hText⟩ := Token.exists_text_of_scan hScan ht
        exact ⟨by omega, hText⟩
      · intro p hp
        exact ⟨hTables.locals hp, Program.exists_generate_of_parse hp⟩
  · intro source tokens hLength
    refine ⟨tablesInRange (by omega), ?_⟩
    intro f hf
    exact Program.exists_bad_span hf

/-- Sources with a character of two bytes, behind a number that is too large in one of them, and a
token inside of such a character. -/
theorem compile_never_faults_two_bytes :
    Text.byteLength "a=é;".toList < 2 ^ 53 ∧ Answered "a=é;".toList (compile "a=é;".toList) ∧
      Token.scan "9223372036854775808é".toList = .error ⟨.numberTooLarge, 0⟩ ∧
      (∃ stop, Text.DigitRun "9223372036854775808é".toList 0 stop ∧
        Text.IsBoundary "9223372036854775808é".toList stop) ∧
      Program.parse "é".toList [⟨.ident, 1, 1, none⟩] = .error (.faulted .badSpan) ∧
      ∃ t ∈ [(⟨.ident, 1, 1, none⟩ : Token)].takeWhile (·.kind != .eof),
        t.text? "é".toList = none := by
  have hScan : Token.scan "9223372036854775808é".toList = .error ⟨.numberTooLarge, 0⟩ := by
    decide
  obtain ⟨stop, digits, hRun, hBoundary, -⟩ :=
    (compile_never_faults.1 _ (by decide)).2.1 _ hScan rfl
  exact ⟨by decide, (compile_never_faults.1 _ (by decide)).1, hScan, ⟨stop, hRun, hBoundary⟩, rfl,
    (compile_never_faults.2 _ _ (by decide)).2 .badSpan rfl⟩

end Semicolon
