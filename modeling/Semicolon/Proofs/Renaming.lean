import Semicolon.Proofs.Relabelling
import Semicolon.Proofs.Totality

/-!
# Sources that differ in names and layout

Two sources are alike if their tokens differ in nothing but their places, in how numbers are written
and in names, and names correspond to each other one to one.  Then the words of one are those of the
other under other names (`Alike.ofTokens_eq`), so they are read in the same way (`Stmt.parse_map`);
each name gets the same number as its counterpart (`Program.body_ofStmts_map`), and nothing but
these numbers gets into the code (`Program.generate_congr`).
-/

namespace Semicolon

/-! ### Code does not depend on names -/

section

variable {t u : Locals} (h : t.length = u.length)

include h

theorem Node.emitAddress_congr (n : Node Nat) : n.emitAddress t = n.emitAddress u := by
  cases n with
  | var i =>
    have hLength : t.names.length = u.names.length := h
    rw [emitAddress, emitAddress, Locals.get?, Locals.get?]
    by_cases hi : i < t.names.length
    · rw [List.getElem?_eq_getElem hi, List.getElem?_eq_getElem (by omega)]
      rfl
    · rw [List.getElem?_eq_none (by omega), List.getElem?_eq_none (by omega)]
  | _ => rfl

theorem Node.emit_congr (n : Node Nat) : n.emit t = n.emit u := by
  induction n with
  | num v => rfl
  | var i => rw [emit, emit, emitAddress_congr h]
  | binary op l r ihl ihr => rw [emit, emit, ihl, ihr]
  | assign target v _ ihv => rw [emit, emit, emitAddress_congr h, ihv]
  | ret e ih => rw [emit, emit, ih]

theorem Program.emitStmts_congr (ns : List (Node Nat)) :
    Program.emitStmts t ns = Program.emitStmts u ns := by
  induction ns with
  | nil => rfl
  | cons n ns ih => rw [emitStmts, emitStmts, Node.emit_congr h, ih]

end

/-- Of the table, only the number of entries gets into the code. -/
theorem Program.generate_congr {p q : Program} (hBody : p.body = q.body)
    (hLocals : p.locals.length = q.locals.length) : p.generate = q.generate := by
  have hFrame : p.locals.frameSize = q.locals.frameSize := by
    rw [Locals.frameSize, Locals.frameSize, Locals.size, Locals.size, hLocals]
  have hEmit : p.emitBody = q.emitBody := by
    rw [emitBody, emitBody, hBody, emitStmts_congr hLocals]
  rw [generate, generate, emit, emit, hEmit, hFrame]

/-! ### Tables under other names -/

namespace Locals

variable {f : String → String} {t u : Locals}

theorem names_declareAll_map {xs : List String} (hu : u.names = t.names.map f)
    (hf : ∀ x ∈ t.names ++ xs, ∀ y ∈ t.names ++ xs, f x = f y → x = y) :
    (u.declareAll (xs.map f)).names = (t.declareAll xs).names.map f := by
  induction xs generalizing t u with
  | nil => exact hu
  | cons x xs ih =>
    have hMem : f x ∈ u.names ↔ x ∈ t.names := by
      rw [hu, List.mem_map]
      constructor
      · rintro ⟨y, hy, hEq⟩
        rwa [← hf y (List.mem_append_left _ hy) x (by simp) hEq]
      · intro hx
        exact ⟨x, hx, rfl⟩
    rw [List.map_cons, declareAll_cons, declareAll_cons]
    refine ih ?_ ?_
    · rw [names_declare, names_declare]
      by_cases hx : x ∈ t.names
      · rw [if_pos hx, if_pos (hMem.mpr hx), hu]
      · rw [if_neg hx, if_neg (mt hMem.mp hx), hu, List.map_append]
        rfl
    · intro y hy z hz
      have hSub : ∀ v ∈ (t.declare x).2.names ++ xs, v ∈ t.names ++ x :: xs := by
        intro v hv
        rw [List.mem_append, mem_names_declare] at hv
        simp only [List.mem_append, List.mem_cons]
        rcases hv with (hv | hv) | hv
        · exact Or.inl hv
        · exact Or.inr (Or.inl hv)
        · exact Or.inr (Or.inr hv)
      exact hf y (hSub y hy) z (hSub z hz)

theorem names_ofNames_map {xs : List String} (hf : ∀ x ∈ xs, ∀ y ∈ xs, f x = f y → x = y) :
    (ofNames (xs.map f)).names = (ofNames xs).names.map f :=
  names_declareAll_map (t := empty) rfl hf

/-- A name has the index of its counterpart. -/
theorem indexOf_map {x : String} (hu : u.names = t.names.map f)
    (hf : ∀ y ∈ t.names, f y = f x → y = x) : u.indexOf (f x) = t.indexOf x := by
  have hFind : ∀ names : List String, (∀ y ∈ names, f y = f x → y = x) →
      (names.map f).findIdx? (· == f x) = names.findIdx? (· == x) := by
    intro names hNames
    induction names with
    | nil => rfl
    | cons y names ih =>
      rw [List.forall_mem_cons] at hNames
      have hHead : (f y == f x) = (y == x) := by
        by_cases hy : y = x
        · simp [hy]
        · simp [hy, mt hNames.1 hy]
      rw [List.map_cons, List.findIdx?_cons, List.findIdx?_cons, ih hNames.2, hHead]
  rw [indexOf, indexOf, find?, find?, hu, hFind t.names hf, length, length, hu, List.length_map]

end Locals

namespace Program

variable {f : String → String} {ws : List Word} {stmts : List Stmt}

theorem names_locals_map (h : Stmt.parse ws = .ok stmts)
    (hf : ∀ x ∈ Word.names ws, ∀ y ∈ Word.names ws, f x = f y → x = y) :
    (ofStmts (stmts.map (Stmt.map f))).locals.names = (ofStmts stmts).locals.names.map f := by
  have hMap : Stmt.parse (ws.map (Word.map f)) = .ok (stmts.map (Stmt.map f)) := by
    rw [Stmt.parse_map, h]
    rfl
  rw [locals_ofStmts h, locals_ofStmts hMap, Word.names_map, Locals.names_ofNames_map hf]

/-- Renamed statements have the same trees over the indices of their own table. -/
theorem body_ofStmts_map
    (hNames : (ofStmts (stmts.map (Stmt.map f))).locals.names =
      (ofStmts stmts).locals.names.map f)
    (hf : ∀ x ∈ (ofStmts stmts).locals.names, ∀ y ∈ (ofStmts stmts).locals.names,
      f x = f y → x = y) :
    (ofStmts (stmts.map (Stmt.map f))).body = (ofStmts stmts).body := by
  show (stmts.map (Stmt.map f)).map
      (fun s => s.node.map (ofStmts (stmts.map (Stmt.map f))).locals.indexOf) =
    stmts.map fun s => s.node.map (ofStmts stmts).locals.indexOf
  rw [List.map_map]
  refine List.map_congr_left fun s hs => ?_
  rw [Function.comp_apply, Stmt.node_map, Node.map_map]
  refine Node.map_congr fun x hx => ?_
  rw [Function.comp_apply]
  exact Locals.indexOf_map hNames fun y hy => hf y hy x (mem_names_of_mem_vars hs hx)

/-- **Renamed statements have the same code.** -/
theorem generate_ofStmts_map (h : Stmt.parse ws = .ok stmts)
    (hf : ∀ x ∈ Word.names ws, ∀ y ∈ Word.names ws, f x = f y → x = y) :
    (ofStmts (stmts.map (Stmt.map f))).generate = (ofStmts stmts).generate := by
  have hNames := names_locals_map h hf
  have hMem : ∀ x ∈ (ofStmts stmts).locals.names, x ∈ Word.names ws := by
    intro x hx
    rw [locals_ofStmts h] at hx
    exact Locals.mem_names_ofNames.mp hx
  refine generate_congr (body_ofStmts_map hNames ?_) ?_
  · intro x hx y hy
    exact hf x (hMem x hx) y (hMem y hy)
  · rw [Locals.length, hNames, List.length_map, Locals.length]

end Program

/-! ### Sources that are alike -/

/-- Two tokens differ at most in their places, in how a number is written, and in a name. -/
structure Token.SameForm (source₁ source₂ : Text) (t u : Token) : Prop where
  kind : t.kind = u.kind
  text : t.kind = .punctuator ∨ t.kind = .keyword → t.text? source₁ = u.text? source₂
  value : t.kind = .num → t.value = u.value

/-- The tokens of two sources differ at most in their places, in how numbers are written, and in
names, and the names correspond to each other one to one. -/
structure Alike (source₁ : Text) (tokens₁ : List Token) (source₂ : Text) (tokens₂ : List Token) :
    Prop where
  sameForm : List.Forall₂ (Token.SameForm source₁ source₂) tokens₁ tokens₂
  /-- Two names are the same in one source exactly if they are in the other one. -/
  names : ∀ p ∈ tokens₁.zip tokens₂, ∀ q ∈ tokens₁.zip tokens₂,
    p.1.kind = .ident → q.1.kind = .ident →
      (p.1.text? source₁ = q.1.text? source₁ ↔ p.2.text? source₂ = q.2.text? source₂)

instance (source₁ source₂ : Text) : DecidableRel (Token.SameForm source₁ source₂) := fun t u =>
  decidable_of_iff (t.kind = u.kind ∧
      (t.kind = .punctuator ∨ t.kind = .keyword → t.text? source₁ = u.text? source₂) ∧
      (t.kind = .num → t.value = u.value))
    ⟨fun h => ⟨h.1, h.2.1, h.2.2⟩, fun h => ⟨h.kind, h.text, h.value⟩⟩

instance (source₁ : Text) (tokens₁ : List Token) (source₂ : Text) (tokens₂ : List Token) :
    Decidable (Alike source₁ tokens₁ source₂ tokens₂) :=
  decidable_of_iff (List.Forall₂ (Token.SameForm source₁ source₂) tokens₁ tokens₂ ∧
      ∀ p ∈ tokens₁.zip tokens₂, ∀ q ∈ tokens₁.zip tokens₂,
        p.1.kind = .ident → q.1.kind = .ident →
          (p.1.text? source₁ = q.1.text? source₁ ↔ p.2.text? source₂ = q.2.text? source₂))
    ⟨fun h => ⟨h.1, h.2⟩, fun h => ⟨h.sameForm, h.names⟩⟩

/-- The name that stands in the second source where `x` stands in the first one. -/
def counterpart (source₁ source₂ : Text) (pairs : List (Token × Token)) (x : String) : String :=
  ((pairs.find? fun p => p.1.kind = .ident ∧ p.1.text? source₁ = some x).bind fun p =>
    p.2.text? source₂).getD x

theorem Word.ofTokens_map {source₁ source₂ : Text} {tokens₁ tokens₂ : List Token}
    {f : String → String} (hLength : tokens₁.length = tokens₂.length)
    (h : ∀ p ∈ tokens₁.zip tokens₂, p.1.kind = p.2.kind ∧
      Word.ofToken source₂ p.2 = (Word.ofToken source₁ p.1).map f) :
    Word.ofTokens source₂ tokens₂ = (Word.ofTokens source₁ tokens₁).map (Word.map f) := by
  induction tokens₁ generalizing tokens₂ with
  | nil =>
    rw [List.length_eq_zero_iff.mp hLength.symm]
    rfl
  | cons t ts ih =>
    cases tokens₂ with
    | nil => cases hLength
    | cons u us =>
      rw [List.zip_cons_cons, List.forall_mem_cons] at h
      obtain ⟨⟨hKind, hWord⟩, hRest⟩ := h
      have ih := ih (Nat.succ.inj hLength) hRest
      dsimp only at hKind hWord
      rw [Word.ofTokens, Word.ofTokens] at ih ⊢
      by_cases hEof : u.kind = .eof
      · -- the end of both inputs
        rw [List.takeWhile_cons_of_neg (by simp [hEof]),
          List.takeWhile_cons_of_neg (by simp [hKind, hEof])]
        rfl
      · rw [List.takeWhile_cons_of_pos (by simp [hEof]),
          List.takeWhile_cons_of_pos (by simp [hKind, hEof]), List.map_cons, List.map_cons,
          List.map_cons, ih, hWord]

theorem Word.exists_token_of_mem_names {source : Text} {tokens : List Token} {x : String}
    (h : x ∈ Word.names (Word.ofTokens source tokens)) :
    ∃ t ∈ tokens, t.kind = .ident ∧ t.text? source = some x := by
  obtain ⟨w, hw, hName⟩ := List.mem_filterMap.mp h
  obtain ⟨t, ht, rfl⟩ := List.mem_map.mp hw
  have hIdent : Word.ofToken source t = .ident x := by
    cases hWord : Word.ofToken source t with
    | ident y =>
      rw [hWord] at hName
      rw [Option.some.inj hName]
    | _ =>
      rw [hWord] at hName
      cases hName
  exact ⟨t, (List.takeWhile_sublist _).mem ht, (Word.spells_iff Word.noConfusion).mpr hIdent⟩

namespace Alike

variable {source₁ source₂ : Text} {tokens₁ tokens₂ : List Token}

theorem counterpart_eq (h : Alike source₁ tokens₁ source₂ tokens₂) {p : Token × Token}
    (hp : p ∈ tokens₁.zip tokens₂) (hKind : p.1.kind = .ident) {x y : String}
    (hx : p.1.text? source₁ = some x) (hy : p.2.text? source₂ = some y) :
    counterpart source₁ source₂ (tokens₁.zip tokens₂) x = y := by
  rw [counterpart]
  cases hFind : (tokens₁.zip tokens₂).find? fun p =>
      p.1.kind = .ident ∧ p.1.text? source₁ = some x with
  | none =>
    have hNone := List.find?_eq_none.mp hFind p hp
    simp [hKind, hx] at hNone
  | some q =>
    have hq := List.find?_some hFind
    rw [decide_eq_true_eq] at hq
    -- the first token with this name has the same counterpart
    have hSame := (h.names q (List.mem_of_find?_eq_some hFind) p hp hq.1 hKind).mp
      (hq.2.trans hx.symm)
    rw [Option.bind_some, hSame, hy]
    rfl

/-- The word of a token is that of its counterpart under another name. -/
theorem ofToken_eq (h : Alike source₁ tokens₁ source₂ tokens₂) {t u : Token}
    (hp : (t, u) ∈ tokens₁.zip tokens₂) {x y : String} (hx : t.text? source₁ = some x)
    (hy : u.text? source₂ = some y) :
    Word.ofToken source₂ u =
      (Word.ofToken source₁ t).map (counterpart source₁ source₂ (tokens₁.zip tokens₂)) := by
  have hForm := List.forall₂_zip h.sameForm hp
  have hKind := hForm.kind
  rw [Word.ofToken, Word.ofToken, ← hKind]
  cases hk : t.kind with
  | punctuator =>
    rw [← hForm.text (Or.inl hk)]
    dsimp only
    cases (t.text? source₁).bind Punct.ofText? <;> rfl
  | keyword =>
    rw [← hForm.text (Or.inr hk)]
    dsimp only
    by_cases hRet : t.text? source₁ = some Token.returnText
    · rw [if_pos hRet]
      rfl
    · rw [if_neg hRet]
      rfl
  | ident =>
    rw [hx, hy]
    dsimp only
    rw [Word.map, h.counterpart_eq hp hk hx hy]
  | num =>
    rw [hForm.value hk]
    rfl
  | eof => rfl

theorem exists_ident (h : Alike source₁ tokens₁ source₂ tokens₂)
    (hScan₂ : Token.scan source₂ = .ok tokens₂) {x : String}
    (hx : x ∈ Word.names (Word.ofTokens source₁ tokens₁)) :
    ∃ p ∈ tokens₁.zip tokens₂, p.1.kind = .ident ∧ p.1.text? source₁ = some x ∧
      p.2.text? source₂ = some (counterpart source₁ source₂ (tokens₁.zip tokens₂) x) := by
  obtain ⟨t, ht, hKind, hText⟩ := Word.exists_token_of_mem_names hx
  obtain ⟨i, hi⟩ := List.mem_iff_getElem?.mp ht
  obtain ⟨u, hu⟩ : ∃ u, tokens₂[i]? = some u := by
    have hLt : i < tokens₁.length := (List.getElem?_eq_some_iff.mp hi).1
    rw [h.sameForm.length_eq] at hLt
    exact ⟨_, List.getElem?_eq_getElem hLt⟩
  have hp : (t, u) ∈ tokens₁.zip tokens₂ := by
    refine List.mem_iff_getElem?.mpr ⟨i, ?_⟩
    rw [List.getElem?_zip_eq_some]
    exact ⟨hi, hu⟩
  obtain ⟨-, -, y, hy⟩ := Token.exists_text_of_scan hScan₂ (List.mem_of_getElem? hu)
  exact ⟨(t, u), hp, hKind, hText, by rw [h.counterpart_eq hp hKind hText hy]; exact hy⟩

/-- Different names have different counterparts. -/
theorem counterpart_injOn (h : Alike source₁ tokens₁ source₂ tokens₂)
    (hScan₂ : Token.scan source₂ = .ok tokens₂) :
    ∀ x ∈ Word.names (Word.ofTokens source₁ tokens₁),
      ∀ y ∈ Word.names (Word.ofTokens source₁ tokens₁),
        counterpart source₁ source₂ (tokens₁.zip tokens₂) x =
          counterpart source₁ source₂ (tokens₁.zip tokens₂) y → x = y := by
  intro x hx y hy hSame
  obtain ⟨p, hp, hKindP, hxText, hxOther⟩ := h.exists_ident hScan₂ hx
  obtain ⟨q, hq, hKindQ, hyText, hyOther⟩ := h.exists_ident hScan₂ hy
  have hEq : p.1.text? source₁ = q.1.text? source₁ := by
    rw [h.names p hp q hq hKindP hKindQ, hxOther, hyOther, hSame]
  rw [hxText, hyText] at hEq
  exact Option.some.inj hEq

/-- **The words of two sources that are alike are the same under other names.** -/
theorem ofTokens_eq (h : Alike source₁ tokens₁ source₂ tokens₂)
    (hScan₁ : Token.scan source₁ = .ok tokens₁) (hScan₂ : Token.scan source₂ = .ok tokens₂) :
    Word.ofTokens source₂ tokens₂ = (Word.ofTokens source₁ tokens₁).map
      (Word.map (counterpart source₁ source₂ (tokens₁.zip tokens₂))) := by
  have hWord : ∀ p ∈ tokens₁.zip tokens₂, p.1.kind = p.2.kind ∧ Word.ofToken source₂ p.2 =
      (Word.ofToken source₁ p.1).map (counterpart source₁ source₂ (tokens₁.zip tokens₂)) := by
    intro p hp
    obtain ⟨hFst, hSnd⟩ := List.of_mem_zip hp
    obtain ⟨-, -, x, hx⟩ := Token.exists_text_of_scan hScan₁ hFst
    obtain ⟨-, -, y, hy⟩ := Token.exists_text_of_scan hScan₂ hSnd
    exact ⟨(List.forall₂_zip h.sameForm hp).kind, h.ofToken_eq hp hx hy⟩
  generalize counterpart source₁ source₂ (tokens₁.zip tokens₂) = f at hWord ⊢
  exact Word.ofTokens_map h.sameForm.length_eq hWord

end Alike

/-- What a diagnostic points at is a token. -/
theorem Token.exists_blamed {source : Text} {tokens : List Token} {e : ParseError}
    (hScan : Token.scan source = .ok tokens)
    (h : Stmt.parse (Word.ofTokens source tokens) = .error e) :
    ∃ t, tokens[e.blamed]? = some t ∧ ParseError.locOf source tokens e.blamed = t.loc := by
  have hLe := Stmt.blamed_le_of_parse h
  obtain ⟨fs, body, rfl, hStands, -⟩ := Token.exists_forms_of_scan hScan
  rw [Token.ofTokens_of_stands hStands, List.length_map, hStands.length_eq] at hLe
  have hLt : e.blamed < (body ++ [Token.eof source.byteLength]).length := by
    rw [List.length_append, List.length_singleton]
    omega
  refine ⟨_, List.getElem?_eq_getElem hLt, ?_⟩
  rw [ParseError.locOf, List.getElem?_eq_getElem hLt]

/-- **A parse error is reported with a diagnostic at a token.** -/
theorem compile_of_parse_error {source : Text} {tokens : List Token} {e : ParseError}
    (hScan : Token.scan source = .ok tokens)
    (h : Stmt.parse (Word.ofTokens source tokens) = .error e) :
    ∃ d t, compile source = .error (.diagnosed d) ∧ d.stage = .parse ∧
      tokens[e.blamed]? = some t ∧ d.place.loc = t.loc := by
  obtain ⟨t, ht, hLoc⟩ := Token.exists_blamed hScan h
  cases hParse : Program.parse source tokens with
  | ok p =>
    obtain ⟨stmts, hStmts, -⟩ := Program.parse_eq_ok.mp hParse
    rw [h] at hStmts
    cases hStmts
  | error failure =>
    obtain ⟨e', d, rfl, he, hDiagnostic, -, hPlace⟩ := Program.exists_diagnostic hScan hParse
    rw [h] at he
    cases he
    refine ⟨d, t, ?_, ?_, ht, hPlace.trans hLoc⟩
    · rw [compile, Program.ofSource, hScan]
      dsimp only
      rw [hParse]
    · rw [ParseError.eq_about hDiagnostic]
      rfl

/-- **Names and layout do not matter.**  If the tokens of two sources differ in nothing but their
places, the way in which numbers are written and a renaming, both are compiled to the same code, or
both are turned down by the parser at the token with the same index. -/
theorem compile_of_alike {source₁ source₂ : Text} {tokens₁ tokens₂ : List Token}
    (hScan₁ : Token.scan source₁ = .ok tokens₁) (hScan₂ : Token.scan source₂ = .ok tokens₂)
    (h : Alike source₁ tokens₁ source₂ tokens₂) :
    (∃ lines, compile source₁ = .ok lines ∧ compile source₂ = .ok lines) ∨
      ∃ (d₁ d₂ : Diagnostic) (k : Nat) (t₁ t₂ : Token),
        compile source₁ = .error (.diagnosed d₁) ∧ compile source₂ = .error (.diagnosed d₂) ∧
        d₁.stage = .parse ∧ d₂.stage = .parse ∧
        tokens₁[k]? = some t₁ ∧ tokens₂[k]? = some t₂ ∧
        d₁.place.loc = t₁.loc ∧ d₂.place.loc = t₂.loc := by
  have hWords := h.ofTokens_eq hScan₁ hScan₂
  have hInj := h.counterpart_injOn hScan₂
  generalize counterpart source₁ source₂ (tokens₁.zip tokens₂) = f at hWords hInj
  have hParse₂ : Stmt.parse (Word.ofTokens source₂ tokens₂) =
      (Stmt.parse (Word.ofTokens source₁ tokens₁)).map (List.map (Stmt.map f)) := by
    rw [hWords, Stmt.parse_map]
  cases hParse₁ : Stmt.parse (Word.ofTokens source₁ tokens₁) with
  | error e =>
    rw [hParse₁] at hParse₂
    obtain ⟨d₁, t₁, hCompile₁, hStage₁, hToken₁, hLoc₁⟩ := compile_of_parse_error hScan₁ hParse₁
    obtain ⟨d₂, t₂, hCompile₂, hStage₂, hToken₂, hLoc₂⟩ := compile_of_parse_error hScan₂ hParse₂
    exact Or.inr ⟨d₁, d₂, e.blamed, t₁, t₂, hCompile₁, hCompile₂, hStage₁, hStage₂, hToken₁,
      hToken₂, hLoc₁, hLoc₂⟩
  | ok stmts =>
    rw [hParse₁] at hParse₂
    obtain ⟨lines, hLines⟩ := Program.exists_generate_ofStmts (Stmt.parse_eq_ok.mp hParse₁).1
    refine Or.inl ⟨lines, compile_of_parse hScan₁ hParse₁ hLines, ?_⟩
    rw [← Program.generate_ofStmts_map hParse₁ hInj] at hLines
    exact compile_of_parse hScan₂ hParse₂ hLines

/-- Two names that are swapped, with other blanks and a leading zero; and two sums that cannot be
assigned to, where the diagnostics point at the third token. -/
theorem compile_of_alike_swapped :
    (∃ lines, compile "a=7;return b>a;".toList = .ok lines ∧
      compile " b = 07 ;\nreturn a > b;".toList = .ok lines) ∧
      ∃ d₁ d₂ : Diagnostic, compile "a;a+1=b;".toList = .error (.diagnosed d₁) ∧
        compile "xy; xy + 1 = a;".toList = .error (.diagnosed d₂) ∧
        d₁.place.loc = 2 ∧ d₂.place.loc = 4 := by
  constructor
  · have hFirst : ∃ lines, compile "a=7;return b>a;".toList = .ok lines := ⟨_, rfl⟩
    have hScan₁ : Token.scan "a=7;return b>a;".toList = .ok _ := rfl
    have hScan₂ : Token.scan " b = 07 ;\nreturn a > b;".toList = .ok _ := rfl
    obtain ⟨lines, hLines⟩ := hFirst
    rcases compile_of_alike hScan₁ hScan₂ (by decide +kernel) with h | ⟨d₁, d₂, k, t₁, t₂, h, -⟩
    · exact h
    · rw [hLines] at h
      cases h
  · have hFirst : ∃ d : Diagnostic, compile "a;a+1=b;".toList = .error (.diagnosed d) ∧
        d.place.loc = 2 := ⟨_, rfl, rfl⟩
    have hScan₁ : Token.scan "a;a+1=b;".toList = .ok _ := rfl
    have hScan₂ : Token.scan "xy; xy + 1 = a;".toList = .ok _ := rfl
    obtain ⟨d, hd, hLoc⟩ := hFirst
    rcases compile_of_alike hScan₁ hScan₂ (by decide +kernel) with
      ⟨lines, h, -⟩ | ⟨d₁, d₂, k, t₁, t₂, h₁, h₂, -, -, ht₁, ht₂, hLoc₁, hLoc₂⟩
    · rw [hd] at h
      cases h
    · obtain rfl : d = d₁ := Failure.diagnosed.inj (Except.error.inj (hd.symm.trans h₁))
      -- the tokens of the first source have one byte each
      have hRange : (List.range 9)[k]? = some 2 := by
        have hMap := congrArg (Option.map Token.loc) ht₁
        rw [← List.getElem?_map] at hMap
        exact hMap.trans (congrArg some (hLoc₁.symm.trans hLoc))
      obtain ⟨_, hk⟩ := List.getElem?_eq_some_iff.mp hRange
      rw [List.getElem_range] at hk
      subst hk
      have hToken : some 4 = some t₂.loc := congrArg (Option.map Token.loc) ht₂
      exact ⟨d, d₂, h₁, h₂, hLoc, hLoc₂.trans (Option.some.inj hToken).symm⟩

end Semicolon
