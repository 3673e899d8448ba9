import Mathlib.Data.List.Forall2
import Semicolon.Proofs.Numbering
import Semicolon.Proofs.Reading
import Semicolon.Token.Scan

/-!
# Programs are what the grammar derives

`Word.Spells` says how a word of the grammar appears among tokens, and `Derives` what it is for some
statements to derive the tokens of a source.  There is a program for some tokens exactly if they can
be derived; they can be derived in one way only, and the trees of the program are those of the
derivation.
-/

namespace Semicolon

/-- How a word of the grammar appears among the tokens of a source: by its kind and its text, and a
number by its value. -/
def Word.Spells (source : Text) : Word → Token → Prop
  | punct p, t => t.kind = .punctuator ∧ t.text? source = some p.text
  | ret, t => t.kind = .keyword ∧ t.text? source = some Token.returnText
  | ident x, t => t.kind = .ident ∧ t.text? source = some x
  | num v, t => t.kind = .num ∧ t.value = v
  | other, _ => False

/-- The statements derive the tokens up to the end of the source, and assign to variables alone. -/
def Derives (source : Text) (tokens : List Token) (ds : List StmtDerivation) : Prop :=
  List.Forall₂ (Word.Spells source) (ds.flatMap StmtDerivation.words)
      (tokens.takeWhile (·.kind != .eof)) ∧
    ∀ d ∈ ds, d.Allowed

namespace Word

variable {source : Text}

theorem ofToken_of_spells {w : Word} {t : Token} (h : w.Spells source t) :
    ofToken source t = w := by
  cases w with
  | punct p =>
    obtain ⟨hKind, hText⟩ := h
    simp only [ofToken, hKind, hText, Option.bind_some, Punct.ofText?_text]
  | ret =>
    obtain ⟨hKind, hText⟩ := h
    simp only [ofToken, hKind, hText, if_true]
  | ident x =>
    obtain ⟨hKind, hText⟩ := h
    simp only [ofToken, hKind, hText]
  | num v =>
    obtain ⟨hKind, hValue⟩ := h
    simp only [ofToken, hKind, hValue]
  | other => exact h.elim

theorem spells_ofToken {t : Token} (h : ofToken source t ≠ .other) :
    (ofToken source t).Spells source t := by
  revert h
  unfold ofToken
  split
  next hKind =>
    split
    next p hp =>
      intro _
      obtain ⟨s, hs, hp⟩ := Option.bind_eq_some_iff.mp hp
      rw [Punct.ofText?_eq_some.mp hp] at hs
      exact ⟨hKind, hs⟩
    next => exact fun h => absurd rfl h
  next hKind =>
    split
    next hText => exact fun _ => ⟨hKind, hText⟩
    next => exact fun h => absurd rfl h
  next hKind =>
    split
    next x hText => exact fun _ => ⟨hKind, hText⟩
    next => exact fun h => absurd rfl h
  next hKind => exact fun _ => ⟨hKind, rfl⟩
  next => exact fun h => absurd rfl h

theorem spells_iff {w : Word} (hw : w ≠ .other) {t : Token} :
    w.Spells source t ↔ ofToken source t = w := by
  constructor
  · exact ofToken_of_spells
  · rintro rfl
    exact spells_ofToken hw

/-- Tokens are spelt by their own words, if the grammar has all of them. -/
theorem forall₂_spells_iff {ws : List Word} (h : Word.other ∉ ws) {ts : List Token} :
    List.Forall₂ (Spells source) ws ts ↔ ts.map (ofToken source) = ws := by
  constructor
  · intro hs
    induction hs with
    | nil => rfl
    | cons hSpells _ ih =>
      rw [List.map_cons, ofToken_of_spells hSpells, ih (fun hm => h (List.mem_cons_of_mem _ hm))]
  · rintro rfl
    rw [List.forall₂_map_left_iff, List.forall₂_same]
    intro t ht
    exact spells_ofToken fun ho => h (List.mem_map.mpr ⟨t, ht, ho⟩)

end Word

theorem Derivation.other_notMem_words {p : Phrase} (d : Derivation p) : Word.other ∉ d.words := by
  induction d <;> simp_all [words]

theorem StmtDerivation.other_notMem_words (d : StmtDerivation) : Word.other ∉ d.words := by
  cases d <;> simp [words, Derivation.other_notMem_words]

theorem derives_iff {source : Text} {tokens : List Token} {ds : List StmtDerivation} :
    Derives source tokens ds ↔
      Stmt.parse (Word.ofTokens source tokens) = .ok (ds.map StmtDerivation.stmt) ∧
        ∀ d ∈ ds, d.Allowed := by
  have hOther : Word.other ∉ ds.flatMap StmtDerivation.words := by
    intro hm
    obtain ⟨d, -, hd⟩ := List.mem_flatMap.mp hm
    exact d.other_notMem_words hd
  rw [Derives, Word.forall₂_spells_iff hOther, Stmt.parse_eq_ok, StmtDerivation.flatMap_words_stmt,
    Word.ofTokens]
  constructor
  · rintro ⟨hWords, hAllowed⟩
    refine ⟨⟨?_, hWords.symm⟩, hAllowed⟩
    intro s hs
    obtain ⟨d, hd, rfl⟩ := List.mem_map.mp hs
    exact StmtDerivation.graded_stmt (hAllowed d hd)
  · rintro ⟨⟨-, hWords⟩, hAllowed⟩
    exact ⟨hWords.symm, hAllowed⟩

theorem exists_derives {source : Text} {tokens : List Token} {stmts : List Stmt}
    (h : Stmt.parse (Word.ofTokens source tokens) = .ok stmts) :
    ∃ ds, Derives source tokens ds ∧ ds.map StmtDerivation.stmt = stmts := by
  obtain ⟨ds, rfl, hAllowed⟩ := StmtDerivation.exists_stmts (Stmt.parse_eq_ok.mp h).1
  exact ⟨ds, derives_iff.mpr ⟨h, hAllowed⟩, rfl⟩

theorem Derives.unique {source : Text} {tokens : List Token} {ds ds' : List StmtDerivation}
    (h : Derives source tokens ds) (h' : Derives source tokens ds') : ds = ds' := by
  have hParse := (derives_iff.mp h).1
  rw [(derives_iff.mp h').1] at hParse
  exact (List.map_inj_right fun _ _ => StmtDerivation.stmt_inj).mp (Except.ok.inj hParse).symm

theorem Program.parse_eq_ok {source : Text} {tokens : List Token} {p : Program} :
    Program.parse source tokens = .ok p ↔
      ∃ stmts, Stmt.parse (Word.ofTokens source tokens) = .ok stmts ∧ p = ofStmts stmts := by
  unfold Program.parse
  cases Stmt.parse (Word.ofTokens source tokens) with
  | ok stmts =>
    constructor
    · intro h
      exact ⟨stmts, rfl, (Except.ok.inj h).symm⟩
    · rintro ⟨stmts', ⟨⟩, rfl⟩
      rfl
  | error e =>
    constructor
    · intro h
      dsimp only at h
      split at h <;> cases h
    · rintro ⟨stmts', h, -⟩
      cases h

/-- **The parser accepts what the grammar derives, and gives the trees of the derivation.**  Some
tokens are a program exactly if the grammar derives them with nothing but variables to the left of
`=`.  There is one derivation then, and with the names of the table in place of the indices, the
trees of the program are its trees. -/
theorem Program.parse_isOk_iff_derives (source : Text) (tokens : List Token) :
    ((∃ p, Program.parse source tokens = .ok p) ↔ ∃ ds, Derives source tokens ds) ∧
      ∀ p, Program.parse source tokens = .ok p →
        ∃ ds, Derives source tokens ds ∧ (∀ ds', Derives source tokens ds' → ds' = ds) ∧
          p.body.map (Node.map (p.locals.names[·]?)) = ds.map fun d => d.node.map some := by
  refine ⟨⟨?_, ?_⟩, ?_⟩
  · rintro ⟨p, hp⟩
    obtain ⟨stmts, hStmts, -⟩ := parse_eq_ok.mp hp
    obtain ⟨ds, hds, -⟩ := exists_derives hStmts
    exact ⟨ds, hds⟩
  · rintro ⟨ds, hds⟩
    exact ⟨_, parse_eq_ok.mpr ⟨_, (derives_iff.mp hds).1, rfl⟩⟩
  · intro p hp
    obtain ⟨stmts, hStmts, rfl⟩ := parse_eq_ok.mp hp
    obtain ⟨ds, hds, rfl⟩ := exists_derives hStmts
    refine ⟨ds, hds, fun ds' hds' => hds'.unique hds, ?_⟩
    rw [body_ofStmts, List.map_map]
    refine List.map_congr_left fun d _ => ?_
    rw [Function.comp_apply, d.node_stmt]

/-- Assignments one behind the other, with a sign, brackets and a comparison that is turned around
in the last value. -/
theorem Program.derives_turned_comparison :
    ∃ tokens ds, Token.scan "a=b=-(c>1);".toList = .ok tokens ∧
      Derives "a=b=-(c>1);".toList tokens ds ∧
      (∀ ds', Derives "a=b=-(c>1);".toList tokens ds' → ds' = ds) ∧
      ds.map (fun d => d.node.map some) =
        [.assign (.var (some "a")) (.assign (.var (some "b"))
          (.binary .sub (.num 0) (.binary .lt (.num 1) (.var (some "c")))))] := by
  have hProgram : ∃ tokens p, Token.scan "a=b=-(c>1);".toList = .ok tokens ∧
      Program.parse "a=b=-(c>1);".toList tokens = .ok p ∧
      p.body.map (Node.map (p.locals.names[·]?)) =
        [.assign (.var (some "a")) (.assign (.var (some "b"))
          (.binary .sub (.num 0) (.binary .lt (.num 1) (.var (some "c")))))] :=
    ⟨_, _, rfl, rfl, rfl⟩
  obtain ⟨tokens, p, hScan, hParse, hBody⟩ := hProgram
  obtain ⟨ds, hDerives, hUnique, hNodes⟩ := (parse_isOk_iff_derives _ tokens).2 p hParse
  exact ⟨tokens, ds, hScan, hDerives, hUnique, hNodes.symm.trans hBody⟩

end Semicolon
