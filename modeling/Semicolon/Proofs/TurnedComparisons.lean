import Semicolon.Proofs.Accounting
import Semicolon.Proofs.Concatenation
import Semicolon.Proofs.CorrectPrefix

/-!
# Comparisons turned around

A comparison with `>` has the tree of the turned comparison with `<`, and behind a program that has
all of its names, no name is entered into the table.  So the two comparisons are compiled to the
same lines.  The words of a comparison of two phrases are read as that comparison, or not at all,
and this only depends on the phrases (`Derivation.parse_words`); and two texts with an operator
between them have the tokens of both (`Token.Formed.append`), since no token goes on across the
operator.
-/

namespace Semicolon

open Parse

/-! ### Phrases that are read -/

theorem Parse.Leads.accepts {index : Nat} {s s' : State} {ws : List Word} (h : Leads index s ws s')
    (rest : List Word) :
    Accepts index s (ws ++ rest) ↔ Accepts (index + ws.length) s' rest := by
  rw [Accepts, h, Accepts]

namespace Derivation

/-- Words that lead to a state in which the phrase counts as one operand. -/
theorem leads_words {p : Phrase} {d : Derivation p} (hd : d.Allowed) (isRet : Bool) (index : Nat)
    (outer : List Bracket) (here : Level) (hHead : ∀ q ∈ here.pending.head?, q.2.level < p.level) :
    ∃ here' left, Leads index (.operand isRet outer here none) d.words
        (.operator isRet outer here' left) ∧ Settles here' left here d.expr := by
  have hLevel : ∀ q ∈ here.pending.head?, q.2.level < d.expr.level := by
    intro q hq
    exact Nat.lt_of_lt_of_le (hHead q hq) d.level_expr
  have hLeads := Parse.leads_words isRet index outer here none (graded_expr hd) (.inl rfl) hLevel
  rwa [words_expr] at hLeads

/-- **If the reader gets through the words of a phrase, variables alone are assigned to in it.** -/
theorem allowed_of_accepts {p : Phrase} (d : Derivation p) (isRet : Bool) (index : Nat)
    (outer : List Bracket) (here : Level) (sign : Option Sign) (hSign : sign = none ∨ p = .primary)
    (hHead : ∀ q ∈ here.pending.head?, q.2.level < p.level) {rest : List Word}
    (h : Accepts index (.operand isRet outer here sign) (d.words ++ rest)) : d.Allowed := by
  induction d generalizing index outer here sign rest with
  | num v => trivial
  | ident x => trivial
  | paren d ih =>
    have hStep : (State.operand isRet outer here sign).step index (.punct .openParen) =
        .ok (none, .phrase isRet ({ outside := here, sign } :: outer) (index + 1)) := rfl
    rw [words, List.cons_append, List.append_assoc] at h
    refine ih (index + 1) ({ outside := here, sign } :: outer) { start := index + 1 } none
      (.inl rfl) ?_ ((accepts_cons hStep).mp h)
    intro q hq
    cases hq
  | signed s d ih =>
    obtain rfl := hSign.resolve_right (by decide)
    have hInner := (accepts_cons (step_sign s)).mp h
    refine ih _ outer here (some s) (.inr rfl) ?_ hInner
    intro q _
    exact Nat.lt_succ_of_lt q.2.level_lt_unary
  | @chain p q op hOp hNext l r ihl ihr =>
    have hp := Phrase.level_ofOp op
    rw [hOp] at hp
    have hq := Phrase.level_of_tighter? hNext
    obtain rfl := hSign.resolve_right (by rintro rfl; cases hNext)
    rw [words, List.append_assoc] at h
    have hl := ihl index outer here none (.inl rfl) hHead h
    obtain ⟨here₁, left₁, hLeads, hSettles⟩ := leads_words hl isRet index outer here hHead
    have hLevel := l.level_expr
    have hShift := hSettles.shift (show op.level ≤ l.expr.level by omega) (by rwa [← hp])
    have hRight := (accepts_cons (step_op op left₁)).mp ((hLeads.accepts _).mp h)
    refine ⟨hl, ihr _ outer (here₁.shift op left₁) none (.inl rfl) ?_ hRight⟩
    rw [hShift]
    rintro _ ⟨⟩
    show op.level < q.level
    omega
  | assign t v iht ihv =>
    obtain rfl := hSign.resolve_right (by decide)
    have hNone : here.pending = [] := by
      cases hp : here.pending with
      | nil => rfl
      | cons q rest => exact absurd (hHead q (by rw [hp]; rfl)) (Nat.not_lt_zero _)
    have hHead' : ∀ q ∈ here.pending.head?, q.2.level < Phrase.equality.level := by
      intro q hq
      rw [hNone] at hq
      cases hq
    rw [words, List.append_assoc] at h
    have ht := iht index outer here none (.inl rfl) hHead' h
    obtain ⟨here₁, left₁, hLeads, hSettles⟩ := leads_words ht isRet index outer here hHead'
    have hSide : here₁.side left₁ = t.expr := hSettles.side t.level_expr hNone
    obtain ⟨stmts, hValue⟩ := (hLeads.accepts _).mp h
    cases hPlace : (here₁.side left₁).place? with
    | none =>
      -- the assignment would have been turned down
      rw [List.cons_append, readFrom] at hValue
      simp only [State.step, readOperator, hPlace] at hValue
      cases hValue
    | some x =>
      have hVar := Expr.place?_eq_some.mp hPlace
      rw [hSide, node_expr] at hVar
      have hInner := (accepts_cons (step_assign hPlace)).mp ⟨stmts, hValue⟩
      refine ⟨⟨x, hVar⟩, ht, ihv _ outer _ none (.inl rfl) ?_ hInner⟩
      exact fun q hq => absurd hq (by simp [Level.assign])
  | @tighter p q hNext d ih =>
    have hq := Phrase.level_of_tighter? hNext
    obtain rfl := hSign.resolve_right (by rintro rfl; cases hNext)
    refine ih index outer here none (.inl rfl) ?_ h
    intro r hr
    have hLess := hHead r hr
    omega

/-- **The words of an expression and a semicolon are read as a statement of this expression, or not
at all.** -/
theorem parse_words (d : Derivation .assign) {stmts : List Stmt} :
    Stmt.parse (d.words ++ [.punct .semicolon]) = .ok stmts ↔
      d.Allowed ∧ stmts = [.expr d.expr] := by
  have hRead : d.Allowed → Stmt.parse (d.words ++ [.punct .semicolon]) = .ok [.expr d.expr] := by
    intro hd
    refine Stmt.parse_eq_ok.mpr ⟨List.forall_mem_singleton.mpr (graded_expr hd), ?_⟩
    rw [List.flatMap_singleton, Stmt.words, words_expr]
  constructor
  · intro h
    obtain ⟨w, ws, hw, hRet⟩ := exists_head_words d.expr
    rw [words_expr] at hw
    have hAccepts : Accepts 0 (.phrase false [] 0) (d.words ++ [.punct .semicolon]) := by
      refine ⟨stmts, ?_⟩
      rw [hw, List.cons_append, ← readFrom_start hRet, ← List.cons_append, ← hw]
      exact h
    have hd : d.Allowed := by
      refine d.allowed_of_accepts false 0 [] { start := 0 } none (.inl rfl) ?_ hAccepts
      intro q hq
      cases hq
    rw [hRead hd] at h
    exact ⟨hd, (Except.ok.inj h).symm⟩
  · rintro ⟨hd, rfl⟩
    exact hRead hd

/-- A phrase does not begin with a punctuator that begins with `=`. -/
theorem head_words {p : Phrase} (d : Derivation p) :
    ∃ w ws, d.words = w :: ws ∧ w ≠ .punct .assign ∧ w ≠ .punct .eqEq := by
  induction d with
  | num v => exact ⟨_, _, rfl, nofun, nofun⟩
  | ident x => exact ⟨_, _, rfl, nofun, nofun⟩
  | paren d => exact ⟨_, _, rfl, nofun, nofun⟩
  | signed s d => cases s <;> exact ⟨_, _, rfl, nofun, nofun⟩
  | chain op hOp hNext l r ihl =>
    obtain ⟨w, ws, hw, hFirst⟩ := ihl
    exact ⟨w, _, by rw [words, hw, List.cons_append], hFirst⟩
  | assign t v iht =>
    obtain ⟨w, ws, hw, hFirst⟩ := iht
    exact ⟨w, _, by rw [words, hw, List.cons_append], hFirst⟩
  | tighter hNext d ih => exact ih

/-- The comparison of two sums. -/
def comparison (l : Derivation .add) (op : Op) (hOp : Phrase.ofOp op = .relational)
    (r : Derivation .add) : Derivation .assign :=
  .tighter rfl (.tighter rfl (.chain op hOp rfl (.tighter rfl l) r))

theorem words_comparison (l r : Derivation .add) (op : Op) (hOp : Phrase.ofOp op = .relational) :
    (l.comparison op hOp r).words = l.words ++ .punct op.punct :: r.words :=
  rfl

theorem names_comparison (l r : Derivation .add) (op : Op) (hOp : Phrase.ofOp op = .relational) :
    (Stmt.expr (l.comparison op hOp r).expr).names = Word.names l.words ++ Word.names r.words := by
  rw [Stmt.names, Stmt.words, words_expr, words_comparison, Word.names_append, Word.names_append]
  exact List.append_nil _

end Derivation

/-! ### Names that are there already -/

theorem Locals.declareAll_of_subset {t : Locals} {xs : List String} (h : ∀ x ∈ xs, x ∈ t.names) :
    t.declareAll xs = t := by
  induction xs with
  | nil => rfl
  | cons x xs ih =>
    rw [List.forall_mem_cons] at h
    rw [declareAll_cons, declare, find?_eq_indexOf h.1]
    exact ih h.2

/-- Behind a program with all of their names, statements with the same tree make the same
program. -/
theorem Program.ofStmts_concat_congr {stmts : List Stmt} {s s' : Stmt} (hNode : s.node = s'.node)
    (h : ∀ x ∈ s.names ++ s'.names, x ∈ stmts.flatMap Stmt.names) :
    ofStmts (stmts ++ [s]) = ofStmts (stmts ++ [s']) := by
  have hLocals : ∀ u : Stmt, (∀ x ∈ u.names, x ∈ stmts.flatMap Stmt.names) →
      (ofStmts (stmts ++ [u])).locals = (ofStmts stmts).locals := by
    intro u hu
    rw [locals_ofStmts_append, List.flatMap_singleton]
    exact Locals.declareAll_of_subset fun x hx => Locals.mem_names_ofNames.mpr (hu x hx)
  rw [List.forall_mem_append] at h
  have hSame : (ofStmts (stmts ++ [s])).locals = (ofStmts (stmts ++ [s'])).locals :=
    (hLocals s h.1).trans (hLocals s' h.2).symm
  have hBody : ∀ u : Stmt, (ofStmts (stmts ++ [u])).body =
      stmts.map (fun v => v.node.map (ofStmts (stmts ++ [u])).locals.indexOf) ++
        [u.node.map (ofStmts (stmts ++ [u])).locals.indexOf] := by
    intro u
    exact List.map_append
  rw [Program.mk.injEq]
  refine ⟨?_, hSame⟩
  exact (hBody s).trans (by rw [hSame, hNode]; exact (hBody s').symm)

/-! ### Texts with an operator between them -/

namespace Token

/-- The tokens of a source have the forms `fs`. -/
def Formed (source : Text) (fs : List Form) : Prop :=
  ∃ body, scan source = .ok (body ++ [eof source.byteLength]) ∧
    List.Forall₂ (Form.Stands source) fs body

variable {a b : Text} {fs gs : List Form}

theorem exists_formed {ts : List Token} (h : scan a = .ok ts) :
    ∃ fs, Formed a fs ∧ Word.ofTokens a ts = fs.map Form.word := by
  obtain ⟨fs, body, rfl, hStands, -⟩ := exists_forms_of_scan h
  exact ⟨fs, ⟨body, h, hStands⟩, ofTokens_of_stands hStands _⟩

theorem Form.Stands.shift {f : Form} {t : Token} (h : Form.Stands b f t) (a : Text) :
    Form.Stands (a ++ b) f (t.shift a.byteLength) :=
  ⟨h.kind, h.value, (text?_shift a b t).trans h.text⟩

theorem exists_stands_of_getLast? {body : List Token}
    (h : List.Forall₂ (Form.Stands a) fs body) {t : Token} (ht : t ∈ body.getLast?) :
    ∃ f ∈ fs.getLast?, Form.Stands a f t := by
  simp only [← List.head?_reverse] at ht ⊢
  have hReverse := List.forall₂_reverse_iff.mpr h
  generalize fs.reverse = gs at hReverse ⊢
  generalize body.reverse = ts at hReverse ht
  cases hReverse with
  | nil => cases ht
  | cons hf _ =>
    cases ht
    exact ⟨_, rfl, hf⟩

/-- Two texts together have the tokens of both, if the last token of the first one is not made
longer by what follows. -/
theorem Formed.append (ha : Formed a fs) (hb : Formed b gs)
    (hSeam : ∀ f ∈ fs.getLast?, ∀ d, b.head? = some d → ¬ f.kind.Grows f.text d) :
    Formed (a ++ b) (fs ++ gs) := by
  obtain ⟨body, hScan, hStands⟩ := ha
  obtain ⟨body', hScan', hStands'⟩ := hb
  have hLast : ∀ t ∈ body.getLast?, ∀ x, t.text? ([] ++ a) = some (String.ofList x) →
      ∀ d, b.head? = some d → ¬ t.kind.Grows x d := by
    intro t ht x hText
    obtain ⟨f, hf, hStand⟩ := exists_stands_of_getLast? hStands ht
    rw [List.nil_append, hStand.text] at hText
    rw [hStand.kind, String.ofList_injective (Option.some.inj hText).symm]
    exact hSeam f hf
  refine ⟨body ++ body'.map (shift a.byteLength), ?_, ?_⟩
  · have hWhole : scan (a ++ b) = (shifted a.byteLength (scan b)).map (body ++ ·) := by
      rw [scan, scan, ← scanFrom_shift]
      exact scanFrom_seam [] a b hScan hLast
    rw [hWhole, hScan', shifted, List.map_append, Text.byteLength_append, List.append_assoc]
    rfl
  · refine List.rel_append (hStands.imp fun _ _ h => h.append b) ?_
    rw [List.forall₂_map_right_iff]
    exact hStands'.imp fun _ _ h => h.shift a

/-- No token goes on with a character that is no digit, no letter and no `=`. -/
theorem Kind.not_grows_of_sign {d : Char} (hd : d ∈ ['<', '>', ';']) (k : Kind) (x : Text) :
    ¬ k.Grows x d := by
  have hClass : d.isDigit = false ∧ d.isLower = false ∧ d ≠ '=' := by
    simp only [List.mem_cons, List.not_mem_nil, or_false] at hd
    rcases hd with rfl | rfl | rfl <;> decide
  intro hGrows
  cases k with
  | num => exact Bool.eq_false_iff.mp hClass.1 hGrows
  | keyword => exact Bool.eq_false_iff.mp hClass.2.1 hGrows
  | ident => exact Bool.eq_false_iff.mp hClass.2.1 hGrows
  | punctuator => exact hClass.2.2 hGrows.2
  | eof => exact hGrows

namespace Form

/-- A punctuator. -/
def ofPunct (p : Punct) : Form :=
  ⟨.punctuator, p.text.toList, none, ⟨p, rfl⟩, rfl⟩

theorem word_ofPunct (p : Punct) : (ofPunct p).word = .punct p := by
  refine Word.ofToken_of_spells ⟨rfl, ?_⟩
  rw [(ofPunct p).stands_self.text]
  exact congrArg some String.ofList_toList

theorem eq_of_word_eq_punct {f : Form} {p : Punct} (h : f.word = .punct p) :
    f.kind = .punctuator ∧ f.text = p.text.toList := by
  obtain ⟨hKind, hText⟩ := (Word.spells_iff Word.noConfusion).mpr h
  rw [f.stands_self.text, Option.some.injEq] at hText
  exact ⟨hKind, by rw [← hText, String.toList_ofList]⟩

/-- A token that begins with `=` is one of two. -/
theorem word_of_text_cons {f : Form} {x : Text} (h : f.text = '=' :: x) :
    f.word = .punct .assign ∨ f.word = .punct .eqEq := by
  have hLexeme := f.isLexeme
  rw [h] at hLexeme
  cases hKind : f.kind with
  | num =>
    rw [hKind] at hLexeme
    exact absurd (hLexeme.2.1 '=' List.mem_cons_self) (by decide)
  | ident =>
    rw [hKind] at hLexeme
    exact absurd (hLexeme.2.1 '=' List.mem_cons_self) (by decide)
  | keyword =>
    rw [hKind] at hLexeme
    exact absurd (List.cons.inj hLexeme.1).1 (by decide)
  | eof =>
    rw [hKind] at hLexeme
    exact hLexeme.elim
  | punctuator =>
    rw [hKind] at hLexeme
    obtain ⟨⟨p, hp⟩, -⟩ := hLexeme
    have hWord : f.word = .punct p := by
      refine Word.ofToken_of_spells ⟨hKind, ?_⟩
      rw [f.stands_self.text, h, hp, String.ofList_toList]
    rw [hWord]
    cases p with
    | assign => exact .inl rfl
    | eqEq => exact .inr rfl
    | _ => exact absurd (List.cons.inj hp).1 (by decide)

end Form

theorem Formed.ofPunct (p : Punct) : Formed p.text.toList [.ofPunct p] := by
  refine ⟨[(Form.ofPunct p).token 0], ?_, .cons (Form.ofPunct p).stands_self .nil⟩
  cases p <;> rfl

/-- A text whose first token does not begin with `=` does not begin with `=`. -/
theorem Formed.head?_ne (h : Formed a fs)
    (hFirst : ∀ f ∈ fs.head?, f.word ≠ .punct .assign ∧ f.word ≠ .punct .eqEq) :
    a.head? ≠ some '=' := by
  obtain ⟨body, hScan, hStands⟩ := h
  obtain ⟨body', hBody, hSeg⟩ := (scan_eq_ok_iff _ _).mp hScan
  obtain rfl := List.append_cancel_right hBody
  intro hHead
  obtain ⟨cs, rfl⟩ := List.head?_eq_some_iff.mp hHead
  obtain ⟨t, rest, rfl, hLoc⟩ := @Segmentation.exists_head [] body '=' cs rfl hSeg
  cases hStands with
  | @cons f _ _ _ hf _ =>
    -- the first token stands at the first character
    obtain ⟨x, hSlice, hx⟩ := Option.map_eq_some_iff.mp hf.text
    obtain rfl := String.ofList_injective hx
    obtain ⟨before, after, hSplit, hBefore, -⟩ := Text.slice?_eq_some.mp hSlice
    obtain ⟨c, y, hText⟩ := List.exists_cons_of_ne_nil f.isLexeme.ne_nil
    rw [hText, List.append_assoc] at hSplit
    obtain ⟨-, hRest⟩ :=
      @Text.append_inj_of_byteLength [] before _ _ hSplit (hBefore.trans hLoc).symm
    obtain rfl : '=' = c := (List.cons.inj hRest).1
    obtain ⟨hAssign, hEqual⟩ := hFirst f rfl
    rcases Form.word_of_text_cons hText with hWord | hWord
    · exact hAssign hWord
    · exact hEqual hWord

end Token

/-! ### The two comparisons -/

section

variable {source a b : Text} {fs gs hs : List Token.Form} {stmts : List Stmt}

theorem compile_of_formed (h : Token.Formed source fs) (lines : List String) :
    compile source = .ok lines ↔
      ∃ stmts, Stmt.parse (fs.map Token.Form.word) = .ok stmts ∧
        (Program.ofStmts stmts).generate = .ok lines := by
  obtain ⟨body, hScan, hStands⟩ := h
  have hWords : Word.ofTokens source (body ++ [.eof source.byteLength]) = fs.map Token.Form.word :=
    Token.ofTokens_of_stands hStands _
  constructor
  · intro hCompile
    obtain ⟨tokens, stmts, hTokens, hParse, hGenerate⟩ := compile_eq_ok hCompile
    obtain rfl := Except.ok.inj (hScan.symm.trans hTokens)
    exact ⟨stmts, hWords ▸ hParse, hGenerate⟩
  · rintro ⟨stmts, hParse, hGenerate⟩
    exact compile_of_parse hScan (hWords ▸ hParse) hGenerate

/-- The tokens of a comparison behind a program. -/
theorem formed_comparison (hSource : Token.Formed source fs)
    (hParse : Stmt.parse (fs.map Token.Form.word) = .ok stmts) (ha : Token.Formed a gs)
    (hb : Token.Formed b hs) {r : Derivation .add} (hr : hs.map Token.Form.word = r.words) {op : Op}
    (hOp : Phrase.ofOp op = .relational) :
    Token.Formed (source ++ a ++ op.punct.text.toList ++ b ++ ";".toList)
      (fs ++ gs ++ [.ofPunct op.punct] ++ hs ++ [.ofPunct .semicolon]) := by
  have hLeft : Token.Formed (source ++ a) (fs ++ gs) := by
    refine hSource.append ha fun f hf d _ => ?_
    have hWord : f.word = .punct .semicolon := by
      refine Stmt.eq_semicolon_of_parse hParse f.word ?_
      rw [List.getLast?_map]
      exact Option.mem_map_of_mem _ hf
    obtain ⟨hKind, hText⟩ := Token.Form.eq_of_word_eq_punct hWord
    rw [hKind, hText]
    rintro ⟨hMore, -⟩
    revert hMore
    decide
  have hOperator : Token.Formed (source ++ a ++ op.punct.text.toList)
      (fs ++ gs ++ [.ofPunct op.punct]) := by
    refine hLeft.append (.ofPunct op.punct) fun f _ d hd => ?_
    refine Token.Kind.not_grows_of_sign ?_ f.kind f.text
    cases op <;> cases hOp <;> cases hd <;> decide
  have hNext : b.head? ≠ some '=' := by
    refine hb.head?_ne fun f hf => ?_
    obtain ⟨w, ws, hWords, hFirst⟩ := r.head_words
    have hHead : (hs.map Token.Form.word).head? = some w := by
      rw [hr, hWords]
      rfl
    rw [List.head?_map, hf] at hHead
    cases hHead
    exact hFirst
  have hRight : Token.Formed (source ++ a ++ op.punct.text.toList ++ b)
      (fs ++ gs ++ [.ofPunct op.punct] ++ hs) := by
    refine hOperator.append hb fun f hf d hd hGrows => ?_
    rw [List.getLast?_concat] at hf
    cases hf
    exact hNext (hGrows.2 ▸ hd)
  refine hRight.append (.ofPunct .semicolon) fun f _ d hd => ?_
  cases hd
  exact Token.Kind.not_grows_of_sign (by decide) f.kind f.text

/-- **A comparison behind a program** is compiled exactly if both of its sides can be read, and
adds its own tree to the program. -/
theorem compile_comparison (hSource : Token.Formed source fs)
    (hParse : Stmt.parse (fs.map Token.Form.word) = .ok stmts) (ha : Token.Formed a gs)
    (hb : Token.Formed b hs) {l r : Derivation .add} (hl : gs.map Token.Form.word = l.words)
    (hr : hs.map Token.Form.word = r.words) {op : Op} (hOp : Phrase.ofOp op = .relational)
    (lines : List String) :
    compile (source ++ a ++ op.punct.text.toList ++ b ++ ";".toList) = .ok lines ↔
      (l.Allowed ∧ r.Allowed) ∧
        (Program.ofStmts (stmts ++ [.expr (l.comparison op hOp r).expr])).generate = .ok lines := by
  have hWords : List.map Token.Form.word
      (fs ++ gs ++ [.ofPunct op.punct] ++ hs ++ [.ofPunct .semicolon]) =
        fs.map Token.Form.word ++ ((l.comparison op hOp r).words ++ [.punct .semicolon]) := by
    simp only [List.map_append, List.map_cons, List.map_nil, Token.Form.word_ofPunct, hl, hr,
      Derivation.words_comparison, List.append_assoc, List.cons_append, List.nil_append]
  rw [compile_of_formed (formed_comparison hSource hParse ha hb hr hOp), hWords]
  simp only [Stmt.parse_append hParse]
  constructor
  · rintro ⟨whole, hWhole, hGenerate⟩
    cases hValue : Stmt.parse ((l.comparison op hOp r).words ++ [.punct .semicolon]) with
    | error e =>
      rw [hValue] at hWhole
      cases hWhole
    | ok value =>
      rw [hValue] at hWhole
      obtain ⟨hAllowed, rfl⟩ := Derivation.parse_words _ |>.mp hValue
      cases hWhole
      exact ⟨hAllowed, hGenerate⟩
  · rintro ⟨hAllowed, hGenerate⟩
    rw [(Derivation.parse_words (l.comparison op hOp r)).mpr ⟨hAllowed, rfl⟩]
    exact ⟨_, rfl, hGenerate⟩

/-- The words of an expression that binds tightly enough are a phrase. -/
theorem isPhrase_of_words {p : Phrase} {tokens : List Token} {e : Expr} (h : e.Graded)
    (hLevel : p.level ≤ e.level) (hWords : tokens.map (Word.ofToken source) = e.words) :
    IsPhrase p source tokens := by
  obtain ⟨d, rfl, -⟩ := Derivation.exists_expr h hLevel
  exact isPhrase_iff.mpr ⟨d, by rw [hWords, d.words_expr]⟩

/-- Operators that make the same tree of turned sides make the same lines of them, if the sides have
no names of their own. -/
theorem compile_turned (hSource : Token.Formed source fs)
    (hParse : Stmt.parse (fs.map Token.Form.word) = .ok stmts) (ha : Token.Formed a gs)
    (hb : Token.Formed b hs) {l r : Derivation .add} (hl : gs.map Token.Form.word = l.words)
    (hr : hs.map Token.Form.word = r.words)
    (hNames : ∀ x ∈ Word.names (l.words ++ r.words), x ∈ Word.names (fs.map Token.Form.word))
    (op op' : Op) (hOp : Phrase.ofOp op = .relational) (hOp' : Phrase.ofOp op' = .relational)
    (hTurn : ∀ m n : Node String, op.node m n = op'.node n m) (lines : List String) :
    compile (source ++ a ++ op.punct.text.toList ++ b ++ ";".toList) = .ok lines ↔
      compile (source ++ b ++ op'.punct.text.toList ++ a ++ ";".toList) = .ok lines := by
  have hNode : (Stmt.expr (l.comparison op hOp r).expr).node =
      (Stmt.expr (r.comparison op' hOp' l).expr).node :=
    hTurn l.expr.node r.expr.node
  have hSame : Program.ofStmts (stmts ++ [.expr (l.comparison op hOp r).expr]) =
      Program.ofStmts (stmts ++ [.expr (r.comparison op' hOp' l).expr]) := by
    refine Program.ofStmts_concat_congr hNode fun x hx => ?_
    rw [Stmt.flatMap_names, Stmt.words_of_parse hParse]
    rw [Derivation.names_comparison, Derivation.names_comparison, List.mem_append,
      List.mem_append, List.mem_append, or_comm (b := x ∈ Word.names l.words), or_self] at hx
    exact hNames x (by rwa [Word.names_append, List.mem_append])
  rw [compile_comparison hSource hParse ha hb hl hr hOp,
    compile_comparison hSource hParse hb ha hr hl hOp', hSame, and_comm (a := l.Allowed)]

/-- **A comparison is compiled like its turned form.**  Behind a program that has all of their
names, two sums with `>` between them and the two in the other order with `<` between them are
compiled to the same lines, or both are not; and so are those with `>=` and `<=`. -/
theorem compile_turned_comparison {lines : List String} {ts us vs : List Token}
    (hSource : compile source = .ok lines) (hScan : Token.scan source = .ok ts)
    (hScanA : Token.scan a = .ok us) (ha : IsPhrase .add a (us.takeWhile (·.kind != .eof)))
    (hScanB : Token.scan b = .ok vs) (hb : IsPhrase .add b (vs.takeWhile (·.kind != .eof)))
    (hNames : ∀ x ∈ Token.idents a us ++ Token.idents b vs, x ∈ Token.idents source ts) :
    (∀ out, compile (source ++ a ++ ">".toList ++ b ++ ";".toList) = .ok out ↔
      compile (source ++ b ++ "<".toList ++ a ++ ";".toList) = .ok out) ∧
    ∀ out, compile (source ++ a ++ ">=".toList ++ b ++ ";".toList) = .ok out ↔
      compile (source ++ b ++ "<=".toList ++ a ++ ";".toList) = .ok out := by
  obtain ⟨fs, hFormed, hWords⟩ := Token.exists_formed hScan
  obtain ⟨gs, hFormedA, hWordsA⟩ := Token.exists_formed hScanA
  obtain ⟨hs, hFormedB, hWordsB⟩ := Token.exists_formed hScanB
  obtain ⟨stmts, hParse, -⟩ := (compile_of_formed hFormed lines).mp hSource
  obtain ⟨l, hl⟩ := isPhrase_iff.mp ha
  obtain ⟨r, hr⟩ := isPhrase_iff.mp hb
  rw [Token.idents_eq_names hScan, Token.idents_eq_names hScanA, Token.idents_eq_names hScanB,
    ← Word.names_append, hWords] at hNames
  rw [Word.ofTokens, hl] at hWordsA
  rw [Word.ofTokens, hr] at hWordsB
  rw [Word.ofTokens, Word.ofTokens, hl, hr] at hNames
  constructor
  · exact compile_turned hFormed hParse hFormedA hFormedB hWordsA.symm hWordsB.symm hNames
      .gt .lt rfl rfl fun _ _ => rfl
  · exact compile_turned hFormed hParse hFormedA hFormedB hWordsA.symm hWordsB.symm hNames
      .ge .le rfl rfl fun _ _ => rfl

/-- The sides are not evaluated in the order in which they are written. -/
theorem compile_turned_assignment :
    ∃ out,
      compile ("a=1;b=2;".toList ++ "(a=3)+b".toList ++ ">".toList ++ "-a*2".toList ++ ";".toList) =
          .ok out ∧
        compile ("a=1;b=2;".toList ++ "-a*2".toList ++ "<".toList ++ "(a=3)+b".toList ++
          ";".toList) = .ok out := by
  have ha : Expr.Graded (.binary .add (.paren (.assign (.name "a") (.num 3))) (.name "b")) :=
    ⟨⟨trivial, trivial, by decide, "a", rfl⟩, trivial, by decide⟩
  have hb : Expr.Graded (.binary .mul (.signed .minus (.name "a")) (.num 2)) :=
    ⟨⟨trivial, by decide⟩, trivial, by decide⟩
  have hTurned := (@compile_turned_comparison "a=1;b=2;".toList "(a=3)+b".toList "-a*2".toList
    _ _ _ _ rfl rfl rfl (isPhrase_of_words ha (by decide) rfl) rfl
    (isPhrase_of_words hb (by decide) rfl) (by decide)).1
  exact ⟨_, rfl, (hTurned _).mp rfl⟩

end

end Semicolon
