import Semicolon.Parse.Descent
import Semicolon.Proofs.Parsing

/-!
# Moving over tokens

What the routines of `Descent` do with one token, said of the words that come next.  `Ends` is the
rule by which this is put together: a run ends, with a value and a cursor about which something is
known, or with a failure and a cursor about which something is known.
-/

namespace Semicolon

theorem Text.utf8ByteSize_ofList (a : Text) : (String.ofList a).utf8ByteSize = a.byteLength := by
  induction a with
  | nil => rfl
  | cons c cs ih =>
    rw [byteLength_cons, ← ih]
    simp

theorem Token.len_of_text? {t : Token} {source : Text} {s : String} (h : t.text? source = some s) :
    t.len = s.utf8ByteSize := by
  obtain ⟨a, hSlice, rfl⟩ := Option.map_eq_some_iff.mp h
  obtain ⟨before, after, -, -, hLen⟩ := Text.slice?_eq_some.mp hSlice
  rw [← hLen, Text.utf8ByteSize_ofList]

namespace Descent

/-! ### Tokens as words -/

namespace Input

variable {input : Input} {i j k : Nat} {ws vs : List Word}

/-- The words from the token at `i` on, up to the end of the input. -/
def rest (input : Input) (i : Nat) : List Word :=
  Word.ofTokens input.source (input.tokens.drop i)

theorem rest_of_token {t : Token} (ht : input.tokens[i]? = some t) (hKind : t.kind ≠ .eof) :
    input.rest i = .ofToken input.source t :: input.rest (i + 1) := by
  obtain ⟨hi, rfl⟩ := List.getElem?_eq_some_iff.mp ht
  rw [rest, List.drop_eq_getElem_cons hi, Word.ofTokens,
    List.takeWhile_cons_of_pos (by simp [hKind])]
  rfl

theorem rest_of_end (h : ∀ t ∈ input.tokens[i]?, t.kind = .eof) : input.rest i = [] := by
  by_cases hi : i < input.tokens.length
  · have hKind := h input.tokens[i] (List.getElem?_eq_getElem hi)
    rw [rest, List.drop_eq_getElem_cons hi, Word.ofTokens,
      List.takeWhile_cons_of_neg (by simp [hKind])]
    rfl
  · rw [rest, List.drop_eq_nil_of_le (Nat.le_of_not_lt hi)]
    rfl

/-- A word is that of a token, which is not the end mark. -/
theorem exists_token {w : Word} (h : input.rest i = w :: ws) :
    ∃ t, input.tokens[i]? = some t ∧ t.kind ≠ .eof ∧ ws = input.rest (i + 1) := by
  cases ht : input.tokens[i]? with
  | none =>
    rw [rest_of_end (by rw [ht]; nofun)] at h
    cases h
  | some t =>
    by_cases hKind : t.kind = .eof
    · rw [rest_of_end (by rw [ht]; rintro _ ⟨⟩; exact hKind)] at h
      cases h
    · rw [rest_of_token ht hKind] at h
      exact ⟨t, rfl, hKind, (List.cons.inj h).2.symm⟩

theorem rest_of_head {w : Word} (h : (input.rest i).head? = some w) :
    input.rest i = w :: input.rest (i + 1) := by
  obtain ⟨ws, hRest⟩ := List.head?_eq_some_iff.mp h
  obtain ⟨-, -, -, rfl⟩ := exists_token hRest
  exact hRest

/-- How the next word is spelt. -/
theorem head_eq_some_iff {w : Word} (hw : w ≠ .other) :
    (input.rest i).head? = some w ↔
      ∃ t, input.tokens[i]? = some t ∧ w.Spells input.source t := by
  constructor
  · intro h
    obtain ⟨ws, hRest⟩ := List.head?_eq_some_iff.mp h
    obtain ⟨t, ht, hKind, -⟩ := exists_token hRest
    rw [rest_of_token ht hKind, List.head?_cons, Option.some.injEq] at h
    exact ⟨t, ht, (Word.spells_iff hw).mpr h⟩
  · rintro ⟨t, ht, hSpells⟩
    have hKind : t.kind ≠ .eof := by
      intro hKind
      cases w <;> simp_all [Word.Spells]
    rw [rest_of_token ht hKind, List.head?_cons, Word.ofToken_of_spells hSpells]

/-- The words of the tokens from `i` to `j` are `ws`. -/
def Covers (input : Input) (i : Nat) (ws : List Word) (j : Nat) : Prop :=
  input.rest i = ws ++ input.rest j ∧ j = i + ws.length

theorem Covers.nil : input.Covers i [] i :=
  ⟨rfl, rfl⟩

theorem Covers.word {w : Word} (h : input.rest i = w :: input.rest (i + 1)) :
    input.Covers i [w] (i + 1) :=
  ⟨h, rfl⟩

theorem Covers.trans (h : input.Covers i ws j) (h' : input.Covers j vs k) :
    input.Covers i (ws ++ vs) k := by
  refine ⟨?_, ?_⟩
  · rw [h.1, h'.1, List.append_assoc]
  · rw [h'.2, h.2, List.length_append, Nat.add_assoc]

theorem Covers.length_rest (h : input.Covers i ws j) :
    (input.rest i).length = ws.length + (input.rest j).length := by
  rw [h.1, List.length_append]

end Input

/-- Every token from `i` to `j` is there, and is not an end mark. -/
def Passes (tokens : List Token) (i j : Nat) : Prop :=
  i ≤ j ∧ ∀ k, i ≤ k → k < j → ∃ t, tokens[k]? = some t ∧ t.kind ≠ .eof

theorem Input.Covers.passes {input : Input} {i j : Nat} {ws : List Word}
    (h : input.Covers i ws j) : Passes input.tokens i j := by
  refine ⟨by rw [h.2]; exact Nat.le_add_right _ _, ?_⟩
  induction ws generalizing i with
  | nil =>
    intro k hi hk
    rw [h.2] at hk
    exact absurd hk (Nat.not_lt.mpr hi)
  | cons w ws ih =>
    obtain ⟨hRest, hEnd⟩ := h
    obtain ⟨t, ht, hKind, hNext⟩ := Input.exists_token hRest
    have hTail : input.Covers (i + 1) ws j := by
      refine ⟨hNext.symm, ?_⟩
      rw [hEnd, List.length_cons]
      omega
    intro k hi hk
    rcases Nat.eq_or_lt_of_le hi with rfl | hLt
    · exact ⟨t, ht, hKind⟩
    · exact ih hTail k hLt hk

/-! ### Runs that end -/

section

variable {α β : Type} {input : Input} {c c' : Cursor} {x : Parser α} {f : α → Parser β} {a : α}
  {e : Failure}

/-- From the cursor `c` the routine ends: with a value and a cursor for which `Q` holds, or with a
failure and a cursor for which `E` holds. -/
inductive Ends (input : Input) (x : Parser α) (c : Cursor) (Q : α → Cursor → Prop)
    (E : Failure → Cursor → Prop) : Prop
  | value {a : α} {c' : Cursor} : x input c = some (.ok a, c') → Q a c' → Ends input x c Q E
  | failure {e : Failure} {c' : Cursor} :
      x input c = some (.error e, c') → E e c' → Ends input x c Q E

theorem bind_of_ok (h : x input c = some (.ok a, c')) : (x >>= f) input c = f a input c' := by
  show (x input c).bind _ = _
  rw [h]
  rfl

theorem bind_of_none (h : x input c = none) : (x >>= f) input c = none := by
  show (x input c).bind _ = _
  rw [h]
  rfl

theorem bind_of_error (h : x input c = some (.error e, c')) :
    (x >>= f) input c = some (.error e, c') := by
  show (x input c).bind _ = _
  rw [h]
  rfl

variable {Q Q' : α → Cursor → Prop} {E E' : Failure → Cursor → Prop} {R : β → Cursor → Prop}

theorem Ends.of_run {y : Parser α} (h : Ends input y c' Q E) (hRun : x input c = y input c') :
    Ends input x c Q E := by
  cases h with
  | value hy h => exact .value (hRun.trans hy) h
  | failure hy h => exact .failure (hRun.trans hy) h

theorem Ends.imp (h : Ends input x c Q E) (hQ : ∀ a c', Q a c' → Q' a c')
    (hE : ∀ e c', E e c' → E' e c') : Ends input x c Q' E' := by
  cases h with
  | value hRun h => exact .value hRun (hQ _ _ h)
  | failure hRun h => exact .failure hRun (hE _ _ h)

theorem Ends.bind (h : Ends input x c Q E') (hE : ∀ e c', E' e c' → E e c')
    (hf : ∀ a c', Q a c' → Ends input (f a) c' R E) : Ends input (x >>= f) c R E := by
  cases h with
  | value hRun h => exact (hf _ _ h).of_run (bind_of_ok hRun)
  | failure hRun h => exact .failure (bind_of_error hRun) (hE _ _ h)

theorem Ends.pure (h : Q a c) : Ends input (pure a) c Q E :=
  .value rfl h

theorem Ends.failWith {e : ParseError} (h : E (input.failure e) c) :
    Ends input (failWith e) c Q E :=
  .failure rfl h

theorem Ends.get {f : Cursor → Parser β} (h : Ends input (f c) c R E) :
    Ends input (get >>= f) c R E :=
  h.of_run rfl

theorem Ends.peek {f : Option Token → Parser β} (h : Ends input (f input.tokens[c.pos]?) c R E) :
    Ends input (peek >>= f) c R E :=
  h.of_run rfl

theorem Ends.advance {f : Unit → Parser β} (h : Ends input (f ()) c.next R E) :
    Ends input (advance >>= f) c R E :=
  h.of_run rfl

theorem quote_apply (input : Input) (c : Cursor) (t : Token) : quote t input c =
    match t.text? input.source with
    | some s => some (.ok s, c)
    | none => some (.error (.faulted .badSpan), c) := by
  show (match t.text? input.source with
    | some s => pure s
    | none => throw (.faulted .badSpan) : Parser String) input c = _
  cases t.text? input.source <;> rfl

theorem Ends.quote {t : Token} {f : String → Parser β}
    (hText : ∀ s, t.text? input.source = some s → Ends input (f s) c R E)
    (hNone : t.text? input.source = none → E (.faulted .badSpan) c) :
    Ends input (quote t >>= f) c R E := by
  have hRun := quote_apply input c t
  cases h : t.text? input.source with
  | none =>
    rw [h] at hRun
    exact .failure (bind_of_error hRun) (hNone h)
  | some s =>
    rw [h] at hRun
    exact (hText s h).of_run (bind_of_ok hRun)

end

/-! ### What comes next -/

section

variable {input : Input} {c c' : Cursor}

/-- The next word is `w`, and the cursor moves behind it. -/
def Takes (input : Input) (c : Cursor) (w : Word) (c' : Cursor) : Prop :=
  c' = c.next ∧ input.rest c.pos = w :: input.rest (c.pos + 1)

/-- Whether the next word is `w`, and if so, the cursor moves behind it. -/
def Tests (input : Input) (c : Cursor) (w : Word) (b : Bool) (c' : Cursor) : Prop :=
  (b = true ∧ Takes input c w c') ∨ (b = false ∧ c' = c ∧ (input.rest c.pos).head? ≠ some w)

/-- The next token has no text, which it should have. -/
structure Unreadable (input : Input) (c : Cursor) (e : Failure) (c' : Cursor) : Prop where
  failure : e = .faulted .badSpan
  cursor : c' = c
  rest : ∃ ws, input.rest c.pos = .other :: ws
  describe : Token.describe? input.source input.tokens[c.pos]? = none

theorem unreadable {t : Token} (ht : input.tokens[c.pos]? = some t)
    (hText : t.text? input.source = none) (hEof : t.kind ≠ .eof) (hNum : t.kind ≠ .num) :
    Unreadable input c (.faulted .badSpan) c := by
  refine ⟨rfl, rfl, ⟨input.rest (c.pos + 1), ?_⟩, ?_⟩
  · have hOther : Word.ofToken input.source t = .other := by
      cases hKind : t.kind with
      | num => exact absurd hKind hNum
      | _ => simp [Word.ofToken, hKind, hText]
    rw [Input.rest_of_token ht hEof, hOther]
  · rw [ht]
    show (if t.kind = .eof then _ else _) = _
    rw [if_neg hEof, hText]

/-- To look for a kind and a text is to look for the word that they spell. -/
theorem ends_consume {kind : Token.Kind} {s : String} {w : Word} (hw : w ≠ .other)
    (hSpells : ∀ t, w.Spells input.source t ↔ t.kind = kind ∧ t.text? input.source = some s)
    (hKind : kind = .punctuator ∨ kind = .keyword) :
    Ends input (consume kind s) c (Tests input c w) (Unreadable input c) := by
  have hHead : (input.rest c.pos).head? = some w ↔ ∃ t, input.tokens[c.pos]? = some t ∧
      t.kind = kind ∧ t.text? input.source = some s := by
    rw [Input.head_eq_some_iff hw]
    simp only [hSpells]
  unfold consume
  refine .peek ?_
  cases ht : input.tokens[c.pos]? with
  | none =>
    refine .pure (.inr ⟨rfl, rfl, ?_⟩)
    simp [hHead, ht]
  | some t =>
    simp only [ht, Option.some.injEq, exists_eq_left'] at hHead
    dsimp only
    by_cases hMatch : t.kind = kind ∧ t.len = s.utf8ByteSize
    · rw [if_pos hMatch]
      refine .quote ?_ ?_
      · intro text hText
        by_cases hs : text = s
        · rw [if_pos hs]
          refine .advance (.pure (.inl ⟨rfl, rfl, Input.rest_of_head ?_⟩))
          exact hHead.mpr ⟨hMatch.1, hs ▸ hText⟩
        · rw [if_neg hs]
          refine .pure (.inr ⟨rfl, rfl, fun h => hs ?_⟩)
          exact Option.some.inj (hText.symm.trans (hHead.mp h).2)
      · intro hText
        have hOther : t.kind ≠ .eof ∧ t.kind ≠ .num := by
          rw [hMatch.1]
          rcases hKind with rfl | rfl <;> decide
        exact unreadable ht hText hOther.1 hOther.2
    · rw [if_neg hMatch]
      refine .pure (.inr ⟨rfl, rfl, fun h => hMatch ?_⟩)
      obtain ⟨hKind', hText⟩ := hHead.mp h
      exact ⟨hKind', Token.len_of_text? hText⟩

theorem ends_equal (p : Punct) :
    Ends input (equal p) c (Tests input c (.punct p)) (Unreadable input c) :=
  ends_consume Word.noConfusion (fun _ => Iff.rfl) (.inl rfl)

theorem ends_return :
    Ends input (consume .keyword Token.returnText) c (Tests input c .ret) (Unreadable input c) :=
  ends_consume Word.noConfusion (fun _ => Iff.rfl) (.inr rfl)

theorem ends_takeOp (ops : List Op) :
    Ends input (takeOp ops) c
      (fun r c' => (∃ op ∈ ops, r = some op ∧ Takes input c (.punct op.punct) c') ∨
        (r = none ∧ c' = c ∧ ∀ op ∈ ops, (input.rest c.pos).head? ≠ some (.punct op.punct)))
      (Unreadable input c) := by
  induction ops with
  | nil => exact .pure (.inr ⟨rfl, rfl, nofun⟩)
  | cons op ops ih =>
    refine (ends_equal op.punct).bind (fun _ _ h => h) ?_
    rintro b c' (⟨rfl, hTakes⟩ | ⟨rfl, rfl, hOp⟩)
    · exact .pure (.inl ⟨op, List.mem_cons_self, rfl, hTakes⟩)
    · refine ih.imp ?_ (fun _ _ h => h)
      rintro r c' (⟨op', hOp', h⟩ | ⟨rfl, rfl, hOps⟩)
      · exact .inl ⟨op', List.mem_cons_of_mem _ hOp', h⟩
      · exact .inr ⟨rfl, rfl, List.forall_mem_cons.mpr ⟨hOp, hOps⟩⟩

theorem ends_takeIdent :
    Ends input takeIdent c
      (fun r c' => (∃ x, r = some x ∧ Takes input c (.ident x) c') ∨
        (r = none ∧ c' = c ∧ ∀ x, (input.rest c.pos).head? ≠ some (.ident x)))
      (Unreadable input c) := by
  have hHead : ∀ x, (input.rest c.pos).head? = some (.ident x) ↔
      ∃ t, input.tokens[c.pos]? = some t ∧ t.kind = .ident ∧ t.text? input.source = some x :=
    fun x => Input.head_eq_some_iff Word.noConfusion
  unfold takeIdent
  refine .peek ?_
  cases ht : input.tokens[c.pos]? with
  | none =>
    refine .pure (.inr ⟨rfl, rfl, ?_⟩)
    simp [hHead, ht]
  | some t =>
    simp only [ht, Option.some.injEq, exists_eq_left'] at hHead
    dsimp only
    by_cases hKind : t.kind = .ident
    · rw [if_pos hKind]
      refine .quote ?_ ?_
      · intro x hText
        refine .advance (.pure (.inl ⟨x, rfl, rfl, Input.rest_of_head ?_⟩))
        exact (hHead x).mpr ⟨hKind, hText⟩
      · intro hText
        exact unreadable ht hText (by rw [hKind]; decide) (by rw [hKind]; decide)
    · rw [if_neg hKind]
      refine .pure (.inr ⟨rfl, rfl, ?_⟩)
      intro x hx
      exact hKind ((hHead x).mp hx).1

theorem ends_number :
    Ends input number c (fun v c' => Takes input c (.num (some v)) c')
      (fun e c' => c' = c ∧ (((input.rest c.pos).head? = some (.num none) ∧
          e = input.failure (.missingValue c.pos)) ∨
        ((∀ v, (input.rest c.pos).head? ≠ some (.num v)) ∧
          e = input.failure (.expected .number c.pos)))) := by
  have hHead : ∀ v, (input.rest c.pos).head? = some (.num v) ↔
      ∃ t, input.tokens[c.pos]? = some t ∧ t.kind = .num ∧ t.value = v :=
    fun v => Input.head_eq_some_iff Word.noConfusion
  unfold number
  refine .get (.peek ?_)
  cases ht : input.tokens[c.pos]? with
  | none =>
    refine .failWith ⟨rfl, .inr ⟨?_, rfl⟩⟩
    simp [hHead, ht]
  | some t =>
    simp only [ht, Option.some.injEq, exists_eq_left'] at hHead
    dsimp only
    by_cases hKind : t.kind = .num
    · rw [if_pos hKind]
      cases hValue : t.value with
      | none => exact .failWith ⟨rfl, .inl ⟨(hHead none).mpr ⟨hKind, hValue⟩, rfl⟩⟩
      | some v =>
        refine .advance (.pure ⟨rfl, Input.rest_of_head ?_⟩)
        exact (hHead (some v)).mpr ⟨hKind, hValue⟩
    · rw [if_neg hKind]
      refine .failWith ⟨rfl, .inr ⟨?_, rfl⟩⟩
      intro v hv
      exact hKind ((hHead v).mp hv).1

end

end Descent

end Semicolon
