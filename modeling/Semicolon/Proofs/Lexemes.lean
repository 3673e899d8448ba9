import Mathlib.Algebra.Group.Nat.Defs
import Mathlib.Data.List.TakeWhile
import Semicolon.Token.Scan

/-!
# Lexemes

`Kind.Lexeme` says which texts are tokens of a kind, and with which value; `Kind.Grows` says which
next character would make the token longer.  What the scan recognises at one place is a lexeme that
the text begins with and that cannot grow (`exists_lexeme_of_lead`), and every such lexeme is
recognised (`lead_of_lexeme`).
-/

namespace Semicolon

namespace Token

/-- The texts of the tokens of a kind, with the value that the token has. -/
def Kind.Lexeme : Kind → Text → Option Int64 → Prop
  | num, a, v =>
    a ≠ [] ∧ (∀ c ∈ a, c.isDigit = true) ∧ Text.digitsValue a ≤ 2 ^ 63 - 1 ∧
      ∃ w, v = some w ∧ w.toInt = Text.digitsValue a
  | keyword, a, v => a = returnText.toList ∧ v = none
  | ident, a, v => a ≠ [] ∧ (∀ c ∈ a, c.isLower = true) ∧ a ≠ returnText.toList ∧ v = none
  | punctuator, a, v => (∃ p : Punct, a = p.text.toList) ∧ v = none
  | eof, _, _ => False

/-- A token of a kind with the text `a` would be longer with the character `c` behind it. -/
def Kind.Grows : Kind → Text → Char → Prop
  | num, _, c => c.isDigit = true
  | keyword, _, c | ident, _, c => c.isLower = true
  | punctuator, a, c => (a = ['='] ∨ a = ['<'] ∨ a = ['>']) ∧ c = '='
  | eof, _, _ => False

/-! ### Runs of characters -/

theorem isDigit_of_isLower {c : Char} (h : c.isLower = true) : c.isDigit = false := by
  rw [Text.isLower_iff] at h
  rw [← Bool.not_eq_true, Text.isDigit_iff]
  omega

/-- A run that cannot be continued is the longest one. -/
theorem takeWhile_append {p : Char → Bool} {a b : Text} (ha : ∀ c ∈ a, p c = true)
    (hb : ∀ d, b.head? = some d → p d = false) : (a ++ b).takeWhile p = a := by
  rw [List.takeWhile_append_of_pos ha]
  cases b with
  | nil => exact List.append_nil a
  | cons d b => rw [List.takeWhile_cons_of_neg (by rw [hb d rfl]; decide), List.append_nil]

/-- The longest run leaves nothing that would continue it. -/
theorem head?_dropWhile {p : Char → Bool} {cs : Text} {d : Char}
    (h : (cs.dropWhile p).head? = some d) : p d = false := by
  have hd := List.head?_dropWhile_not p cs
  rw [h] at hd
  simpa using hd

namespace Kind

variable {k : Kind} {a : Text} {v : Option Int64}

theorem Lexeme.ne_nil (h : k.Lexeme a v) : a ≠ [] := by
  cases k with
  | num => exact h.1
  | ident => exact h.1
  | keyword =>
    rw [h.1]
    decide
  | punctuator =>
    obtain ⟨⟨p, rfl⟩, -⟩ := h
    cases p <;> decide
  | eof => exact h.elim

theorem Lexeme.byteLength (h : k.Lexeme a v) : a.byteLength = a.length := by
  cases k with
  | num =>
    apply Text.byteLength_eq_length
    intro c hc
    exact Text.utf8Size_of_isDigit (h.2.1 c hc)
  | ident =>
    apply Text.byteLength_eq_length
    intro c hc
    exact Text.utf8Size_of_isLower (h.2.1 c hc)
  | keyword =>
    rw [h.1]
    rfl
  | punctuator =>
    obtain ⟨⟨p, rfl⟩, -⟩ := h
    cases p <;> rfl
  | eof => exact h.elim

theorem Lexeme.isSpace_head {c : Char} (h : k.Lexeme (c :: a) v) : Text.isSpace c = false := by
  cases hs : Text.isSpace c with
  | false => rfl
  | true =>
    have hc := Text.toNat_of_isSpace hs
    cases k with
    | num =>
      have hDigit := Text.isDigit_iff.mp (h.2.1 c List.mem_cons_self)
      omega
    | ident =>
      have hLower := Text.isLower_iff.mp (h.2.1 c List.mem_cons_self)
      omega
    | keyword =>
      cases h.1
      cases hs
    | punctuator =>
      obtain ⟨⟨p, hp⟩, -⟩ := h
      cases p <;> (cases hp; cases hs)
    | eof => exact h.elim

end Kind

/-! ### What the scan recognises -/

theorem eq_ofNat_of_toInt_eq {w : Int64} {n : Nat} (hn : n ≤ Text.maxWord) (h : w.toInt = n) :
    w = Int64.ofNat n := by
  rw [Text.maxWord] at hn
  rw [← Int64.toInt_inj, h, Int64.toInt_ofNat_of_lt (by omega)]

theorem lead_num {c : Char} {a b : Text} {v : Option Int64} (h : Kind.num.Lexeme (c :: a) v)
    (hb : ∀ d, b.head? = some d → ¬ Kind.num.Grows (c :: a) d) :
    lead c (a ++ b) = .ok { kind := .num, len := a.length + 1, value := v } := by
  obtain ⟨-, hDigits, hMax, w, rfl, hw⟩ := h
  rw [List.forall_mem_cons] at hDigits
  have hRun : (a ++ b).takeWhile Char.isDigit = a :=
    takeWhile_append hDigits.2 fun d hd => Bool.eq_false_iff.mpr (hb d hd)
  rw [lead, if_pos hDigits.1, hRun]
  dsimp only
  rw [if_pos (show _ ≤ Text.maxWord from hMax), ← eq_ofNat_of_toInt_eq hMax hw, List.length_cons]

theorem lead_letters {c : Char} {a b : Text} (ha : ∀ d ∈ c :: a, d.isLower = true)
    (hb : ∀ d, b.head? = some d → ¬ d.isLower = true) :
    lead c (a ++ b) = .ok
      { kind := if c :: a = returnText.toList then .keyword else .ident, len := a.length + 1 } := by
  rw [List.forall_mem_cons] at ha
  have hRun : (a ++ b).takeWhile Char.isLower = a :=
    takeWhile_append ha.2 fun d hd => Bool.eq_false_iff.mpr (hb d hd)
  rw [lead, if_neg (by rw [isDigit_of_isLower ha.1]; decide), if_pos ha.1, hRun]
  rfl

theorem isPrefixOf_eq_false {b : Text} (hb : ∀ d, b.head? = some d → d ≠ '=') :
    ['='].isPrefixOf b = false := by
  cases b with
  | nil => rfl
  | cons d b =>
    rw [List.isPrefixOf_cons_cons, beq_false_of_ne (hb d rfl).symm]
    rfl

theorem lead?_text {p : Punct} {b : Text}
    (hb : ∀ d, b.head? = some d → ¬ Kind.punctuator.Grows p.text.toList d) :
    Punct.lead? (p.text.toList ++ b) = some p := by
  cases p with
  | lt =>
    have hNext := isPrefixOf_eq_false fun d hd h => hb d hd ⟨.inr (.inl rfl), h⟩
    simp [Punct.lead?, Punct.all, Punct.text, hNext]
  | gt =>
    have hNext := isPrefixOf_eq_false fun d hd h => hb d hd ⟨.inr (.inr rfl), h⟩
    simp [Punct.lead?, Punct.all, Punct.text, hNext]
  | assign =>
    have hNext := isPrefixOf_eq_false fun d hd h => hb d hd ⟨.inl rfl, h⟩
    simp [Punct.lead?, Punct.all, Punct.text, hNext]
  | _ => rfl

theorem lead_punct {p : Punct} {c : Char} {a b : Text} (hp : c :: a = p.text.toList)
    (hb : ∀ d, b.head? = some d → ¬ Kind.punctuator.Grows (c :: a) d) :
    lead c (a ++ b) = .ok { kind := .punctuator, len := a.length + 1 } := by
  have hClass : c.isDigit = false ∧ c.isLower = false := by
    cases p <;> (cases hp; exact ⟨rfl, rfl⟩)
  have hLead : Punct.lead? (c :: (a ++ b)) = some p := by
    rw [← List.cons_append, hp]
    exact lead?_text (by rwa [← hp])
  have hLength : p.text.length = a.length + 1 := by
    rw [← String.length_toList, ← hp, List.length_cons]
  rw [lead, if_neg (by rw [hClass.1]; decide), if_neg (by rw [hClass.2]; decide), hLead, ← hLength]

/-- **The scan recognises the lexeme that cannot grow.** -/
theorem lead_of_lexeme {k : Kind} {c : Char} {a b : Text} {v : Option Int64}
    (h : k.Lexeme (c :: a) v) (hb : ∀ d, b.head? = some d → ¬ k.Grows (c :: a) d) :
    lead c (a ++ b) = .ok { kind := k, len := a.length + 1, value := v } := by
  cases k with
  | num => exact lead_num h hb
  | keyword =>
    obtain ⟨hWord, rfl⟩ := h
    have hLower : ∀ d ∈ c :: a, d.isLower = true := by
      rw [hWord]
      exact (List.all_eq_true (p := Char.isLower)).mp rfl
    rw [lead_letters hLower hb, if_pos hWord]
  | ident =>
    obtain ⟨-, hLower, hWord, rfl⟩ := h
    rw [lead_letters hLower hb, if_neg hWord]
  | punctuator =>
    obtain ⟨⟨p, hp⟩, rfl⟩ := h
    exact lead_punct hp hb
  | eof => exact h.elim

theorem exists_append_of_lead? {cs : Text} {p : Punct} (h : Punct.lead? cs = some p) :
    ∃ b, cs = p.text.toList ++ b ∧
      ∀ d, b.head? = some d → ¬ Kind.punctuator.Grows p.text.toList d := by
  have hFound := List.find?_some h
  obtain ⟨b, rfl⟩ := List.isPrefixOf_iff_prefix.mp hFound
  refine ⟨b, rfl, ?_⟩
  rintro d hd ⟨hOne, rfl⟩
  -- the longer punctuator would have been found
  obtain ⟨b, rfl⟩ : ∃ b', b = '=' :: b' := by
    cases b with
    | nil => cases hd
    | cons e b => exact ⟨b, by rw [Option.some.inj hd]⟩
  rcases hOne with hOne | hOne | hOne
  all_goals
    rw [hOne] at h
    cases h
    cases hOne

/-- What is recognised is a lexeme that cannot grow. -/
theorem exists_lexeme_of_lead {c : Char} {cs : Text} {l : Lead} (h : lead c cs = .ok l) :
    ∃ a b, cs = a ++ b ∧ l.len = a.length + 1 ∧ l.kind.Lexeme (c :: a) l.value ∧
      ∀ d, b.head? = some d → ¬ l.kind.Grows (c :: a) d := by
  rw [lead] at h
  split at h
  next hDigit =>
    dsimp only at h
    split at h
    next hMax =>
      cases h
      refine ⟨cs.takeWhile Char.isDigit, cs.dropWhile Char.isDigit,
        List.takeWhile_append_dropWhile.symm, rfl, ⟨nofun, ?_, hMax, _, rfl, ?_⟩, ?_⟩
      · rw [List.forall_mem_cons]
        exact ⟨hDigit, fun d hd => List.mem_takeWhile_imp hd⟩
      · rw [Int64.toInt_ofNat_of_lt (Nat.lt_of_le_of_lt hMax (by decide))]
      · intro d hd
        exact Bool.eq_false_iff.mp (head?_dropWhile hd)
    next => cases h
  next hDigit =>
    split at h
    next hLower =>
      cases h
      have hRun : ∀ d ∈ c :: cs.takeWhile Char.isLower, d.isLower = true := by
        rw [List.forall_mem_cons]
        exact ⟨hLower, fun d hd => List.mem_takeWhile_imp hd⟩
      refine ⟨cs.takeWhile Char.isLower, cs.dropWhile Char.isLower,
        List.takeWhile_append_dropWhile.symm, rfl, ?_, ?_⟩
      · dsimp only
        split
        next hWord => exact ⟨hWord, rfl⟩
        next hWord => exact ⟨nofun, hRun, hWord, rfl⟩
      · intro d hd
        have hd' := Bool.eq_false_iff.mp (head?_dropWhile hd)
        dsimp only
        split <;> exact hd'
    next =>
      split at h
      next p hp =>
        cases h
        obtain ⟨b, hb, hGrows⟩ := exists_append_of_lead? hp
        obtain ⟨e, a, ha⟩ := List.exists_cons_of_ne_nil (l := p.text.toList) (by cases p <;> decide)
        rw [ha, List.cons_append, List.cons.injEq] at hb
        obtain ⟨rfl, rfl⟩ := hb
        refine ⟨a, b, rfl, ?_, ⟨⟨p, ha.symm⟩, rfl⟩, by rwa [← ha]⟩
        rw [← String.length_toList, ha, List.length_cons]
      next => cases h

/-- No token begins with a run of digits that is too large, nor at a character that is no digit, no
letter and no punctuator. -/
theorem lead_eq_error {c : Char} {cs : Text} {cause : LexError.Cause}
    (h : lead c cs = .error cause) :
    (c.isDigit = true ∧ 2 ^ 63 - 1 < Text.digitsValue (c :: cs.takeWhile Char.isDigit) ∧
        cause = .numberTooLarge) ∨
      (c.isDigit = false ∧ c.isLower = false ∧ Punct.lead? (c :: cs) = none ∧
        cause = .invalidToken c) := by
  rw [lead] at h
  split at h
  next hDigit =>
    dsimp only at h
    split at h
    next => cases h
    next hLarge =>
      cases h
      exact Or.inl ⟨hDigit, Nat.lt_of_not_le hLarge, rfl⟩
  next hDigit =>
    split at h
    next => cases h
    next hLower =>
      split at h
      next => cases h
      next hNone =>
        cases h
        exact Or.inr ⟨Bool.eq_false_iff.mpr hDigit, Bool.eq_false_iff.mpr hLower, hNone, rfl⟩

/-- A scan comes to the end of a text, to a space, to a character at which no token begins, or to a
lexeme that cannot grow. -/
@[elab_as_elim]
theorem scan_induction {motive : Text → Prop} (nil : motive [])
    (space : ∀ c cs, Text.isSpace c = true → motive cs → motive (c :: cs))
    (stop : ∀ c cs cause, Text.isSpace c = false → lead c cs = .error cause → motive (c :: cs))
    (lexeme : ∀ c a b (l : Lead), Text.isSpace c = false → lead c (a ++ b) = .ok l →
      l.len = a.length + 1 → l.kind.Lexeme (c :: a) l.value →
      (∀ d, b.head? = some d → ¬ l.kind.Grows (c :: a) d) → motive b → motive (c :: (a ++ b)))
    (text : Text) : motive text := by
  induction hn : text.length using Nat.strong_induction_on generalizing text with
  | _ n ih =>
    subst hn
    cases text with
    | nil => exact nil
    | cons c cs =>
      cases hc : Text.isSpace c with
      | true => exact space c cs hc (ih cs.length (Nat.lt_succ_self _) cs rfl)
      | false =>
        cases hLead : lead c cs with
        | error cause => exact stop c cs cause hc hLead
        | ok l =>
          obtain ⟨a, b, rfl, hLen, hLexeme, hGrows⟩ := exists_lexeme_of_lead hLead
          have hShorter : b.length < (c :: (a ++ b)).length := by
            rw [List.length_cons, List.length_append]
            omega
          exact lexeme c a b l hc hLead hLen hLexeme hGrows (ih b.length hShorter b rfl)

end Token

end Semicolon
