import Semicolon.Node.Print
import Semicolon.Proofs.Parsing
import Semicolon.Proofs.Segmentation

/-!
# Tokens that are typed

A `Form` is a token without its place: a kind, a text of this kind, and a value.  The tokens of a
source are forms that stand one behind the other in it (`exists_forms_of_scan`), and forms that are
typed one behind the other, with spaces between them, are scanned as they were meant
(`scan_typed`).  The grammar sees nothing but the forms: `ofTokens_of_stands`.
-/

namespace Semicolon

/-- There are only spaces in the gaps, and nothing but the last gap is empty. -/
structure Text.Spaced (gaps : List Text) : Prop where
  spaces : ∀ gap ∈ gaps, ∀ c ∈ gap, isSpace c = true
  apart : ∀ gap ∈ gaps.dropLast, gap ≠ []

theorem Text.Spaced.tail {gap : Text} {gaps : List Text} (h : Spaced (gap :: gaps)) :
    Spaced gaps := by
  refine ⟨(List.forall_mem_cons.mp h.spaces).2, ?_⟩
  intro other hOther
  cases gaps with
  | nil => cases hOther
  | cons next gaps => exact h.apart other (List.mem_cons_of_mem gap hOther)

theorem Text.spaced_of_forall_eq {gaps : List Text} (h : ∀ gap ∈ gaps, gap = [' ']) :
    Spaced gaps := by
  refine ⟨?_, ?_⟩
  · intro gap hGap c hc
    rw [h gap hGap, List.mem_singleton] at hc
    rw [hc]
    rfl
  · intro gap hGap
    rw [h gap ((List.dropLast_sublist gaps).subset hGap)]
    exact List.cons_ne_nil _ _

namespace Token

/-- A token without its place. -/
structure Form where
  kind : Kind
  text : Text
  value : Option Int64
  isLexeme : kind.Lexeme text value

/-- The text has one value at most. -/
theorem Kind.Lexeme.value_unique {k : Kind} {a : Text} {v v' : Option Int64} (h : k.Lexeme a v)
    (h' : k.Lexeme a v') : v = v' := by
  cases k with
  | num =>
    obtain ⟨-, -, -, w, rfl, hw⟩ := h
    obtain ⟨-, -, -, w', rfl, hw'⟩ := h'
    rw [Int64.toInt_inj.mp (hw.trans hw'.symm)]
  | keyword => rw [h.2, h'.2]
  | ident => rw [h.2.2.2, h'.2.2.2]
  | punctuator => rw [h.2, h'.2]
  | eof => exact h.elim

theorem Kind.not_grows_of_isSpace (k : Kind) (a : Text) {c : Char} (hc : Text.isSpace c = true) :
    ¬ k.Grows a c := by
  have hCode := Text.toNat_of_isSpace hc
  intro hGrows
  cases k with
  | num =>
    have hDigit := Text.isDigit_iff.mp hGrows
    omega
  | keyword =>
    have hLower := Text.isLower_iff.mp hGrows
    omega
  | ident =>
    have hLower := Text.isLower_iff.mp hGrows
    omega
  | punctuator =>
    obtain ⟨-, rfl⟩ := hGrows
    cases hc
  | eof => exact hGrows

/-- What can be seen of a token: its kind and its text. -/
def seen (source : Text) (t : Token) : Kind × Option String :=
  (t.kind, t.text? source)

namespace Form

/-- The token of this form at byte `loc`. -/
def token (f : Form) (loc : Nat) : Token :=
  { kind := f.kind, loc, len := f.text.byteLength, value := f.value }

/-- What the grammar sees of a form. -/
def word (f : Form) : Word :=
  .ofToken f.text (f.token 0)

/-- What can be seen of a token with this form. -/
def seen (f : Form) : Kind × Option String :=
  (f.kind, some (String.ofList f.text))

/-- The token `t` of a source has the form `f`. -/
structure Stands (source : Text) (f : Form) (t : Token) : Prop where
  kind : t.kind = f.kind
  value : t.value = f.value
  text : t.text? source = some (String.ofList f.text)

theorem kind_ne_eof (f : Form) : f.kind ≠ .eof := by
  intro h
  have hLexeme := f.isLexeme
  rw [h] at hLexeme
  exact hLexeme

theorem stands_token (f : Form) (before after : Text) :
    Stands (before ++ (f.text ++ after)) f (f.token before.byteLength) := by
  refine ⟨rfl, rfl, ?_⟩
  have hSlice : Text.slice? before.byteLength f.text.byteLength (before ++ (f.text ++ after)) =
      some f.text :=
    Text.slice?_eq_some.mpr ⟨before, after, by rw [List.append_assoc], rfl, rfl⟩
  rw [text?, token, hSlice]
  rfl

theorem stands_self (f : Form) : Stands f.text f (f.token 0) := by
  have hEmpty := f.stands_token [] []
  rwa [List.nil_append, List.append_nil] at hEmpty

/-- Kind and text determine the form. -/
theorem seen_injective : Function.Injective seen := by
  rintro ⟨k, a, v, h⟩ ⟨k', a', v', h'⟩ hSeen
  obtain ⟨rfl, hText⟩ := Prod.mk.inj hSeen
  obtain rfl := String.ofList_injective (Option.some.inj hText)
  rw [mk.injEq]
  exact ⟨rfl, rfl, h.value_unique h'⟩

namespace Stands

variable {source : Text} {f : Form} {t : Token}

theorem seen_eq (h : Stands source f t) : t.seen source = f.seen := by
  rw [Token.seen, h.kind, h.text, Form.seen]

theorem ofToken_eq (h : Stands source f t) : Word.ofToken source t = f.word := by
  have hSelf := f.stands_self
  rw [word, Word.ofToken, Word.ofToken, h.kind, h.text, h.value, hSelf.kind, hSelf.text,
    hSelf.value]

end Stands

end Form

/-! ### From tokens to forms -/

variable {source : Text} {fs : List Form} {body : List Token}

theorem exists_forms {start : Nat} (h : Segmentation source start body) :
    ∃ fs, List.Forall₂ (Form.Stands source) fs body := by
  have hEach : ∀ t ∈ body, ∃ f, Form.Stands source f t := by
    intro t ht
    obtain ⟨a, hSlice, hLexeme, -⟩ := h.lexemes t ht
    refine ⟨⟨t.kind, a, t.value, hLexeme⟩, rfl, rfl, ?_⟩
    rw [text?, hSlice]
    rfl
  clear h
  induction body with
  | nil => exact ⟨[], .nil⟩
  | cons t ts ih =>
    rw [List.forall_mem_cons] at hEach
    obtain ⟨f, hf⟩ := hEach.1
    obtain ⟨fs, hfs⟩ := ih hEach.2
    exact ⟨f :: fs, .cons hf hfs⟩

/-- The tokens of a source are forms and an end mark. -/
theorem exists_forms_of_scan {ts : List Token} (h : scan source = .ok ts) :
    ∃ fs body, ts = body ++ [eof source.byteLength] ∧ List.Forall₂ (Form.Stands source) fs body ∧
      Segmentation source 0 body := by
  obtain ⟨body, rfl, hSegmentation⟩ := (scanFrom_eq_ok_iff [] source ts).mp h
  obtain ⟨fs, hfs⟩ := exists_forms hSegmentation
  exact ⟨fs, body, rfl, hfs, hSegmentation⟩

theorem takeWhile_of_stands (h : List.Forall₂ (Form.Stands source) fs body) (n : Nat) :
    (body ++ [eof n]).takeWhile (·.kind != .eof) = body := by
  induction h with
  | nil => rfl
  | @cons f t fs ts hf _ ih =>
    have hKind : (t.kind != .eof) = true := by
      rw [hf.kind]
      exact bne_iff_ne.mpr f.kind_ne_eof
    rw [List.cons_append, List.takeWhile_cons_of_pos (p := fun t : Token => t.kind != .eof) hKind,
      ih]

theorem map_ofToken_of_stands (h : List.Forall₂ (Form.Stands source) fs body) :
    body.map (Word.ofToken source) = fs.map Form.word := by
  induction h with
  | nil => rfl
  | cons hf _ ih => rw [List.map_cons, List.map_cons, hf.ofToken_eq, ih]

/-- The words of some tokens are the words of their forms. -/
theorem ofTokens_of_stands (h : List.Forall₂ (Form.Stands source) fs body) (n : Nat) :
    Word.ofTokens source (body ++ [eof n]) = fs.map Form.word := by
  rw [Word.ofTokens, takeWhile_of_stands h, map_ofToken_of_stands h]

theorem map_seen_of_stands (h : List.Forall₂ (Form.Stands source) fs body) :
    body.map (seen source) = fs.map Form.seen := by
  induction h with
  | nil => rfl
  | cons hf _ ih => rw [List.map_cons, List.map_cons, hf.seen_eq, ih]

/-! ### From forms to tokens -/

/-- Forms with a text behind each. -/
def typed (fs : List (Form × Text)) : Text :=
  fs.flatMap fun (f, gap) => f.text ++ gap

/-- What follows a form does not make it longer. -/
theorem not_grows_of_spaced (f : Form) {gap : Text} {fs : List (Form × Text)}
    (h : Text.Spaced (gap :: fs.map Prod.snd)) (a : Text) :
    ∀ d, (gap ++ typed fs).head? = some d → ¬ f.kind.Grows a d := by
  intro d hd
  cases gap with
  | cons c gap =>
    obtain rfl : c = d := Option.some.inj hd
    exact f.kind.not_grows_of_isSpace a (h.spaces _ List.mem_cons_self c List.mem_cons_self)
  | nil =>
    -- only the last form has nothing behind it
    cases fs with
    | nil => cases hd
    | cons q fs => exact absurd rfl (h.apart [] List.mem_cons_self)

theorem scanFrom_spaces {gap : Text} (h : ∀ c ∈ gap, Text.isSpace c = true) (loc : Nat)
    (b : Text) : scanFrom loc 0 (gap ++ b) = scanFrom (loc + gap.byteLength) 0 b := by
  induction gap generalizing loc with
  | nil => rfl
  | cons c gap ih =>
    rw [List.forall_mem_cons] at h
    rw [List.cons_append, scanFrom_space _ _ h.1, ih h.2, Text.byteLength_cons,
      Text.utf8Size_of_isSpace h.1, Nat.add_assoc]

/-- The scan recognises a form and goes on behind the spaces. -/
theorem scanFrom_form (loc : Nat) {f : Form} {gap : Text} {fs : List (Form × Text)}
    (h : Text.Spaced (gap :: fs.map Prod.snd)) :
    scanFrom loc 0 (f.text ++ (gap ++ typed fs)) =
      (scanFrom (loc + (f.text ++ gap).byteLength) 0 (typed fs)).map
        (f.token loc :: ·) := by
  have hLexeme := f.isLexeme
  have hBytes := hLexeme.byteLength
  obtain ⟨c, a, hText⟩ := List.exists_cons_of_ne_nil hLexeme.ne_nil
  rw [hText] at hLexeme
  have hLead := lead_of_lexeme hLexeme (not_grows_of_spaced f h (c :: a))
  have hSpaces := h.spaces _ List.mem_cons_self
  rw [Form.token, hBytes, hText, List.cons_append, scanFrom_lead loc hLexeme.isSpace_head hLead rfl,
    scanFrom_spaces hSpaces, Text.byteLength_append, Nat.add_assoc]
  rfl

theorem scanFrom_typed {fs : List (Form × Text)} (h : Text.Spaced (fs.map Prod.snd))
    (before : Text) :
    ∃ body, scanFrom before.byteLength 0 (typed fs) =
        .ok (body ++ [eof (before ++ typed fs).byteLength]) ∧
      List.Forall₂ (Form.Stands (before ++ typed fs)) (fs.map Prod.fst) body := by
  induction fs generalizing before with
  | nil => exact ⟨[], by rw [typed, List.flatMap_nil, List.append_nil]; rfl, .nil⟩
  | cons p fs ih =>
    obtain ⟨f, gap⟩ := p
    have hTyped : typed ((f, gap) :: fs) = f.text ++ (gap ++ typed fs) := by
      rw [typed, List.flatMap_cons, List.append_assoc]
      rfl
    have hSource : before ++ typed ((f, gap) :: fs) = (before ++ (f.text ++ gap)) ++ typed fs := by
      rw [hTyped, List.append_assoc, List.append_assoc]
    obtain ⟨body, hScan, hBody⟩ := ih h.tail (before ++ (f.text ++ gap))
    rw [← hSource] at hScan hBody
    have hFirst := f.stands_token before (gap ++ typed fs)
    rw [← hTyped] at hFirst
    refine ⟨f.token before.byteLength :: body, ?_, .cons hFirst hBody⟩
    rw [hTyped, scanFrom_form _ h, ← Text.byteLength_append, hScan, ← hTyped]
    rfl

/-- **Forms that are typed are scanned as they were meant.** -/
theorem scan_typed {fs : List (Form × Text)} (h : Text.Spaced (fs.map Prod.snd)) {lead : Text}
    (hLead : ∀ c ∈ lead, Text.isSpace c = true) :
    ∃ body, scan (lead ++ typed fs) = .ok (body ++ [eof (lead ++ typed fs).byteLength]) ∧
      List.Forall₂ (Form.Stands (lead ++ typed fs)) (fs.map Prod.fst) body := by
  obtain ⟨body, hScan, hBody⟩ := scanFrom_typed h lead
  refine ⟨body, ?_, hBody⟩
  rw [scan, scanFrom_spaces hLead, Nat.zero_add, hScan]

end Token

/-! ### From words to forms -/

/-- The words that are read as themselves when they are written. -/
def Word.Written : Word → Prop
  | punct _ | ret => True
  | ident x => x.toList ≠ [] ∧ (∀ c ∈ x.toList, c.isLower = true) ∧ x ≠ Token.returnText
  | num (some v) => 0 ≤ v.toInt
  | num none | other => False

theorem Text.toList_decimal {v : Int64} {n : Nat} (h : v.toInt = n) :
    (decimal v).toList = Nat.toDigits 10 n := by
  rw [decimal, h]
  exact String.toList_ofList

theorem Token.exists_form {w : Word} (h : w.Written) :
    ∃ f : Token.Form, f.text = w.spelling ∧ f.word = w := by
  cases w with
  | punct p =>
    let f : Form := ⟨.punctuator, p.text.toList, none, ⟨p, rfl⟩, rfl⟩
    refine ⟨f, rfl, Word.ofToken_of_spells ⟨rfl, ?_⟩⟩
    rw [f.stands_self.text, String.ofList_toList]
  | ret =>
    let f : Form := ⟨.keyword, returnText.toList, none, rfl, rfl⟩
    refine ⟨f, rfl, Word.ofToken_of_spells ⟨rfl, ?_⟩⟩
    rw [f.stands_self.text, String.ofList_toList]
  | ident x =>
    obtain ⟨hNil, hLower, hRet⟩ := h
    let f : Form := ⟨.ident, x.toList, none, hNil, hLower, fun hx => hRet (String.toList_inj.mp hx),
      rfl⟩
    refine ⟨f, rfl, Word.ofToken_of_spells ⟨rfl, ?_⟩⟩
    rw [f.stands_self.text, String.ofList_toList]
  | num v =>
    cases v with
    | none => exact h.elim
    | some v =>
      obtain ⟨n, hn⟩ := Int.eq_ofNat_of_zero_le h
      have hMax := v.toInt_lt
      have hDigits := Text.toList_decimal hn
      refine ⟨⟨.num, (Text.decimal v).toList, some v, ?_, ?_, ?_, v, rfl, ?_⟩, rfl, rfl⟩
      · rw [hDigits]
        exact Nat.toDigits_ne_nil
      · rw [hDigits]
        intro c hc
        exact Nat.isDigit_of_mem_toDigits (by decide) (by decide) hc
      · rw [hDigits, Text.digitsValue_toDigits]
        omega
      · rw [hDigits, Text.digitsValue_toDigits, hn]
  | other => exact h.elim

/-- Words are typed as forms. -/
theorem Token.exists_typed {ws : List (Word × Text)} (h : ∀ p ∈ ws, p.1.Written) :
    ∃ fs : List (Form × Text), typed fs = Word.typed ws ∧
      fs.map Prod.snd = ws.map Prod.snd ∧ (fs.map Prod.fst).map Form.word = ws.map Prod.fst := by
  induction ws with
  | nil => exact ⟨[], rfl, rfl, rfl⟩
  | cons p ws ih =>
    obtain ⟨w, gap⟩ := p
    rw [List.forall_mem_cons] at h
    obtain ⟨f, hText, rfl⟩ := Token.exists_form h.1
    obtain ⟨fs, hTyped, hGaps, hWords⟩ := ih h.2
    refine ⟨(f, gap) :: fs, ?_, ?_, ?_⟩
    · show (f.text ++ gap) ++ typed fs = (f.word.spelling ++ gap) ++ Word.typed ws
      rw [hText, hTyped]
    · exact congrArg (gap :: ·) hGaps
    · exact congrArg (f.word :: ·) hWords

end Semicolon
