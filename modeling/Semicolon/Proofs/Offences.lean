import Semicolon.Proofs.Totality

/-!
# The first character that offends

`OffendsAt` says of one character, by what stands next to it and without any scan, that it cannot be
in a token.  A scan passes over characters that do not offend, and stops at the first one that does
(`exists_stop`): spaces do not offend (`blameless_space`), nor does any character of a lexeme that
cannot grow (`blameless_lexeme`), and where no lexeme begins, the character offends
(`offendsAt_of_lead`).
-/

namespace Semicolon

namespace Token

/-- The characters of punctuators. -/
def signs : Text :=
  ['+', '-', '*', '/', '(', ')', '<', '>', '=', ';', '!']

/-- Between the texts `before` and `after` the character `c` cannot be in a token, and what is wrong
with it. -/
inductive OffendsAt (before : Text) (c : Char) (after : Text) : String → Prop
  /-- The character is in no token at all. -/
  | stranger (hSpace : Text.isSpace c = false) (hDigit : c.isDigit = false)
      (hLower : c.isLower = false) (hSign : c ∉ signs) :
      OffendsAt before c after ("invalid token: '" ++ String.singleton c ++ "'")
  /-- A `!` is in a token only in front of `=`. -/
  | bang (hBang : c = '!') (hNext : after.head? ≠ some '=') :
      OffendsAt before c after ("invalid token: '" ++ String.singleton c ++ "'")
  /-- The longest run of digits that begins here is too large a number. -/
  | number (hDigit : c.isDigit = true) (hFirst : ∀ d ∈ before.getLast?, d.isDigit = false)
      (hLarge : 2 ^ 63 - 1 < Text.digitsValue (c :: after.takeWhile Char.isDigit)) :
      OffendsAt before c after "invalid number: number too large to fit in target type"

/-- The character at byte `p` of a source offends. -/
def Offends (source : Text) (p : Nat) (message : String) : Prop :=
  ∃ before c after, source = before ++ c :: after ∧ before.byteLength = p ∧
    OffendsAt before c after message

/-! ### The tokens that are recognised -/

/-- The tokens that were recognised when a scan ends, well or not. -/
def recognisedFrom (loc covered : Nat) : Text → List Token
  | [] => []
  | c :: cs =>
    match covered with
    | k + 1 => recognisedFrom (loc + c.utf8Size) k cs
    | 0 =>
      if Text.isSpace c then
        recognisedFrom (loc + c.utf8Size) 0 cs
      else
        match lead c cs with
        | .error _ => []
        | .ok l => l.token loc :: recognisedFrom (loc + c.utf8Size) (l.len - 1) cs

/-- The tokens that were recognised in a source when its scan ends. -/
def recognised (source : Text) : List Token :=
  recognisedFrom 0 0 source

theorem recognisedFrom_append (loc : Nat) (a b : Text) :
    recognisedFrom loc a.length (a ++ b) = recognisedFrom (loc + a.byteLength) 0 b := by
  induction a generalizing loc with
  | nil => rfl
  | cons c cs ih =>
    simp only [List.cons_append, List.length_cons, recognisedFrom, Text.byteLength_cons]
    rw [ih, Nat.add_assoc]

theorem recognisedFrom_space (loc : Nat) {c : Char} (cs : Text) (hc : Text.isSpace c = true) :
    recognisedFrom loc 0 (c :: cs) = recognisedFrom (loc + 1) 0 cs := by
  rw [recognisedFrom, if_pos hc, Text.utf8Size_of_isSpace hc]

theorem recognisedFrom_lead (loc : Nat) {c : Char} {a b : Text} {l : Lead}
    (hc : Text.isSpace c = false) (hl : lead c (a ++ b) = .ok l) (hlen : l.len = a.length + 1) :
    recognisedFrom loc 0 (c :: (a ++ b)) =
      l.token loc :: recognisedFrom (loc + Text.byteLength (c :: a)) 0 b := by
  rw [recognisedFrom, if_neg (by simp [hc]), hl]
  simp only [hlen, Nat.add_sub_cancel, Text.byteLength_cons]
  rw [recognisedFrom_append, Nat.add_assoc]

/-! ### Where no token begins -/

theorem mem_signs_of_text {p : Punct} {c : Char} (h : c ∈ p.text.toList) : c ∈ signs := by
  have hAll : p.text.toList.all (· ∈ signs) = true := by
    cases p <;> decide
  exact of_decide_eq_true (List.all_eq_true.mp hAll c h)

theorem exists_text_eq_of_mem_signs {c : Char} (h : c ∈ signs) (hc : c ≠ '!') :
    ∃ p : Punct, p.text.toList = [c] := by
  simp only [signs, List.mem_cons, List.not_mem_nil, or_false, hc] at h
  rcases h with rfl | rfl | rfl | rfl | rfl | rfl | rfl | rfl | rfl | rfl
  exacts [⟨.plus, rfl⟩, ⟨.minus, rfl⟩, ⟨.star, rfl⟩, ⟨.slash, rfl⟩, ⟨.openParen, rfl⟩,
    ⟨.closeParen, rfl⟩, ⟨.lt, rfl⟩, ⟨.gt, rfl⟩, ⟨.assign, rfl⟩, ⟨.semicolon, rfl⟩]

/-- A `!` stands only at the beginning of a punctuator, and a `=` behind it. -/
theorem eq_of_text_bang {p : Punct} {a b : Text} (h : p.text.toList = a ++ '!' :: b) :
    a = [] ∧ b = ['='] := by
  have hMem : '!' ∈ p.text.toList := by
    rw [h]
    exact List.mem_append_right a List.mem_cons_self
  have hp : p = .notEq := by
    cases p <;> first | rfl | exact absurd hMem (by decide)
  subst hp
  cases a with
  | nil => exact ⟨rfl, (List.cons.inj h).2.symm⟩
  | cons d a =>
    have hRest : ['='] = a ++ '!' :: b := (List.cons.inj h).2
    cases a with
    | nil => cases hRest
    | cons e a =>
      have hNil := (List.cons.inj hRest).2
      cases a <;> cases hNil

/-- No punctuator begins at a character that is in none, or at a `!` without a `=`. -/
theorem lead?_eq_none_iff {c : Char} {cs : Text} :
    Punct.lead? (c :: cs) = none ↔ c ∉ signs ∨ c = '!' ∧ cs.head? ≠ some '=' := by
  rw [Punct.lead?, List.find?_eq_none]
  constructor
  · intro h
    by_contra hNot
    rw [not_or, not_not, not_and, not_not] at hNot
    obtain ⟨hSign, hNext⟩ := hNot
    by_cases hBang : c = '!'
    · subst hBang
      obtain ⟨b, rfl⟩ := List.head?_eq_some_iff.mp (hNext rfl)
      exact h .notEq (Punct.mem_all _) rfl
    · obtain ⟨p, hp⟩ := exists_text_eq_of_mem_signs hSign hBang
      refine h p (Punct.mem_all p) (List.isPrefixOf_iff_prefix.mpr ?_)
      rw [hp]
      exact ⟨cs, rfl⟩
  · intro h p _ hp
    obtain ⟨b, hb⟩ := List.isPrefixOf_iff_prefix.mp hp
    obtain ⟨d, a, ha⟩ := List.exists_cons_of_ne_nil (l := p.text.toList) (by cases p <;> decide)
    rw [ha, List.cons_append] at hb
    obtain ⟨rfl, rfl⟩ := List.cons.inj hb
    rcases h with hSign | ⟨rfl, hNext⟩
    · refine hSign (mem_signs_of_text (p := p) ?_)
      rw [ha]
      exact List.mem_cons_self
    · rw [(eq_of_text_bang (a := []) ha).2] at hNext
      exact hNext rfl

/-- Where the scan finds no token, the character offends, if no run of digits is cut in two. -/
theorem offendsAt_of_lead {before : Text} {c : Char} {cs : Text} {cause : LexError.Cause}
    (hFirst : c.isDigit = true → ∀ d ∈ before.getLast?, d.isDigit = false)
    (hc : Text.isSpace c = false) (h : lead c cs = .error cause) (loc : Nat) :
    OffendsAt before c cs (LexError.message { cause, loc }) := by
  rcases lead_eq_error h with ⟨hDigit, hLarge, rfl⟩ | ⟨hDigit, hLower, hNone, rfl⟩
  · exact .number hDigit (hFirst hDigit) hLarge
  · rcases lead?_eq_none_iff.mp hNone with hSign | ⟨hBang, hNext⟩
    · exact .stranger hc hDigit hLower hSign
    · exact .bang hBang hNext

/-! ### Characters that do not offend -/

/-- Between `before` and `after`, no character of `a` offends. -/
def Blameless (before a after : Text) : Prop :=
  ∀ x d y, a = x ++ d :: y → ∀ message, ¬ OffendsAt (before ++ x) d (y ++ after) message

theorem blameless_nil (before after : Text) : Blameless before [] after := by
  intro x d y h
  cases x <;> cases h

theorem Blameless.append {before a b after : Text} (ha : Blameless before a (b ++ after))
    (hb : Blameless (before ++ a) b after) : Blameless before (a ++ b) after := by
  intro x d y h message
  rcases List.append_eq_append_iff.mp h with ⟨z, hx, hz⟩ | ⟨z, hx, hz⟩
  · rw [hx, ← List.append_assoc]
    exact hb z d y hz message
  · cases z with
    | nil =>
      rw [List.append_nil] at hx
      have hFirst := hb [] d y hz.symm message
      rwa [List.append_nil, hx] at hFirst
    | cons e z =>
      obtain ⟨rfl, rfl⟩ := List.cons.inj hz
      have hInner := ha x d z hx message
      rwa [← List.append_assoc] at hInner

theorem isDigit_of_isSpace {c : Char} (h : Text.isSpace c = true) : c.isDigit = false := by
  have hCode := Text.toNat_of_isSpace h
  rw [← Bool.not_eq_true, Text.isDigit_iff]
  omega

theorem blameless_space (before after : Text) {c : Char} (hc : Text.isSpace c = true) :
    Blameless before [c] after := by
  intro x d y h message hOffends
  obtain rfl : d = c := by
    have hMem : d ∈ [c] := by
      rw [h]
      exact List.mem_append_right x List.mem_cons_self
    exact List.mem_singleton.mp hMem
  cases hOffends with
  | stranger hSpace =>
    rw [hc] at hSpace
    cases hSpace
  | bang hBang =>
    subst hBang
    cases hc
  | number hDigit =>
    rw [isDigit_of_isSpace hc] at hDigit
    cases hDigit

/-- What the characters of a lexeme are. -/
theorem Kind.Lexeme.mem_cases {k : Kind} {a : Text} {v : Option Int64} (h : k.Lexeme a v)
    {d : Char} (hd : d ∈ a) :
    k = .num ∧ d.isDigit = true ∨ d.isLower = true ∨ k = .punctuator ∧ d ∈ signs := by
  cases k with
  | num => exact Or.inl ⟨rfl, h.2.1 d hd⟩
  | ident => exact Or.inr (Or.inl (h.2.1 d hd))
  | keyword =>
    have hLower : ∀ d ∈ returnText.toList, d.isLower = true :=
      (List.all_eq_true (p := Char.isLower)).mp rfl
    rw [h.1] at hd
    exact Or.inr (Or.inl (hLower d hd))
  | punctuator =>
    obtain ⟨⟨p, rfl⟩, -⟩ := h
    exact Or.inr (Or.inr ⟨rfl, mem_signs_of_text hd⟩)
  | eof => exact h.elim

theorem isDigit_of_mem_signs {d : Char} (h : d ∈ signs) : d.isDigit = false := by
  have hAll : signs.all (!·.isDigit) = true := by decide
  have hDigit := List.all_eq_true.mp hAll d h
  rwa [Bool.not_eq_true'] at hDigit

/-- No character of a lexeme that cannot grow offends. -/
theorem blameless_lexeme (before : Text) {k : Kind} {c : Char} {a b : Text} {v : Option Int64}
    (h : k.Lexeme (c :: a) v) (hb : ∀ d, b.head? = some d → ¬ k.Grows (c :: a) d) :
    Blameless before (c :: a) b := by
  intro x d y hText message hOffends
  have hMem : d ∈ c :: a := by
    rw [hText]
    exact List.mem_append_right x List.mem_cons_self
  have hCases := h.mem_cases hMem
  cases hOffends with
  | stranger _ hDigit hLower hSign =>
    rw [hDigit, hLower] at hCases
    rcases hCases with ⟨-, hFalse⟩ | hFalse | ⟨-, hMem⟩
    · cases hFalse
    · cases hFalse
    · exact hSign hMem
  | bang hBang hNext =>
    subst hBang
    rcases hCases with ⟨-, hFalse⟩ | hFalse | ⟨rfl, -⟩
    · cases hFalse
    · cases hFalse
    · obtain ⟨⟨p, hp⟩, -⟩ := h
      rw [hText] at hp
      rw [(eq_of_text_bang hp.symm).2] at hNext
      exact hNext rfl
  | number hDigit hFirst hLarge =>
    rcases hCases with ⟨rfl, -⟩ | hLower | ⟨-, hSign⟩
    · obtain ⟨-, hDigits, hMax, -⟩ := h
      cases hLast : x.getLast? with
      | some e =>
        -- a digit stands before, so no run begins here
        have hBefore : e ∈ (before ++ x).getLast? := by
          rw [List.getLast?_append, hLast]
          rfl
        have hDigit := hDigits e (by
          rw [hText]
          exact List.mem_append_left _ (List.mem_of_getLast? hLast))
        rw [hFirst e hBefore] at hDigit
        cases hDigit
      | none =>
        obtain rfl := List.getLast?_eq_none_iff.mp hLast
        obtain ⟨rfl, rfl⟩ := List.cons.inj hText
        rw [List.forall_mem_cons] at hDigits
        rw [takeWhile_append hDigits.2 fun e he => Bool.eq_false_iff.mpr (hb e he)] at hLarge
        omega
    · rw [isDigit_of_isLower hLower] at hDigit
      cases hDigit
    · rw [isDigit_of_mem_signs hSign] at hDigit
      cases hDigit

/-! ### How far a scan comes -/

/-- If a digit comes next, it is the first one of its run. -/
def Fresh (before text : Text) : Prop :=
  ∀ c ∈ text.head?, c.isDigit = true → ∀ d ∈ before.getLast?, d.isDigit = false

theorem fresh_of_last {before text : Text} {d : Char} (h : d.isDigit = false) :
    Fresh (before ++ [d]) text := by
  intro c _ _ e he
  rw [List.getLast?_concat] at he
  rw [← Option.some.inj he, h]

/-- Behind a lexeme that cannot grow, no run of digits goes on. -/
theorem fresh_lexeme (before : Text) {k : Kind} {a b : Text} {v : Option Int64}
    (h : k.Lexeme a v) (hb : ∀ d, b.head? = some d → ¬ k.Grows a d) :
    Fresh (before ++ a) b := by
  intro c hc hDigit d hd
  have hLast : d ∈ a := by
    rw [List.getLast?_append_of_ne_nil _ h.ne_nil] at hd
    exact List.mem_of_getLast? hd
  rcases h.mem_cases hLast with ⟨rfl, -⟩ | hLower | ⟨-, hSign⟩
  · exact absurd hDigit (hb c hc)
  · exact isDigit_of_isLower hLower
  · exact isDigit_of_mem_signs hSign

/-- **Where a scan ends.**  The tokens that were recognised are those of a text `a` in which nothing
offends, and behind `a` the text ends or a character offends. -/
theorem exists_stop (before text : Text) (hFresh : Fresh before text) :
    ∃ a b, text = a ++ b ∧ Blameless before a b ∧
      scanFrom before.byteLength 0 a =
        .ok (recognisedFrom before.byteLength 0 text ++ [eof (before ++ a).byteLength]) ∧
      (b = [] ∨ ∃ c rest e, b = c :: rest ∧ scanFrom before.byteLength 0 text = .error e ∧
        e.loc = (before ++ a).byteLength ∧ OffendsAt (before ++ a) c rest e.message) := by
  induction text using scan_induction generalizing before with
  | nil =>
    refine ⟨[], [], rfl, blameless_nil before [], ?_, Or.inl rfl⟩
    rw [List.append_nil]
    rfl
  | space c cs hc ih =>
    obtain ⟨a, b, rfl, hBlameless, hScan, hEnd⟩ :=
      ih (before ++ [c]) (fresh_of_last (isDigit_of_isSpace hc))
    rw [List.append_assoc, List.singleton_append, Text.byteLength_concat_of_isSpace before hc]
      at hScan hEnd
    refine ⟨c :: a, b, rfl, (blameless_space before (a ++ b) hc).append hBlameless, ?_, ?_⟩
    · rw [scanFrom_space _ _ hc, recognisedFrom_space _ _ hc, hScan]
    · rw [scanFrom_space _ _ hc]
      exact hEnd
  | stop c cs cause hc hLead =>
    refine ⟨[], c :: cs, rfl, blameless_nil before _, ?_, Or.inr ?_⟩
    · rw [List.append_nil, recognisedFrom, if_neg (by simp [hc]), hLead]
      rfl
    · refine ⟨c, cs, _, rfl, scanFrom_stop _ hc hLead, ?_, ?_⟩
      · rw [List.append_nil]
      · rw [List.append_nil]
        exact offendsAt_of_lead (hFresh c rfl) hc hLead _
  | lexeme c x rest l hc hLead hLen hLexeme hGrows ih =>
    obtain ⟨a, b, rfl, hBlameless, hScan, hEnd⟩ :=
      ih (before ++ c :: x) (fresh_lexeme before hLexeme hGrows)
    have hText : (before ++ c :: x) ++ a = before ++ c :: (x ++ a) := by
      rw [List.append_assoc, List.cons_append]
    have hBytes : (before ++ c :: x).byteLength = before.byteLength + Text.byteLength (c :: x) :=
      Text.byteLength_append before (c :: x)
    rw [hText, hBytes] at hScan hEnd
    -- the lexeme is recognised as well if the text ends behind `a`
    have hGrows' : ∀ d, a.head? = some d → ¬ l.kind.Grows (c :: x) d := by
      intro d hd
      refine hGrows d ?_
      rw [List.head?_append, hd]
      rfl
    have hLead' : lead c (x ++ a) = .ok l := by
      rw [lead_of_lexeme hLexeme hGrows', ← hLen]
    refine ⟨c :: (x ++ a), b, ?_, ?_, ?_, ?_⟩
    · rw [List.cons_append, List.append_assoc]
    · exact (blameless_lexeme before hLexeme hGrows).append hBlameless
    · rw [scanFrom_lead _ hc hLead' hLen, recognisedFrom_lead _ hc hLead hLen, hScan]
      rfl
    · rcases hEnd with hNil | ⟨d, after, e, hb, hError, hLoc, hOffends⟩
      · exact Or.inl hNil
      · refine Or.inr ⟨d, after, e, hb, ?_, hLoc, hOffends⟩
        rw [scanFrom_lead _ hc hLead hLen, hError]
        rfl

/-- Where nothing offends in a beginning of a source, an offence comes behind it. -/
theorem Blameless.le_of_offends {a b : Text} (h : Blameless [] a b) {p : Nat} {message : String}
    (hOffends : Offends (a ++ b) p message) : a.byteLength ≤ p := by
  obtain ⟨before, c, after, hSource, rfl, hAt⟩ := hOffends
  rcases List.append_eq_append_iff.mp hSource with ⟨z, rfl, -⟩ | ⟨z, rfl, hz⟩
  · rw [Text.byteLength_append]
    exact Nat.le_add_right _ _
  · cases z with
    | nil =>
      rw [List.append_nil]
    | cons d z =>
      obtain ⟨rfl, rfl⟩ := List.cons.inj hz
      exact absurd hAt (h before c z rfl message)

theorem Blameless.not_offends {source : Text} (h : Blameless [] source []) (p : Nat)
    (message : String) : ¬ Offends source p message := by
  rintro ⟨before, c, after, hSource, -, hAt⟩
  have hNone := h before c after hSource message
  rw [List.append_nil] at hNone
  exact hNone hAt

/-- A source has tokens and nothing in it offends, or its scan fails at the first offence. -/
theorem scan_cases (source : Text) :
    (scan source = .ok (recognised source ++ [eof source.byteLength]) ∧
      ∀ p message, ¬ Offends source p message) ∨
      ∃ e, scan source = .error e ∧ Offends source e.loc e.message ∧
        (∀ p message, Offends source p message → e.loc ≤ p) ∧
        ∃ before after, source = before ++ after ∧ before.byteLength = e.loc ∧
          scan before = .ok (recognised source ++ [eof e.loc]) := by
  have hFresh : Fresh [] source := by
    intro c _ _ d hd
    cases hd
  obtain ⟨a, b, rfl, hBlameless, hScan, hEnd⟩ := exists_stop [] source hFresh
  rcases hEnd with rfl | ⟨c, rest, e, rfl, hError, hLoc, hOffends⟩
  · rw [List.append_nil] at hScan ⊢
    exact Or.inl ⟨hScan, hBlameless.not_offends⟩
  · refine Or.inr ⟨e, hError, ⟨a, c, rest, rfl, hLoc.symm, hOffends⟩, ?_, ?_⟩
    · intro p message hp
      rw [hLoc]
      exact hBlameless.le_of_offends hp
    · refine ⟨a, c :: rest, rfl, hLoc.symm, ?_⟩
      rw [hLoc]
      exact hScan

/-- **The scan reports the first character that offends.**  A source has tokens exactly if no
character of it offends, and these are the ones that were recognised and the end mark.  Otherwise
the diagnostic is about the first character that offends and says what is wrong with it, and the
source up to there has the tokens that were recognised. -/
theorem scan_reports_first_offence (source : Text) :
    ((∃ ts, scan source = .ok ts) ↔ ∀ p message, ¬ Offends source p message) ∧
      (∀ ts, scan source = .ok ts → ts = recognised source ++ [eof source.byteLength]) ∧
      ∀ e, scan source = .error e →
        (e.diagnostic source).stage = .lex ∧ (e.diagnostic source).place.loc = e.loc ∧
        Offends source e.loc (e.diagnostic source).message ∧
        (∀ p message, Offends source p message → e.loc ≤ p) ∧
        ∃ before after, source = before ++ after ∧ before.byteLength = e.loc ∧
          scan before = .ok (recognised source ++ [eof e.loc]) := by
  rcases scan_cases source with ⟨hScan, hNone⟩ | ⟨e, hScan, hOffends, hLeast, hBefore⟩
  · refine ⟨⟨fun _ => hNone, fun _ => ⟨_, hScan⟩⟩, ?_, ?_⟩
    · intro ts hts
      rw [hScan] at hts
      exact (Except.ok.inj hts).symm
    · intro e he
      rw [hScan] at he
      cases he
  · refine ⟨⟨?_, fun hNone => absurd hOffends (hNone _ _)⟩, ?_, ?_⟩
    · rintro ⟨ts, hts⟩
      rw [hScan] at hts
      cases hts
    · intro ts hts
      rw [hScan] at hts
      cases hts
    · intro e' he
      rw [hScan] at he
      obtain rfl := Except.error.inj he
      exact ⟨rfl, Place.loc_find (isBoundary_of_scan_error hScan), hOffends, hLeast, hBefore⟩

end Token

end Semicolon
