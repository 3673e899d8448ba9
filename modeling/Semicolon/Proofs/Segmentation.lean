import Semicolon.Proofs.Lexemes

/-!
# Tokens as spans of bytes

`Segmentation` says, of the bytes of a source and without any scan, what the tokens of a source are:
their spans lie one behind the other, what is between them is space, each holds a lexeme, and none
of them could be longer.  There is at most one such list of tokens, and the scan finds it.  The
proof follows the scan: at the end of the source, at a space and at any other character a
segmentation can go on in one way only (`Segmentation.eq_nil`, `segmentation_space`,
`segmentation_lead`).
-/

namespace Semicolon

namespace Text

/-- The UTF-8 form of a text. -/
def bytes (s : Text) : List UInt8 :=
  s.flatMap String.utf8EncodeChar

/-- The character that begins at byte `i`. -/
def charAt? (s : Text) (i : Nat) : Option Char :=
  (s.dropBytes? i).bind List.head?

/-- Space, tab, line feed, form feed and carriage return. -/
def IsSpaceByte (b : UInt8) : Prop :=
  b = 0x20 ∨ b = 0x09 ∨ b = 0x0a ∨ b = 0x0c ∨ b = 0x0d

/-- The digits from `0` to `9`. -/
def IsDigitByte (b : UInt8) : Prop :=
  0x30 ≤ b ∧ b ≤ 0x39

theorem bytes_append (a b : Text) : bytes (a ++ b) = bytes a ++ bytes b :=
  List.flatMap_append

theorem length_bytes (s : Text) : s.bytes.length = s.byteLength := by
  induction s with
  | nil => rfl
  | cons c cs ih =>
    rw [bytes, List.flatMap_cons, List.length_append, String.length_utf8EncodeChar, byteLength_cons]
    exact congrArg (c.utf8Size + ·) ih

/-- The byte at which a character begins is the first one of its UTF-8 form. -/
theorem getElem?_bytes (before : Text) (c : Char) (cs : Text) :
    (bytes (before ++ c :: cs))[before.byteLength]? = (String.utf8EncodeChar c)[0]? := by
  have hPos : 0 < (String.utf8EncodeChar c).length := by
    rw [String.length_utf8EncodeChar]
    exact c.utf8Size_pos
  rw [bytes_append, ← length_bytes, List.getElem?_append_right (Nat.le_refl _), Nat.sub_self]
  exact List.getElem?_append_left hPos

/-- Only characters of one byte begin with a byte below 128. -/
theorem toNat_of_byte_lt {c : Char} {b : UInt8} (hc : (String.utf8EncodeChar c)[0]? = some b)
    (hb : b.toNat < 128) : c.toNat = b.toNat := by
  rw [Char.toNat]
  unfold String.utf8EncodeChar at hc
  dsimp only at hc
  split at hc
  · cases hc
    rw [UInt8.toNat_ofNat']
    omega
  · split at hc
    · cases hc
      rw [UInt8.toNat_ofNat'] at hb
      omega
    · split at hc
      · cases hc
        rw [UInt8.toNat_ofNat'] at hb
        omega
      · cases hc
        rw [UInt8.toNat_ofNat'] at hb
        omega

/-- A character below 128 has one byte, which is itself. -/
theorem toNat_of_lt {c : Char} {b : UInt8} (hc : (String.utf8EncodeChar c)[0]? = some b)
    (h : c.toNat < 128) : b.toNat = c.toNat := by
  rw [String.utf8EncodeChar_eq_singleton (utf8Size_of_toNat_lt h)] at hc
  cases hc
  exact Nat.mod_eq_of_lt (Nat.lt_trans h (by decide))

theorem isSpace_of_byte {c : Char} {b : UInt8} (hc : (String.utf8EncodeChar c)[0]? = some b)
    (hb : IsSpaceByte b) : isSpace c = true := by
  have hEq : ∀ d : Char, d.toNat = b.toNat → b.toNat < 128 → c = d := by
    intro d hd hLow
    exact Char.toNat_inj.mp ((toNat_of_byte_lt hc hLow).trans hd.symm)
  rcases hb with rfl | rfl | rfl | rfl | rfl
  · rw [hEq ' ' rfl (by decide)]
    rfl
  · rw [hEq '\t' rfl (by decide)]
    rfl
  · rw [hEq '\n' rfl (by decide)]
    rfl
  · rw [hEq '\x0c' rfl (by decide)]
    rfl
  · rw [hEq '\r' rfl (by decide)]
    rfl

theorem isSpaceByte_of_isSpace {c : Char} {b : UInt8} (h : isSpace c = true)
    (hc : (String.utf8EncodeChar c)[0]? = some b) : IsSpaceByte b := by
  simp only [isSpace, Bool.or_eq_true, beq_iff_eq] at h
  rcases h with (((rfl | rfl) | rfl) | rfl) | rfl <;> (cases hc; unfold IsSpaceByte; decide)

/-- Only digits begin with the byte of a digit. -/
theorem isDigitByte_iff {c : Char} {b : UInt8} (hc : (String.utf8EncodeChar c)[0]? = some b) :
    IsDigitByte b ↔ c.isDigit = true := by
  rw [IsDigitByte, UInt8.le_iff_toNat_le, UInt8.le_iff_toNat_le, isDigit_iff]
  constructor
  · rintro ⟨hLow, hHigh⟩
    have hNat := toNat_of_byte_lt hc (Nat.lt_of_le_of_lt hHigh (by decide))
    rw [hNat]
    exact ⟨hLow, hHigh⟩
  · rintro ⟨hLow, hHigh⟩
    rw [toNat_of_lt hc (by omega)]
    exact ⟨hLow, hHigh⟩

theorem charAt?_append (before after : Text) :
    charAt? (before ++ after) before.byteLength = after.head? := by
  rw [charAt?, dropBytes?_eq_some.mpr ⟨before, rfl, rfl⟩, Option.bind_some]

/-- A text can be divided at a byte in one way only. -/
theorem append_inj_of_byteLength {a a' b b' : Text} (h : a ++ b = a' ++ b')
    (hLength : a.byteLength = a'.byteLength) : a = a' ∧ b = b' := by
  have hb : dropBytes? a.byteLength (a ++ b) = some b := dropBytes?_eq_some.mpr ⟨a, rfl, rfl⟩
  have hb' : dropBytes? a.byteLength (a ++ b) = some b' :=
    dropBytes?_eq_some.mpr ⟨a', h, hLength.symm⟩
  rw [hb, Option.some.injEq] at hb'
  subst hb'
  exact ⟨List.append_cancel_right h, rfl⟩

end Text

namespace Token

def Covers (t : Token) (i : Nat) : Prop :=
  t.loc ≤ i ∧ i < t.loc + t.len

/-- The tokens `ts` are the longest-match segmentation of a source from byte `start` on. -/
structure Segmentation (source : Text) (start : Nat) (ts : List Token) : Prop where
  ordered : ts.Pairwise fun t u => t.loc < u.loc ∧ t.loc + t.len ≤ u.loc
  inside : ∀ t ∈ ts, start ≤ t.loc ∧ t.loc + t.len ≤ source.byteLength
  /-- Every byte outside of all spans is a space. -/
  gaps : ∀ i b, start ≤ i → source.bytes[i]? = some b → (∀ t ∈ ts, ¬ t.Covers i) →
    Text.IsSpaceByte b
  /-- Every span holds a lexeme, and the next character would not make it longer. -/
  lexemes : ∀ t ∈ ts, ∃ a, source.slice? t.loc t.len = some a ∧ t.kind.Lexeme a t.value ∧
    ∀ c, source.charAt? (t.loc + t.len) = some c → ¬ t.kind.Grows a c

variable {before : Text} {ts : List Token}

/-- A token is a lexeme of the text behind its place. -/
theorem Segmentation.exists_lexeme {source : Text} {start : Nat}
    (h : Segmentation source start ts) {t : Token} (ht : t ∈ ts) {text : Text}
    (hSource : source = before ++ text) (hLoc : before.byteLength = t.loc) :
    ∃ c a b, text = c :: (a ++ b) ∧ t.kind.Lexeme (c :: a) t.value ∧ t.len = a.length + 1 ∧
      ∀ d, b.head? = some d → ¬ t.kind.Grows (c :: a) d := by
  obtain ⟨a, hSlice, hLexeme, hGrows⟩ := h.lexemes t ht
  obtain ⟨before', b, hSplit, hLoc', hLen⟩ := Text.slice?_eq_some.mp hSlice
  rw [hSource, List.append_assoc] at hSplit
  obtain ⟨rfl, rfl⟩ := Text.append_inj_of_byteLength hSplit (hLoc.trans hLoc'.symm)
  obtain ⟨c, a, rfl⟩ := List.exists_cons_of_ne_nil hLexeme.ne_nil
  refine ⟨c, a, b, rfl, hLexeme, ?_, ?_⟩
  · rw [← hLen, hLexeme.byteLength, List.length_cons]
  · intro d hd
    refine hGrows d ?_
    rw [hSource, ← List.append_assoc, ← hLoc, ← hLen, ← Text.byteLength_append, Text.charAt?_append]
    exact hd

/-! ### How a segmentation goes on -/

theorem segmentation_nil (source : Text) : Segmentation source source.byteLength [] := by
  refine ⟨.nil, nofun, ?_, nofun⟩
  intro i b hi hb
  rw [List.getElem?_eq_none (by rw [Text.length_bytes]; exact hi)] at hb
  cases hb

theorem Segmentation.eq_nil {source : Text} (h : Segmentation source source.byteLength ts) :
    ts = [] := by
  cases ts with
  | nil => rfl
  | cons t ts =>
    obtain ⟨hStart, hEnd⟩ := h.inside t List.mem_cons_self
    have hLoc : source.byteLength = t.loc := by omega
    obtain ⟨c, a, b, hNil, -⟩ :=
      h.exists_lexeme List.mem_cons_self (List.append_nil source).symm hLoc
    cases hNil

/-- No token begins at a space. -/
theorem segmentation_space {c : Char} {cs : Text} (hc : Text.isSpace c = true) :
    Segmentation (before ++ c :: cs) before.byteLength ts ↔
      Segmentation (before ++ c :: cs) (before.byteLength + 1) ts := by
  constructor
  · intro h
    refine ⟨h.ordered, ?_, ?_, h.lexemes⟩
    · intro t ht
      obtain ⟨hStart, hEnd⟩ := h.inside t ht
      have hne : before.byteLength ≠ t.loc := by
        intro hLoc
        obtain ⟨d, a, b, hText, hLexeme, -⟩ := h.exists_lexeme ht rfl hLoc
        cases hText
        rw [hLexeme.isSpace_head] at hc
        cases hc
      exact ⟨by omega, hEnd⟩
    · intro i b hi
      exact h.gaps i b (by omega)
  · intro h
    refine ⟨h.ordered, ?_, ?_, h.lexemes⟩
    · intro t ht
      obtain ⟨hStart, hEnd⟩ := h.inside t ht
      exact ⟨by omega, hEnd⟩
    · intro i b hi hb hCovers
      by_cases hFirst : i = before.byteLength
      · rw [hFirst, Text.getElem?_bytes] at hb
        exact Text.isSpaceByte_of_isSpace hc hb
      · exact h.gaps i b (by omega) hb hCovers

/-- A token that cannot grow goes in front of the tokens behind it. -/
theorem Segmentation.cons {c : Char} {a b : Text} {t : Token}
    (hLexeme : t.kind.Lexeme (c :: a) t.value)
    (hGrows : ∀ d, b.head? = some d → ¬ t.kind.Grows (c :: a) d)
    (hLoc : t.loc = before.byteLength) (hLen : t.len = a.length + 1)
    (h : Segmentation (before ++ c :: (a ++ b)) (t.loc + t.len) ts) :
    Segmentation (before ++ c :: (a ++ b)) before.byteLength (t :: ts) := by
  have hBytes : Text.byteLength (c :: a) = t.len := by
    rw [hLexeme.byteLength, List.length_cons, hLen]
  have hSource : before ++ c :: (a ++ b) = (before ++ c :: a) ++ b := by
    rw [List.append_assoc, List.cons_append]
  have hEnd : Text.byteLength (before ++ c :: a) = t.loc + t.len := by
    rw [Text.byteLength_append, hBytes, hLoc]
  refine ⟨?_, ?_, ?_, ?_⟩
  · refine List.pairwise_cons.mpr ⟨?_, h.ordered⟩
    intro u hu
    have hStart := (h.inside u hu).1
    exact ⟨by omega, hStart⟩
  · rw [List.forall_mem_cons]
    refine ⟨⟨Nat.le_of_eq hLoc.symm, ?_⟩, ?_⟩
    · rw [hSource, Text.byteLength_append, hEnd]
      exact Nat.le_add_right _ _
    · intro u hu
      obtain ⟨hStart, hInside⟩ := h.inside u hu
      exact ⟨by omega, hInside⟩
  · intro i d hi hd hCovers
    rw [List.forall_mem_cons] at hCovers
    have hBehind : t.loc + t.len ≤ i := by
      by_contra hLt
      exact hCovers.1 ⟨by omega, by omega⟩
    exact h.gaps i d hBehind hd hCovers.2
  · rw [List.forall_mem_cons]
    refine ⟨⟨c :: a, ?_, hLexeme, ?_⟩, h.lexemes⟩
    · exact Text.slice?_eq_some.mpr ⟨before, b, hSource, hLoc.symm, hBytes⟩
    · intro d hd
      rw [hSource, ← hEnd, Text.charAt?_append] at hd
      exact hGrows d hd

theorem Segmentation.tail {source : Text} {start : Nat} {t : Token}
    (h : Segmentation source start (t :: ts)) : Segmentation source (t.loc + t.len) ts := by
  obtain ⟨hBehind, hOrdered⟩ := List.pairwise_cons.mp h.ordered
  have hStart := (h.inside t List.mem_cons_self).1
  refine ⟨hOrdered, ?_, ?_, fun u hu => h.lexemes u (List.mem_cons_of_mem t hu)⟩
  · intro u hu
    exact ⟨(hBehind u hu).2, (h.inside u (List.mem_cons_of_mem t hu)).2⟩
  · intro i b hi hb hCovers
    refine h.gaps i b (by omega) hb ?_
    rw [List.forall_mem_cons]
    refine ⟨?_, hCovers⟩
    rintro ⟨-, hLt⟩
    omega

/-- A token begins at every other character. -/
theorem Segmentation.exists_head {c : Char} {cs : Text} (hc : Text.isSpace c = false)
    (h : Segmentation (before ++ c :: cs) before.byteLength ts) :
    ∃ t rest, ts = t :: rest ∧ t.loc = before.byteLength := by
  have hCovered : ∃ t ∈ ts, t.Covers before.byteLength := by
    by_contra hNone
    obtain ⟨b, bs, hb⟩ := List.exists_cons_of_ne_nil (String.utf8EncodeChar_ne_nil (c := c))
    have hFirst : (String.utf8EncodeChar c)[0]? = some b := by
      rw [hb]
      rfl
    have hSpace := h.gaps before.byteLength b (Nat.le_refl _)
      (by rw [Text.getElem?_bytes, hFirst]) (fun t ht hCovers => hNone ⟨t, ht, hCovers⟩)
    rw [Text.isSpace_of_byte hFirst hSpace] at hc
    cases hc
  obtain ⟨t, ht, hLe, -⟩ := hCovered
  have hStart := (h.inside t ht).1
  cases ts with
  | nil => cases ht
  | cons u rest =>
    rcases List.mem_cons.mp ht with rfl | ht
    · exact ⟨t, rest, rfl, by omega⟩
    · -- a later token would begin behind the first one
      have hBefore := (List.pairwise_cons.mp h.ordered).1 t ht
      have hFirst := (h.inside u List.mem_cons_self).1
      omega

/-! ### The scan -/

/-- Where the scan recognises a lexeme, a segmentation has the token of this lexeme. -/
theorem segmentation_lead {c : Char} {a b : Text} {l : Lead} (hc : Text.isSpace c = false)
    (hLead : lead c (a ++ b) = .ok l) (hLen : l.len = a.length + 1)
    (hLexeme : l.kind.Lexeme (c :: a) l.value)
    (hGrows : ∀ d, b.head? = some d → ¬ l.kind.Grows (c :: a) d) :
    Segmentation (before ++ c :: (a ++ b)) before.byteLength ts ↔
      ∃ rest, ts = l.token before.byteLength :: rest ∧
        Segmentation (before ++ c :: (a ++ b)) (before ++ c :: a).byteLength rest := by
  have hEnd : Text.byteLength (before ++ c :: a) = before.byteLength + l.len := by
    rw [Text.byteLength_append, hLexeme.byteLength, List.length_cons, hLen]
  rw [hEnd]
  constructor
  · intro h
    obtain ⟨t, rest, rfl, hLoc⟩ := h.exists_head hc
    obtain ⟨c', a', b', hText, hLexeme', hLen', hGrows'⟩ :=
      h.exists_lexeme List.mem_cons_self rfl hLoc.symm
    obtain ⟨rfl, hRest⟩ := List.cons.inj hText
    -- both are what the scan recognises here
    have hLead' := lead_of_lexeme hLexeme' hGrows'
    rw [← hRest, hLead] at hLead'
    have hToken : t = l.token before.byteLength := by
      rw [Except.ok.inj hLead', ← hLen', ← hLoc]
      rfl
    subst hToken
    exact ⟨rest, rfl, h.tail⟩
  · rintro ⟨rest, rfl, h⟩
    exact h.cons hLexeme hGrows rfl hLen

/-- From any place on, the scan finds the segmentation if there is one, and fails otherwise. -/
theorem scanFrom_eq_ok_iff (before text : Text) (ts : List Token) :
    scanFrom before.byteLength 0 text = .ok ts ↔
      ∃ body, ts = body ++ [eof (before ++ text).byteLength] ∧
        Segmentation (before ++ text) before.byteLength body := by
  induction hn : text.length using Nat.strong_induction_on generalizing before text ts with
  | _ n ih =>
    subst hn
    cases text with
    | nil =>
      rw [scanFrom, List.append_nil]
      constructor
      · intro h
        exact ⟨[], (Except.ok.inj h).symm, segmentation_nil before⟩
      · rintro ⟨body, rfl, h⟩
        rw [h.eq_nil]
        rfl
    | cons c cs =>
      cases hc : Text.isSpace c with
      | true =>
        have hSource : before ++ c :: cs = (before ++ [c]) ++ cs := by
          rw [List.append_assoc, List.singleton_append]
        rw [scanFrom_space _ _ hc]
        simp only [segmentation_space hc]
        rw [← Text.byteLength_concat_of_isSpace before hc, hSource]
        exact ih cs.length (Nat.lt_succ_self _) _ cs ts rfl
      | false =>
        cases hLead : lead c cs with
        | error cause =>
          rw [scanFrom_stop _ hc hLead]
          constructor
          · intro h
            cases h
          · rintro ⟨body, -, h⟩
            obtain ⟨t, rest, rfl, hLoc⟩ := h.exists_head hc
            obtain ⟨d, a, b, hText, hLexeme, -, hGrows⟩ :=
              h.exists_lexeme List.mem_cons_self rfl hLoc.symm
            cases hText
            rw [lead_of_lexeme hLexeme hGrows] at hLead
            cases hLead
        | ok l =>
          obtain ⟨a, b, rfl, hLen, hLexeme, hGrows⟩ := exists_lexeme_of_lead hLead
          have hSource : before ++ c :: (a ++ b) = (before ++ c :: a) ++ b := by
            rw [List.append_assoc, List.cons_append]
          have hShorter : b.length < (c :: (a ++ b)).length := by
            rw [List.length_cons, List.length_append]
            omega
          have hRest := ih b.length hShorter (before ++ c :: a) b
          rw [scanFrom_lead _ hc hLead hLen, ← Text.byteLength_append]
          simp only [segmentation_lead hc hLead hLen hLexeme hGrows]
          rw [hSource]
          constructor
          · intro h
            cases hTail : scanFrom (before ++ c :: a).byteLength 0 b with
            | error e =>
              rw [hTail] at h
              cases h
            | ok tail =>
              rw [hTail] at h
              obtain ⟨body, rfl, hBody⟩ := (hRest tail rfl).mp hTail
              exact ⟨_ :: body, (Except.ok.inj h).symm, body, rfl, hBody⟩
          · rintro ⟨-, rfl, body, rfl, hBody⟩
            rw [(hRest _ rfl).mpr ⟨body, rfl, hBody⟩]
            rfl

/-- **The scan computes the longest-match segmentation.**  The tokens of a source are the end mark
behind the tokens of its segmentation, and there are tokens exactly if there is a segmentation. -/
theorem scan_eq_ok_iff (source : Text) (ts : List Token) :
    scan source = .ok ts ↔
      ∃ body, ts = body ++ [eof source.byteLength] ∧ Segmentation source 0 body :=
  scanFrom_eq_ok_iff [] source ts

end Token

end Semicolon
