import Mathlib.Data.Fintype.BigOperators
import Mathlib.Data.List.Nodup
import Semicolon.Proofs.Accounting
import Semicolon.Proofs.Cursor

/-!
# The frame of a source fits in a word

A source has less than `2 ^ 63` bytes, and an entry takes eight, so the number of tokens alone does
not keep the frame in range.  What does is that a table has no name twice: there are few short
names, and long ones take up room in the source.
-/

namespace Semicolon

namespace Token

variable {source : Text} {tokens : List Token}

/-- Tokens of at least `k` bytes take up that much of the source. -/
theorem Segmentation.mul_countP_le {start : Nat} {body : List Token}
    (h : Segmentation source start body) (hStart : start ≤ source.byteLength) (k : Nat) :
    start + k * body.countP (k ≤ ·.len) ≤ source.byteLength := by
  induction body generalizing start with
  | nil => exact hStart
  | cons t ts ih =>
    obtain ⟨hFirst, hEnd⟩ := h.inside t List.mem_cons_self
    have hRest := ih h.tail hEnd
    by_cases hLong : k ≤ t.len
    · rw [List.countP_cons_of_pos (by simpa using hLong), Nat.mul_add, Nat.mul_one]
      omega
    · rw [List.countP_cons_of_neg (by simpa using hLong)]
      omega

theorem mul_countP_le_of_scan (hScan : scan source = .ok tokens) {k : Nat} (hk : 0 < k) :
    k * tokens.countP (k ≤ ·.len) ≤ source.byteLength := by
  obtain ⟨-, body, rfl, -, hBody⟩ := exists_forms_of_scan hScan
  have hCount := hBody.mul_countP_le (Nat.zero_le _) k
  have hEof : ¬ k ≤ (eof source.byteLength).len := Nat.not_le.mpr hk
  rw [List.countP_append, List.countP_singleton, if_neg (by simpa using hEof), Nat.add_zero]
  omega

/-- A name is made of small letters. -/
theorem isLower_of_mem_idents (hScan : scan source = .ok tokens) {x : String}
    (hx : x ∈ idents source tokens) : ∀ c ∈ x.toList, c.isLower = true := by
  obtain ⟨-, body, rfl, -, hBody⟩ := exists_forms_of_scan hScan
  obtain ⟨t, ht, hText⟩ := List.mem_filterMap.mp hx
  by_cases hKind : t.kind = .ident
  · rw [if_pos hKind] at hText
    rcases List.mem_append.mp ht with ht | ht
    · obtain ⟨a, hSlice, hLexeme, -⟩ := hBody.lexemes t ht
      rw [hKind] at hLexeme
      rw [text?, hSlice] at hText
      cases hText
      rw [String.toList_ofList]
      exact hLexeme.2.1
    · rw [List.mem_singleton.mp ht] at hKind
      cases hKind
  · rw [if_neg hKind] at hText
    cases hText

/-- Names of at least `k` bytes are not more than tokens of that length. -/
theorem length_filter_idents_le (source : Text) (tokens : List Token) (k : Nat) :
    ((idents source tokens).filter (k ≤ ·.utf8ByteSize)).length ≤ tokens.countP (k ≤ ·.len) := by
  rw [idents, List.filter_filterMap, List.length_filterMap_eq_countP]
  refine List.countP_mono_left fun t _ hLong => ?_
  by_cases hKind : t.kind = .ident
  · obtain ⟨x, hx⟩ := Option.isSome_iff_exists.mp hLong
    rw [if_pos hKind, Option.filter_eq_some_iff] at hx
    rw [len_of_text? hx.1]
    exact hx.2
  · rw [if_neg hKind] at hLong
    cases hLong

end Token

/-- The letter at each place of a short name, if it is that long. -/
def letters (k : Nat) (x : String) : Fin k → Option (Fin 26) :=
  fun i => x.toList[i.val]?.map fun c => Fin.ofNat 26 (c.toNat - 97)

theorem letters_injective {k : Nat} {x y : String} (hx : ∀ c ∈ x.toList, c.isLower = true)
    (hy : ∀ c ∈ y.toList, c.isLower = true) (hxk : x.toList.length ≤ k) (hyk : y.toList.length ≤ k)
    (h : letters k x = letters k y) : x = y := by
  have hLetter : ∀ c d : Char, c.isLower = true → d.isLower = true →
      Fin.ofNat 26 (c.toNat - 97) = Fin.ofNat 26 (d.toNat - 97) → c = d := by
    intro c d hc hd hcd
    rw [Text.isLower_iff] at hc hd
    have hVal := congrArg Fin.val hcd
    simp only [Fin.val_ofNat] at hVal
    exact Char.toNat_inj.mp (by omega)
  refine String.toList_inj.mp (List.ext_getElem? fun i => ?_)
  by_cases hi : i < k
  · have hAt : x.toList[i]?.map _ = y.toList[i]?.map _ := congrFun h ⟨i, hi⟩
    cases hxi : x.toList[i]? with
    | none =>
      rw [hxi] at hAt
      exact (Option.map_eq_none_iff.mp hAt.symm).symm
    | some c =>
      rw [hxi] at hAt
      obtain ⟨d, hyi, hcd⟩ := Option.map_eq_some_iff.mp hAt.symm
      have hc := hx c (List.mem_of_getElem? hxi)
      have hd := hy d (List.mem_of_getElem? hyi)
      rw [hyi, hLetter d c hd hc hcd]
  · rw [List.getElem?_eq_none (by omega), List.getElem?_eq_none (by omega)]

/-- There are not many short names. -/
theorem length_le_of_short {k : Nat} {names : List String} (hNodup : names.Nodup)
    (hLower : ∀ x ∈ names, ∀ c ∈ x.toList, c.isLower = true)
    (hShort : ∀ x ∈ names, x.toList.length ≤ k) : names.length ≤ 27 ^ k := by
  have hMap : (names.map (letters k)).Nodup := by
    refine hNodup.map_on fun x hx y hy h => ?_
    exact letters_injective (hLower x hx) (hLower y hy) (hShort x hx) (hShort y hy) h
  have hCard := hMap.length_le_card
  rwa [List.length_map, Fintype.card_fun, Fintype.card_option, Fintype.card_fin,
    Fintype.card_fin] at hCard

/-- **The frame of a source fits in a word.** -/
theorem frameSize_lt_of_scan {source : Text} {tokens : List Token}
    (hScan : Token.scan source = .ok tokens) (hSource : source.byteLength < 2 ^ 63) :
    (Locals.ofNames (Token.idents source tokens)).frameSize < 2 ^ 63 := by
  let names := (Locals.ofNames (Token.idents source tokens)).names
  have hNodup : names.Nodup := Locals.nodup_declareAll List.nodup_nil _
  have hMem : ∀ x ∈ names, x ∈ Token.idents source tokens :=
    fun x hx => Locals.mem_names_ofNames.mp hx
  have hLower : ∀ x ∈ names, ∀ c ∈ x.toList, c.isLower = true :=
    fun x hx => Token.isLower_of_mem_idents hScan (hMem x hx)
  -- names of twelve letters and more
  have hLong : (names.filter (12 ≤ ·.utf8ByteSize)).length ≤ tokens.countP (12 ≤ ·.len) := by
    have hSub : names.filter (12 ≤ ·.utf8ByteSize) ⊆
        (Token.idents source tokens).filter (12 ≤ ·.utf8ByteSize) := by
      intro x hx
      obtain ⟨hx, hSize⟩ := List.mem_filter.mp hx
      exact List.mem_filter.mpr ⟨hMem x hx, hSize⟩
    exact Nat.le_trans ((hNodup.filter _).subperm hSub).length_le
      (Token.length_filter_idents_le source tokens 12)
  have hRoom := Token.mul_countP_le_of_scan hScan (k := 12) (by decide)
  -- all others
  have hShort : (names.filter fun x => !decide (12 ≤ x.utf8ByteSize)).length ≤ 27 ^ 11 := by
    refine length_le_of_short (hNodup.filter _) ?_ ?_
    · intro x hx
      exact hLower x (List.mem_filter.mp hx).1
    · intro x hx
      obtain ⟨hx, hSize⟩ := List.mem_filter.mp hx
      have hLength : x.utf8ByteSize = x.toList.length := by
        have hBytes := Text.utf8ByteSize_ofList x.toList
        rw [String.ofList_toList] at hBytes
        rw [hBytes, Text.byteLength_eq_length]
        intro c hc
        exact Text.utf8Size_of_isLower (hLower x hx c hc)
      simp only [Bool.not_eq_true', decide_eq_false_iff_not] at hSize
      omega
  have hCount : names.length = (names.filter (12 ≤ ·.utf8ByteSize)).length + _ :=
    List.length_eq_length_filter_add _
  rw [Locals.frameSize, Locals.size, Locals.length, Locals.wordSize, Locals.minFrameSize]
  show max ((names.length * 8 + 15) / 16 * 16) 208 < 2 ^ 63
  omega

end Semicolon
