/-!
# Byte offsets

A text is a list of characters, and a place in it is counted in bytes of its UTF-8 form.  `cut n`
divides a text at the last character boundary that is not past byte `n`, and `splitBytes? n` at byte
`n` itself, if this is a boundary.  `slice? loc len` is the text of a span, and there is one exactly
when both ends of the span are character boundaries.
-/

namespace Semicolon

/-- A text, as the list of its characters. -/
abbrev Text := List Char

namespace Text

/-- The number of bytes that a text takes. -/
def byteLength : Text → Nat
  | [] => 0
  | c :: cs => c.utf8Size + byteLength cs

/-- The longest beginning of a text that fits in `n` bytes, and what follows it. -/
def cut (n : Nat) : Text → Text × Text
  | [] => ([], [])
  | c :: cs =>
    if c.utf8Size ≤ n then
      let (before, after) := cut (n - c.utf8Size) cs
      (c :: before, after)
    else
      ([], c :: cs)

/-- The first `n` bytes and what follows them, if a character ends there. -/
def splitBytes? (n : Nat) (text : Text) : Option (Text × Text) :=
  Option.guard (fun parts => parts.1.byteLength == n) (text.cut n)

def dropBytes? (n : Nat) (text : Text) : Option Text :=
  (text.splitBytes? n).map Prod.snd

def takeBytes? (n : Nat) (text : Text) : Option Text :=
  (text.splitBytes? n).map Prod.fst

/-- The `len` bytes from byte `loc` on, if both ends are character boundaries. -/
def slice? (loc len : Nat) (text : Text) : Option Text :=
  (dropBytes? loc text).bind (takeBytes? len)

/-- A character begins at byte `n`, or the text ends there. -/
def IsBoundary (text : Text) (n : Nat) : Prop :=
  ∃ before after, text = before ++ after ∧ before.byteLength = n

/-- Whether a character begins at byte `n`, or the text ends there. -/
def isBoundary (text : Text) (n : Nat) : Bool :=
  (text.dropBytes? n).isSome

/-- The last boundary that is not behind byte `n`, looked for one byte back at a time. -/
def floor (text : Text) : Nat → Nat
  | 0 => 0
  | n + 1 => if text.isBoundary (n + 1) then n + 1 else text.floor n

@[simp] theorem byteLength_nil : byteLength [] = 0 := rfl

@[simp] theorem byteLength_cons (c : Char) (cs : Text) :
    byteLength (c :: cs) = c.utf8Size + byteLength cs := rfl

@[simp] theorem byteLength_append (a b : Text) :
    byteLength (a ++ b) = byteLength a + byteLength b := by
  induction a with
  | nil => simp
  | cons c cs ih => simp only [List.cons_append, byteLength_cons, ih]; omega

theorem isLower_iff {c : Char} : c.isLower = true ↔ 97 ≤ c.toNat ∧ c.toNat ≤ 122 := by
  show (decide (c.val ≥ 97) && decide (c.val ≤ 122)) = true ↔ _
  rw [Bool.and_eq_true, decide_eq_true_eq, decide_eq_true_eq, ge_iff_le, UInt32.le_iff_toNat_le,
    UInt32.le_iff_toNat_le]
  rfl

theorem isDigit_iff {c : Char} : c.isDigit = true ↔ 48 ≤ c.toNat ∧ c.toNat ≤ 57 := by
  show (decide (c.val ≥ 48) && decide (c.val ≤ 57)) = true ↔ _
  rw [Bool.and_eq_true, decide_eq_true_eq, decide_eq_true_eq, ge_iff_le, UInt32.le_iff_toNat_le,
    UInt32.le_iff_toNat_le]
  rfl

theorem utf8Size_of_toNat_lt {c : Char} (h : c.toNat < 128) : c.utf8Size = 1 := by
  rw [Char.utf8Size_eq_one_iff, UInt32.le_iff_toNat_le]
  exact Nat.le_of_lt_succ h

theorem utf8Size_of_isLower {c : Char} (h : c.isLower = true) : c.utf8Size = 1 := by
  have hRange := isLower_iff.mp h
  exact utf8Size_of_toNat_lt (by omega)

theorem utf8Size_of_isDigit {c : Char} (h : c.isDigit = true) : c.utf8Size = 1 := by
  have hRange := isDigit_iff.mp h
  exact utf8Size_of_toNat_lt (by omega)

/-- A text of characters of one byte has as many bytes as characters. -/
theorem byteLength_eq_length {cs : Text} (h : ∀ c ∈ cs, c.utf8Size = 1) :
    byteLength cs = cs.length := by
  induction cs with
  | nil => rfl
  | cons c cs ih =>
    rw [List.forall_mem_cons] at h
    rw [byteLength_cons, h.1, ih h.2, List.length_cons, Nat.add_comm]

/-- Cutting loses nothing. -/
theorem cut_append (n : Nat) (cs : Text) : (cut n cs).1 ++ (cut n cs).2 = cs := by
  induction cs generalizing n with
  | nil => rfl
  | cons c cs ih =>
    by_cases h : c.utf8Size ≤ n
    · simp [cut, h, ih]
    · simp [cut, h]

theorem byteLength_cut_le (n : Nat) (cs : Text) : byteLength (cut n cs).1 ≤ n := by
  induction cs generalizing n with
  | nil => simp [cut]
  | cons c cs ih =>
    by_cases h : c.utf8Size ≤ n
    · have := ih (n - c.utf8Size)
      simp only [cut, h, if_true, byteLength_cons]
      omega
    · simp [cut, h]

theorem cut_zero (cs : Text) : cut 0 cs = ([], cs) := by
  cases cs with
  | nil => rfl
  | cons c cs => rw [cut, if_neg (Nat.not_le_of_gt c.utf8Size_pos)]

/-- A text is cut behind a beginning as what follows it is cut. -/
theorem cut_byteLength_add (before after : Text) (n : Nat) :
    cut (before.byteLength + n) (before ++ after) =
      (before ++ (cut n after).1, (cut n after).2) := by
  induction before with
  | nil => simp
  | cons c before ih =>
    have hRest : c.utf8Size + byteLength before + n - c.utf8Size = byteLength before + n := by omega
    rw [List.cons_append, cut, byteLength_cons, if_pos (by omega), hRest, ih]
    rfl

theorem cut_byteLength (before after : Text) :
    cut before.byteLength (before ++ after) = (before, after) := by
  have h := cut_byteLength_add before after 0
  rwa [cut_zero, Nat.add_zero, List.append_nil] at h

/-- A text is split in the one way in which its first part has `n` bytes. -/
theorem splitBytes?_eq_some {n : Nat} {cs before after : Text} :
    splitBytes? n cs = some (before, after) ↔ cs = before ++ after ∧ byteLength before = n := by
  rw [splitBytes?, Option.guard_eq_some_iff, beq_iff_eq]
  constructor
  · rintro ⟨hCut, hLength⟩
    have hText := cut_append n cs
    rw [hCut] at hText hLength
    exact ⟨hText.symm, hLength⟩
  · rintro ⟨rfl, rfl⟩
    rw [cut_byteLength]
    exact ⟨rfl, rfl⟩

theorem dropBytes?_eq_some {n : Nat} {cs after : Text} :
    dropBytes? n cs = some after ↔ ∃ before, cs = before ++ after ∧ byteLength before = n := by
  rw [dropBytes?, Option.map_eq_some_iff]
  constructor
  · rintro ⟨⟨before, after⟩, hSplit, rfl⟩
    exact ⟨before, splitBytes?_eq_some.mp hSplit⟩
  · rintro ⟨before, hParts⟩
    exact ⟨(before, after), splitBytes?_eq_some.mpr hParts, rfl⟩

theorem takeBytes?_eq_some {n : Nat} {cs before : Text} :
    takeBytes? n cs = some before ↔ ∃ after, cs = before ++ after ∧ byteLength before = n := by
  rw [takeBytes?, Option.map_eq_some_iff]
  constructor
  · rintro ⟨⟨before, after⟩, hSplit, rfl⟩
    exact ⟨after, splitBytes?_eq_some.mp hSplit⟩
  · rintro ⟨after, hParts⟩
    exact ⟨(before, after), splitBytes?_eq_some.mpr hParts, rfl⟩

/-- A span has a text exactly when the source falls into three parts of the right widths. -/
theorem slice?_eq_some {loc len : Nat} {cs text : Text} :
    slice? loc len cs = some text ↔
      ∃ before after, cs = before ++ text ++ after ∧ byteLength before = loc ∧
        byteLength text = len := by
  simp only [slice?, Option.bind_eq_some_iff, dropBytes?_eq_some, takeBytes?_eq_some]
  constructor
  · rintro ⟨rest, ⟨before, rfl, hloc⟩, after, rfl, hlen⟩
    exact ⟨before, after, by simp, hloc, hlen⟩
  · rintro ⟨before, after, rfl, hloc, hlen⟩
    exact ⟨text ++ after, ⟨before, by simp, hloc⟩, after, rfl, hlen⟩

theorem isBoundary_iff {text : Text} {n : Nat} : text.isBoundary n = true ↔ text.IsBoundary n := by
  rw [isBoundary, Option.isSome_iff_exists]
  simp only [dropBytes?_eq_some]
  exact exists_comm

theorem IsBoundary.le {text : Text} {n : Nat} (h : text.IsBoundary n) : n ≤ text.byteLength := by
  obtain ⟨before, after, rfl, rfl⟩ := h
  rw [byteLength_append]
  exact Nat.le_add_right _ _

end Text

end Semicolon
