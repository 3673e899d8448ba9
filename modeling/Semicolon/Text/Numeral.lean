import Semicolon.Text.Bytes

/-!
# Numerals

Words are signed 64-bit numbers.  `readWord?` accepts an optional sign followed by decimal digits,
if the value is in range; `decimal` and `hex` are the two ways a word is written, the second as its
two's complement.  What `decimal` writes, `readWord?` reads.
-/

namespace Semicolon.Text

/-- The number that a run of decimal digits denotes. -/
def digitsValue (digits : Text) : Nat :=
  Nat.ofDigitChars 10 digits 0

/-- The largest word. -/
def maxWord : Nat := 0x7fffffffffffffff

/-- Reads a run of one or more decimal digits. -/
def readDigits? (cs : Text) : Option Nat :=
  if cs ≠ [] ∧ cs.all Char.isDigit then some (digitsValue cs) else none

/-- Reads a word: decimal digits after at most one sign. -/
def readWord? : Text → Option Int64
  | '-' :: cs => do
    let n ← readDigits? cs
    if n ≤ maxWord + 1 then some (Int64.ofInt (-n)) else none
  | '+' :: cs => natural? cs
  | cs => natural? cs
where
  natural? (cs : Text) : Option Int64 := do
    let n ← readDigits? cs
    if n ≤ maxWord then some (Int64.ofNat n) else none

/-- The decimal numeral of a word, with `-` in front of a negative one. -/
def decimal (v : Int64) : String :=
  v.toInt.repr

/-- The hexadecimal numeral of the two's complement of a word. -/
def hex (v : Int64) : String :=
  "0x" ++ String.ofList (Nat.toDigits 16 v.toUInt64.toNat)

@[simp] theorem digitsValue_toDigits (n : Nat) : digitsValue (Nat.toDigits 10 n) = n :=
  Nat.ofDigitChars_toDigits (by decide) (by decide)

theorem readDigits?_toDigits (n : Nat) : readDigits? (Nat.toDigits 10 n) = some n := by
  have hne : Nat.toDigits 10 n ≠ [] := Nat.toDigits_ne_nil
  have hall : (Nat.toDigits 10 n).all Char.isDigit = true :=
    List.all_eq_true.mpr fun _ hc => Nat.isDigit_of_mem_toDigits (by decide) (by decide) hc
  simp [readDigits?, hne, hall]

theorem readWord?_of_isDigit {c : Char} {cs : Text} (hc : c.isDigit = true) :
    readWord? (c :: cs) = readWord?.natural? (c :: cs) := by
  unfold readWord?
  split
  · next h =>
    rw [(List.cons.inj h).1] at hc
    exact absurd hc (by decide)
  · next h =>
    rw [(List.cons.inj h).1] at hc
    exact absurd hc (by decide)
  · rfl

theorem readWord?_toDigits {n : Nat} (h : n ≤ maxWord) :
    readWord? (Nat.toDigits 10 n) = some (Int64.ofNat n) := by
  cases hd : Nat.toDigits 10 n with
  | nil => exact absurd hd Nat.toDigits_ne_nil
  | cons c cs =>
    have hc : c.isDigit = true :=
      Nat.isDigit_of_mem_toDigits (b := 10) (n := n) (by decide) (by decide) (by simp [hd])
    rw [readWord?_of_isDigit hc, ← hd, readWord?.natural?, readDigits?_toDigits]
    simp [h]

/-- A word that is written can be read. -/
theorem readWord?_decimal (v : Int64) : readWord? (decimal v).toList = some v := by
  have hlo := v.le_toInt
  have hhi := v.toInt_lt
  have hv : Int64.ofInt v.toInt = v := Int64.ofInt_toInt v
  rw [decimal]
  cases hn : v.toInt with
  | ofNat n =>
    rw [hn, Int.ofNat_eq_natCast] at hhi
    rw [hn] at hv
    simp only [Int.repr, Nat.repr, String.toList_ofList]
    rw [readWord?_toDigits (by simp only [maxWord]; omega)]
    exact congrArg some hv
  | negSucc n =>
    rw [hn] at hlo hv
    simp only [Int.repr, Nat.repr, String.toList_append, String.toList_ofList]
    show readWord? ('-' :: Nat.toDigits 10 n.succ) = _
    rw [readWord?, readDigits?_toDigits]
    have hle : n.succ ≤ maxWord + 1 := by simp only [maxWord]; omega
    simp only [Option.bind_eq_bind, Option.bind_some, if_pos hle]
    exact congrArg some hv

end Semicolon.Text
