import Mathlib.Data.List.TakeWhile
import Semicolon.Assembly.Read

/-!
# Assembly text is read as it was written

`Instr.text` writes an instruction and `Line.read` reads a line.  Any text at all is the name of a
register, so not every instruction survives: a register called `[` or `12` is read as something
else.  `Instr.Plain` holds of the instructions whose registers are written in small letters, and for
these the two are inverse, `Line.read_text`.

A written line is two blanks, an operation, and operands with `, ` between them (`spelt`).  None of
the pieces holds a character that ends a piece (`Text.isPlain`), so each of the three cuts that
`Line.read` makes falls where the line was put together.
-/

namespace Semicolon

namespace Text

/-! ### Characters of operations and operands -/

/-- The characters of operations and operands. -/
def isPlain (c : Char) : Bool :=
  c.isLower || c.isDigit || c == '-' || c == '[' || c == ']'

theorem toNat_of_isPlain {c : Char} (h : isPlain c = true) :
    (97 ≤ c.toNat ∧ c.toNat ≤ 122) ∨ (48 ≤ c.toNat ∧ c.toNat ≤ 57) ∨ c.toNat = 45 ∨
      c.toNat = 91 ∨ c.toNat = 93 := by
  simp only [isPlain, Bool.or_eq_true, beq_iff_eq, isLower_iff, isDigit_iff] at h
  rcases h with (((h | h) | rfl) | rfl) | rfl
  · exact Or.inl h
  · exact Or.inr (Or.inl h)
  · exact Or.inr (Or.inr (Or.inl rfl))
  · exact Or.inr (Or.inr (Or.inr (Or.inl rfl)))
  · exact Or.inr (Or.inr (Or.inr (Or.inr rfl)))

theorem isBlank_of_isPlain {c : Char} (h : isPlain c = true) : isBlank c = false := by
  have hc := toNat_of_isPlain h
  simp only [isBlank, blankRanges, List.any_cons, List.any_nil, Bool.or_false, Bool.or_eq_false_iff,
    Bool.and_eq_false_iff, decide_eq_false_iff_not]
  omega

theorem ne_of_isPlain {c d : Char} (h : isPlain c = true) (hd : isPlain d = false) : c ≠ d := by
  intro he
  rw [he, hd] at h
  exact absurd h (by decide)

/-- A text that is one piece of a line. -/
def Solid (cs : Text) : Prop :=
  cs ≠ [] ∧ ∀ c ∈ cs, isPlain c = true

instance (cs : Text) : Decidable (Solid cs) :=
  decidable_of_iff (cs ≠ [] ∧ cs.all isPlain = true) (and_congr_right fun _ => List.all_eq_true)

theorem Solid.not_mem {cs : Text} (h : Solid cs) {d : Char} (hd : isPlain d = false) : d ∉ cs :=
  fun hm => ne_of_isPlain (h.2 d hm) hd rfl

theorem Solid.append {a b : Text} (ha : Solid a) (hb : Solid b) : Solid (a ++ b) := by
  refine ⟨by simp [ha.1], fun c hc => ?_⟩
  rcases List.mem_append.mp hc with hc | hc
  · exact ha.2 c hc
  · exact hb.2 c hc

/-! ### Lines -/

/-- Operands with their separators. -/
def joined : List Text → Text
  | [] => []
  | [a] => a
  | a :: b :: rest => a ++ ',' :: ' ' :: joined (b :: rest)

/-- A line without its indentation. -/
def spelt (op : Text) : List Text → Text
  | [] => op
  | a :: rest => op ++ ' ' :: joined (a :: rest)

theorem pieces_cons {c : Char} (hc : c ≠ ',') (cs : Text) :
    pieces (c :: cs) = match pieces cs with
      | [] => [[c]]
      | p :: ps => (c :: p) :: ps := by
  conv => lhs; unfold pieces
  split
  · next h => cases h
  · next h => exact absurd (List.cons.inj h).1 hc
  · next h => cases h; rfl

/-- A piece without a comma goes in front of the pieces behind it. -/
theorem pieces_append_comma (a b : Text) (ha : ',' ∉ a) :
    pieces (a ++ ',' :: ' ' :: b) = a :: pieces b := by
  induction a with
  | nil => rfl
  | cons c cs ih =>
    rw [List.mem_cons, not_or] at ha
    rw [List.cons_append, pieces_cons (Ne.symm ha.1), ih ha.2]

theorem pieces_of_not_mem (a : Text) (ha : ',' ∉ a) : pieces a = [a] := by
  induction a with
  | nil => rfl
  | cons c cs ih =>
    rw [List.mem_cons, not_or] at ha
    rw [pieces_cons (Ne.symm ha.1), ih ha.2]

theorem pieces_joined : ∀ (args : List Text), args ≠ [] → (∀ a ∈ args, Solid a) →
    pieces (joined args) = args := by
  intro args
  induction args with
  | nil => intro h _; exact absurd rfl h
  | cons a rest ih =>
    intro _ h
    have ha : ',' ∉ a := (h a List.mem_cons_self).not_mem (by decide)
    cases rest with
    | nil => exact pieces_of_not_mem a ha
    | cons b rest =>
      rw [joined, pieces_append_comma a _ ha,
        ih (by simp) (fun d hd => h d (List.mem_cons_of_mem a hd))]

theorem getLast?_joined : ∀ (args : List Text), args ≠ [] → (∀ a ∈ args, Solid a) →
    ∃ c, (joined args).getLast? = some c ∧ isPlain c = true := by
  intro args
  induction args with
  | nil => intro h _; exact absurd rfl h
  | cons a rest ih =>
    intro _ h
    cases rest with
    | nil =>
      have ha := h a List.mem_cons_self
      exact ⟨a.getLast ha.1, List.getLast?_eq_some_getLast ha.1, ha.2 _ (List.getLast_mem ha.1)⟩
    | cons b rest =>
      obtain ⟨c, hc, hp⟩ := ih (by simp) (fun d hd => h d (List.mem_cons_of_mem a hd))
      refine ⟨c, ?_, hp⟩
      rw [joined, List.getLast?_append, List.getLast?_cons, List.getLast?_cons, hc]
      rfl

theorem getLast?_spelt {op : Text} {args : List Text} (hop : Solid op)
    (hargs : ∀ a ∈ args, Solid a) :
    ∃ c, (spelt op args).getLast? = some c ∧ isPlain c = true := by
  cases args with
  | nil =>
    exact ⟨op.getLast hop.1, List.getLast?_eq_some_getLast hop.1, hop.2 _ (List.getLast_mem hop.1)⟩
  | cons a rest =>
    obtain ⟨c, hc, hp⟩ := getLast?_joined (a :: rest) (by simp) hargs
    refine ⟨c, ?_, hp⟩
    rw [spelt, List.getLast?_append, List.getLast?_cons, hc]
    rfl

theorem head?_spelt {op : Text} (hop : Solid op) (args : List Text) :
    ∃ c, (spelt op args).head? = some c ∧ isPlain c = true := by
  cases op with
  | nil => exact absurd rfl hop.1
  | cons c cs =>
    refine ⟨c, ?_, hop.2 c List.mem_cons_self⟩
    cases args <;> rfl

/-- Blanks before a text are taken off, and nothing else if it begins and ends with none. -/
theorem trim_indented {cs : Text} {c d : Char} (hHead : cs.head? = some c)
    (hc : isBlank c = false) (hLast : cs.getLast? = some d) (hd : isBlank d = false) :
    trim (' ' :: ' ' :: cs) = cs := by
  have hblank : isBlank ' ' = true := by decide
  have hfront : (' ' :: ' ' :: cs).dropWhile isBlank = cs := by
    cases cs with
    | nil => simp at hHead
    | cons e es =>
      obtain rfl : e = c := by simpa using hHead
      rw [List.dropWhile_cons_of_pos hblank, List.dropWhile_cons_of_pos hblank,
        List.dropWhile_cons_of_neg (by simp [hc])]
  have hback : cs.reverse.dropWhile isBlank = cs.reverse := by
    cases hr : cs.reverse with
    | nil => rfl
    | cons e es =>
      obtain rfl : e = d := by
        rw [← List.head?_reverse, hr] at hLast
        simpa using hLast
      rw [List.dropWhile_cons_of_neg (by simp [hd])]
  rw [trim, hfront, hback, List.reverse_reverse]

end Text

/-- A line that is put together from an operation and its operands is cut into these again. -/
theorem Line.read_of_spelt {line : String} {op : Text} {args : List Text} {i : Instr}
    (hLine : line.toList = ' ' :: ' ' :: Text.spelt op args) (hop : Text.Solid op)
    (hargs : ∀ a ∈ args, Text.Solid a) (hi : Instr.read? (String.ofList op) args = some i) :
    Line.read line = .ok (.instr i) := by
  obtain ⟨c, hc, hcp⟩ := Text.head?_spelt hop args
  obtain ⟨d, hd, hdp⟩ := Text.getLast?_spelt hop hargs
  have hTrim : Text.trim line.toList = Text.spelt op args := by
    rw [hLine]
    exact Text.trim_indented hc (Text.isBlank_of_isPlain hcp) hd (Text.isBlank_of_isPlain hdp)
  have hMark : ¬((Text.spelt op args).head? = some '.' ∨
      (Text.spelt op args).getLast? = some ':') := by
    rw [hc, hd, Option.some.injEq, Option.some.injEq, not_or]
    exact ⟨Text.ne_of_isPlain hcp (by decide), Text.ne_of_isPlain hdp (by decide)⟩
  have hPass : ∀ e ∈ op, (e != ' ') = true := fun e he =>
    bne_iff_ne.mpr (Text.ne_of_isPlain (hop.2 e he) (by decide))
  have hOp : (Text.spelt op args).takeWhile (· != ' ') = op := by
    cases args with
    | nil => exact List.takeWhile_eq_self_iff.mpr hPass
    | cons a rest =>
      rw [Text.spelt, List.takeWhile_append_of_pos hPass, List.takeWhile_cons_of_neg (by simp),
        List.append_nil]
  have hArgs :
      (Text.pieces ((Text.spelt op args).drop (op.length + 1))).filter (· ≠ []) = args := by
    cases args with
    | nil =>
      rw [Text.spelt, List.drop_eq_nil_of_le (Nat.le_succ _)]
      rfl
    | cons a rest =>
      have hSolid : ∀ b ∈ a :: rest, decide (b ≠ []) = true := fun b hb =>
        decide_eq_true (hargs b hb).1
      rw [Text.spelt, List.drop_length_add_append, List.drop_one, List.tail_cons,
        Text.pieces_joined _ (by simp) hargs, List.filter_eq_self.mpr hSolid]
  rw [Line.read]
  simp only [hTrim, if_neg hMark, hOp, hArgs, hi]

/-! ### Instructions -/

/-- The register is written in small letters, and read as itself. -/
def Reg.Plain (r : Reg) : Prop :=
  (r.text.toList ≠ [] ∧ ∀ c ∈ r.text.toList, c.isLower = true) ∧ Reg.ofText r.text = r

instance (r : Reg) : Decidable r.Plain :=
  decidable_of_iff
    ((r.text.toList ≠ [] ∧ r.text.toList.all Char.isLower = true) ∧ Reg.ofText r.text = r)
    (and_congr_left fun _ => and_congr_right fun _ => List.all_eq_true)

/-- Every register in the operand is plain. -/
def Operand.Plain : Operand → Prop
  | imm _ => True
  | reg r | mem r => r.Plain

instance : (o : Operand) → Decidable o.Plain
  | .imm _ => inferInstanceAs (Decidable True)
  | .reg r | .mem r => inferInstanceAs (Decidable r.Plain)

/-- Every register in the instruction is plain. -/
def Instr.Plain : Instr → Prop
  | push src | idiv src => src.Plain
  | pop dst | setcc _ dst => dst.Plain
  | mov dst src | store dst src | arith _ dst src | movzb dst src => dst.Plain ∧ src.Plain
  | cmp left right => left.Plain ∧ right.Plain
  | cqo | ret => True

instance : (i : Instr) → Decidable i.Plain
  | .push src | .idiv src => inferInstanceAs (Decidable src.Plain)
  | .pop dst | .setcc _ dst => inferInstanceAs (Decidable dst.Plain)
  | .mov dst src | .store dst src | .arith _ dst src | .movzb dst src =>
    inferInstanceAs (Decidable (dst.Plain ∧ src.Plain))
  | .cmp left right => inferInstanceAs (Decidable (left.Plain ∧ right.Plain))
  | .cqo | .ret => inferInstanceAs (Decidable True)

namespace Reg

theorem Plain.solid {r : Reg} (h : r.Plain) : Text.Solid r.text.toList :=
  ⟨h.1.1, fun c hc => by simp [Text.isPlain, h.1.2 c hc]⟩

theorem Plain.ofText_eq {r : Reg} (h : r.Plain) : ofText (String.ofList r.text.toList) = r := by
  rw [String.ofList_toList]
  exact h.2

theorem bracketed?_eq_none {c : Char} {cs : Text} (hc : c ≠ '[') : bracketed? (c :: cs) = none := by
  rw [bracketed?, Text.bracketed?]
  · rfl
  · exact fun _ he => hc (List.cons.inj he).1

theorem Plain.exists_text_eq {r : Reg} (h : r.Plain) :
    ∃ c cs, r.text.toList = c :: cs ∧ c.isLower = true := by
  cases hr : r.text.toList with
  | nil => exact absurd hr h.1.1
  | cons c cs => exact ⟨c, cs, rfl, h.1.2 c (by simp [hr])⟩

theorem ne_of_isLower {c d : Char} (h : c.isLower = true) (hd : d.isLower = false) : c ≠ d := by
  intro he
  rw [he, hd] at h
  exact absurd h (by decide)

theorem Plain.bracketed?_text {r : Reg} (h : r.Plain) : bracketed? r.text.toList = none := by
  obtain ⟨c, cs, he, hc⟩ := h.exists_text_eq
  rw [he]
  exact bracketed?_eq_none (ne_of_isLower hc (by decide))

theorem Plain.readWord?_text {r : Reg} (h : r.Plain) : Text.readWord? r.text.toList = none := by
  obtain ⟨c, cs, he, hc⟩ := h.exists_text_eq
  have hDigit : c.isDigit = false := by
    have hc' := Text.isLower_iff.mp hc
    rw [Bool.eq_false_iff]
    intro hd
    have hd' := Text.isDigit_iff.mp hd
    omega
  rw [he, Text.readWord?]
  · simp [Text.readWord?.natural?, Text.readDigits?, hDigit]
  · exact fun _ he' => ne_of_isLower hc (by decide) (List.cons.inj he').1
  · exact fun _ he' => ne_of_isLower hc (by decide) (List.cons.inj he').1

end Reg

namespace Operand

/-- A numeral is `-` and digits, or digits alone. -/
theorem exists_decimal_eq (v : Int64) : ∃ c n, (Text.decimal v).toList = c :: n ∧
    (c = '-' ∨ c.isDigit = true) ∧ ∀ d ∈ n, d.isDigit = true := by
  have hDigits : ∀ n, ∀ d ∈ Nat.toDigits 10 n, d.isDigit = true := fun n d hd =>
    Nat.isDigit_of_mem_toDigits (by decide) (by decide) hd
  rw [Text.decimal]
  cases v.toInt with
  | ofNat n =>
    simp only [Int.repr, Nat.repr, String.toList_ofList]
    cases hn : Nat.toDigits 10 n with
    | nil => exact absurd hn Nat.toDigits_ne_nil
    | cons c cs =>
      have h := hDigits n
      rw [hn] at h
      exact ⟨c, cs, rfl, Or.inr (h c List.mem_cons_self),
        fun d hd => h d (List.mem_cons_of_mem c hd)⟩
  | negSucc n =>
    refine ⟨'-', Nat.toDigits 10 n.succ, ?_, Or.inl rfl, hDigits _⟩
    simp only [Int.repr, Nat.repr, String.toList_append, String.toList_ofList]
    rfl

theorem solid_decimal (v : Int64) : Text.Solid (Text.decimal v).toList := by
  obtain ⟨c, n, he, hc, hn⟩ := exists_decimal_eq v
  rw [he]
  refine ⟨by simp, fun d hd => ?_⟩
  rcases List.mem_cons.mp hd with rfl | hd
  · rcases hc with rfl | hc
    · decide
    · simp [Text.isPlain, hc]
  · simp [Text.isPlain, hn d hd]

theorem toList_text_mem (r : Reg) : (mem r).text.toList = '[' :: (r.text.toList ++ [']']) := by
  rw [text, String.toList_append, String.toList_append]
  rfl

theorem Plain.solid {o : Operand} (h : o.Plain) : Text.Solid o.text.toList := by
  cases o with
  | imm v => exact solid_decimal v
  | reg r => exact Reg.Plain.solid h
  | mem r =>
    rw [toList_text_mem]
    have hBracket : ∀ c, Text.isPlain c = true → Text.Solid [c] := fun c hc =>
      ⟨by simp, by simpa using hc⟩
    exact (hBracket '[' (by decide)).append ((Reg.Plain.solid h).append (hBracket ']' (by decide)))

theorem bracketed?_text_mem {r : Reg} (h : r.Plain) :
    Reg.bracketed? (mem r).text.toList = some r := by
  rw [toList_text_mem, Reg.bracketed?, Text.bracketed?,
    if_pos (by rw [List.getLast?_append]; rfl), List.dropLast_concat, Option.map_some, h.ofText_eq]

theorem read_text {o : Operand} (h : o.Plain) : read o.text.toList = o := by
  cases o with
  | imm v =>
    obtain ⟨c, n, he, hc, -⟩ := exists_decimal_eq v
    have hBracket : Reg.bracketed? (Text.decimal v).toList = none := by
      rw [he]
      refine Reg.bracketed?_eq_none ?_
      rintro rfl
      rcases hc with hc | hc <;> exact absurd hc (by decide)
    rw [text, read, hBracket]
    simp only [Text.readWord?_decimal]
  | reg r =>
    rw [text, read, Reg.Plain.bracketed?_text h]
    simp only [Reg.Plain.readWord?_text h, Reg.Plain.ofText_eq h]
  | mem r => rw [read, bracketed?_text_mem h]

end Operand

namespace Instr

def operation : Instr → String
  | push _ => "push"
  | pop _ => "pop"
  | mov .. | store .. => "mov"
  | arith op .. => op.text
  | cqo => "cqo"
  | idiv _ => "idiv"
  | cmp .. => "cmp"
  | setcc c _ => "set" ++ c.text
  | movzb .. => "movzb"
  | ret => "ret"

def operands : Instr → List Text
  | push src | idiv src => [src.text.toList]
  | pop dst | setcc _ dst => [dst.text.toList]
  | mov dst src | arith _ dst src | movzb dst src => [dst.text.toList, src.text.toList]
  | store addr src => [(Operand.mem addr).text.toList, src.text.toList]
  | cmp left right => [left.text.toList, right.text.toList]
  | cqo | ret => []

theorem toList_text (i : Instr) :
    (Line.instr i).text.toList = ' ' :: ' ' :: Text.spelt i.operation.toList i.operands := by
  cases i with
  | store addr src =>
    simp [Line.text, text, operation, operands, Operand.toList_text_mem, Text.spelt, Text.joined]
  | _ => simp [Line.text, text, operation, operands, Text.spelt, Text.joined]

theorem solid_operation (i : Instr) : Text.Solid i.operation.toList := by
  cases i with
  | arith op dst src => cases op <;> (rw [operation, Arith.text]; decide)
  | setcc c dst => cases c <;> (rw [operation, Cond.text]; decide)
  | _ => rw [operation]; decide

theorem Plain.solid_operands {i : Instr} (h : i.Plain) : ∀ a ∈ i.operands, Text.Solid a := by
  have hOne : ∀ {a : Text}, Text.Solid a → ∀ b ∈ [a], Text.Solid b := by
    intro a ha b hb
    exact List.mem_singleton.mp hb ▸ ha
  have hTwo : ∀ {a b : Text}, Text.Solid a → Text.Solid b → ∀ d ∈ [a, b], Text.Solid d := by
    intro a b ha hb d hd
    rcases List.mem_cons.mp hd with rfl | hd
    · exact ha
    · exact hOne hb d hd
  cases i with
  | push src => exact hOne (Operand.Plain.solid h)
  | pop dst => exact hOne (Reg.Plain.solid h)
  | mov dst src => exact hTwo (Reg.Plain.solid h.1) (Operand.Plain.solid h.2)
  | store addr src =>
    exact hTwo (Operand.Plain.solid (o := .mem addr) h.1) (Operand.Plain.solid h.2)
  | arith op dst src => exact hTwo (Reg.Plain.solid h.1) (Operand.Plain.solid h.2)
  | cqo => exact fun b hb => absurd hb List.not_mem_nil
  | idiv src => exact hOne (Operand.Plain.solid h)
  | cmp left right => exact hTwo (Operand.Plain.solid h.1) (Operand.Plain.solid h.2)
  | setcc c dst => exact hOne (Reg.Plain.solid h)
  | movzb dst src => exact hTwo (Reg.Plain.solid h.1) (Operand.Plain.solid h.2)
  | ret => exact fun b hb => absurd hb List.not_mem_nil

/-- The operation and the operands of an instruction say which one it is. -/
theorem read?_operands {i : Instr} (h : i.Plain) :
    read? (String.ofList i.operation.toList) i.operands = some i := by
  rw [String.ofList_toList]
  cases i with
  | push src => simp only [operation, operands, read?, Operand.read_text h]
  | pop dst => simp only [operation, operands, read?, read?.register, Reg.Plain.ofText_eq h]
  | mov dst src =>
    simp only [operation, operands, read?, read?.register, Reg.Plain.bracketed?_text h.1,
      Reg.Plain.ofText_eq h.1, Operand.read_text h.2]
  | store addr src =>
    simp only [operation, operands, read?, Operand.bracketed?_text_mem h.1, Operand.read_text h.2]
  | arith op dst src =>
    cases op <;>
      simp only [operation, operands, Arith.text, read?, read?.register, Reg.Plain.ofText_eq h.1,
        Operand.read_text h.2]
  | cqo => rfl
  | idiv src => simp only [operation, operands, read?, Operand.read_text h]
  | cmp left right =>
    simp only [operation, operands, read?, Operand.read_text h.1, Operand.read_text h.2]
  | setcc c dst =>
    cases c <;>
      simp only [operation, operands, Cond.text, String.reduceAppend, read?, read?.register,
        Reg.Plain.ofText_eq h]
  | movzb dst src =>
    simp only [operation, operands, read?, read?.register, Reg.Plain.ofText_eq h.1,
      Operand.read_text h.2]
  | ret => rfl

end Instr

/-- **A plain instruction that is written can be read.** -/
theorem Line.read_text {i : Instr} (h : i.Plain) : Line.read (Line.instr i).text = .ok (.instr i) :=
  Line.read_of_spelt i.toList_text i.solid_operation h.solid_operands (Instr.read?_operands h)

end Semicolon
