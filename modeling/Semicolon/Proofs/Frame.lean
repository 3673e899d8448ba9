import Mathlib.Algebra.Group.Nat.Defs
import Semicolon.Assembly.Emit
import Semicolon.Machine.Run
import Semicolon.Node.Eval
import Semicolon.Proofs.AssemblyText

/-!
# The frame of a running routine

`Framed t s pushed m` ties a machine to an evaluation: the slots of the locals in `t` hold the store
`s`, the words `pushed` lie on the stack below the frame, the top one first, and what the caller
left above the frame is still there.  All addresses are counted downwards from the frame pointer
(`below`), so that no two parts of the frame can meet as long as they stay within `reach`.

Registers other than `rbp` and `rsp` are free (`Framed.setReg`).  For each short piece of emitted
code there is one lemma that says which framed machine it leads to.
-/

namespace Semicolon

namespace Locals

theorem offset_pos (i : Nat) : 0 < offset i := by
  rw [offset, wordSize]
  omega

theorem offset_le_frameSize {t : Locals} {i : Nat} (h : i < t.length) :
    offset i ≤ t.frameSize := by
  rw [offset, frameSize, size, wordSize]
  omega

theorem offset_inj {i j : Nat} : offset i = offset j ↔ i = j := by
  rw [offset, offset, wordSize]
  omega

theorem frameSize_le {t : Locals} (h : t.length < 2 ^ 53) : t.frameSize ≤ 2 ^ 57 := by
  rw [frameSize, size, wordSize, minFrameSize]
  omega

end Locals

namespace Machine

/-! ### Running instructions -/

/-- Executes instructions in order, up to one that returns or crashes. -/
def stepAll (m : Machine) : List Instr → Except Crash Next
  | [] => .ok (.goes m)
  | i :: is =>
    match m.step i with
    | .ok (.goes m) => m.stepAll is
    | stopped => stopped

@[simp] theorem stepAll_nil (m : Machine) : m.stepAll [] = .ok (.goes m) := rfl

theorem stepAll_cons {m m' : Machine} {i : Instr} (h : m.step i = .ok (.goes m'))
    (is : List Instr) : m.stepAll (i :: is) = m'.stepAll is := by
  rw [stepAll, h]

theorem stepAll_append (m : Machine) (as bs : List Instr) :
    m.stepAll (as ++ bs) =
      match m.stepAll as with
      | .ok (.goes m) => m.stepAll bs
      | stopped => stopped := by
  induction as generalizing m with
  | nil => rfl
  | cons i as ih =>
    rw [List.cons_append, stepAll, stepAll]
    cases hi : m.step i with
    | error c => rfl
    | ok n =>
      cases n with
      | goes m' => exact ih m'
      | returns v => rfl

theorem stepAll_append_of_goes {m m' : Machine} {as : List Instr}
    (h : m.stepAll as = .ok (.goes m')) (bs : List Instr) :
    m.stepAll (as ++ bs) = m'.stepAll bs := by
  rw [stepAll_append, h]

theorem execLine_text {i : Instr} (h : i.Plain) (m : Machine) :
    m.execLine (Line.instr i).text = m.step i := by
  rw [execLine, Line.read_text h]

/-- Lines of plain instructions are run by executing the instructions. -/
theorem run_instrs {m : Machine} {code : List Instr} (hPlain : ∀ i ∈ code, i.Plain)
    {budget : Nat} (hBudget : code.length ≤ budget) (rest : List String) :
    m.run budget (code.map (fun i => (Line.instr i).text) ++ rest) =
      match m.stepAll code with
      | .error c => .error c
      | .ok (.returns v) => .ok v
      | .ok (.goes m) => m.run (budget - code.length) rest := by
  induction code generalizing m budget with
  | nil => rfl
  | cons i is ih =>
    rw [List.length_cons] at hBudget
    obtain ⟨b, rfl⟩ : ∃ b, budget = b + 1 := ⟨budget - 1, by omega⟩
    rw [Nat.add_le_add_iff_right] at hBudget
    rw [List.map_cons, List.cons_append, run, execLine_text (hPlain i List.mem_cons_self), stepAll]
    cases hi : m.step i with
    | error c => rfl
    | ok n =>
      cases n with
      | returns v => rfl
      | goes m' =>
        rw [List.length_cons, Nat.add_sub_add_right]
        exact ih (fun j hj => hPlain j (List.mem_cons_of_mem i hj)) hBudget

/-! ### Addresses -/

/-- The address `n` bytes below the frame pointer of `main`, which lies two words below the top of
the stack. -/
def below (n : Nat) : Int64 :=
  stackTop - 16 - Int64.ofNat n

def slot (i : Nat) : Int64 :=
  below (Locals.offset i)

/-- No address further below the frame pointer is used. -/
def reach : Nat := 2 ^ 62

theorem toInt_below {n : Nat} (h : n ≤ reach) : (below n).toInt = 1048560 - n := by
  rw [reach] at h
  have hn : (Int64.ofNat n).toInt = n := Int64.toInt_ofNat_of_lt (by omega)
  have hb : (stackTop - 16).toInt = 1048560 := by decide
  rw [below, Int64.toInt_sub, hn, hb, Int.bmod_eq_of_le (by omega) (by omega)]

theorem below_inj {a b : Nat} (ha : a ≤ reach) (hb : b ≤ reach) : below a = below b ↔ a = b := by
  rw [← Int64.toInt_inj, toInt_below ha, toInt_below hb]
  omega

theorem stackTop_ne_below {n : Nat} (h : n ≤ reach) : stackTop - 8 ≠ below n := by
  intro he
  have ht : (stackTop - 8).toInt = 1048568 := by decide
  rw [he, toInt_below h] at ht
  omega

theorem advance_below {n k : Nat} {delta : Int} (hn : n ≤ reach) (hk : k ≤ reach)
    (h : (k : Int) = n - delta) : advance (below n) delta = .ok (below k) := by
  have hTo : (below n).toInt + delta = (below k).toInt := by
    rw [toInt_below hn, toInt_below hk]
    omega
  have hLo := (below k).le_toInt
  have hHi := (below k).toInt_lt
  rw [advance, hTo, if_pos ⟨hLo, hHi⟩, Int64.ofInt_toInt]

/-- A store is seen at its own address only. -/
theorem read?_write_below (m : Machine) {a n : Nat} (ha : a ≤ reach) (hn : n ≤ reach) (hne : a ≠ n)
    (v : Int64) : (m.write (below a) v).read? (below n) = m.read? (below n) := by
  rw [read?_write, if_neg]
  rw [below_inj ha hn]
  exact hne

theorem read?_write_stackTop (m : Machine) {a : Nat} (ha : a ≤ reach) (v : Int64) :
    (m.write (below a) v).read? (stackTop - 8) = m.read? (stackTop - 8) := by
  rw [read?_write, if_neg (Ne.symm (stackTop_ne_below ha))]

/-! ### The frame -/

/-- The machine `m` runs `main` with the locals `t`: their slots hold the store `s`, and the words
`pushed` lie below the frame, the top one first. -/
structure Framed (t : Locals) (s : Store Nat) (pushed : List Int64) (m : Machine) : Prop where
  base : m.reg .rbp = below 0
  top : m.reg .rsp = below (t.frameSize + 8 * pushed.length)
  slots : ∀ i < t.length, m.read? (slot i) = s i
  words : ∀ k v, pushed[k]? = some v →
    m.read? (below (t.frameSize + 8 * (pushed.length - k))) = some v
  savedBase : m.read? (below 0) = some 0
  returnTo : m.read? (stackTop - 8) = some returnAddress

/-- There is room for `n` more words below those that are pushed. -/
def Room (t : Locals) (pushed : List Int64) (n : Nat) : Prop :=
  t.frameSize + 8 * (pushed.length + n) ≤ reach

theorem Room.mono {t : Locals} {pushed : List Int64} {n k : Nat} (h : Room t pushed n)
    (hk : k ≤ n) : Room t pushed k := by
  unfold Room at *
  omega

theorem Room.of_cons {t : Locals} {pushed : List Int64} {n : Nat} {v : Int64}
    (h : Room t (v :: pushed) n) : Room t pushed (n + 1) := by
  unfold Room at *
  rw [List.length_cons] at h
  omega

theorem Room.cons {t : Locals} {pushed : List Int64} {n k : Nat} (h : Room t pushed n)
    (hk : k + 1 ≤ n) (v : Int64) : Room t (v :: pushed) k := by
  unfold Room at *
  rw [List.length_cons]
  omega

namespace Framed

variable {t : Locals} {s : Store Nat} {pushed : List Int64} {m : Machine}

/-- The frame lies in the memory and in two registers. -/
theorem congr {m' : Machine} (h : Framed t s pushed m) (hBase : m'.reg .rbp = m.reg .rbp)
    (hTop : m'.reg .rsp = m.reg .rsp) (hMemory : ∀ addr, m'.read? addr = m.read? addr) :
    Framed t s pushed m' where
  base := hBase.trans h.base
  top := hTop.trans h.top
  slots := fun i hi => (hMemory _).trans (h.slots i hi)
  words := fun k v hv => (hMemory _).trans (h.words k v hv)
  savedBase := (hMemory _).trans h.savedBase
  returnTo := (hMemory _).trans h.returnTo

theorem setReg (h : Framed t s pushed m) {x : String} (hBase : x ≠ "rbp") (hTop : x ≠ "rsp")
    (v : Int64) : Framed t s pushed (m.setReg (.full x) v) := by
  refine h.congr ?_ ?_ (read?_setReg m (.full x) v)
  · rw [reg_setReg, if_neg hBase]
  · rw [reg_setReg, if_neg hTop]

theorem push (h : Framed t s pushed m) (hRoom : Room t pushed 1) (v : Int64) :
    ∃ m', m.push v = .ok m' ∧ Framed t s (v :: pushed) m' := by
  have hReach : t.frameSize + 8 * pushed.length + 8 ≤ reach := by
    unfold Room at hRoom
    omega
  have hDown : advance (below (t.frameSize + 8 * pushed.length)) (-8) =
      .ok (below (t.frameSize + 8 * pushed.length + 8)) :=
    advance_below (by omega) hReach (by omega)
  refine ⟨_, by rw [Machine.push, h.top, hDown]; rfl, ?_⟩
  refine ⟨?_, ?_, fun i hi => ?_, fun k w hw => ?_, ?_, ?_⟩
  · rw [reg_write, reg_setReg, if_neg (by decide), h.base]
  · rw [reg_write, reg_setReg, if_pos rfl, List.length_cons, Nat.mul_succ, Nat.add_assoc]
  · have hOffset := Locals.offset_le_frameSize hi
    rw [slot, read?_write_below _ hReach (by omega) (by omega), read?_setReg]
    exact h.slots i hi
  · cases k with
    | zero =>
      rw [List.length_cons, Nat.sub_zero, Nat.mul_succ, ← Nat.add_assoc, read?_write, if_pos rfl]
      exact hw
    | succ k =>
      rw [List.length_cons, Nat.add_sub_add_right,
        read?_write_below _ hReach (by omega) (by omega), read?_setReg]
      exact h.words k w hw
  · rw [read?_write_below _ hReach (by omega) (by omega), read?_setReg]
    exact h.savedBase
  · rw [read?_write_stackTop _ hReach, read?_setReg]
    exact h.returnTo

/-- The top word is taken away, and only `rsp` changes. -/
theorem pop {v : Int64} (h : Framed t s (v :: pushed) m) (hRoom : Room t (v :: pushed) 0) :
    m.pop = .ok (v, m.setReg .rsp (below (t.frameSize + 8 * pushed.length))) ∧
      Framed t s pushed (m.setReg .rsp (below (t.frameSize + 8 * pushed.length))) := by
  have hReach : t.frameSize + 8 * pushed.length + 8 ≤ reach := hRoom.of_cons
  have hTop : m.reg .rsp = below (t.frameSize + 8 * pushed.length + 8) := by
    rw [h.top, List.length_cons, Nat.mul_succ, Nat.add_assoc]
  have hUp : advance (below (t.frameSize + 8 * pushed.length + 8)) 8 =
      .ok (below (t.frameSize + 8 * pushed.length)) :=
    advance_below hReach (by omega) (by omega)
  have hWord : m.read? (below (t.frameSize + 8 * pushed.length + 8)) = some v := by
    have hw := h.words 0 v rfl
    rw [List.length_cons, Nat.sub_zero, Nat.mul_succ, ← Nat.add_assoc] at hw
    exact hw
  constructor
  · rw [Machine.pop, hTop, hWord]
    dsimp only
    rw [hUp]
    rfl
  · refine ⟨?_, ?_, fun i hi => ?_, fun k w hw => ?_, ?_, ?_⟩
    · rw [reg_setReg, if_neg (by decide), h.base]
    · rw [reg_setReg, if_pos rfl]
    · rw [read?_setReg]
      exact h.slots i hi
    · have hk := h.words (k + 1) w hw
      rw [List.length_cons, Nat.add_sub_add_right] at hk
      rw [read?_setReg]
      exact hk
    · rw [read?_setReg]
      exact h.savedBase
    · rw [read?_setReg]
      exact h.returnTo

/-- A store to a slot is a store to its variable. -/
theorem write (h : Framed t s pushed m) (hRoom : Room t pushed 0) {i : Nat} (hi : i < t.length)
    (v : Int64) : Framed t (s.set i v) pushed (m.write (slot i) v) := by
  have hReach : t.frameSize + 8 * pushed.length ≤ reach := hRoom
  have hOffset := Locals.offset_le_frameSize hi
  have hPos := Locals.offset_pos i
  rw [slot]
  refine ⟨?_, ?_, fun j hj => ?_, fun k w hw => ?_, ?_, ?_⟩
  · rw [reg_write, h.base]
  · rw [reg_write, h.top]
  · have hOffset' := Locals.offset_le_frameSize hj
    by_cases hij : j = i
    · rw [hij, slot, read?_write, if_pos rfl, Store.set_self]
    · have hne : Locals.offset i ≠ Locals.offset j := fun he => hij (Locals.offset_inj.mp he).symm
      rw [slot, read?_write_below _ (by omega) (by omega) hne, Store.set_of_ne s v hij]
      exact h.slots j hj
  · have hk : k < pushed.length := (List.getElem?_eq_some_iff.mp hw).1
    rw [read?_write_below _ (by omega) (by omega) (by omega)]
    exact h.words k w hw
  · rw [read?_write_below _ (by omega) (by omega) (by omega)]
    exact h.savedBase
  · rw [read?_write_stackTop _ (by omega)]
    exact h.returnTo

/-! ### Pieces of code -/

theorem step_push (h : Framed t s pushed m) (hRoom : Room t pushed 1) (src : Operand) {v : Int64}
    (hv : m.value src = .ok v) :
    ∃ m', m.step (.push src) = .ok (.goes m') ∧ Framed t s (v :: pushed) m' := by
  obtain ⟨m', hp, hf⟩ := h.push hRoom v
  refine ⟨m', ?_, hf⟩
  simp only [step, hv, hp, bind, Except.bind, pure, Except.pure]

/-- A word is popped into a register that the frame does not need. -/
theorem step_pop {v : Int64} (h : Framed t s (v :: pushed) m) (hRoom : Room t (v :: pushed) 0)
    {x : String} (hBase : x ≠ "rbp") (hTop : x ≠ "rsp") :
    ∃ m', m.step (.pop (.full x)) = .ok (.goes m') ∧ Framed t s pushed m' ∧
      m'.reg (.full x) = v ∧ ∀ y, y ≠ x → y ≠ "rsp" → m'.reg (.full y) = m.reg (.full y) := by
  obtain ⟨hp, hf⟩ := h.pop hRoom
  refine ⟨_, ?_, hf.setReg hBase hTop v, ?_, fun y hy hyTop => ?_⟩
  · simp only [step, hp, bind, Except.bind, pure, Except.pure]
  · rw [reg_setReg, if_pos rfl]
  · rw [reg_setReg, if_neg (Ne.symm hy), reg_setReg, if_neg (Ne.symm hyTop)]

theorem stepAll_address (h : Framed t s pushed m) (hRoom : Room t pushed 1) (i : Nat) :
    ∃ m', m.stepAll [.mov .rax (.reg .rbp), .arith .sub .rax (.ofNat (Locals.offset i)),
        .push (.reg .rax)] = .ok (.goes m') ∧ Framed t s (slot i :: pushed) m' := by
  have hMov : m.step (.mov .rax (.reg .rbp)) = .ok (.goes (m.setReg .rax (below 0))) := by
    simp only [step, value, h.base, bind, Except.bind, pure, Except.pure]
  have hSub : (m.setReg .rax (below 0)).step (.arith .sub .rax (.ofNat (Locals.offset i))) =
      .ok (.goes ((m.setReg .rax (below 0)).setReg .rax (slot i))) := by
    simp only [step, value, Operand.ofNat, bind, Except.bind, pure, Except.pure, reg_setReg,
      if_true]
    rfl
  have hf := (h.setReg (x := "rax") (by decide) (by decide) (below 0)).setReg (x := "rax")
    (by decide) (by decide) (slot i)
  obtain ⟨m', hPush, hf'⟩ := hf.step_push hRoom (.reg .rax) rfl
  rw [reg_setReg, if_pos rfl] at hf'
  exact ⟨m', by rw [stepAll_cons hMov, stepAll_cons hSub, stepAll_cons hPush, stepAll_nil], hf'⟩

theorem stepAll_popOperands {a b : Int64} (h : Framed t s (b :: a :: pushed) m)
    (hRoom : Room t (b :: a :: pushed) 0) :
    ∃ m', m.stepAll popOperands = .ok (.goes m') ∧ Framed t s pushed m' ∧
      m'.reg .rax = a ∧ m'.reg .rdi = b := by
  obtain ⟨m₁, hFirst, hf₁, hb, -⟩ := h.step_pop hRoom (x := "rdi") (by decide) (by decide)
  have hRoom₁ : Room t (a :: pushed) 0 := hRoom.of_cons.mono (Nat.zero_le 1)
  obtain ⟨m₂, hSecond, hf₂, ha, hKeep⟩ := hf₁.step_pop hRoom₁ (x := "rax") (by decide) (by decide)
  refine ⟨m₂, ?_, hf₂, ha, ?_⟩
  · rw [popOperands, stepAll_cons hFirst, stepAll_cons hSecond, stepAll_nil]
  · rw [hKeep "rdi" (by decide) (by decide), hb]

/-- The frame is given back, and the routine returns with the value of `rax`. -/
theorem stepAll_epilogue (h : Framed t s pushed m) :
    m.stepAll epilogue = .ok (.returns (m.reg .rax)) := by
  have hUp : advance (below 0) 8 = .ok (stackTop - 8) := by decide
  have hTop : advance (stackTop - 8) 8 = .ok stackTop := by decide
  have hMov : m.step (.mov .rsp (.reg .rbp)) = .ok (.goes (m.setReg .rsp (below 0))) := by
    simp only [step, value, h.base, bind, Except.bind, pure, Except.pure]
  have hPop : (m.setReg .rsp (below 0)).step (.pop .rbp) =
      .ok (.goes (((m.setReg .rsp (below 0)).setReg .rsp (stackTop - 8)).setReg .rbp 0)) := by
    simp only [step, Machine.pop, reg_setReg, if_true, read?_setReg, h.savedBase, hUp, bind,
      Except.bind, pure, Except.pure]
  have hRet : (((m.setReg .rsp (below 0)).setReg .rsp (stackTop - 8)).setReg .rbp 0).step .ret =
      .ok (.returns (m.reg .rax)) := by
    simp [step, return?, Machine.pop, reg_setReg, read?_setReg, h.returnTo, hTop, bind, Except.bind,
      pure, Except.pure]
  rw [epilogue, stepAll_cons hMov, stepAll_cons hPop, stepAll, hRet]

end Framed

/-! ### Operators -/

/-- Bits that are put under a mask are found under it. -/
theorem and_mask (x y mask : Int64) : ((x &&& ~~~mask) ||| (y &&& mask)) &&& mask = y &&& mask := by
  apply Int64.toBitVec_inj.1
  ext i hi
  simp only [Int64.toBitVec_and, Int64.toBitVec_or, Int64.toBitVec_not, BitVec.getElem_and,
    BitVec.getElem_or, BitVec.getElem_not]
  cases mask.toBitVec[i] <;> simp

theorem reg_al_setReg_al (m : Machine) (v : Int64) : (m.setReg .al v).reg .al = lowByte v := by
  rw [reg, setReg, full_setFull, if_pos rfl]
  exact and_mask _ _ _

theorem lowByte_truth (b : Bool) : lowByte (truth b) = truth b := by
  cases b <;> decide

namespace Framed

variable {t : Locals} {s : Store Nat} {pushed : List Int64} {m : Machine}

theorem setAl (h : Framed t s pushed m) (v : Int64) : Framed t s pushed (m.setReg .al v) :=
  h.setReg (x := "rax") (by decide) (by decide) _

theorem stepAll_comparison (h : Framed t s pushed m) (c : Cond) :
    ∃ m', m.stepAll (comparison c) = .ok (.goes m') ∧ Framed t s pushed m' ∧
      m'.reg .rax = truth (c.holds (m.reg .rax) (m.reg .rdi)) := by
  generalize hv : truth (c.holds (m.reg .rax) (m.reg .rdi)) = v
  let m₁ : Machine := { m with compared := (m.reg .rax, m.reg .rdi) }
  have hCmp : m.step (.cmp (.reg .rax) (.reg .rdi)) = .ok (.goes m₁) := rfl
  have hSet : m₁.step (.setcc c .al) = .ok (.goes (m₁.setReg .al v)) := by
    rw [← hv]
    rfl
  have hMov : (m₁.setReg .al v).step (.movzb .rax (.reg .al)) =
      .ok (.goes ((m₁.setReg .al v).setReg .rax v)) := by
    simp only [step, value, bind, Except.bind, pure, Except.pure, reg_al_setReg_al]
    rw [← hv, lowByte_truth, lowByte_truth]
  have hf₁ : Framed t s pushed m₁ := h.congr rfl rfl (fun _ => rfl)
  refine ⟨(m₁.setReg .al v).setReg .rax v, ?_, (hf₁.setAl v).setReg (by decide) (by decide) v, ?_⟩
  · rw [comparison, stepAll_cons hCmp, stepAll_cons hSet, stepAll_cons hMov, stepAll_nil]
  · rw [reg_setReg, if_pos rfl]

theorem stepAll_arith (h : Framed t s pushed m) (op : Arith) :
    ∃ m', m.stepAll [.arith op .rax (.reg .rdi)] = .ok (.goes m') ∧ Framed t s pushed m' ∧
      m'.reg .rax = op.apply (m.reg .rax) (m.reg .rdi) := by
  refine ⟨_, rfl, h.setReg (x := "rax") (by decide) (by decide) _, ?_⟩
  rw [reg_setReg, if_pos rfl]

theorem stepAll_division (h : Framed t s pushed m) (hb : m.reg .rdi ≠ 0) :
    ∃ m', m.stepAll [.cqo, .idiv (.reg .rdi)] = .ok (.goes m') ∧ Framed t s pushed m' ∧
      m'.reg .rax = m.reg .rax / m.reg .rdi := by
  let m₁ : Machine := m.setReg .rdx (if m.reg .rax < 0 then -1 else 0)
  let m₂ : Machine := m₁.setReg .rax (m.reg .rax / m.reg .rdi)
  have hCqo : m.step .cqo = .ok (.goes m₁) := rfl
  have hDiv : m₁.step (.idiv (.reg .rdi)) =
      .ok (.goes (m₂.setReg .rdx (m.reg .rax % m.reg .rdi))) := by
    simp [step, value, m₁, m₂, reg_setReg, hb, bind, Except.bind, pure, Except.pure]
  have hf₁ : Framed t s pushed m₁ := h.setReg (by decide) (by decide) _
  have hf₂ : Framed t s pushed m₂ := hf₁.setReg (by decide) (by decide) _
  refine ⟨_, ?_, hf₂.setReg (x := "rdx") (by decide) (by decide) (m.reg .rax % m.reg .rdi), ?_⟩
  · rw [stepAll_cons hCqo, stepAll_cons hDiv, stepAll_nil]
  · rw [reg_setReg, if_neg (by decide), reg_setReg, if_pos rfl]

/-- The code of an operator computes it, or stops at a division by zero. -/
theorem stepAll_code (h : Framed t s pushed m) (op : BinOp) :
    match op.apply? (m.reg .rax) (m.reg .rdi) with
    | some v => ∃ m', m.stepAll op.code = .ok (.goes m') ∧ Framed t s pushed m' ∧ m'.reg .rax = v
    | none => m.stepAll op.code = .error .divisionByZero := by
  cases op with
  | add => exact h.stepAll_arith .add
  | sub => exact h.stepAll_arith .sub
  | mul => exact h.stepAll_arith .imul
  | div =>
    by_cases hb : m.reg .rdi = 0
    · simp only [ BinOp.apply?, hb, if_true]
      simp [BinOp.code, stepAll, step, value, reg_setReg, hb, bind, Except.bind]
    · simp only [ BinOp.apply?, hb, if_false]
      exact h.stepAll_division hb
  | eq => exact h.stepAll_comparison .e
  | ne => exact h.stepAll_comparison .ne
  | lt => exact h.stepAll_comparison .l
  | le => exact h.stepAll_comparison .le

end Framed

end Machine

end Semicolon
