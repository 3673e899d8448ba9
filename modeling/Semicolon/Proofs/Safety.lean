import Semicolon.Proofs.GeneratedCode

/-!
# Code that stays inside its frame

`InFrame` says that the frame of a running routine is as the prologue has left it, and
`WritesInside` that an instruction does not write to what belongs to the caller.  `Safe` has one
rule for each thing that can happen next: the steps are used up, the code ends, the frame is given
back, an instruction is executed, or it crashes in a way that was to be expected.  Code is safe if
its parts are (`Safe.append`), and a run of safe code never leaves the frame (`Safe.of_stepAll`).
-/

namespace Semicolon

namespace Machine

/-! ### Writing to memory -/

/-- The address to which an instruction writes. -/
def target? (m : Machine) : Instr → Option Int64
  | .push _ => some (m.reg .rsp - 8)
  | .store addr _ => some (m.reg addr)
  | _ => none

theorem eq_of_advance {a b : Int64} (h : advance a (-8) = .ok b) : b = a - 8 := by
  rw [advance] at h
  split at h
  · cases h
    rw [Int64.ofInt_add, Int64.ofInt_toInt]
    exact (Int64.sub_eq_add_neg a 8).symm
  · cases h

theorem read?_of_pop {m m' : Machine} {v : Int64} (h : m.pop = .ok (v, m')) (a : Int64) :
    m'.read? a = m.read? a := by
  rw [pop] at h
  split at h
  · cases h
  · obtain ⟨top, -, hTop⟩ := bind_eq_ok.mp h
    cases hTop
    exact read?_setReg m .rsp top a

/-- A step changes memory at the address to which it writes, and nowhere else. -/
theorem read?_step {m m' : Machine} {i : Instr} (h : m.step i = .ok (.goes m')) {a : Int64}
    (ha : m.target? i ≠ some a) : m'.read? a = m.read? a := by
  cases i with
  | push src =>
    obtain ⟨v, -, hPush⟩ := bind_eq_ok.mp h
    obtain ⟨m₁, hm₁, hGoes⟩ := bind_eq_ok.mp hPush
    cases hGoes
    obtain ⟨top, hTop, hWrite⟩ := bind_eq_ok.mp hm₁
    cases hWrite
    rw [read?_write, read?_setReg, if_neg]
    rintro rfl
    exact ha (congrArg some (eq_of_advance hTop).symm)
  | pop dst =>
    obtain ⟨⟨v, m₁⟩, hPop, hGoes⟩ := bind_eq_ok.mp h
    cases hGoes
    rw [read?_setReg, read?_of_pop hPop]
  | mov dst src =>
    obtain ⟨v, -, hGoes⟩ := bind_eq_ok.mp h
    cases hGoes
    exact read?_setReg m dst v a
  | store addr src =>
    obtain ⟨v, -, hGoes⟩ := bind_eq_ok.mp h
    cases hGoes
    rw [read?_write, if_neg]
    intro he
    exact ha (congrArg some he)
  | arith op dst src =>
    obtain ⟨v, -, hGoes⟩ := bind_eq_ok.mp h
    cases hGoes
    exact read?_setReg m dst _ a
  | cqo =>
    cases h
    exact read?_setReg m .rdx _ a
  | idiv src =>
    obtain ⟨v, -, hDiv⟩ := bind_eq_ok.mp h
    split at hDiv
    · cases hDiv
    · cases hDiv
      rw [read?_setReg, read?_setReg]
  | cmp left right =>
    obtain ⟨v, -, hRight⟩ := bind_eq_ok.mp h
    obtain ⟨w, -, hGoes⟩ := bind_eq_ok.mp hRight
    cases hGoes
    rfl
  | setcc c dst =>
    cases h
    exact read?_setReg m dst _ a
  | movzb dst src =>
    obtain ⟨v, -, hGoes⟩ := bind_eq_ok.mp h
    cases hGoes
    exact read?_setReg m dst _ a
  | ret =>
    obtain ⟨v, -, hGoes⟩ := bind_eq_ok.mp h
    cases hGoes

/-! ### Inside the frame -/

/-- The frame pointer is where the prologue has set it, the stack ends at or below the frame, and
what the caller needs is still there. -/
structure InFrame (t : Locals) (m : Machine) : Prop where
  base : m.reg .rbp = 0xffff0
  aligned : (m.reg .rsp).toInt % 8 = 0
  top : (m.reg .rsp).toInt ≤ 0xffff0 - t.frameSize
  savedBase : m.read? 0xffff0 = some (initial.reg .rbp)
  returnTo : m.read? 0xffff8 = some returnAddress

/-- The instruction writes to the slot of a local or below the frame, if it writes at all. -/
structure WritesInside (t : Locals) (m : Machine) (i : Instr) : Prop where
  target : ∀ a, m.target? i = some a →
    (∃ j < t.length, a = slot j) ∨ a.toInt < 0xffff0 - t.frameSize
  elsewhere : ∀ m', m.step i = .ok (.goes m') → ∀ a, m.target? i ≠ some a → m'.read? a = m.read? a

/-- The crashes that a program can bring about. -/
inductive Foreseen (t : Locals) : Crash → Prop
  | divisionByZero : Foreseen t .divisionByZero
  | unassigned {i : Nat} : i < t.length → Foreseen t (.uninitialisedRead (slot i))

variable {t : Locals} {s : Store Nat} {pushed : List Int64} {m m' : Machine} {i : Instr} {k : Nat}

theorem writesInside_of_target (h : ∀ a, m.target? i = some a →
    (∃ j < t.length, a = slot j) ∨ a.toInt < 0xffff0 - t.frameSize) : WritesInside t m i :=
  ⟨h, fun _ hStep _ ha => read?_step hStep ha⟩

theorem writesInside_of_none (h : m.target? i = none) : WritesInside t m i := by
  refine writesInside_of_target ?_
  intro a ha
  rw [h] at ha
  cases ha

theorem Framed.inFrame (h : Framed t s pushed m) (hRoom : Room t pushed 0) : InFrame t m := by
  have hBase : below 0 = 0xffff0 := by decide
  have hReach : t.frameSize + 8 * pushed.length ≤ reach := hRoom
  have hTop := toInt_below hReach
  rw [← h.top] at hTop
  have hFrame : t.frameSize % 8 = 0 := by
    rw [Locals.frameSize, Locals.minFrameSize]
    omega
  refine ⟨h.base.trans hBase, ?_, ?_, ?_, h.returnTo⟩
  · rw [hTop]
    omega
  · rw [hTop]
    omega
  · rw [← hBase, h.savedBase]
    decide

/-! ### Safe code -/

/-- The code runs for up to `k` steps without leaving the frame, other than by giving it back. -/
inductive Safe (t : Locals) : Nat → Machine → List Instr → Prop
  | spent {m : Machine} {code : List Instr} : InFrame t m → Safe t 0 m code
  | ends {k : Nat} {m : Machine} : InFrame t m → Safe t k m []
  | leaves {k : Nat} {m : Machine} {v : Int64} (code : List Instr) :
      InFrame t m → m.stepAll epilogue = .ok (.returns v) → Safe t k m (epilogue ++ code)
  | goes {k : Nat} {m m' : Machine} {i : Instr} {code : List Instr} :
      InFrame t m → WritesInside t m i → m.step i = .ok (.goes m') → Safe t k m' code →
      Safe t (k + 1) m (i :: code)
  | crashes {k : Nat} {m : Machine} {i : Instr} {c : Crash} (code : List Instr) :
      InFrame t m → WritesInside t m i → m.step i = .error c → Foreseen t c →
      Safe t (k + 1) m (i :: code)

namespace Safe

variable {as bs : List Instr}

theorem inFrame (h : Safe t k m as) : InFrame t m := by
  cases h with
  | spent hFrame => exact hFrame
  | ends hFrame => exact hFrame
  | leaves _ hFrame => exact hFrame
  | goes hFrame => exact hFrame
  | crashes _ hFrame => exact hFrame

theorem writesInside (h : Safe t (k + 1) m (i :: as)) : WritesInside t m i := by
  generalize hCode : i :: as = code at h
  cases h with
  | ends => cases hCode
  | leaves =>
    cases hCode
    exact writesInside_of_none rfl
  | goes _ hWrites =>
    cases hCode
    exact hWrites
  | crashes _ _ hWrites =>
    cases hCode
    exact hWrites

/-- Code is safe if it is safe up to some place and from there on. -/
theorem append (h : Safe t k m as)
    (hRest : ∀ m', as.length ≤ k → m.stepAll as = .ok (.goes m') →
      Safe t (k - as.length) m' bs) : Safe t k m (as ++ bs) := by
  induction h with
  | spent hFrame => exact .spent hFrame
  | ends hFrame => exact hRest _ (Nat.zero_le _) rfl
  | leaves code hFrame hReturns =>
    rw [List.append_assoc]
    exact .leaves _ hFrame hReturns
  | goes hFrame hWrites hStep _ ih =>
    refine .goes hFrame hWrites hStep (ih ?_)
    intro m'' hLength hGoes
    have hLater := hRest m'' (Nat.succ_le_succ hLength) (by rw [stepAll_cons hStep, hGoes])
    rwa [List.length_cons, Nat.add_sub_add_right] at hLater
  | crashes code hFrame hWrites hStep hForeseen => exact .crashes _ hFrame hWrites hStep hForeseen

/-- What is reached while the frame is not given back is safe again. -/
theorem of_stepAll (h : Safe t k m (as ++ bs)) (hLength : as.length ≤ k)
    (hLeave : .mov .rsp (.reg .rbp) ∉ as) (hGoes : m.stepAll as = .ok (.goes m')) :
    Safe t (k - as.length) m' bs := by
  induction as generalizing k m with
  | nil =>
    cases hGoes
    exact h
  | cons i as ih =>
    rw [List.length_cons] at hLength ⊢
    rw [List.mem_cons, not_or] at hLeave
    generalize hCode : i :: as ++ bs = code at h
    cases h with
    | spent => exact absurd hLength (Nat.not_succ_le_zero _)
    | ends => cases hCode
    | leaves => exact absurd (List.cons.inj hCode).1.symm hLeave.1
    | goes _ _ hStep hSafe =>
      obtain ⟨rfl, rfl⟩ := List.cons.inj hCode
      rw [stepAll_cons hStep] at hGoes
      rw [Nat.add_sub_add_right]
      exact ih hSafe (Nat.le_of_succ_le_succ hLength) hLeave.2 hGoes
    | crashes _ _ _ hStep =>
      obtain ⟨rfl, rfl⟩ := List.cons.inj hCode
      rw [stepAll, hStep] at hGoes
      cases hGoes

theorem foreseen_of_stepAll (h : Safe t k m (as ++ bs)) (hLength : as.length ≤ k) {c : Crash}
    (hCrash : m.stepAll as = .error c) : Foreseen t c := by
  generalize hCode : as ++ bs = code at h
  induction h generalizing as with
  | spent =>
    rw [List.length_eq_zero_iff.mp (Nat.le_zero.mp hLength)] at hCrash
    cases hCrash
  | ends =>
    rw [(List.append_eq_nil_iff.mp hCode).1] at hCrash
    cases hCrash
  | @leaves k m v code _ hReturns =>
    -- neither a part of the epilogue nor anything behind it can crash
    have hAll : m.stepAll (as ++ bs) = .ok (.returns v) := by
      rw [hCode, stepAll_append, hReturns]
    rw [stepAll_append, hCrash] at hAll
    cases hAll
  | goes _ _ hStep _ ih =>
    cases as with
    | nil => cases hCrash
    | cons j as =>
      obtain ⟨rfl, rfl⟩ := List.cons.inj hCode
      rw [stepAll_cons hStep] at hCrash
      exact ih (Nat.le_of_succ_le_succ hLength) hCrash rfl
  | crashes _ _ _ hStep hForeseen =>
    cases as with
    | nil => cases hCrash
    | cons j as =>
      obtain ⟨rfl, -⟩ := List.cons.inj hCode
      rw [stepAll, hStep] at hCrash
      cases hCrash
      exact hForeseen

end Safe

end Machine

/-! ### Single instructions -/

/-- Whether the frame does not need a register. -/
def Reg.isFree : Reg → Bool
  | al => true
  | full x => x != "rbp" && x != "rsp"

/-- Whether an operand lies in memory. -/
def Operand.isMem : Operand → Bool
  | imm _ | reg _ => false
  | mem _ => true

/-- Whether an instruction does no more than to compute with registers, into free ones. -/
def Instr.isFree : Instr → Bool
  | mov dst src | arith _ dst src | movzb dst src => dst.isFree && !src.isMem
  | idiv src => !src.isMem
  | cmp left right => !left.isMem && !right.isMem
  | setcc _ dst => dst.isFree
  | cqo => true
  | push _ | pop _ | store .. | ret => false

namespace Machine

variable {t : Locals} {s : Store Nat} {pushed : List Int64} {m m' : Machine} {i : Instr} {k : Nat}
  {code : List Instr}

theorem exists_value (m : Machine) {src : Operand} (h : (!src.isMem) = true) :
    ∃ v, m.value src = .ok v := by
  cases src with
  | imm v => exact ⟨v, rfl⟩
  | reg r => exact ⟨m.reg r, rfl⟩
  | mem r => cases h

theorem target?_of_isFree (m : Machine) (h : i.isFree = true) : m.target? i = none := by
  cases i with
  | push src => cases h
  | store addr src => cases h
  | _ => rfl

namespace Framed

theorem setReg_of_isFree (h : Framed t s pushed m) {r : Reg} (hr : r.isFree = true) (v : Int64) :
    Framed t s pushed (m.setReg r v) := by
  cases r with
  | al => exact h.setAl v
  | full x =>
    rw [Reg.isFree, Bool.and_eq_true, bne_iff_ne, bne_iff_ne] at hr
    exact h.setReg hr.1 hr.2 v

/-- An instruction that is free keeps the frame, or divides by zero. -/
theorem step_free (h : Framed t s pushed m) (hi : i.isFree = true) :
    m.step i = .error .divisionByZero ∨
      ∃ m', m.step i = .ok (.goes m') ∧ Framed t s pushed m' := by
  cases i with
  | push src => cases hi
  | pop dst => cases hi
  | mov dst src =>
    obtain ⟨hDst, hSrc⟩ := Bool.and_eq_true_iff.mp hi
    obtain ⟨v, hv⟩ := m.exists_value hSrc
    refine Or.inr ⟨_, ?_, h.setReg_of_isFree hDst v⟩
    simp only [step, hv, bind, Except.bind, pure, Except.pure]
  | store addr src => cases hi
  | arith op dst src =>
    obtain ⟨hDst, hSrc⟩ := Bool.and_eq_true_iff.mp hi
    obtain ⟨v, hv⟩ := m.exists_value hSrc
    refine Or.inr ⟨_, ?_, h.setReg_of_isFree hDst (op.apply (m.reg dst) v)⟩
    simp only [step, hv, bind, Except.bind, pure, Except.pure]
  | cqo => exact Or.inr ⟨_, rfl, h.setReg_of_isFree (r := .rdx) rfl _⟩
  | idiv src =>
    obtain ⟨v, hv⟩ := m.exists_value hi
    by_cases hZero : v = 0
    · left
      simp only [step, hv, hZero, if_true, bind, Except.bind]
    · right
      have hf := h.setReg_of_isFree (r := .rax) rfl (m.reg .rax / v)
      refine ⟨_, ?_, hf.setReg_of_isFree (r := .rdx) rfl (m.reg .rax % v)⟩
      simp only [step, hv, hZero, if_false, bind, Except.bind, pure, Except.pure]
  | cmp left right =>
    obtain ⟨hLeft, hRight⟩ := Bool.and_eq_true_iff.mp hi
    obtain ⟨v, hv⟩ := m.exists_value hLeft
    obtain ⟨w, hw⟩ := m.exists_value hRight
    refine Or.inr ⟨{ m with compared := (v, w) }, ?_, h.congr rfl rfl (fun _ => rfl)⟩
    simp only [step, hv, hw, bind, Except.bind, pure, Except.pure]
  | setcc c dst => exact Or.inr ⟨_, rfl, h.setReg_of_isFree hi _⟩
  | movzb dst src =>
    obtain ⟨hDst, hSrc⟩ := Bool.and_eq_true_iff.mp hi
    obtain ⟨v, hv⟩ := m.exists_value hSrc
    refine Or.inr ⟨_, ?_, h.setReg_of_isFree hDst (lowByte v)⟩
    simp only [step, hv, bind, Except.bind, pure, Except.pure]
  | ret => cases hi

theorem of_stepAll_free (h : Framed t s pushed m) (hCode : ∀ i ∈ code, i.isFree = true)
    (hGoes : m.stepAll code = .ok (.goes m')) : Framed t s pushed m' := by
  induction code generalizing m with
  | nil =>
    cases hGoes
    exact h
  | cons i code ih =>
    rw [List.forall_mem_cons] at hCode
    rcases h.step_free hCode.1 with hStep | ⟨m₁, hStep, hf⟩
    · rw [stepAll, hStep] at hGoes
      cases hGoes
    · rw [stepAll_cons hStep] at hGoes
      exact ih hf hCode.2 hGoes

theorem safe_free (h : Framed t s pushed m) (hRoom : Room t pushed k)
    (hCode : ∀ i ∈ code, i.isFree = true) : Safe t k m code := by
  have hFrame := h.inFrame (hRoom.mono (Nat.zero_le k))
  induction code generalizing m k with
  | nil => exact .ends hFrame
  | cons i code ih =>
    rw [List.forall_mem_cons] at hCode
    have hWrites : WritesInside t m i := writesInside_of_none (m.target?_of_isFree hCode.1)
    cases k with
    | zero => exact .spent hFrame
    | succ k =>
      have hRoom' : Room t pushed k := hRoom.mono (Nat.le_succ k)
      rcases h.step_free hCode.1 with hStep | ⟨m₁, hStep, hf⟩
      · exact .crashes code hFrame hWrites hStep .divisionByZero
      · exact .goes hFrame hWrites hStep
          (ih hf hRoom' hCode.2 (hf.inFrame (hRoom'.mono (Nat.zero_le k))))

theorem writesInside_push (h : Framed t s pushed m) (hRoom : Room t pushed 1) (src : Operand) :
    WritesInside t m (.push src) := by
  have hReach : t.frameSize + 8 * pushed.length + 8 ≤ reach := by
    unfold Room at hRoom
    omega
  have hDown : advance (below (t.frameSize + 8 * pushed.length)) (-8) =
      .ok (below (t.frameSize + 8 * pushed.length + 8)) :=
    advance_below (by omega) hReach (by omega)
  refine writesInside_of_target ?_
  intro a ha
  cases ha
  right
  rw [h.top, ← eq_of_advance hDown, toInt_below hReach]
  omega

/-- A word is pushed, and the code ends. -/
theorem safe_push (h : Framed t s pushed m) (hRoom : Room t pushed k) {src : Operand} {v : Int64}
    (hv : m.value src = .ok v) : Safe t k m [.push src] := by
  have hFrame := h.inFrame (hRoom.mono (Nat.zero_le k))
  cases k with
  | zero => exact .spent hFrame
  | succ k =>
    obtain ⟨m', hStep, hf⟩ := h.step_push (hRoom.mono (Nat.le_add_left 1 k)) src hv
    exact .goes hFrame (h.writesInside_push (hRoom.mono (Nat.le_add_left 1 k)) src) hStep
      (.ends (hf.inFrame (hRoom.cons (Nat.le_add_left 1 k) v)))

theorem safe_free_push (h : Framed t s pushed m) (hRoom : Room t pushed k)
    (hCode : ∀ i ∈ code, i.isFree = true) (r : Reg) : Safe t k m (code ++ [.push (.reg r)]) := by
  refine (h.safe_free hRoom hCode).append ?_
  intro m' _ hGoes
  exact (h.of_stepAll_free hCode hGoes).safe_push (hRoom.mono (Nat.sub_le _ _)) rfl

/-- A word is popped into a register that the frame does not need, and the code goes on. -/
theorem safe_pop {v : Int64} (h : Framed t s (v :: pushed) m) (hRoom : Room t (v :: pushed) k)
    {x : String} (hBase : x ≠ "rbp") (hTop : x ≠ "rsp")
    (hRest : ∀ j m', Framed t s pushed m' → Room t pushed j → m'.reg (.full x) = v →
      Safe t j m' code) : Safe t k m (.pop (.full x) :: code) := by
  have hRoom' := hRoom.mono (Nat.zero_le k)
  have hFrame := h.inFrame hRoom'
  cases k with
  | zero => exact .spent hFrame
  | succ k =>
    obtain ⟨m', hStep, hf, hv, -⟩ := h.step_pop hRoom' hBase hTop
    exact .goes hFrame (writesInside_of_none rfl) hStep
      (hRest k m' hf (hRoom.of_cons.mono (by omega)) hv)

/-- Two operands are popped, and the code goes on. -/
theorem safe_popOperands {a b : Int64} (h : Framed t s (b :: a :: pushed) m)
    (hRoom : Room t (b :: a :: pushed) k)
    (hRest : ∀ j m', Framed t s pushed m' → Room t pushed j → m'.reg .rax = a → m'.reg .rdi = b →
      Safe t j m' code) : Safe t k m (popOperands ++ code) := by
  have hPops : Safe t k m popOperands := by
    refine h.safe_pop hRoom (by decide) (by decide) ?_
    intro j₁ m₁ hf₁ hRoom₁ _
    refine hf₁.safe_pop hRoom₁ (by decide) (by decide) ?_
    intro j₂ m₂ hf₂ hRoom₂ _
    exact .ends (hf₂.inFrame (hRoom₂.mono (Nat.zero_le j₂)))
  refine hPops.append ?_
  intro m₁ _ hGoes
  obtain ⟨m₂, hAll, hf, ha, hb⟩ := h.stepAll_popOperands (hRoom.mono (Nat.zero_le k))
  rw [hAll] at hGoes
  cases hGoes
  exact hRest _ m₁ hf (hRoom.of_cons.of_cons.mono (by omega)) ha hb

theorem safe_leave (h : Framed t s pushed m) (hRoom : Room t pushed 0) (code : List Instr) :
    Safe t k m (epilogue ++ code) :=
  .leaves code (h.inFrame hRoom) h.stepAll_epilogue

end Framed

end Machine

end Semicolon
