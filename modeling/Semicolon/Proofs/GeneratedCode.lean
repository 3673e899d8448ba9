import Semicolon.Proofs.Emission
import Semicolon.Proofs.Frame

/-!
# Generated code computes what the trees mean

`Node.eval` is the meaning of a tree over a store, and `Node.emit` is its code.  `Node.stepAll_emit`
is the simulation: from a framed machine, the code of a tree ends as the evaluation does (`Ends`).
If there is a value, it lies on top of what was pushed before and the slots hold the new store; a
return returns; a division by zero and a variable without a value stop the machine with the crash
that belongs to it.  `Program.execute_of_generate` is the same for whole programs, from text to
result.
-/

namespace Semicolon

open Machine

/-- The result of an evaluation and that of a run are the same value, or the same failure. -/
inductive SameOutcome : Except (Stop Nat) Int64 → Except Crash Int64 → Prop
  | value (v : Int64) : SameOutcome (.ok v) (.ok v)
  | divisionByZero : SameOutcome (.error .divisionByZero) (.error .divisionByZero)
  /-- A variable without a value has nothing in its slot. -/
  | unassigned (i : Nat) :
      SameOutcome (.error (.unassigned i)) (.error (.uninitialisedRead (slot i)))

theorem SameOutcome.eq_ok {x : Except (Stop Nat) Int64} {y : Except Crash Int64}
    (h : SameOutcome x y) {v : Int64} (hx : x = .ok v) : y = .ok v := by
  subst hx
  cases h
  rfl

/-- How the code of a tree ends if the evaluation of the tree ends so. -/
inductive Ends (t : Locals) (pushed : List Int64) :
    Except (Stop Nat) (Int64 × Store Nat) → Except Crash Next → Prop
  | value {v : Int64} {s : Store Nat} {m : Machine} :
      Framed t s (v :: pushed) m → Ends t pushed (.ok (v, s)) (.ok (.goes m))
  | returned (v : Int64) : Ends t pushed (.error (.returned v)) (.ok (.returns v))
  | divisionByZero : Ends t pushed (.error .divisionByZero) (.error .divisionByZero)
  | unassigned (i : Nat) :
      Ends t pushed (.error (.unassigned i)) (.error (.uninitialisedRead (slot i)))

/-- Code that goes on with the value of a tree, or ends with the tree. -/
theorem Ends.bind {t : Locals} {pushed pushed' : List Int64} {m : Machine} {code rest : List Instr}
    {x : Except (Stop Nat) (Int64 × Store Nat)}
    {f : Int64 × Store Nat → Except (Stop Nat) (Int64 × Store Nat)}
    (h : Ends t pushed' x (m.stepAll code))
    (hRest : ∀ v s m', Framed t s (v :: pushed') m' → Ends t pushed (f (v, s)) (m'.stepAll rest)) :
    Ends t pushed (x >>= f) (m.stepAll (code ++ rest)) := by
  rw [stepAll_append]
  cases hr : m.stepAll code with
  | error c =>
    rw [hr] at h
    cases h with
    | divisionByZero => exact .divisionByZero
    | unassigned i => exact .unassigned i
  | ok n =>
    rw [hr] at h
    cases h with
    | value hf => exact hRest _ _ _ hf
    | returned v => exact .returned v

namespace Node

variable {t : Locals}

theorem stepAll_emit_num {v : Int64} {code : List Instr} (hCode : (num v).emit t = .ok code)
    {s : Store Nat} {pushed : List Int64} {m : Machine} (h : Framed t s pushed m)
    (hRoom : Room t pushed 1) :
    ∃ m', m.stepAll code = .ok (.goes m') ∧ Framed t s (v :: pushed) m' := by
  cases hCode
  split
  · obtain ⟨m', hPush, hf⟩ := h.step_push hRoom (.imm v) rfl
    exact ⟨m', by rw [stepAll_cons hPush, stepAll_nil], hf⟩
  · have hMov : m.step (.mov .rax (.imm v)) = .ok (.goes (m.setReg .rax v)) := rfl
    have hf := h.setReg (x := "rax") (by decide) (by decide) v
    obtain ⟨m', hPush, hf'⟩ := hf.step_push hRoom (.reg .rax) rfl
    rw [reg_setReg, if_pos rfl] at hf'
    exact ⟨m', by rw [stepAll_cons hMov, stepAll_cons hPush, stepAll_nil], hf'⟩

theorem stepAll_load {i : Nat} (hi : i < t.length) {s : Store Nat} {pushed : List Int64}
    {m : Machine} (h : Framed t s (slot i :: pushed) m) (hRoom : Room t (slot i :: pushed) 0) :
    Ends t pushed ((var i).eval s)
      (m.stepAll [.pop .rax, .mov .rax (.mem .rax), .push (.reg .rax)]) := by
  obtain ⟨m₁, hPop, hf, hAddr, -⟩ := h.step_pop hRoom (x := "rax") (by decide) (by decide)
  have hRead : m₁.read? (slot i) = s i := hf.slots i hi
  rw [stepAll_cons hPop, eval]
  cases hv : s i with
  | none =>
    have hMov : m₁.step (.mov .rax (.mem .rax)) = .error (.uninitialisedRead (slot i)) := by
      simp only [step, value, hAddr, hRead, hv, bind, Except.bind]
    rw [stepAll, hMov]
    exact .unassigned i
  | some v =>
    have hMov : m₁.step (.mov .rax (.mem .rax)) = .ok (.goes (m₁.setReg .rax v)) := by
      simp only [step, value, hAddr, hRead, hv, bind, Except.bind, pure, Except.pure]
    have hf₁ := hf.setReg (x := "rax") (by decide) (by decide) v
    obtain ⟨m₂, hPush, hf'⟩ := hf₁.step_push hRoom.of_cons (.reg .rax) rfl
    rw [reg_setReg, if_pos rfl] at hf'
    rw [stepAll_cons hMov, stepAll_cons hPush, stepAll_nil]
    exact .value hf'

/-- A value is stored to the slot whose address lies below it. -/
theorem stepAll_store {i : Nat} (hi : i < t.length) {v : Int64} {s : Store Nat}
    {pushed : List Int64} {m : Machine} (h : Framed t s (v :: slot i :: pushed) m)
    (hRoom : Room t (v :: slot i :: pushed) 0) :
    Ends t pushed (.ok (v, s.set i v))
      (m.stepAll (popOperands ++ [.store .rax (.reg .rdi), .push (.reg .rdi)])) := by
  have hRoom' : Room t pushed 1 := hRoom.of_cons.of_cons.mono (by decide)
  obtain ⟨m₁, hPop, hf, hAddr, hv⟩ := h.stepAll_popOperands hRoom
  have hStore : m₁.step (.store .rax (.reg .rdi)) = .ok (.goes (m₁.write (slot i) v)) := by
    simp only [step, value, hAddr, hv, bind, Except.bind, pure, Except.pure]
  have hf' := hf.write (hRoom'.mono (Nat.zero_le 1)) hi v
  obtain ⟨m₂, hPush, hf₂⟩ := hf'.step_push hRoom' (.reg .rdi) rfl
  rw [reg_write, hv] at hf₂
  rw [stepAll_append_of_goes hPop, stepAll_cons hStore, stepAll_cons hPush, stepAll_nil]
  exact .value hf₂

/-- An operator takes its two operands and leaves its value. -/
theorem stepAll_operator (op : BinOp) {a b : Int64} {s : Store Nat} {pushed : List Int64}
    {m : Machine} (h : Framed t s (b :: a :: pushed) m) (hRoom : Room t (b :: a :: pushed) 0) :
    Ends t pushed
      (match op.apply? a b with
        | some v => .ok (v, s)
        | none => .error .divisionByZero)
      (m.stepAll (popOperands ++ (op.code ++ [.push (.reg .rax)]))) := by
  have hRoom' : Room t pushed 1 := hRoom.of_cons.of_cons.mono (by decide)
  obtain ⟨m₁, hPop, hf, ha, hb⟩ := h.stepAll_popOperands hRoom
  have hCode := hf.stepAll_code op
  rw [ha, hb] at hCode
  rw [stepAll_append_of_goes hPop]
  cases hv : op.apply? a b with
  | none =>
    rw [hv] at hCode
    rw [stepAll_append, hCode]
    exact .divisionByZero
  | some v =>
    rw [hv] at hCode
    obtain ⟨m₂, hOp, hf₂, hrax⟩ := hCode
    obtain ⟨m₃, hPush, hf₃⟩ := hf₂.step_push hRoom' (.reg .rax) rfl
    rw [hrax] at hf₃
    rw [stepAll_append_of_goes hOp, stepAll_cons hPush, stepAll_nil]
    exact .value hf₃

theorem stepAll_return {v : Int64} {s : Store Nat} {pushed : List Int64} {m : Machine}
    (h : Framed t s (v :: pushed) m) (hRoom : Room t (v :: pushed) 0) :
    m.stepAll (.pop .rax :: epilogue) = .ok (.returns v) := by
  obtain ⟨m₁, hPop, hf, hv, -⟩ := h.step_pop hRoom (x := "rax") (by decide) (by decide)
  rw [stepAll_cons hPop, hf.stepAll_epilogue, hv]

/-- **The code of a tree ends as the evaluation of the tree does.** -/
theorem stepAll_emit {n : Node Nat} {code : List Instr} (hCode : n.emit t = .ok code)
    {s : Store Nat} {pushed : List Int64} {m : Machine} (h : Framed t s pushed m)
    (hRoom : Room t pushed code.length) : Ends t pushed (n.eval s) (m.stepAll code) := by
  -- an instruction takes at most one place on the stack, so the length of the code is room enough
  induction n generalizing code s pushed m with
  | num v =>
    have hLength : 1 ≤ code.length := by
      cases hCode
      split <;> simp
    obtain ⟨m', hGoes, hf⟩ := stepAll_emit_num hCode h (hRoom.mono hLength)
    rw [hGoes]
    exact .value hf
  | var i =>
    obtain ⟨hi, rfl⟩ := emit_var_eq_ok.mp hCode
    simp only [List.length_append, List.length_cons] at hRoom
    obtain ⟨m', hGoes, hf⟩ := h.stepAll_address (hRoom.mono (by omega)) i
    rw [addressCode, stepAll_append_of_goes hGoes]
    exact stepAll_load hi hf (hRoom.cons (by omega) _)
  | binary op l r ihl ihr =>
    obtain ⟨a, b, ha, hb, rfl⟩ := emit_binary_eq_ok.mp hCode
    simp only [popOperands, List.length_append, List.length_cons] at hRoom
    refine (ihl ha h (hRoom.mono (by omega))).bind fun v s₁ m₁ hf₁ => ?_
    refine (ihr hb hf₁ (hRoom.cons (by omega) v)).bind fun w s₂ m₂ hf₂ => ?_
    exact stepAll_operator op hf₂ ((hRoom.cons (k := 1) (by omega) v).cons (by omega) w)
  | assign x v _ ihv =>
    obtain ⟨i, c, rfl, hi, hc, rfl⟩ := emit_assign_eq_ok.mp hCode
    simp only [popOperands, List.length_append, List.length_cons] at hRoom
    obtain ⟨m₁, hGoes, hf₁⟩ := h.stepAll_address (hRoom.mono (by omega)) i
    rw [addressCode, stepAll_append_of_goes hGoes]
    refine (ihv hc hf₁ (hRoom.cons (by omega) _)).bind fun w s₂ m₂ hf₂ => ?_
    exact stepAll_store hi hf₂ ((hRoom.cons (k := 1) (by omega) _).cons (by omega) w)
  | ret e ih =>
    obtain ⟨c, hc, rfl⟩ := emit_ret_eq_ok.mp hCode
    simp only [List.length_append, List.length_cons] at hRoom
    refine (ih hc h (hRoom.mono (by omega))).bind fun v s₁ m₁ hf₁ => ?_
    rw [stepAll_return hf₁ (hRoom.cons (by omega) v)]
    exact .returned v

end Node

namespace Program

variable {t : Locals}

theorem read?_initial {n : Nat} (hn : n ≤ reach) : initial.read? (below n) = none := by
  rw [initial, read?_write, if_neg (stackTop_ne_below hn), read?_setReg]
  simp [read?]

/-- Before the first statement, no variable has a value, nothing is pushed, and `rax` is `0`. -/
theorem stepAll_prologue (hCount : t.length < 2 ^ 53) :
    ∃ m, initial.stepAll (prologue t.frameSize) = .ok (.goes m) ∧ Framed t Store.empty [] m ∧
      m.reg .rax = 0 := by
  have hSize := Locals.frameSize_le hCount
  have hReach : t.frameSize ≤ reach := by
    rw [reach]
    omega
  have hReg : ∀ x, x ≠ "rsp" → initial.reg (.full x) = 0 := by
    intro x hx
    rw [initial, reg_write, reg_setReg, if_neg (Ne.symm hx)]
    simp [reg, full]
  have hTop : initial.reg .rsp = stackTop - 8 := by
    rw [initial, reg_write, reg_setReg, if_pos rfl]
  have hDown : advance (stackTop - 8) (-8) = .ok (below 0) := by decide
  let m₁ : Machine := (initial.setReg .rsp (below 0)).write (below 0) 0
  let m₂ : Machine := m₁.setReg .rbp (below 0)
  let m₃ : Machine := m₂.setReg .rsp (below t.frameSize)
  have hPush : initial.step (.push (.reg .rbp)) = .ok (.goes m₁) := by
    simp only [step, value, push, hReg "rbp" (by decide), hTop, hDown, bind, Except.bind, pure,
      Except.pure]
    rfl
  have hTop₁ : m₁.reg .rsp = below 0 := by
    rw [reg_write, reg_setReg, if_pos rfl]
  have hMov : m₁.step (.mov .rbp (.reg .rsp)) = .ok (.goes m₂) := by
    simp only [step, value, hTop₁, bind, Except.bind, pure, Except.pure]
    rfl
  have hTop₂ : m₂.reg .rsp = below 0 := by
    rw [reg_setReg, if_neg (by decide), hTop₁]
  have hSub : m₂.step (.arith .sub .rsp (.ofNat t.frameSize)) = .ok (.goes m₃) := by
    simp only [step, value, Operand.ofNat, hTop₂, bind, Except.bind, pure, Except.pure]
    rfl
  have hMemory : ∀ addr, m₃.read? addr = (initial.write (below 0) 0).read? addr := by
    intro addr
    rw [read?_setReg, read?_setReg, read?_write, read?_setReg, read?_write]
  refine ⟨m₃, ?_, ⟨?_, ?_, fun i hi => ?_, fun k v hk => ?_, ?_, ?_⟩, ?_⟩
  · rw [prologue, stepAll_cons hPush, stepAll_cons hMov, stepAll_cons hSub, stepAll_nil]
  · rw [reg_setReg, if_neg (by decide), reg_setReg, if_pos rfl]
  · rw [reg_setReg, if_pos rfl]
    rfl
  · have hOffset := Locals.offset_le_frameSize hi
    have hPos := Locals.offset_pos i
    rw [hMemory, slot, read?_write_below _ (Nat.zero_le _) (by omega) (by omega),
      read?_initial (by omega)]
    rfl
  · cases hk
  · rw [hMemory, read?_write, if_pos rfl]
  · rw [hMemory, read?_write_stackTop _ (Nat.zero_le _), initial, read?_write, if_pos rfl]
  · rw [reg_setReg, if_neg (by decide), reg_setReg, if_neg (by decide), reg_write, reg_setReg,
      if_neg (by decide), hReg "rax" (by decide)]

/-- Statements end as their evaluation does, from a machine that holds the value of the statement
before in `rax`. -/
theorem stepAll_emitStmts {ns : List (Node Nat)} {code : List Instr}
    (hCode : emitStmts t ns = .ok code) {s : Store Nat} {m : Machine} (h : Framed t s [] m)
    (hRoom : Room t [] code.length) :
    ∃ result : Except Crash Int64, m.stepAll (code ++ epilogue) = result.map .returns ∧
      SameOutcome (Node.evalAll (m.reg .rax) ns s) result := by
  induction ns generalizing code s m with
  | nil =>
    cases hCode
    exact ⟨.ok (m.reg .rax), h.stepAll_epilogue, .value _⟩
  | cons n ns ih =>
    obtain ⟨a, b, ha, hb, rfl⟩ := emitStmts_cons_eq_ok.mp hCode
    simp only [List.length_append, List.length_cons] at hRoom
    have hEnds := Node.stepAll_emit ha h (hRoom.mono (by omega))
    rw [List.append_assoc, List.cons_append, stepAll_append, Node.evalAll]
    cases hr : m.stepAll a with
    | error c =>
      rw [hr] at hEnds
      cases he : n.eval s with
      | ok p =>
        rw [he] at hEnds
        cases hEnds
      | error stop =>
        rw [he] at hEnds
        cases hEnds with
        | divisionByZero => exact ⟨_, rfl, .divisionByZero⟩
        | unassigned i => exact ⟨_, rfl, .unassigned i⟩
    | ok next =>
      rw [hr] at hEnds
      cases he : n.eval s with
      | error stop =>
        rw [he] at hEnds
        cases hEnds with
        | returned v => exact ⟨.ok v, rfl, .value v⟩
      | ok p =>
        rw [he] at hEnds
        cases hEnds with
        | value hf =>
          obtain ⟨m', hPop, hf', hv, -⟩ := hf.step_pop (hRoom.cons (by omega) _) (x := "rax")
            (by decide) (by decide)
          dsimp only
          rw [stepAll_cons hPop, ← hv]
          exact ih hb hf' (hRoom.mono (by omega))

theorem stepAll_emitBody {p : Program} {code : List Instr} (hCode : p.emitBody = .ok code)
    {m : Machine} (h : Framed p.locals Store.empty [] m) (hZero : m.reg .rax = 0)
    (hRoom : Room p.locals [] code.length) :
    ∃ result : Except Crash Int64, m.stepAll (code ++ epilogue) = result.map .returns ∧
      SameOutcome (Node.evalAll 0 p.body Store.empty) result := by
  rcases emitBody_eq_ok.mp hCode with ⟨hEmpty, rfl⟩ | ⟨-, hStmts⟩
  · have hMov : m.step (.mov .rax (.imm 0)) = .ok (.goes (m.setReg .rax 0)) := rfl
    have hf := h.setReg (x := "rax") (by decide) (by decide) 0
    refine ⟨.ok 0, ?_, by rw [hEmpty]; exact .value 0⟩
    rw [List.singleton_append, stepAll_cons hMov, hf.stepAll_epilogue, reg_setReg, if_pos rfl]
    rfl
  · rw [← hZero]
    exact stepAll_emitStmts hStmts h hRoom

theorem plain_routine (frameSize : Nat) {body : List Instr} (hPlain : ∀ i ∈ body, i.Plain) :
    ∀ i ∈ prologue frameSize ++ (body ++ epilogue), i.Plain := by
  simp only [List.forall_mem_append]
  refine ⟨?_, hPlain, by decide⟩
  rw [prologue, List.forall_mem_cons, List.forall_mem_cons, List.forall_mem_singleton]
  exact ⟨by decide, by decide, by decide, trivial⟩

theorem routine?_listing (frameSize : Nat) (body : List Instr) :
    routine? (listing frameSize body) =
      some ((prologue frameSize ++ (body ++ epilogue)).map (fun i => (Line.instr i).text) ++
        [".section .note.GNU-stack,\"\",@progbits"]) := by
  simp only [listing, List.cons_append, List.nil_append, routine?, mainLabel]
  rfl

theorem execute_listing (frameSize : Nat) {body : List Instr} (hPlain : ∀ i ∈ body, i.Plain)
    (hLength : (listing frameSize body).length ≤ stepLimit) {result : Except Crash Int64}
    (h : initial.stepAll (prologue frameSize ++ (body ++ epilogue)) = result.map .returns) :
    execute (listing frameSize body) = result := by
  have hBudget : (prologue frameSize ++ (body ++ epilogue)).length ≤ stepLimit := by
    rw [length_listing] at hLength
    simp only [prologue, epilogue, List.length_append, List.length_cons, List.length_nil]
    omega
  rw [execute, routine?_listing]
  dsimp only
  rw [run_instrs (plain_routine frameSize hPlain) hBudget, h]
  cases result <;> rfl

theorem execute_of_generate {p : Program} (hCount : p.locals.length < 2 ^ 53) {lines : List String}
    (hLines : p.generate = .ok lines) (hLength : lines.length ≤ stepLimit) :
    SameOutcome (Node.evalAll 0 p.body Store.empty) (execute lines) := by
  obtain ⟨body, hBody, rfl⟩ := generate_eq_ok.mp hLines
  obtain ⟨m, hPrologue, hf, hZero⟩ := stepAll_prologue hCount
  have hRoom : Room p.locals [] body.length := by
    have hSize := Locals.frameSize_le hCount
    rw [length_listing, stepLimit] at hLength
    rw [Room, reach, List.length_nil]
    omega
  obtain ⟨result, hResult, hSame⟩ := stepAll_emitBody hBody hf hZero hRoom
  rw [execute_listing _ (plain_of_emitBody hBody) hLength
    (by rw [stepAll_append_of_goes hPrologue]; exact hResult)]
  exact hSame

/-- **Generated code has the outcome of its program.**  There is code for every program over a table
of declared names whose variables are in the table and whose assignments are to variables; and if it
has no more lines than the machine makes steps, then executing it gives the value of the program, or
fails as its evaluation does. -/
theorem execute_generate {names : List String} {body : List (Node Nat)}
    (hCount : (Locals.ofNames names).length < 2 ^ 53)
    (hBody : ∀ n ∈ body, n.WellFormed (Locals.ofNames names).length) :
    ∃ lines, generate { body, locals := Locals.ofNames names } = .ok lines ∧
      (lines.length ≤ 1000000 →
        SameOutcome (Node.evalAll 0 body Store.empty) (execute lines)) := by
  obtain ⟨lines, hLines⟩ :=
    generate_isOk_iff (p := { body, locals := Locals.ofNames names }).mpr hBody
  exact ⟨lines, hLines, execute_of_generate hCount hLines⟩

/-- A return inside an operand ends the program with a value that is too wide to be pushed. -/
theorem execute_generate_early_return :
    (Locals.ofNames ["a", "b", "a"]).length < 2 ^ 53 ∧
      (∀ n ∈ [Node.assign (.var 1) (.binary .div (.num 1) (.ret (.num 4294967296))), .var 0],
        n.WellFormed (Locals.ofNames ["a", "b", "a"]).length) ∧
      ∃ lines, generate
          { body := [.assign (.var 1) (.binary .div (.num 1) (.ret (.num 4294967296))), .var 0],
            locals := Locals.ofNames ["a", "b", "a"] } = .ok lines ∧
        lines.length ≤ 1000000 ∧ execute lines = .ok 4294967296 := by
  obtain ⟨lines, hLines, hSame⟩ := @execute_generate ["a", "b", "a"]
    [.assign (.var 1) (.binary .div (.num 1) (.ret (.num 4294967296))), .var 0]
    (by decide) (by decide)
  have hLength : lines.length ≤ 1000000 := by
    cases hLines
    decide
  exact ⟨by decide, by decide, lines, hLines, hLength, (hSame hLength).eq_ok rfl⟩

end Program

end Semicolon
