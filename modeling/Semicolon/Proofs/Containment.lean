import Mathlib.Data.List.Basic
import Semicolon.Proofs.Safety

/-!
# Running code stays inside its frame

`Reached` says to which machines the run of some lines comes.  The code of a tree is safe by
induction on the tree (`Node.safe_emit`), so behind the prologue and up to an epilogue each of these
machines is safe with what is left of the code (`Program.safe_of_reached`).  A run has no more steps
than `stepLimit`, so there is always room on the stack, however long the code is.
-/

namespace Semicolon

namespace Machine

/-! ### The machines of a run -/

/-- Executes lines in order, up to one that returns or crashes. -/
def follow (m : Machine) : List String → Except Crash Next
  | [] => .ok (.goes m)
  | line :: lines =>
    match m.execLine line with
    | .ok (.goes m) => m.follow lines
    | stopped => stopped

/-- A run goes on from each machine to which it comes. -/
theorem run_append_of_follow {m m' : Machine} {done : List String} {budget : Nat}
    (h : m.follow done = .ok (.goes m')) (hBudget : done.length ≤ budget) (rest : List String) :
    m.run budget (done ++ rest) = m'.run (budget - done.length) rest := by
  induction done generalizing m budget with
  | nil =>
    cases h
    rfl
  | cons line done ih =>
    rw [List.length_cons] at hBudget ⊢
    obtain ⟨b, rfl⟩ : ∃ b, budget = b + 1 := ⟨budget - 1, by omega⟩
    rw [Nat.add_le_add_iff_right] at hBudget
    rw [Nat.add_sub_add_right, List.cons_append, run]
    rw [follow] at h
    cases hLine : m.execLine line with
    | error c =>
      rw [hLine] at h
      cases h
    | ok next =>
      rw [hLine] at h
      cases next with
      | returns v => cases h
      | goes m₁ => exact ih h hBudget

theorem follow_instrs (m : Machine) {code : List Instr} (hPlain : ∀ i ∈ code, i.Plain) :
    m.follow (code.map fun i => (Line.instr i).text) = m.stepAll code := by
  induction code generalizing m with
  | nil => rfl
  | cons i code ih =>
    rw [List.forall_mem_cons] at hPlain
    rw [List.map_cons, follow, execLine_text hPlain.1, stepAll]
    cases hStep : m.step i with
    | error c => rfl
    | ok next =>
      cases next with
      | returns v => rfl
      | goes m' => exact ih m' hPlain.2

/-- The run of `main` comes to the machine `m`, with the lines `done` behind it and the lines `rest`
before it. -/
structure Reached (lines done rest : List String) (m : Machine) : Prop where
  routine : routine? lines = some (done ++ rest)
  inTime : done.length ≤ stepLimit
  follow : initial.follow done = .ok (.goes m)

theorem Reached.execute_eq {lines done rest : List String} {m : Machine}
    (h : Reached lines done rest m) :
    execute lines = m.run (stepLimit - done.length) rest := by
  rw [execute, h.routine]
  exact run_append_of_follow h.follow h.inTime rest

end Machine

/-! ### The code of a tree -/

open Machine

theorem BinOp.isFree_code (op : BinOp) : ∀ i ∈ op.code, i.isFree = true := by
  cases op <;> decide

namespace Node

variable {t : Locals} {s : Store Nat} {pushed : List Int64} {m m' : Machine} {k : Nat}
  {n : Node Nat} {code : List Instr}

theorem length_pos_of_emit (h : n.emit t = .ok code) : 0 < code.length := by
  cases n with
  | num v =>
    cases h
    split <;> exact Nat.succ_pos _
  | var i =>
    obtain ⟨-, rfl⟩ := emit_var_eq_ok.mp h
    exact Nat.succ_pos _
  | binary op l r =>
    obtain ⟨a, b, -, -, rfl⟩ := emit_binary_eq_ok.mp h
    simp only [popOperands, List.length_append, List.length_cons]
    omega
  | assign x v =>
    obtain ⟨i, c, -, -, -, rfl⟩ := emit_assign_eq_ok.mp h
    exact Nat.succ_pos _
  | ret e =>
    obtain ⟨c, -, rfl⟩ := emit_ret_eq_ok.mp h
    rw [List.length_append, List.length_cons]
    omega

/-- Behind the code of a tree there is one word more on the stack. -/
theorem exists_framed_of_emit (hCode : n.emit t = .ok code) (h : Framed t s pushed m)
    (hRoom : Room t pushed code.length) (hGoes : m.stepAll code = .ok (.goes m')) :
    ∃ v s', Framed t s' (v :: pushed) m' := by
  have hEnds := stepAll_emit hCode h hRoom
  rw [hGoes] at hEnds
  generalize n.eval s = result at hEnds
  cases hEnds with
  | value hf => exact ⟨_, _, hf⟩

/-- The code behind a tree finds the value of the tree on the stack. -/
theorem safe_emit_append (hCode : n.emit t = .ok code) (h : Framed t s pushed m)
    (hRoom : Room t pushed k) (hSafe : Safe t k m code) {rest : List Instr}
    (hRest : ∀ j v s' m', Framed t s' (v :: pushed) m' → Room t (v :: pushed) j →
      Safe t j m' rest) : Safe t k m (code ++ rest) := by
  refine hSafe.append ?_
  intro m' hLength hGoes
  obtain ⟨v, s', hf⟩ := exists_framed_of_emit hCode h (hRoom.mono hLength) hGoes
  have hPos := length_pos_of_emit hCode
  exact hRest _ v s' m' hf (hRoom.cons (by omega) v)

theorem safe_num {v : Int64} (hCode : (num v).emit t = .ok code) (h : Framed t s pushed m)
    (hRoom : Room t pushed k) : Safe t k m code := by
  cases hCode
  split
  · exact h.safe_push hRoom rfl
  · have hFree : ∀ i ∈ [Instr.mov .rax (.imm v)], i.isFree = true :=
      List.forall_mem_singleton.mpr rfl
    exact h.safe_free_push hRoom hFree .rax

/-- The code behind the address of a local finds it on the stack. -/
theorem safe_address {i : Nat} (h : Framed t s pushed m) (hRoom : Room t pushed k)
    (hRest : ∀ j m', Framed t s (slot i :: pushed) m' → Room t (slot i :: pushed) j →
      Safe t j m' code) : Safe t k m (addressCode i ++ code) := by
  have hFree : ∀ j ∈ [Instr.mov .rax (.reg .rbp), .arith .sub .rax (.ofNat (Locals.offset i))],
      j.isFree = true := by
    rw [List.forall_mem_cons, List.forall_mem_singleton]
    exact ⟨rfl, rfl⟩
  have hAddress : Safe t k m (addressCode i) := h.safe_free_push hRoom hFree .rax
  refine hAddress.append ?_
  intro m₁ hLength hGoes
  have hLength' : 3 ≤ k := hLength
  obtain ⟨m₂, hAll, hf⟩ := h.stepAll_address (hRoom.mono (by omega)) i
  rw [addressCode, hAll] at hGoes
  cases hGoes
  exact hRest (k - 3) m₁ hf (hRoom.cons (by omega) _)

theorem safe_load {i : Nat} (hi : i < t.length) (h : Framed t s (slot i :: pushed) m)
    (hRoom : Room t (slot i :: pushed) k) :
    Safe t k m [.pop .rax, .mov .rax (.mem .rax), .push (.reg .rax)] := by
  refine h.safe_pop hRoom (by decide) (by decide) ?_
  intro j m₁ hf hRoom₁ hAddr
  have hFrame := hf.inFrame (hRoom₁.mono (Nat.zero_le j))
  have hRead : m₁.read? (slot i) = s i := hf.slots i hi
  cases j with
  | zero => exact .spent hFrame
  | succ j =>
    cases hv : s i with
    | none =>
      have hMov : m₁.step (.mov .rax (.mem .rax)) = .error (.uninitialisedRead (slot i)) := by
        simp only [step, value, hAddr, hRead, hv, bind, Except.bind]
      exact .crashes _ hFrame (writesInside_of_none rfl) hMov (.unassigned hi)
    | some v =>
      have hMov : m₁.step (.mov .rax (.mem .rax)) = .ok (.goes (m₁.setReg .rax v)) := by
        simp only [step, value, hAddr, hRead, hv, bind, Except.bind, pure, Except.pure]
      have hf₁ := hf.setReg_of_isFree (r := .rax) rfl v
      exact .goes hFrame (writesInside_of_none rfl) hMov
        (hf₁.safe_push (hRoom₁.mono (Nat.le_succ j)) rfl)

theorem safe_store {i : Nat} (hi : i < t.length) {v : Int64}
    (h : Framed t s (v :: slot i :: pushed) m) (hRoom : Room t (v :: slot i :: pushed) k) :
    Safe t k m (popOperands ++ [.store .rax (.reg .rdi), .push (.reg .rdi)]) := by
  refine h.safe_popOperands hRoom ?_
  intro j m₁ hf hRoom₁ hAddr hv
  have hFrame := hf.inFrame (hRoom₁.mono (Nat.zero_le j))
  have hWrites : WritesInside t m₁ (.store .rax (.reg .rdi)) := by
    refine writesInside_of_target ?_
    intro a ha
    cases ha
    exact Or.inl ⟨i, hi, hAddr⟩
  have hStore : m₁.step (.store .rax (.reg .rdi)) = .ok (.goes (m₁.write (slot i) v)) := by
    simp only [step, value, hAddr, hv, bind, Except.bind, pure, Except.pure]
  cases j with
  | zero => exact .spent hFrame
  | succ j =>
    have hf' := hf.write (hRoom₁.mono (Nat.zero_le _)) hi v
    exact .goes hFrame hWrites hStore (hf'.safe_push (hRoom₁.mono (Nat.le_succ j)) rfl)

theorem safe_operator (op : BinOp) {a b : Int64} (h : Framed t s (b :: a :: pushed) m)
    (hRoom : Room t (b :: a :: pushed) k) :
    Safe t k m (popOperands ++ (op.code ++ [.push (.reg .rax)])) := by
  refine h.safe_popOperands hRoom ?_
  intro j m₁ hf hRoom₁ _ _
  exact hf.safe_free_push hRoom₁ op.isFree_code .rax

/-- **The code of a tree is safe.** -/
theorem safe_emit (hCode : n.emit t = .ok code) (h : Framed t s pushed m)
    (hRoom : Room t pushed k) : Safe t k m code := by
  -- each part of the code that was run to its end has left one word on the stack
  induction n generalizing code s pushed m k with
  | num v => exact safe_num hCode h hRoom
  | var i =>
    obtain ⟨hi, rfl⟩ := emit_var_eq_ok.mp hCode
    refine safe_address h hRoom ?_
    intro j m₁ hf hRoom₁
    exact safe_load hi hf hRoom₁
  | binary op l r ihl ihr =>
    obtain ⟨a, b, ha, hb, rfl⟩ := emit_binary_eq_ok.mp hCode
    refine safe_emit_append ha h hRoom (ihl ha h hRoom) ?_
    intro j₁ v s₁ m₁ hf₁ hRoom₁
    refine safe_emit_append hb hf₁ hRoom₁ (ihr hb hf₁ hRoom₁) ?_
    intro j₂ w s₂ m₂ hf₂ hRoom₂
    exact safe_operator op hf₂ hRoom₂
  | assign x v _ ihv =>
    obtain ⟨i, c, rfl, hi, hc, rfl⟩ := emit_assign_eq_ok.mp hCode
    refine safe_address h hRoom ?_
    intro j₁ m₁ hf₁ hRoom₁
    refine safe_emit_append hc hf₁ hRoom₁ (ihv hc hf₁ hRoom₁) ?_
    intro j₂ w s₂ m₂ hf₂ hRoom₂
    exact safe_store hi hf₂ hRoom₂
  | ret e ih =>
    obtain ⟨c, hc, rfl⟩ := emit_ret_eq_ok.mp hCode
    refine safe_emit_append hc h hRoom (ih hc h hRoom) ?_
    intro j₁ v s₁ m₁ hf₁ hRoom₁
    refine hf₁.safe_pop hRoom₁ (by decide) (by decide) ?_
    intro j₂ m₂ hf₂ hRoom₂ _
    exact hf₂.safe_leave (hRoom₂.mono (Nat.zero_le j₂)) []

end Node

/-! ### Programs -/

namespace Program

variable {t : Locals} {s : Store Nat} {m m' : Machine} {k : Nat} {code : List Instr}

theorem safe_emitStmts {ns : List (Node Nat)} (hCode : emitStmts t ns = .ok code)
    (h : Framed t s [] m) (hRoom : Room t [] k) : Safe t k m (code ++ epilogue) := by
  induction ns generalizing code s m k with
  | nil =>
    cases hCode
    exact h.safe_leave (hRoom.mono (Nat.zero_le k)) []
  | cons n ns ih =>
    obtain ⟨a, b, ha, hb, rfl⟩ := emitStmts_cons_eq_ok.mp hCode
    rw [List.append_assoc, List.cons_append]
    refine Node.safe_emit_append ha h hRoom (Node.safe_emit ha h hRoom) ?_
    intro j₁ v s₁ m₁ hf₁ hRoom₁
    refine hf₁.safe_pop hRoom₁ (by decide) (by decide) ?_
    intro j₂ m₂ hf₂ hRoom₂ _
    exact ih hb hf₂ hRoom₂

theorem safe_emitBody {p : Program} (hCode : p.emitBody = .ok code)
    (h : Framed p.locals s [] m) (hRoom : Room p.locals [] k) :
    Safe p.locals k m (code ++ epilogue) := by
  rcases emitBody_eq_ok.mp hCode with ⟨-, rfl⟩ | ⟨-, hStmts⟩
  · have hFree : ∀ i ∈ [Instr.mov .rax (.imm 0)], i.isFree = true := by decide
    refine (h.safe_free hRoom hFree).append ?_
    intro m' _ hGoes
    exact (h.of_stepAll_free hFree hGoes).safe_leave (hRoom.mono (Nat.zero_le k)) []
  · exact safe_emitStmts hStmts h hRoom

/-- Behind a statement there is nothing on the stack. -/
theorem exists_framed_of_emitStmts {ns : List (Node Nat)} (hCode : emitStmts t ns = .ok code)
    (h : Framed t s [] m) (hRoom : Room t [] code.length)
    (hGoes : m.stepAll code = .ok (.goes m')) : ∃ s', Framed t s' [] m' := by
  induction ns generalizing code s m with
  | nil =>
    cases hCode
    cases hGoes
    exact ⟨s, h⟩
  | cons n ns ih =>
    obtain ⟨a, b, ha, hb, rfl⟩ := emitStmts_cons_eq_ok.mp hCode
    simp only [List.length_append, List.length_cons] at hRoom
    rw [stepAll_append] at hGoes
    cases hFirst : m.stepAll a with
    | error c =>
      rw [hFirst] at hGoes
      cases hGoes
    | ok next =>
      rw [hFirst] at hGoes
      cases next with
      | returns v => cases hGoes
      | goes m₁ =>
        obtain ⟨v, s₁, hf₁⟩ := Node.exists_framed_of_emit ha h (hRoom.mono (by omega)) hFirst
        obtain ⟨m₂, hPop, hf₂, -⟩ := hf₁.step_pop (hRoom.cons (by omega) v) (x := "rax")
          (by decide) (by decide)
        dsimp only at hGoes
        rw [stepAll_cons hPop] at hGoes
        exact ih hb hf₂ (hRoom.mono (by omega)) hGoes

theorem exists_of_emitStmts_append {before after : List (Node Nat)}
    (h : emitStmts t (before ++ after) = .ok code) :
    ∃ a b, emitStmts t before = .ok a ∧ code = a ++ b := by
  induction before generalizing code with
  | nil => exact ⟨[], code, rfl, rfl⟩
  | cons n before ih =>
    obtain ⟨c, d, hc, hd, rfl⟩ := emitStmts_cons_eq_ok.mp h
    obtain ⟨a, b, ha, rfl⟩ := ih hd
    refine ⟨c ++ .pop .rax :: a, b, emitStmts_cons_eq_ok.mpr ⟨c, a, hc, ha, rfl⟩, ?_⟩
    rw [List.append_assoc, List.cons_append]

/-- The code of the first statements comes first. -/
theorem exists_of_emitBody {p : Program} {body : List Instr} (hBody : p.emitBody = .ok body)
    {before after : List (Node Nat)} (hSplit : p.body = before ++ after)
    (hCode : emitStmts p.locals before = .ok code) : ∃ later, body = code ++ later := by
  rcases emitBody_eq_ok.mp hBody with ⟨hEmpty, -⟩ | ⟨-, hStmts⟩
  · rw [hSplit, List.append_eq_nil_iff] at hEmpty
    rw [hEmpty.1] at hCode
    cases hCode
    exact ⟨body, rfl⟩
  · rw [hSplit] at hStmts
    obtain ⟨a, b, ha, rfl⟩ := exists_of_emitStmts_append hStmts
    rw [hCode] at ha
    cases ha
    exact ⟨b, rfl⟩

/-- A run makes so few steps that its stack has room. -/
theorem room_stepLimit (hCount : t.length < 2 ^ 53) : Room t [] (stepLimit + 1) := by
  have hSize := Locals.frameSize_le hCount
  rw [Room, reach, stepLimit, List.length_nil]
  omega

/-- The lines behind a machine of a run are those of some of the instructions. -/
theorem exists_code_of_reached {frameSize : Nat} {body : List Instr}
    (hPlain : ∀ i ∈ body, i.Plain) {done rest : List String}
    (h : Reached (listing frameSize body) done rest m) (hLeave : "  mov rsp, rbp" ∉ done) :
    ∃ pre post, prologue frameSize ++ (body ++ epilogue) = pre ++ post ∧
      done = pre.map (fun i => (Line.instr i).text) ∧
      rest = post.map (fun i => (Line.instr i).text) ++
        [".section .note.GNU-stack,\"\",@progbits"] ∧
      .mov .rsp (.reg .rbp) ∉ pre ∧ initial.stepAll pre = .ok (.goes m) := by
  have hAll := plain_routine frameSize hPlain
  have hRoutine := h.routine
  rw [routine?_listing, Option.some.injEq, List.append_eq_append_iff] at hRoutine
  rcases hRoutine with ⟨extra, hDone, -⟩ | ⟨later, hMap, hRest⟩
  · -- the epilogue is behind the machine
    refine absurd ?_ hLeave
    have hMem : Instr.mov .rsp (.reg .rbp) ∈ prologue frameSize ++ (body ++ epilogue) := by
      simp [epilogue]
    rw [hDone]
    exact List.mem_append_left extra (List.mem_map_of_mem hMem)
  · obtain ⟨pre, post, hCode, rfl, rfl⟩ := List.map_eq_append_iff.mp hMap
    refine ⟨pre, post, hCode, rfl, hRest, ?_, ?_⟩
    · intro hMem
      exact hLeave (List.mem_map_of_mem hMem)
    · have hFollow := h.follow
      rw [hCode, List.forall_mem_append] at hAll
      rwa [follow_instrs initial hAll.1] at hFollow

/-- Behind the prologue, each machine of a run is safe with what is left of the code. -/
theorem safe_of_reached {p : Program} (hCount : p.locals.length < 2 ^ 53) {body : List Instr}
    (hBody : p.emitBody = .ok body) {done rest : List String}
    (h : Reached (listing p.locals.frameSize body) done rest m)
    (hDone : (prologue p.locals.frameSize).length ≤ done.length)
    (hLeave : "  mov rsp, rbp" ∉ done) :
    ∃ pre post m₀, body ++ epilogue = pre ++ post ∧
      done.length = (prologue p.locals.frameSize ++ pre).length ∧
      rest = post.map (fun i => (Line.instr i).text) ++
        [".section .note.GNU-stack,\"\",@progbits"] ∧
      Framed p.locals Store.empty [] m₀ ∧ m₀.stepAll pre = .ok (.goes m) ∧
      Safe p.locals (stepLimit + 1 - pre.length) m post := by
  obtain ⟨m₀, hPrologue, hf, -⟩ := stepAll_prologue hCount
  obtain ⟨all, post, hCode, rfl, hRest, hMov, hGoes⟩ :=
    exists_code_of_reached (plain_of_emitBody hBody) h hLeave
  have hTime := h.inTime
  rw [List.length_map] at hDone hTime
  obtain ⟨pre, rfl⟩ : prologue p.locals.frameSize <+: all :=
    List.prefix_of_prefix_length_le ⟨_, rfl⟩ ⟨post, hCode.symm⟩ hDone
  rw [List.append_assoc, List.append_cancel_left_eq] at hCode
  rw [stepAll_append_of_goes hPrologue] at hGoes
  rw [List.length_append] at hTime
  have hSafe := safe_emitBody hBody hf (room_stepLimit hCount)
  rw [hCode] at hSafe
  refine ⟨pre, post, m₀, hCode, List.length_map _, hRest, hf, hGoes, ?_⟩
  refine hSafe.of_stepAll (by omega) ?_ hGoes
  intro hMem
  exact hMov (List.mem_append_right _ hMem)

/-- The code of a routine comes to no end but a return or a crash. -/
theorem stepAll_ne_goes (m : Machine) (code : List Instr) :
    m.stepAll (code ++ epilogue) ≠ .ok (.goes m') := by
  have hRet : ∀ m : Machine, m.stepAll [.ret] ≠ .ok (.goes m') := by
    intro m h
    rw [stepAll, step] at h
    cases hReturn : m.return? with
    | error c =>
      rw [hReturn] at h
      cases h
    | ok v =>
      rw [hReturn] at h
      cases h
  have hSplit : code ++ epilogue = (code ++ [.mov .rsp (.reg .rbp), .pop .rbp]) ++ [.ret] := by
    rw [List.append_assoc]
    rfl
  intro h
  rw [hSplit, stepAll_append] at h
  split at h
  · next m₁ _ => exact hRet m₁ h
  · next hStopped => exact hStopped m' h

/-- The next instruction of a run writes to a local or below the frame. -/
theorem writesInside_of_reached {p : Program} (hCount : p.locals.length < 2 ^ 53)
    {body : List Instr} (hBody : p.emitBody = .ok body) {done rest : List String}
    (h : Reached (listing p.locals.frameSize body) done rest m)
    (hDone : (prologue p.locals.frameSize).length ≤ done.length)
    (hLeave : "  mov rsp, rbp" ∉ done) {line : String} (hLine : rest.head? = some line)
    {i : Instr} (hRead : Line.read line = .ok (.instr i)) : WritesInside p.locals m i := by
  obtain ⟨pre, post, m₀, hCode, hLength, hRest, -, hGoes, hSafe⟩ :=
    safe_of_reached hCount hBody h hDone hLeave
  have hTime := h.inTime
  rw [hLength, List.length_append] at hTime
  cases post with
  | nil =>
    -- there would be nothing left of the epilogue
    rw [List.append_nil] at hCode
    rw [← hCode] at hGoes
    exact absurd hGoes (stepAll_ne_goes m₀ body)
  | cons j post =>
    have hPlain : j.Plain := by
      refine plain_routine p.locals.frameSize (plain_of_emitBody hBody) j ?_
      rw [hCode]
      simp
    rw [hRest] at hLine
    cases hLine
    rw [Line.read_text hPlain] at hRead
    cases hRead
    obtain ⟨k, hk⟩ : ∃ k, stepLimit + 1 - pre.length = k + 1 :=
      ⟨stepLimit - pre.length, by omega⟩
    rw [hk] at hSafe
    exact hSafe.writesInside

/-- Behind the first statements of a program, the stack ends where the frame does. -/
theorem top_of_reached {p : Program} (hCount : p.locals.length < 2 ^ 53) {body : List Instr}
    (hBody : p.emitBody = .ok body) {done rest : List String}
    (h : Reached (listing p.locals.frameSize body) done rest m)
    (hDone : (prologue p.locals.frameSize).length ≤ done.length)
    (hLeave : "  mov rsp, rbp" ∉ done) {before after : List (Node Nat)}
    (hSplit : p.body = before ++ after) (hStmts : emitStmts p.locals before = .ok code)
    (hSame : done.length = (prologue p.locals.frameSize ++ code).length) :
    (m.reg .rsp).toInt = 0xffff0 - p.locals.frameSize := by
  obtain ⟨pre, post, m₀, hCode, hLength, -, hf, hGoes, -⟩ :=
    safe_of_reached hCount hBody h hDone hLeave
  have hTime := h.inTime
  rw [hLength, List.length_append] at hTime
  obtain ⟨later, rfl⟩ := exists_of_emitBody hBody hSplit hStmts
  rw [hLength, List.length_append, List.length_append, Nat.add_left_cancel_iff] at hSame
  rw [List.append_assoc] at hCode
  obtain ⟨rfl, -⟩ := List.append_inj hCode hSame.symm
  have hRoom : Room p.locals [] code.length := (room_stepLimit hCount).mono (by omega)
  have hReach : p.locals.frameSize ≤ reach := hRoom.mono (Nat.zero_le _)
  obtain ⟨s, hf'⟩ := exists_framed_of_emitStmts hStmts hf hRoom hGoes
  have hTop : m.reg .rsp = below p.locals.frameSize := hf'.top
  rw [hTop, toInt_below hReach]

/-- A part of the code that fits into a run fails in a foreseen way only. -/
theorem foreseen_of_stepAll {p : Program} (hCount : p.locals.length < 2 ^ 53) {body : List Instr}
    (hBody : p.emitBody = .ok body) {pre post : List Instr}
    (hCode : prologue p.locals.frameSize ++ (body ++ epilogue) = pre ++ post)
    (hLength : pre.length ≤ stepLimit) {c : Crash} (h : initial.stepAll pre = .error c) :
    Foreseen p.locals c := by
  obtain ⟨m₀, hPrologue, hf, -⟩ := stepAll_prologue hCount
  have hFirst : prologue p.locals.frameSize <+: pre ++ post := ⟨_, hCode⟩
  rcases List.prefix_or_prefix_of_prefix (List.prefix_append pre post) hFirst with
    ⟨later, hLater⟩ | ⟨later, rfl⟩
  · -- the prologue does not fail
    rw [← hLater, stepAll_append, h] at hPrologue
    cases hPrologue
  · rw [List.append_assoc, List.append_cancel_left_eq] at hCode
    rw [stepAll_append_of_goes hPrologue] at h
    rw [List.length_append] at hLength
    have hSafe := safe_emitBody hBody hf (room_stepLimit hCount)
    rw [hCode] at hSafe
    exact hSafe.foreseen_of_stepAll (by omega) h

/-- How a run of generated code can fail. -/
theorem foreseen_of_execute {p : Program} (hCount : p.locals.length < 2 ^ 53) {body : List Instr}
    (hBody : p.emitBody = .ok body) {c : Crash}
    (h : execute (listing p.locals.frameSize body) = .error c) :
    Foreseen p.locals c ∨
      c = .stepLimit ∧ 1000000 < (listing p.locals.frameSize body).length := by
  have hPlain := plain_routine p.locals.frameSize (plain_of_emitBody hBody)
  have hEnds : ∀ m', initial.stepAll (prologue p.locals.frameSize ++ (body ++ epilogue)) ≠
      .ok (.goes m') := by
    intro m'
    rw [← List.append_assoc]
    exact stepAll_ne_goes initial _
  have hLines : (listing p.locals.frameSize body).length =
      (prologue p.locals.frameSize ++ (body ++ epilogue)).length + 4 := by
    simp [length_listing, prologue, epilogue]
  rw [execute, routine?_listing] at h
  generalize hCode : prologue p.locals.frameSize ++ (body ++ epilogue) = code at *
  -- the instructions for which there are steps, and the others
  have hSplit : code = code.take stepLimit ++ code.drop stepLimit :=
    (List.take_append_drop stepLimit code).symm
  have hTake : (code.take stepLimit).length ≤ stepLimit := List.length_take_le _ _
  have hPlainTake : ∀ i ∈ code.take stepLimit, i.Plain := by
    intro i hi
    exact hPlain i (List.mem_of_mem_take hi)
  dsimp only at h
  conv at h => lhs; rw [hSplit, List.map_append, List.append_assoc]
  rw [run_instrs hPlainTake hTake] at h
  cases hRun : initial.stepAll (code.take stepLimit) with
  | error c' =>
    rw [hRun] at h
    cases h
    exact Or.inl (foreseen_of_stepAll hCount hBody (hCode.trans hSplit) hTake hRun)
  | ok next =>
    rw [hRun] at h
    cases next with
    | returns v => cases h
    | goes m' =>
      by_cases hLength : code.length ≤ stepLimit
      · rw [List.take_of_length_le hLength] at hRun
        exact absurd hRun (hEnds m')
      · have hSpent : (code.take stepLimit).length = stepLimit := by
          rw [List.length_take]
          omega
        rw [hSpent, Nat.sub_self] at h
        refine Or.inr ⟨?_, ?_⟩
        · cases h
          rfl
        · rw [hLines]
          rw [stepLimit] at hLength
          omega

/-- **Generated code stays inside its frame.**  There is code for every program whose variables are
in its table and whose assignments are to variables.  At each machine to which its run comes, behind
the prologue and before an epilogue, the frame is as the prologue has left it, and the next
instruction writes to a local or below the frame; between two statements the stack is empty.  So
the run can fail only by a division by zero, by reading a local that has no value, or, if there are
too many lines, for lack of steps. -/
theorem execute_stays_in_frame {p : Program} (hCount : p.locals.length < 2 ^ 53)
    (hBody : ∀ n ∈ p.body, n.WellFormed p.locals.length) :
    ∃ lines, p.generate = .ok lines ∧
      (∀ done rest m, Reached lines done rest m →
        (prologue p.locals.frameSize).length ≤ done.length → "  mov rsp, rbp" ∉ done →
        execute lines = m.run (stepLimit - done.length) rest ∧
          InFrame p.locals m ∧
          (∀ line i, rest.head? = some line → Line.read line = .ok (.instr i) →
            WritesInside p.locals m i) ∧
          ∀ before after code, p.body = before ++ after →
            emitStmts p.locals before = .ok code →
            done.length = (prologue p.locals.frameSize ++ code).length →
            (m.reg .rsp).toInt = 0xffff0 - p.locals.frameSize) ∧
      ∀ c, execute lines = .error c →
        Foreseen p.locals c ∨ c = .stepLimit ∧ 1000000 < lines.length := by
  obtain ⟨lines, hLines⟩ := generate_isOk_iff.mpr hBody
  refine ⟨lines, hLines, ?_, ?_⟩
  · obtain ⟨body, hEmit, rfl⟩ := generate_eq_ok.mp hLines
    intro done rest m hReached hDone hLeave
    obtain ⟨_, _, _, _, _, _, _, _, hSafe⟩ := safe_of_reached hCount hEmit hReached hDone hLeave
    refine ⟨hReached.execute_eq, hSafe.inFrame, ?_, ?_⟩
    · intro line i hLine hRead
      exact writesInside_of_reached hCount hEmit hReached hDone hLeave hLine hRead
    · intro before after code hSplit hStmts hSame
      exact top_of_reached hCount hEmit hReached hDone hLeave hSplit hStmts hSame
  · obtain ⟨body, hEmit, rfl⟩ := generate_eq_ok.mp hLines
    intro c hCrash
    exact foreseen_of_execute hCount hEmit hCrash

/-- A machine of such a run has the address of a local and an operand on its stack, and is about to
push what is returned from within the other operand. -/
theorem execute_stays_in_frame_pending :
    ∃ lines rest m,
      generate
        { body := [.assign (.var 0) (.binary .add (.num 1) (.ret (.num 2))), .var 0],
          locals := Locals.ofNames ["a"] } = .ok lines ∧
      Reached lines ["  push rbp", "  mov rbp, rsp", "  sub rsp, 208", "  mov rax, rbp",
        "  sub rax, 8", "  push rax", "  push 1"] rest m ∧
      InFrame (Locals.ofNames ["a"]) m ∧
      WritesInside (Locals.ofNames ["a"]) m (.push (.imm 2)) := by
  obtain ⟨lines, hLines, hMachines, -⟩ := @execute_stays_in_frame
    { body := [.assign (.var 0) (.binary .add (.num 1) (.ret (.num 2))), .var 0],
      locals := Locals.ofNames ["a"] } (by decide) (by decide)
  have hReached : ∃ rest m, Reached lines ["  push rbp", "  mov rbp, rsp", "  sub rsp, 208",
      "  mov rax, rbp", "  sub rax, 8", "  push rax", "  push 1"] rest m ∧
      rest.head? = some "  push 2" := by
    cases hLines
    exact ⟨_, _, ⟨rfl, by decide, rfl⟩, rfl⟩
  obtain ⟨rest, m, hReached, hHead⟩ := hReached
  obtain ⟨-, hFrame, hWrites, -⟩ := hMachines _ rest m hReached (by decide) (by decide)
  exact ⟨lines, rest, m, hLines, hReached, hFrame, hWrites _ _ hHead rfl⟩

end Program

end Semicolon
