import Mathlib.Data.List.Basic
import Semicolon.Proofs.Containment

/-!
# Runs go straight through

There are no jumps, so all that a run does with its lines is to follow them.  `run_eq` says how the
number of steps comes in: a run is decided by the lines that it has the steps for, and if these do
not decide it, it fell off their end or was out of steps.  Neither is a crash of an instruction
(`isLocal_of_follow`).  So lines that are not executed do not matter, and marks, which do nothing
but take a step, matter only for the number of steps.
-/

namespace Semicolon

/-- Whether a crash is one of the line that is executed. -/
def Crash.isLocal : Crash → Bool
  | noMain | fellOff | stepLimit => false
  | uninitialisedRead _ | emptyPop _ | divisionByZero | bogusReturn | unbalancedReturn
  | unsupported _ | pointerOverflow => true

/-- Whether the trimmed text of a line starts with `.` or ends with `:`. -/
def IsMark (line : String) : Prop :=
  (Text.trim line.toList).head? = some '.' ∨ (Text.trim line.toList).getLast? = some ':'

instance (line : String) : Decidable (IsMark line) :=
  inferInstanceAs (Decidable (_ ∨ _))

theorem IsMark.exists_read {line : String} (h : IsMark line) :
    ∃ text, Line.read line = .ok (.mark text) := by
  rw [Line.read]
  exact ⟨_, if_pos h⟩

/-- The second list is the first one with some marks in between. -/
inductive Marked : List String → List String → Prop
  | nil : Marked [] []
  | keep (line : String) {lines lines' : List String} (h : Marked lines lines') :
      Marked (line :: lines) (line :: lines')
  | insert {line : String} (hMark : IsMark line) {lines lines' : List String}
      (h : Marked lines lines') : Marked lines (line :: lines')

namespace Machine

variable {m : Machine} {c : Crash} {lines lines' : List String} {budget : Nat}

/-! ### Crashes of an instruction -/

theorem isLocal_of_value {op : Operand} (h : m.value op = .error c) : c.isLocal = true := by
  cases op with
  | imm v => cases h
  | reg r => cases h
  | mem r =>
    rw [value] at h
    split at h
    · cases h
    · cases h
      rfl

theorem isLocal_of_advance {addr : Int64} {delta : Int} (h : advance addr delta = .error c) :
    c.isLocal = true := by
  rw [advance] at h
  split at h
  · cases h
  · cases h
    rfl

theorem isLocal_of_push {v : Int64} (h : m.push v = .error c) : c.isLocal = true := by
  rcases bind_eq_error.mp h with hTop | ⟨top, -, hWrite⟩
  · exact isLocal_of_advance hTop
  · cases hWrite

theorem isLocal_of_pop (h : m.pop = .error c) : c.isLocal = true := by
  rw [pop] at h
  split at h
  · cases h
    rfl
  · rcases bind_eq_error.mp h with hTop | ⟨top, -, hPop⟩
    · exact isLocal_of_advance hTop
    · cases hPop

theorem isLocal_of_return? (h : m.return? = .error c) : c.isLocal = true := by
  rcases bind_eq_error.mp h with hPop | ⟨⟨target, m'⟩, -, hReturn⟩
  · exact isLocal_of_pop hPop
  · dsimp only at hReturn
    split at hReturn
    · cases hReturn
      rfl
    · split at hReturn
      · cases hReturn
        rfl
      · cases hReturn

/-- An instruction neither falls off the end of its lines nor is it out of steps. -/
theorem isLocal_of_step {i : Instr} (h : m.step i = .error c) : c.isLocal = true := by
  cases i with
  | push src =>
    rcases bind_eq_error.mp h with hValue | ⟨v, -, hRest⟩
    · exact isLocal_of_value hValue
    · rcases bind_eq_error.mp hRest with hPush | ⟨m', -, hGoes⟩
      · exact isLocal_of_push hPush
      · cases hGoes
  | pop dst =>
    rcases bind_eq_error.mp h with hPop | ⟨⟨v, m'⟩, -, hGoes⟩
    · exact isLocal_of_pop hPop
    · cases hGoes
  | mov dst src | store addr src | arith op dst src | movzb dst src =>
    rcases bind_eq_error.mp h with hValue | ⟨v, -, hGoes⟩
    · exact isLocal_of_value hValue
    · cases hGoes
  | cqo => cases h
  | idiv src =>
    rcases bind_eq_error.mp h with hValue | ⟨v, -, hRest⟩
    · exact isLocal_of_value hValue
    · split at hRest
      · cases hRest
        rfl
      · cases hRest
  | cmp left right =>
    rcases bind_eq_error.mp h with hValue | ⟨v, -, hRest⟩
    · exact isLocal_of_value hValue
    · rcases bind_eq_error.mp hRest with hValue | ⟨w, -, hGoes⟩
      · exact isLocal_of_value hValue
      · cases hGoes
  | setcc cond dst => cases h
  | ret =>
    rcases bind_eq_error.mp h with hReturn | ⟨v, -, hGoes⟩
    · exact isLocal_of_return? hReturn
    · cases hGoes

/-! ### Lines -/

theorem execLine_of_isMark {line : String} (h : IsMark line) (m : Machine) :
    m.execLine line = .ok (.goes m) := by
  obtain ⟨text, hRead⟩ := h.exists_read
  rw [execLine, hRead]

theorem isLocal_of_execLine {line : String} (h : m.execLine line = .error c) :
    c.isLocal = true := by
  rw [execLine] at h
  split at h
  · cases h
    rfl
  · cases h
  · exact isLocal_of_step h

/-- A run with a counter does not look back. -/
theorem runAt_eq_run (m : Machine) (lines : List String) (pc budget : Nat) :
    m.runAt lines pc budget = m.run budget (lines.drop pc) := by
  induction budget generalizing m pc with
  | zero =>
    rw [runAt, run]
  | succ budget ih =>
    rw [runAt]
    by_cases hPc : pc < lines.length
    · rw [List.getElem?_eq_getElem hPc, List.drop_eq_getElem_cons hPc, run]
      dsimp only
      cases m.execLine lines[pc] with
      | error c => rfl
      | ok next =>
        cases next with
        | goes m' => exact ih m' (pc + 1)
        | returns v => rfl
    · rw [List.getElem?_eq_none (Nat.le_of_not_lt hPc),
        List.drop_eq_nil_of_le (Nat.le_of_not_lt hPc), run]

/-! ### What decides a run -/

/-- The outcome of a run that ends so, if it has ended. -/
def decided? : Except Crash Next → Option (Except Crash Int64)
  | .error c => some (.error c)
  | .ok (.returns v) => some (.ok v)
  | .ok (.goes _) => none

theorem isLocal_of_follow (h : m.follow lines = .error c) : c.isLocal = true := by
  induction lines generalizing m with
  | nil => cases h
  | cons line lines ih =>
    rw [follow] at h
    cases hLine : m.execLine line with
    | error c' =>
      rw [hLine] at h
      cases h
      exact isLocal_of_execLine hLine
    | ok next =>
      rw [hLine] at h
      cases next with
      | goes m' => exact ih h
      | returns v => cases h

theorem isLocal_of_decided? (h : decided? (m.follow lines) = some (.error c)) :
    c.isLocal = true := by
  cases hFollow : m.follow lines with
  | error c' =>
    rw [hFollow] at h
    cases h
    exact isLocal_of_follow hFollow
  | ok next =>
    rw [hFollow] at h
    cases next <;> cases h

/-- Lines behind those that decide are not looked at. -/
theorem decided?_append {r : Except Crash Int64} (h : decided? (m.follow lines) = some r)
    (more : List String) : decided? (m.follow (lines ++ more)) = some r := by
  induction lines generalizing m with
  | nil => cases h
  | cons line lines ih =>
    rw [follow] at h
    rw [List.cons_append, follow]
    cases hLine : m.execLine line with
    | error c =>
      rw [hLine] at h
      exact h
    | ok next =>
      rw [hLine] at h
      cases next with
      | goes m' => exact ih h
      | returns v => exact h

/-- Marks change nothing but the number of lines. -/
theorem follow_of_marked (h : Marked lines lines') (m : Machine) :
    m.follow lines' = m.follow lines := by
  induction h generalizing m with
  | nil => rfl
  | keep line h ih =>
    rw [follow, follow]
    cases m.execLine line with
    | error c => rfl
    | ok next =>
      cases next with
      | goes m' => exact ih m'
      | returns v => rfl
  | insert hMark h ih =>
    rw [follow, execLine_of_isMark hMark]
    exact ih m

/-- **A run is decided by the lines for which it has the steps.** -/
theorem run_eq (m : Machine) (budget : Nat) (lines : List String) :
    m.run budget lines = (decided? (m.follow (lines.take budget))).getD
      (.error (if lines.length < budget then .fellOff else .stepLimit)) := by
  induction budget generalizing m lines with
  | zero =>
    rw [run, List.take_zero]
    rfl
  | succ budget ih =>
    cases lines with
    | nil =>
      rw [run, List.take_nil, List.length_nil, if_pos (Nat.succ_pos budget)]
      rfl
    | cons line lines =>
      rw [run, List.take_succ_cons, follow, List.length_cons]
      simp only [Nat.add_lt_add_iff_right]
      cases m.execLine line with
      | error c => rfl
      | ok next =>
        cases next with
        | goes m' => exact ih m' lines
        | returns v => rfl

/-- Neither did the run fall off the end of the lines, nor was it out of steps. -/
def Decided (outcome : Except Crash Int64) : Prop :=
  outcome ≠ .error .fellOff ∧ outcome ≠ .error .stepLimit

theorem run_eq_iff {outcome : Except Crash Int64} (hDecided : Decided outcome) :
    m.run budget lines = outcome ↔ decided? (m.follow (lines.take budget)) = some outcome := by
  rw [run_eq]
  cases decided? (m.follow (lines.take budget)) with
  | some r => rw [Option.getD_some, Option.some_inj]
  | none =>
    rw [Option.getD_none]
    constructor
    · intro h
      split at h
      · exact absurd h.symm hDecided.1
      · exact absurd h.symm hDecided.2
    · intro h
      cases h

theorem run_append_of_decided {outcome : Except Crash Int64} (hDecided : Decided outcome)
    (h : m.run budget lines = outcome) (more : List String) :
    m.run budget (lines ++ more) = outcome := by
  rw [run_eq_iff hDecided] at h ⊢
  rw [List.take_append]
  exact decided?_append h _

theorem run_of_marked {outcome : Except Crash Int64} (hDecided : Decided outcome)
    (h : m.run budget lines = outcome) (hMarked : Marked lines lines')
    (hBudget : lines'.length ≤ budget) : m.run budget lines' = outcome := by
  rw [run_eq_iff hDecided] at h ⊢
  have hAll := decided?_append h (lines.drop budget)
  rw [List.take_append_drop] at hAll
  rwa [List.take_of_length_le hBudget, follow_of_marked hMarked]

theorem le_length_of_stepLimit (h : m.run budget lines = .error .stepLimit) :
    budget ≤ lines.length := by
  rw [run_eq] at h
  cases hRun : decided? (m.follow (lines.take budget)) with
  | some r =>
    rw [hRun, Option.getD_some] at h
    rw [h] at hRun
    exact absurd (isLocal_of_decided? hRun) (by decide)
  | none =>
    rw [hRun, Option.getD_none] at h
    by_cases hLess : lines.length < budget
    · rw [if_pos hLess] at h
      cases h
    · exact Nat.le_of_not_lt hLess

end Machine

/-! ### The routine `main` -/

open Machine

variable {start : List String}

theorem routine?_append_cons (h : mainLabel ∉ start) (rest : List String) :
    routine? (start ++ mainLabel :: rest) = some rest := by
  induction start with
  | nil => rfl
  | cons line start ih =>
    rw [List.mem_cons, not_or] at h
    rw [List.cons_append, routine?, if_neg (Ne.symm h.1)]
    exact ih h.2

theorem execute_append_cons (h : mainLabel ∉ start) (rest : List String) :
    execute (start ++ mainLabel :: rest) = initial.run stepLimit rest := by
  rw [execute, routine?_append_cons h]

theorem execute_eq_runAt (h : mainLabel ∉ start) (rest : List String) :
    execute (start ++ mainLabel :: rest) =
      initial.runAt (start ++ mainLabel :: rest)
        ((start ++ mainLabel :: rest).idxOf mainLabel + 1) stepLimit := by
  have hDrop : (start ++ mainLabel :: rest).drop (start.length + 1) = rest := by
    rw [List.drop_append, List.drop_of_length_le (Nat.le_succ _)]
    simp
  rw [execute_append_cons h, runAt_eq_run, List.idxOf_append_of_notMem h, List.idxOf_cons_self,
    Nat.add_zero, hDrop]

theorem execute_append_of_decided {lines : List String} (hMain : mainLabel ∈ lines)
    {outcome : Except Crash Int64} (hDecided : Decided outcome) (h : execute lines = outcome)
    {before : List String} (hBefore : mainLabel ∉ before) (behind : List String) :
    execute (before ++ lines ++ behind) = outcome := by
  obtain ⟨start, rest, rfl, hStart⟩ := List.eq_append_cons_of_mem hMain
  have hNone : mainLabel ∉ before ++ start := by
    rw [List.mem_append, not_or]
    exact ⟨hBefore, hStart⟩
  rw [execute_append_cons hStart] at h
  rw [← List.append_assoc, List.append_assoc, List.cons_append, execute_append_cons hNone]
  exact run_append_of_decided hDecided h behind

/-- **A run goes straight through, and looks only at what it executes.**  It executes the lines
behind the first label `main:` one after the other.  If it is decided before the lines or the steps
run out, then other lines before this label and behind the last line change nothing, and neither do
marks behind the label, as long as there are steps for all lines.  The steps run out only if there
are as many lines. -/
theorem execute_straight_through {lines : List String} (hMain : mainLabel ∈ lines) :
    execute lines = initial.runAt lines (lines.idxOf mainLabel + 1) 1000000 ∧
      (∀ outcome, execute lines = outcome → Decided outcome →
        (∀ before behind, mainLabel ∉ before → execute (before ++ lines ++ behind) = outcome) ∧
          ∀ start rest rest', lines = start ++ mainLabel :: rest → mainLabel ∉ start →
            Marked rest rest' → rest'.length ≤ 1000000 →
              execute (start ++ mainLabel :: rest') = outcome) ∧
      (execute lines = .error .stepLimit →
        ∀ start rest, lines = start ++ mainLabel :: rest → mainLabel ∉ start →
          1000000 ≤ rest.length) := by
  refine ⟨?_, ?_, ?_⟩
  · obtain ⟨start, rest, rfl, hStart⟩ := List.eq_append_cons_of_mem hMain
    exact execute_eq_runAt hStart rest
  · intro outcome hRun hDecided
    constructor
    · intro before behind hBefore
      exact execute_append_of_decided hMain hDecided hRun hBefore behind
    · rintro start rest rest' rfl hStart hMarked hLength
      rw [execute_append_cons hStart] at hRun ⊢
      exact run_of_marked hDecided hRun hMarked hLength
  · rintro hRun start rest rfl hStart
    rw [execute_append_cons hStart] at hRun
    exact le_length_of_stepLimit hRun

/-- Behind the label `main:` there are a second one and another mark, and lines that are no
instructions stand before the first label and behind the last line. -/
theorem execute_straight_through_marks :
    execute ["start:", "main:", "  push 5", "pop rax", "ret"] = .ok 5 ∧
      execute (["halt"] ++ ["start:", "main:", "  push 5", "pop rax", "ret"] ++ ["main:", "halt"]) =
        .ok 5 ∧
      execute ["start:", "main:", "  push 5", "\tmain: ", ".p2align 4", "pop rax", "ret"] =
        .ok 5 := by
  have hRun : execute ["start:", "main:", "  push 5", "pop rax", "ret"] = .ok 5 := rfl
  have hDecided : Decided (.ok 5) := ⟨by decide, by decide⟩
  obtain ⟨-, hSame, -⟩ := @execute_straight_through
    ["start:", "main:", "  push 5", "pop rax", "ret"] (by decide)
  obtain ⟨hAround, hMarks⟩ := hSame _ hRun hDecided
  refine ⟨hRun, hAround ["halt"] ["main:", "halt"] (by decide), ?_⟩
  refine hMarks ["start:"] ["  push 5", "pop rax", "ret"] _ rfl (by decide) ?_ (by decide)
  exact .keep _ (.insert (by decide) (.insert (by decide) (.keep _ (.keep _ .nil))))

end Semicolon
