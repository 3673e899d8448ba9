import Semicolon.Assembly.Emit
import Semicolon.Except
import Semicolon.Proofs.AssemblyText

/-!
# What is emitted

Code is emitted for a tree exactly when each of its variables is in the table and each of its
assignments is to a variable (`Node.emit_isOk_iff`).  For each kind of node, `emit_…_eq_ok` says
which code it is; later proofs use these and never open `emit`.  All emitted instructions are plain,
so their text is read as they were meant.
-/

namespace Semicolon

namespace Node

def isVar {ν : Type} : Node ν → Bool
  | var _ => true
  | _ => false

theorem isVar_iff {ν : Type} {n : Node ν} : n.isVar = true ↔ ∃ x, n = var x := by
  cases n with
  | var x => exact ⟨fun _ => ⟨x, rfl⟩, fun _ => rfl⟩
  | _ => simp [isVar]

/-- Every variable is one of the first `count`, and every assignment is to a variable. -/
def WellFormed (count : Nat) : Node Nat → Prop
  | num _ => True
  | var i => i < count
  | binary _ l r => l.WellFormed count ∧ r.WellFormed count
  | assign x v => x.isVar = true ∧ x.WellFormed count ∧ v.WellFormed count
  | ret e => e.WellFormed count

instance decidableWellFormed (count : Nat) : (n : Node Nat) → Decidable (n.WellFormed count)
  | num _ => inferInstanceAs (Decidable True)
  | var i => inferInstanceAs (Decidable (i < count))
  | binary _ l r =>
    have := decidableWellFormed count l
    have := decidableWellFormed count r
    inferInstanceAs (Decidable (_ ∧ _))
  | assign x v =>
    have := decidableWellFormed count x
    have := decidableWellFormed count v
    inferInstanceAs (Decidable (_ ∧ _ ∧ _))
  | ret e => decidableWellFormed count e

/-! ### Inversion -/

/-- Pushes the address of the local at index `i`. -/
def addressCode (i : Nat) : List Instr :=
  [.mov .rax (.reg .rbp), .arith .sub .rax (.ofNat (Locals.offset i)), .push (.reg .rax)]

variable {t : Locals} {code : List Instr}

theorem emitAddress_eq_ok {n : Node Nat} :
    n.emitAddress t = .ok code ↔ ∃ i, n = var i ∧ i < t.length ∧ code = addressCode i := by
  cases n with
  | var i =>
    rw [emitAddress, Locals.get?]
    by_cases hi : i < t.length
    · obtain ⟨x, hName⟩ : ∃ x, t.names[i]? = some x :=
        ⟨_, List.getElem?_eq_getElem (show i < t.names.length from hi)⟩
      simp only [hName, Option.map_some, Except.ok.injEq, var.injEq, exists_eq_left', hi, true_and]
      exact eq_comm
    · have hName : t.names[i]? = none := List.getElem?_eq_none (Nat.le_of_not_lt hi)
      simp only [hName, Option.map_none, reduceCtorEq, var.injEq, exists_eq_left', hi, false_and]
  | _ => simp [emitAddress]

theorem emit_var_eq_ok {i : Nat} :
    (var i).emit t = .ok code ↔ i < t.length ∧
      code = addressCode i ++ [.pop .rax, .mov .rax (.mem .rax), .push (.reg .rax)] := by
  rw [emit, bind_eq_ok]
  constructor
  · rintro ⟨address, hAddress, hCode⟩
    obtain ⟨j, hj, hi, rfl⟩ := emitAddress_eq_ok.mp hAddress
    cases hj
    exact ⟨hi, (Except.ok.inj hCode).symm⟩
  · rintro ⟨hi, rfl⟩
    exact ⟨addressCode i, emitAddress_eq_ok.mpr ⟨i, rfl, hi, rfl⟩, rfl⟩

theorem emit_assign_eq_ok {x v : Node Nat} :
    (assign x v).emit t = .ok code ↔ ∃ i c, x = var i ∧ i < t.length ∧ v.emit t = .ok c ∧
      code = addressCode i ++
        (c ++ (popOperands ++ [.store .rax (.reg .rdi), .push (.reg .rdi)])) := by
  rw [emit, bind_eq_ok]
  constructor
  · rintro ⟨address, hAddress, hRest⟩
    obtain ⟨i, rfl, hi, rfl⟩ := emitAddress_eq_ok.mp hAddress
    obtain ⟨c, hc, hCode⟩ := bind_eq_ok.mp hRest
    exact ⟨i, c, rfl, hi, hc, (Except.ok.inj hCode).symm⟩
  · rintro ⟨i, c, rfl, hi, hc, rfl⟩
    exact ⟨addressCode i, emitAddress_eq_ok.mpr ⟨i, rfl, hi, rfl⟩, bind_eq_ok.mpr ⟨c, hc, rfl⟩⟩

theorem emit_ret_eq_ok {e : Node Nat} :
    (ret e).emit t = .ok code ↔ ∃ c, e.emit t = .ok c ∧ code = c ++ .pop .rax :: epilogue := by
  rw [emit, bind_eq_ok]
  constructor
  · rintro ⟨c, hc, hCode⟩
    exact ⟨c, hc, (Except.ok.inj hCode).symm⟩
  · rintro ⟨c, hc, rfl⟩
    exact ⟨c, hc, rfl⟩

theorem emit_binary_eq_ok {op : BinOp} {l r : Node Nat} :
    (binary op l r).emit t = .ok code ↔ ∃ a b, l.emit t = .ok a ∧ r.emit t = .ok b ∧
      code = a ++ (b ++ (popOperands ++ (op.code ++ [.push (.reg .rax)]))) := by
  rw [emit, bind_eq_ok]
  constructor
  · rintro ⟨a, ha, hRest⟩
    obtain ⟨b, hb, hCode⟩ := bind_eq_ok.mp hRest
    exact ⟨a, b, ha, hb, (Except.ok.inj hCode).symm⟩
  · rintro ⟨a, b, ha, hb, rfl⟩
    exact ⟨a, ha, bind_eq_ok.mpr ⟨b, hb, rfl⟩⟩

/-- **Code is emitted for the well-formed trees and for no others.** -/
theorem emit_isOk_iff {n : Node Nat} : (∃ code, n.emit t = .ok code) ↔ n.WellFormed t.length := by
  induction n with
  | num v => exact ⟨fun _ => trivial, fun _ => ⟨_, rfl⟩⟩
  | var i =>
    simp only [emit_var_eq_ok, WellFormed]
    exact ⟨fun ⟨_, hi, _⟩ => hi, fun hi => ⟨_, hi, rfl⟩⟩
  | binary op l r ihl ihr =>
    simp only [emit_binary_eq_ok, WellFormed]
    rw [← ihl, ← ihr]
    constructor
    · rintro ⟨_, a, b, ha, hb, -⟩
      exact ⟨⟨a, ha⟩, ⟨b, hb⟩⟩
    · rintro ⟨⟨a, ha⟩, ⟨b, hb⟩⟩
      exact ⟨_, a, b, ha, hb, rfl⟩
  | assign x v _ ihv =>
    simp only [emit_assign_eq_ok, WellFormed]
    rw [← ihv, isVar_iff]
    constructor
    · rintro ⟨_, i, c, rfl, hi, hc, -⟩
      exact ⟨⟨i, rfl⟩, hi, ⟨c, hc⟩⟩
    · rintro ⟨⟨i, rfl⟩, hi, ⟨c, hc⟩⟩
      exact ⟨_, i, c, rfl, hi, hc, rfl⟩
  | ret e ih =>
    simp only [emit_ret_eq_ok, WellFormed]
    rw [← ih]
    exact ⟨fun ⟨_, c, hc, _⟩ => ⟨c, hc⟩, fun ⟨c, hc⟩ => ⟨_, c, hc, rfl⟩⟩

/-! ### Plain code -/

theorem plain_addressCode (i : Nat) : ∀ j ∈ addressCode i, j.Plain := by
  rw [addressCode, List.forall_mem_cons, List.forall_mem_cons]
  exact ⟨by decide, ⟨by decide, trivial⟩, by decide⟩

theorem plain_code (op : BinOp) : ∀ j ∈ op.code, j.Plain := by
  cases op <;> decide

theorem plain_of_emit {n : Node Nat} (h : n.emit t = .ok code) : ∀ j ∈ code, j.Plain := by
  induction n generalizing code with
  | num v =>
    cases h
    split
    · exact List.forall_mem_singleton.mpr trivial
    · exact List.forall_mem_cons.mpr ⟨⟨by decide, trivial⟩, by decide⟩
  | var i =>
    obtain ⟨-, rfl⟩ := emit_var_eq_ok.mp h
    rw [List.forall_mem_append]
    exact ⟨plain_addressCode i, by decide⟩
  | binary op l r ihl ihr =>
    obtain ⟨a, b, ha, hb, rfl⟩ := emit_binary_eq_ok.mp h
    simp only [List.forall_mem_append]
    exact ⟨ihl ha, ihr hb, by decide, plain_code op, by decide⟩
  | assign x v _ ihv =>
    obtain ⟨i, c, rfl, -, hc, rfl⟩ := emit_assign_eq_ok.mp h
    simp only [List.forall_mem_append]
    exact ⟨plain_addressCode i, ihv hc, by decide, by decide⟩
  | ret e ih =>
    obtain ⟨c, hc, rfl⟩ := emit_ret_eq_ok.mp h
    rw [List.forall_mem_append, List.forall_mem_cons]
    exact ⟨ih hc, by decide, by decide⟩

/-- Every variable that is written has code of its own. -/
theorem length_vars_le_of_emit {n : Node Nat} (h : n.emit t = .ok code) :
    n.vars.length ≤ code.length := by
  induction n generalizing code with
  | num v => exact Nat.zero_le _
  | var i =>
    obtain ⟨-, rfl⟩ := emit_var_eq_ok.mp h
    simp [vars]
  | binary op l r ihl ihr =>
    obtain ⟨a, b, ha, hb, rfl⟩ := emit_binary_eq_ok.mp h
    have hl := ihl ha
    have hr := ihr hb
    simp only [vars, List.length_append]
    omega
  | assign x v _ ihv =>
    obtain ⟨i, c, rfl, -, hc, rfl⟩ := emit_assign_eq_ok.mp h
    have hv := ihv hc
    simp only [vars, addressCode, List.length_append, List.length_cons, List.length_nil]
    omega
  | ret e ih =>
    obtain ⟨c, hc, rfl⟩ := emit_ret_eq_ok.mp h
    have he := ih hc
    rw [vars, List.length_append]
    omega

end Node

/-! ### Programs -/

namespace Program

variable {t : Locals} {code : List Instr}

theorem emitStmts_cons_eq_ok {n : Node Nat} {ns : List (Node Nat)} :
    emitStmts t (n :: ns) = .ok code ↔ ∃ a b, n.emit t = .ok a ∧ emitStmts t ns = .ok b ∧
      code = a ++ .pop .rax :: b := by
  rw [emitStmts, bind_eq_ok]
  constructor
  · rintro ⟨a, ha, hRest⟩
    obtain ⟨b, hb, hCode⟩ := bind_eq_ok.mp hRest
    exact ⟨a, b, ha, hb, (Except.ok.inj hCode).symm⟩
  · rintro ⟨a, b, ha, hb, rfl⟩
    exact ⟨a, ha, bind_eq_ok.mpr ⟨b, hb, rfl⟩⟩

theorem emitStmts_isOk_iff {ns : List (Node Nat)} :
    (∃ code, emitStmts t ns = .ok code) ↔ ∀ n ∈ ns, n.WellFormed t.length := by
  induction ns with
  | nil => exact ⟨fun _ => nofun, fun _ => ⟨[], rfl⟩⟩
  | cons n ns ih =>
    simp only [emitStmts_cons_eq_ok]
    rw [List.forall_mem_cons, ← ih, ← Node.emit_isOk_iff]
    constructor
    · rintro ⟨_, a, b, ha, hb, -⟩
      exact ⟨⟨a, ha⟩, ⟨b, hb⟩⟩
    · rintro ⟨⟨a, ha⟩, ⟨b, hb⟩⟩
      exact ⟨_, a, b, ha, hb, rfl⟩

theorem plain_of_emitStmts {ns : List (Node Nat)} (h : emitStmts t ns = .ok code) :
    ∀ j ∈ code, j.Plain := by
  induction ns generalizing code with
  | nil =>
    cases h
    exact nofun
  | cons n ns ih =>
    obtain ⟨a, b, ha, hb, rfl⟩ := emitStmts_cons_eq_ok.mp h
    rw [List.forall_mem_append, List.forall_mem_cons]
    exact ⟨Node.plain_of_emit ha, by decide, ih hb⟩

theorem length_vars_le_of_emitStmts {ns : List (Node Nat)} (h : emitStmts t ns = .ok code) :
    (ns.flatMap Node.vars).length ≤ code.length := by
  induction ns generalizing code with
  | nil => exact Nat.zero_le _
  | cons n ns ih =>
    obtain ⟨a, b, ha, hb, rfl⟩ := emitStmts_cons_eq_ok.mp h
    have hn := Node.length_vars_le_of_emit ha
    have hns := ih hb
    rw [List.flatMap_cons, List.length_append, List.length_append, List.length_cons]
    omega

/-- The lines of a routine with the given body. -/
def listing (frameSize : Nat) (body : List Instr) : List String :=
  [".intel_syntax noprefix", ".global main", mainLabel] ++
    ((prologue frameSize ++ (body ++ epilogue)).map (fun i => (Line.instr i).text) ++
      [".section .note.GNU-stack,\"\",@progbits"])

theorem generate_eq_ok {p : Program} {lines : List String} :
    p.generate = .ok lines ↔
      ∃ body, p.emitBody = .ok body ∧ lines = listing p.locals.frameSize body := by
  rw [generate, emit]
  cases hb : p.emitBody with
  | error f =>
    refine ⟨fun h => absurd h nofun, ?_⟩
    rintro ⟨body, hbody, -⟩
    cases hbody
  | ok body =>
    have hLines : List.map Line.text ([.mark ".intel_syntax noprefix", .mark ".global main",
        .mark mainLabel] ++ ((prologue p.locals.frameSize ++ (body ++ epilogue)).map .instr ++
          [.mark ".section .note.GNU-stack,\"\",@progbits"])) =
        listing p.locals.frameSize body := by
      rw [List.map_append, List.map_append, List.map_map]
      rfl
    constructor
    · intro h
      refine ⟨body, rfl, ?_⟩
      rw [← hLines]
      exact (Except.ok.inj h).symm
    · rintro ⟨body', hbody, rfl⟩
      cases hbody
      exact congrArg Except.ok hLines

theorem length_listing (frameSize : Nat) (body : List Instr) :
    (listing frameSize body).length = body.length + 10 := by
  simp [listing, prologue, epilogue]

/-- An empty body is emitted as `0`, and any other one statement by statement. -/
theorem emitBody_eq_ok {p : Program} {body : List Instr} :
    p.emitBody = .ok body ↔ (p.body = [] ∧ body = [.mov .rax (.imm 0)]) ∨
      (p.body ≠ [] ∧ emitStmts p.locals p.body = .ok body) := by
  rw [emitBody]
  by_cases h : p.body = []
  · simp only [h, if_true, Except.ok.injEq, true_and, ne_eq, not_true_eq_false, false_and, or_false]
    exact eq_comm
  · simp only [h, if_false, false_and, ne_eq, not_false_eq_true, true_and, false_or]

theorem plain_of_emitBody {p : Program} {body : List Instr} (h : p.emitBody = .ok body) :
    ∀ j ∈ body, j.Plain := by
  rcases emitBody_eq_ok.mp h with ⟨-, rfl⟩ | ⟨-, h⟩
  · decide
  · exact plain_of_emitStmts h

theorem length_vars_le_of_generate {p : Program} {lines : List String}
    (h : p.generate = .ok lines) : (p.body.flatMap Node.vars).length ≤ lines.length := by
  obtain ⟨body, hBody, rfl⟩ := generate_eq_ok.mp h
  rw [length_listing]
  rcases emitBody_eq_ok.mp hBody with ⟨hEmpty, -⟩ | ⟨-, hStmts⟩
  · rw [hEmpty]
    exact Nat.zero_le _
  · exact Nat.le_add_right_of_le (length_vars_le_of_emitStmts hStmts)

theorem generate_isOk_iff {p : Program} :
    (∃ lines, p.generate = .ok lines) ↔ ∀ n ∈ p.body, n.WellFormed p.locals.length := by
  rw [← emitStmts_isOk_iff]
  simp only [generate_eq_ok, emitBody_eq_ok]
  by_cases hEmpty : p.body = []
  · rw [hEmpty]
    exact ⟨fun _ => ⟨[], rfl⟩, fun _ => ⟨_, _, Or.inl ⟨rfl, rfl⟩, rfl⟩⟩
  · constructor
    · rintro ⟨_, body, ⟨h, -⟩ | ⟨-, h⟩, -⟩
      · exact absurd h hEmpty
      · exact ⟨body, h⟩
    · rintro ⟨body, h⟩
      exact ⟨_, body, Or.inr ⟨hEmpty, h⟩, rfl⟩

end Program

end Semicolon
