import Mathlib.Data.List.Forall2
import Semicolon.Proofs.Emission

/-!
# Why no code is emitted

The emitter goes through the trees of a program in one order, and `Node.visits` lists what it comes
to.  Two things can be wrong with what it comes to (`Visit.Faulty`): an assignment is to no
variable, or a variable is not in the table.  Emission fails exactly if something on the list is
faulty, and the first such thing decides with which fault (`Node.error?_emit`).  What is below a
target is not on the list, and it has no influence either (`Node.SameButTargets.emit_eq`).
-/

namespace Semicolon

/-- What the emitter comes to: a node whose value is pushed, or the target of an assignment, whose
address is. -/
inductive Visit
  | value (n : Node Nat)
  | target (n : Node Nat)
deriving DecidableEq, Repr

namespace Node

/-- What the emitter comes to in a tree, in order.  It does not go below a target. -/
def visits : Node Nat → List Visit
  | num v => [.value (num v)]
  | var i => [.value (var i)]
  | binary op l r => .value (binary op l r) :: (l.visits ++ r.visits)
  | assign x v => .value (assign x v) :: .target x :: v.visits
  | ret e => .value (ret e) :: e.visits

end Node

namespace Visit

/-- Why the emitter stops at what it comes to. -/
inductive Faulty (table : Locals) : Visit → Fault → Prop
  | notLvalue {x v : Node Nat} :
      (∀ i, x ≠ .var i) → Faulty table (.value (.assign x v)) .notLvalue
  | unknownValue {i : Nat} : table.length ≤ i → Faulty table (.value (.var i)) .unknownLocal
  | unknownTarget {i : Nat} : table.length ≤ i → Faulty table (.target (.var i)) .unknownLocal

/-- The fault of what the emitter comes to, if any. -/
def fault? (table : Locals) : Visit → Option Fault
  | value (.assign x _) => if x.isVar then none else some .notLvalue
  | value (.var i) | target (.var i) => if i < table.length then none else some .unknownLocal
  | _ => none

variable {table : Locals} {f : Fault}

theorem fault?_var_eq_some {i : Nat} :
    (if i < table.length then none else some Fault.unknownLocal) = some f ↔
      table.length ≤ i ∧ f = .unknownLocal := by
  by_cases hi : i < table.length
  · simp [hi, Nat.not_le.mpr hi]
  · simp [hi, Nat.le_of_not_lt hi, eq_comm]

theorem fault?_eq_some {v : Visit} : v.fault? table = some f ↔ v.Faulty table f := by
  cases v with
  | value n =>
    cases n with
    | var i =>
      rw [fault?, fault?_var_eq_some]
      constructor
      · rintro ⟨hi, rfl⟩
        exact .unknownValue hi
      · rintro ⟨⟩
        exact ⟨by assumption, rfl⟩
    | assign x v =>
      rw [fault?]
      by_cases hx : x.isVar = true
      · rw [if_pos hx]
        refine ⟨nofun, ?_⟩
        rintro ⟨hNot⟩
        obtain ⟨i, rfl⟩ := Node.isVar_iff.mp hx
        exact absurd rfl (hNot i)
      · rw [if_neg hx]
        constructor
        · rintro ⟨⟩
          exact .notLvalue fun i hi => hx (Node.isVar_iff.mpr ⟨i, hi⟩)
        · rintro ⟨⟩
          rfl
    | _ => exact ⟨nofun, nofun⟩
  | target n =>
    cases n with
    | var i =>
      rw [fault?, fault?_var_eq_some]
      constructor
      · rintro ⟨hi, rfl⟩
        exact .unknownTarget hi
      · rintro ⟨⟩
        exact ⟨by assumption, rfl⟩
    | _ => exact ⟨nofun, nofun⟩

theorem fault?_eq_none {v : Visit} : v.fault? table = none ↔ ∀ f, ¬ v.Faulty table f := by
  rw [Option.eq_none_iff_forall_ne_some]
  exact forall_congr' fun f => not_congr fault?_eq_some

end Visit

/-! ### The first fault decides -/

namespace Node

variable {table : Locals}

/-- The address of a target is looked up before anything else of its assignment. -/
theorem error?_emitAddress (x v : Node Nat) :
    error? (x.emitAddress table) =
      ((Visit.value (assign x v)).fault? table).or ((Visit.target x).fault? table) := by
  cases x with
  | var i =>
    show _ = Option.or none (if i < table.length then none else some Fault.unknownLocal)
    rw [emitAddress, Locals.get?, Option.none_or]
    by_cases hi : i < table.length
    · rw [if_pos hi, List.getElem?_eq_getElem (show i < table.names.length from hi)]
      rfl
    · rw [if_neg hi, List.getElem?_eq_none (Nat.le_of_not_lt hi)]
      rfl
  | _ => rfl

/-- **The first fault that the emitter comes to is the one with which it fails.** -/
theorem error?_emit (n : Node Nat) :
    error? (n.emit table) = n.visits.findSome? (Visit.fault? table) := by
  induction n with
  | num v => rfl
  | var i =>
    rw [emit, error?_bind_pure, error?_emitAddress (var i) (num 0), visits,
      List.findSome?_singleton]
    exact Option.none_or
  | binary op l r ihl ihr =>
    rw [emit, error?_bind_bind, ihl, ihr, visits, List.findSome?_cons, List.findSome?_append]
    rfl
  | assign x v _ ihv =>
    rw [emit, error?_bind_bind, error?_emitAddress x v, ihv, visits, List.findSome?_cons,
      List.findSome?_cons, Option.or_assoc]
    cases (Visit.value (assign x v)).fault? table with
    | some f => rfl
    | none =>
      cases (Visit.target x).fault? table <;> rfl
  | ret e ih =>
    rw [emit, error?_bind_pure, ih, visits, List.findSome?_cons]
    rfl

/-! ### Below a target -/

/-- The trees differ in nothing but in targets of assignments, and only in such that are no
variables. -/
inductive SameButTargets : Node Nat → Node Nat → Prop
  | num (v : Int64) : SameButTargets (num v) (num v)
  | var (i : Nat) : SameButTargets (var i) (var i)
  | binary (op : BinOp) {l l' r r' : Node Nat} :
      SameButTargets l l' → SameButTargets r r' → SameButTargets (binary op l r) (binary op l' r')
  | assign (x : Node Nat) {v v' : Node Nat} :
      SameButTargets v v' → SameButTargets (assign x v) (assign x v')
  | target {x x' v v' : Node Nat} : (∀ i, x ≠ .var i) → (∀ i, x' ≠ .var i) →
      SameButTargets v v' → SameButTargets (.assign x v) (.assign x' v')
  | ret {e e' : Node Nat} : SameButTargets e e' → SameButTargets (ret e) (ret e')

theorem emitAddress_of_ne_var {x : Node Nat} (h : ∀ i, x ≠ var i) :
    x.emitAddress table = .error .notLvalue := by
  cases x with
  | var i => exact absurd rfl (h i)
  | _ => rfl

/-- What is below a target that is no variable does not matter. -/
theorem SameButTargets.emit_eq {n n' : Node Nat} (h : SameButTargets n n') :
    n'.emit table = n.emit table := by
  induction h with
  | num v => rfl
  | var i => rfl
  | binary op _ _ ihl ihr => rw [emit, emit, ihl, ihr]
  | assign x _ ih => rw [emit, emit, ih]
  | target hx hx' _ ih => rw [emit, emit, emitAddress_of_ne_var hx, emitAddress_of_ne_var hx', ih]
  | ret _ ih => rw [emit, emit, ih]

end Node

/-! ### Programs -/

namespace Program

variable {table : Locals}

theorem error?_emitStmts (ns : List (Node Nat)) :
    error? (emitStmts table ns) = (ns.flatMap Node.visits).findSome? (Visit.fault? table) := by
  induction ns with
  | nil => rfl
  | cons n ns ih =>
    rw [emitStmts, error?_bind_bind, n.error?_emit, ih, List.flatMap_cons, List.findSome?_append]

/-- What the emitter comes to in a program, in order. -/
def visits (p : Program) : List Visit :=
  p.body.flatMap Node.visits

theorem error?_generate (p : Program) :
    error? p.generate = p.visits.findSome? (Visit.fault? p.locals) := by
  have hBody : error? p.emitBody = p.visits.findSome? (Visit.fault? p.locals) := by
    rw [emitBody, visits]
    by_cases hEmpty : p.body = []
    · rw [if_pos hEmpty, hEmpty]
      rfl
    · rw [if_neg hEmpty, error?_emitStmts]
  rw [← hBody, generate, emit]
  cases p.emitBody <;> rfl

theorem generate_eq_of_sameButTargets {body body' : List (Node Nat)}
    (h : List.Forall₂ Node.SameButTargets body body') :
    (Program.mk body' table).generate = (Program.mk body table).generate := by
  have hStmts : emitStmts table body' = emitStmts table body := by
    induction h with
    | nil => rfl
    | cons hn _ ih => rw [emitStmts, emitStmts, hn.emit_eq, ih]
  have hEmpty : body' = [] ↔ body = [] := by
    rw [← List.length_eq_zero_iff, ← List.length_eq_zero_iff, h.length_eq]
  simp only [generate, emit, emitBody, hStmts, hEmpty]

/-- **Why no code is emitted for a program.**  Emission fails exactly if the emitter comes to an
assignment to what is no variable, or to a variable, read or assigned to, that is not in the table.
The first of these decides: the former is the fault with the message `not an lvalue`, the latter one
without a message.  What is below a target that is no variable has no influence on the outcome. -/
theorem generate_fails_at_first_fault (p : Program) :
    ((∃ f, p.generate = .error f) ↔ ∃ v ∈ p.visits, ∃ f, v.Faulty p.locals f) ∧
      (∀ f, p.generate = .error f ↔
        ∃ before v after, p.visits = before ++ v :: after ∧ v.Faulty p.locals f ∧
          ∀ u ∈ before, ∀ g, ¬ u.Faulty p.locals g) ∧
      (Fault.notLvalue.message? = some "not an lvalue" ∧ Fault.unknownLocal.message? = none) ∧
      ∀ body, List.Forall₂ Node.SameButTargets p.body body →
        (Program.mk body p.locals).generate = p.generate := by
  have hFirst : ∀ f, p.generate = .error f ↔
      ∃ before v after, p.visits = before ++ v :: after ∧ v.Faulty p.locals f ∧
        ∀ u ∈ before, ∀ g, ¬ u.Faulty p.locals g := by
    intro f
    rw [← error?_eq_some, error?_generate, List.findSome?_eq_some_iff]
    simp only [Visit.fault?_eq_some, Visit.fault?_eq_none]
  refine ⟨⟨?_, ?_⟩, hFirst, ⟨rfl, rfl⟩, fun body hBody => generate_eq_of_sameButTargets hBody⟩
  · rintro ⟨f, hf⟩
    obtain ⟨before, v, after, hVisits, hFaulty, -⟩ := (hFirst f).mp hf
    exact ⟨v, by simp [hVisits], f, hFaulty⟩
  · rintro ⟨v, hv, f, hFaulty⟩
    cases hGenerate : p.generate with
    | error g => exact ⟨g, rfl⟩
    | ok lines =>
      -- no fault is found on the list, so there is none on it
      have hNone := error?_generate p
      rw [hGenerate] at hNone
      have hAll := List.findSome?_eq_none_iff.mp hNone.symm v hv
      exact absurd hFaulty (Visit.fault?_eq_none.mp hAll f)

/-- A variable that is not in the table stands before an assignment to a number; and one that is not
in the table stands below a target. -/
theorem generate_fails_at_unknown_variable :
    (∃ before v after,
      (Program.mk [.binary .add (.var 1) (.assign (.num 1) (.num 2))] (.ofNames ["a"])).visits =
        before ++ v :: after ∧ v.Faulty (.ofNames ["a"]) .unknownLocal ∧
      ∀ u ∈ before, ∀ g, ¬ u.Faulty (.ofNames ["a"]) g) ∧
    (Program.mk [.assign (.ret (.var 7)) (.num 2)] .empty).generate =
      (Program.mk [.assign (.num 1) (.num 2)] .empty).generate := by
  refine ⟨((generate_fails_at_first_fault _).2.1 .unknownLocal).mp rfl, ?_⟩
  refine (generate_fails_at_first_fault (.mk [.assign (.num 1) (.num 2)] .empty)).2.2.2 _ ?_
  exact .cons (.target nofun nofun (.num 2)) .nil

end Program

end Semicolon
