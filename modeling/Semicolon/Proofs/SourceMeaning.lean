import Semicolon.Compile
import Semicolon.Expr.Eval
import Semicolon.Proofs.GeneratedCode
import Semicolon.Proofs.Parsing

/-!
# Sources mean what is written

The trees of a program differ from its source in three ways: variables are numbered, `-a` is
`0 - a`, and `a > b` is `b < a`, which turns the order of evaluation around.  Numbering changes
nothing (`Node.eval_map`).  Turning two operands around changes nothing but which of two failures
comes first, as long as neither of them assigns (`Expr.eval_node`).  So a source runs as it is
written.
-/

namespace Semicolon

/-! ### Numbered variables -/

namespace Stop

variable {ν μ : Type}

def map (f : ν → μ) : Stop ν → Stop μ
  | returned v => returned v
  | divisionByZero => divisionByZero
  | unassigned x => unassigned (f x)
  | notLvalue => notLvalue

end Stop

/-- An evaluation and the same one with renamed variables: its store is what the other one's holds
for the new names. -/
inductive Renamed {ν μ : Type} (f : ν → μ) :
    Except (Stop ν) (Int64 × Store ν) → Except (Stop μ) (Int64 × Store μ) → Prop
  | value (v : Int64) (s : Store μ) : Renamed f (.ok (v, s ∘ f)) (.ok (v, s))
  | stop (e : Stop ν) : Renamed f (.error e) (.error (e.map f))

theorem Renamed.bind {ν μ : Type} {f : ν → μ} {x : Except (Stop ν) (Int64 × Store ν)}
    {y : Except (Stop μ) (Int64 × Store μ)} (h : Renamed f x y)
    {k : Int64 × Store ν → Except (Stop ν) (Int64 × Store ν)}
    {k' : Int64 × Store μ → Except (Stop μ) (Int64 × Store μ)}
    (hk : ∀ v s, Renamed f (k (v, s ∘ f)) (k' (v, s))) : Renamed f (x >>= k) (y >>= k') := by
  cases h with
  | value v s => exact hk v s
  | stop e => exact .stop e

namespace Node

variable {ν μ : Type} [DecidableEq ν] [DecidableEq μ] {f : ν → μ}

theorem set_comp {x : ν} (hx : ∀ y, f y = f x → y = x) (s : Store μ) (v : Int64) :
    s.set (f x) v ∘ f = Store.set (s ∘ f) x v := by
  funext y
  by_cases hy : y = x
  · rw [hy, Function.comp_apply, Store.set_self, Store.set_self]
  · rw [Function.comp_apply, Store.set_of_ne _ _ (fun h => hy (hx y h)), Store.set_of_ne _ _ hy,
      Function.comp_apply]

/-- Renaming commutes with evaluation, if the variables of the tree keep names of their own. -/
theorem eval_map {n : Node ν} (hf : ∀ x ∈ n.vars, ∀ y, f y = f x → y = x) (s : Store μ) :
    Renamed f (n.eval (s ∘ f)) ((n.map f).eval s) := by
  induction n generalizing s with
  | num v => exact .value v s
  | var x =>
    rw [map, eval, eval, Function.comp_apply]
    cases s (f x) with
    | none => exact .stop (.unassigned x)
    | some v => exact .value v s
  | binary op l r ihl ihr =>
    rw [vars, List.forall_mem_append] at hf
    refine (ihl hf.1 s).bind fun a s => (ihr hf.2 s).bind fun b s => ?_
    dsimp only
    cases op.apply? a b with
    | none => exact .stop .divisionByZero
    | some v => exact .value v s
  | assign t v iht ihv =>
    rw [vars, List.forall_mem_append] at hf
    cases t with
    | var x =>
      refine (ihv hf.2 s).bind fun v s => ?_
      dsimp only
      rw [← set_comp (hf.1 x List.mem_cons_self)]
      exact .value v _
    | _ => exact .stop .notLvalue
  | ret e ih => exact (ih hf s).bind fun v s => .stop (.returned v)

theorem evalAll_map {ns : List (Node ν)}
    (hf : ∀ x ∈ ns.flatMap vars, ∀ y, f y = f x → y = x) (last : Int64) (s : Store μ) :
    evalAll last (ns.map (map f)) s = (evalAll last ns (s ∘ f)).mapError (Stop.map f) := by
  induction ns generalizing last s with
  | nil => rfl
  | cons n ns ih =>
    rw [List.flatMap_cons, List.forall_mem_append] at hf
    have hn := eval_map hf.1 s
    rw [List.map_cons, evalAll, evalAll]
    generalize n.eval (s ∘ f) = x at hn ⊢
    generalize (n.map f).eval s = y at hn ⊢
    cases hn with
    | value v s => exact ih hf.2 v s
    | stop e => cases e <;> rfl

end Node

/-! ### Operands that are turned around -/

namespace Expr

/-- Whether an assignment stands in an expression. -/
def assigns : Expr → Bool
  | num _ | name _ => false
  | paren e | signed _ e => e.assigns
  | binary _ l r => l.assigns || r.assigns
  | assign .. => true

/-- No operand of a `>` or a `>=` contains an assignment. -/
def Steady : Expr → Prop
  | num _ | name _ => True
  | paren e | signed _ e => e.Steady
  | binary op l r =>
    l.Steady ∧ r.Steady ∧ (op = .gt ∨ op = .ge → l.assigns = false ∧ r.assigns = false)
  | assign t v => t.Steady ∧ v.Steady

/-- An expression that does not assign leaves the store as it is. -/
theorem eval_store {e : Expr} (h : e.assigns = false) {s s' : Store String} {v : Int64}
    (he : e.eval s = some (v, s')) : s' = s := by
  induction e generalizing s s' v with
  | num w =>
    cases he
    rfl
  | name x =>
    obtain ⟨w, -, hw⟩ := Option.map_eq_some_iff.mp he
    cases hw
    rfl
  | paren e ih => exact ih h he
  | signed sign e ih =>
    obtain ⟨⟨w, t⟩, hw, hv⟩ := Option.bind_eq_some_iff.mp he
    cases hv
    exact ih h hw
  | binary op l r ihl ihr =>
    rw [assigns, Bool.or_eq_false_iff] at h
    obtain ⟨⟨a, t⟩, ha, he⟩ := Option.bind_eq_some_iff.mp he
    obtain ⟨⟨b, u⟩, hb, he⟩ := Option.bind_eq_some_iff.mp he
    obtain ⟨w, -, hv⟩ := Option.bind_eq_some_iff.mp he
    cases hv
    rw [ihr h.2 hb, ihl h.1 ha]
  | assign t e => cases h

end Expr

def Stmt.Steady : Stmt → Prop
  | expr e | ret e => e.Steady

/-- A tree and what is written have the same value, or neither has one. -/
inductive Means {ν α : Type} : Except (Stop ν) α → Option α → Prop
  | value (a : α) : Means (.ok a) (some a)
  | divisionByZero : Means (.error .divisionByZero) none
  | unassigned (x : ν) : Means (.error (.unassigned x)) none

theorem Means.bind {ν α β : Type} {x : Except (Stop ν) α} {y : Option α} (h : Means x y)
    {k : α → Except (Stop ν) β} {k' : α → Option β} (hk : ∀ a, Means (k a) (k' a)) :
    Means (x >>= k) (y >>= k') := by
  cases h with
  | value a => exact hk a
  | divisionByZero => exact .divisionByZero
  | unassigned x => exact .unassigned x

theorem Means.eq_ok {ν α : Type} {x : Except (Stop ν) α} {a : α} (h : Means x (some a)) :
    x = .ok a := by
  cases h
  rfl

theorem Means.fails {ν α β : Type} {x : Except (Stop ν) α} (h : Means x none)
    (k : α → Except (Stop ν) β) : Means (x >>= k) none := by
  cases h with
  | divisionByZero => exact .divisionByZero
  | unassigned x => exact .unassigned x

/-- An operator is computed as it is written, or with its operands turned around. -/
theorem Op.node_cases (op : Op) :
    (∃ b : BinOp, (∀ l r : Node String, op.node l r = .binary b l r) ∧
        ∀ x y, b.apply? x y = op.apply? x y) ∨
      ((op = .gt ∨ op = .ge) ∧
        ∃ b : BinOp, (∀ l r : Node String, op.node l r = .binary b r l) ∧
          ∀ x y, b.apply? y x = op.apply? x y) := by
  cases op with
  | gt => exact .inr ⟨.inl rfl, .lt, fun _ _ => rfl, fun _ _ => rfl⟩
  | ge => exact .inr ⟨.inr rfl, .le, fun _ _ => rfl, fun _ _ => rfl⟩
  | _ => exact .inl ⟨_, fun _ _ => rfl, fun _ _ => rfl⟩

theorem means_apply {o : Option Int64} (s : Store String) :
    Means (match o with
      | some v => Except.ok (v, s)
      | none => .error (Stop.divisionByZero : Stop String)) (o >>= fun v => some (v, s)) := by
  cases o with
  | some v => exact .value _
  | none => exact .divisionByZero

namespace Expr

/-- Operands that do not assign can be computed in either order. -/
theorem means_turned {l r : Expr} (hl : l.assigns = false) (hr : r.assigns = false)
    {s : Store String} (ihl : Means (l.node.eval s) (l.eval s))
    (ihr : Means (r.node.eval s) (r.eval s)) {op : Op} {b : BinOp}
    (hb : ∀ x y, b.apply? y x = op.apply? x y) :
    Means ((Node.binary b r.node l.node).eval s) ((binary op l r).eval s) := by
  cases hR : r.eval s with
  | none =>
    -- the right operand fails, after the left one or before it
    have hNone : (binary op l r).eval s = none := by
      rw [eval]
      cases hL : l.eval s with
      | none => rfl
      | some p =>
        obtain ⟨x, t⟩ := p
        obtain rfl := eval_store hl hL
        rw [Option.bind_eq_bind, Option.bind_some]
        dsimp only
        rw [hR]
        rfl
    rw [hR] at ihr
    rw [hNone]
    exact ihr.fails _
  | some q =>
    obtain ⟨y, t⟩ := q
    obtain rfl := eval_store hr hR
    rw [hR] at ihr
    rw [Node.eval, ihr.eq_ok, eval]
    cases hL : l.eval t with
    | none =>
      rw [hL] at ihl
      exact ihl.fails _
    | some p =>
      obtain ⟨x, u⟩ := p
      obtain rfl := eval_store hl hL
      rw [hL] at ihl
      show Means (l.node.eval u >>= _) (r.eval u >>= _)
      rw [ihl.eq_ok, hR]
      show Means (match b.apply? y x with
        | some v => Except.ok (v, u)
        | none => .error Stop.divisionByZero) ( op.apply? x y >>= fun v => some (v, u))
      rw [hb]
      exact means_apply u

/-- **Expressions compute what is written**, if no operand of a `>` or a `>=` assigns. -/
theorem eval_node {e : Expr} (hGraded : e.Graded) (hSteady : e.Steady) (s : Store String) :
    Means (e.node.eval s) (e.eval s) := by
  induction e generalizing s with
  | num v => exact .value (v, s)
  | name x =>
    rw [node, Node.eval, eval]
    cases s x with
    | none => exact .unassigned x
    | some v => exact .value (v, s)
  | paren e ih => exact ih hGraded hSteady s
  | signed sign e ih =>
    have he := ih hGraded.1 hSteady s
    cases sign with
    | plus =>
      have hPlus : (signed .plus e).eval s = e.eval s := by
        rw [eval]
        cases e.eval s <;> rfl
      rw [hPlus]
      exact he
    | minus =>
      refine he.bind fun p => ?_
      show Means (.ok (0 - p.1, p.2)) (some (-p.1, p.2))
      rw [Int64.zero_sub]
      exact .value _
  | binary op l r ihl ihr =>
    obtain ⟨hl, hr, -, -⟩ := hGraded
    obtain ⟨hSteadyL, hSteadyR, hTurned⟩ := hSteady
    rw [node]
    rcases op.node_cases with ⟨b, hNode, hApply⟩ | ⟨hOp, b, hNode, hApply⟩
    · rw [hNode]
      refine (ihl hl hSteadyL s).bind fun p => (ihr hr hSteadyR p.2).bind fun q => ?_
      dsimp only
      rw [hApply]
      exact means_apply _
    · rw [hNode]
      obtain ⟨hL, hR⟩ := hTurned hOp
      exact means_turned hL hR (ihl hl hSteadyL s) (ihr hr hSteadyR s) hApply
  | assign t v iht ihv =>
    obtain ⟨-, hv, -, x, hx⟩ := hGraded
    rw [node, hx, eval, place?_eq_some.mpr hx]
    exact (ihv hv hSteady.2 s).bind fun p => .value _

end Expr

/-! ### Whole sources -/

theorem Stmt.evalAll_node {stmts : List Stmt} (hGraded : ∀ stmt ∈ stmts, stmt.Graded)
    (hSteady : ∀ stmt ∈ stmts, stmt.Steady) (last : Int64) (s : Store String) :
    Means (Node.evalAll last (stmts.map node) s) (Stmt.evalAll last stmts s) := by
  induction stmts generalizing last s with
  | nil => exact .value last
  | cons stmt stmts ih =>
    rw [List.forall_mem_cons] at hGraded hSteady
    rw [List.map_cons, Node.evalAll]
    cases stmt with
    | expr e =>
      have he := Expr.eval_node hGraded.1 hSteady.1 s
      rw [node, evalAll]
      generalize e.node.eval s = x at he ⊢
      generalize e.eval s = y at he ⊢
      cases he with
      | value p => exact ih hGraded.2 hSteady.2 p.1 p.2
      | divisionByZero => exact .divisionByZero
      | unassigned x => exact .unassigned x
    | ret e =>
      have he := Expr.eval_node hGraded.1 hSteady.1 s
      rw [node, evalAll, Node.eval]
      generalize e.node.eval s = x at he ⊢
      generalize e.eval s = y at he ⊢
      cases he with
      | value p => exact .value p.1
      | divisionByZero => exact .divisionByZero
      | unassigned x => exact .unassigned x

theorem compile_eq_ok {source : Text} {lines : List String} (h : compile source = .ok lines) :
    ∃ tokens stmts, Token.scan source = .ok tokens ∧
      Stmt.parse (Word.ofTokens source tokens) = .ok stmts ∧
      (Program.ofStmts stmts).generate = .ok lines := by
  rw [compile] at h
  cases hp : Program.ofSource source with
  | error f => rw [hp] at h; cases h
  | ok p =>
    rw [hp] at h
    rw [Program.ofSource] at hp
    cases hs : Token.scan source with
    | error e => rw [hs] at hp; cases hp
    | ok tokens =>
      rw [hs] at hp
      obtain ⟨stmts, hStmts, rfl⟩ := Program.parse_eq_ok.mp hp
      refine ⟨tokens, stmts, rfl, hStmts, ?_⟩
      dsimp only at h
      split at h
      · cases h
      · next hg => rw [hg, Except.ok.inj h]

theorem Program.execute_ofStmts {stmts : List Stmt} (hGraded : ∀ stmt ∈ stmts, stmt.Graded)
    (hSteady : ∀ stmt ∈ stmts, stmt.Steady) {lines : List String}
    (hLines : (ofStmts stmts).generate = .ok lines) (hLength : lines.length ≤ stepLimit) :
    (∃ v, execute lines = .ok v ∧ Stmt.evalAll 0 stmts Store.empty = some v) ∨
      Stmt.evalAll 0 stmts Store.empty = none ∧
        ∃ c, execute lines = .error c ∧ (c = .divisionByZero ∨ ∃ a, c = .uninitialisedRead a) := by
  have hCount : (ofStmts stmts).locals.length < 2 ^ 53 := by
    have hTable := length_locals_le stmts
    have hVars := length_vars_le_of_generate hLines
    rw [stepLimit] at hLength
    omega
  have hSame := execute_of_generate hCount hLines hLength
  have hNames : ∀ x ∈ (stmts.map Stmt.node).flatMap Node.vars, ∀ y,
      (ofStmts stmts).locals.indexOf y = (ofStmts stmts).locals.indexOf x → y = x := by
    intro x hx y hy
    rw [List.flatMap_map] at hx
    obtain ⟨stmt, hStmt, hx⟩ := List.mem_flatMap.mp hx
    exact Locals.eq_of_indexOf_eq (mem_names_of_mem_vars hStmt hx) hy
  have hBody : (ofStmts stmts).body =
      (stmts.map Stmt.node).map (Node.map (ofStmts stmts).locals.indexOf) := by
    rw [List.map_map]
    rfl
  rw [hBody, Node.evalAll_map hNames] at hSame
  have hMeans := Stmt.evalAll_node hGraded hSteady 0 Store.empty
  generalize Stmt.evalAll 0 stmts Store.empty = y at hMeans ⊢
  generalize hx : Node.evalAll 0 (stmts.map Stmt.node) Store.empty = x at hMeans
  rw [show (Store.empty ∘ (ofStmts stmts).locals.indexOf) = Store.empty from rfl, hx] at hSame
  generalize execute lines = z at hSame ⊢
  cases hMeans with
  | value v =>
    cases hSame
    exact .inl ⟨v, rfl, rfl⟩
  | divisionByZero =>
    cases hSame
    exact .inr ⟨rfl, _, rfl, .inl rfl⟩
  | unassigned x =>
    cases hSame
    exact .inr ⟨rfl, _, rfl, .inr ⟨_, rfl⟩⟩

/-- **A source runs as it is written.**  If a source compiles to code that is not too long, it has
one derivation; and if no operand of a `>` or a `>=` assigns in it, then running the source gives
the value of what is written, operands from left to right, and crashes exactly if that has none: it
divides by zero or reads a variable without a value. -/
theorem run_eq_value_iff {source : Text} {lines : List String}
    (hCompile : compile source = .ok lines) (hLength : lines.length ≤ 1000000) :
    ∃ tokens, Token.scan source = .ok tokens ∧ (∃! ds, Derives source tokens ds) ∧
      ∀ ds, Derives source tokens ds → (∀ d ∈ ds, d.stmt.Steady) →
        (∀ v, run source = .value v ↔
            Stmt.evalAll 0 (ds.map StmtDerivation.stmt) Store.empty = some v) ∧
          ((∃ c, run source = .crashed c) ↔
            Stmt.evalAll 0 (ds.map StmtDerivation.stmt) Store.empty = none) ∧
          ∀ c, run source = .crashed c → c = .divisionByZero ∨ ∃ a, c = .uninitialisedRead a := by
  obtain ⟨tokens, stmts, hScan, hParse, hLines⟩ := compile_eq_ok hCompile
  obtain ⟨ds, hDerives, rfl⟩ := exists_derives hParse
  refine ⟨tokens, hScan, ⟨ds, hDerives, fun ds' h => h.unique hDerives⟩, ?_⟩
  intro ds' hDerives' hSteady
  obtain rfl := hDerives'.unique hDerives
  have hSteady' : ∀ stmt ∈ ds'.map StmtDerivation.stmt, stmt.Steady :=
    List.forall_mem_map.mpr hSteady
  rw [run, hCompile]
  dsimp only
  rcases Program.execute_ofStmts (Stmt.parse_eq_ok.mp hParse).1 hSteady' hLines hLength with
    ⟨v, hv, hEval⟩ | ⟨hEval, c, hc, hCause⟩
  · rw [hv, hEval]
    refine ⟨fun w => ?_, ⟨?_, nofun⟩, nofun⟩
    · rw [Outcome.value.injEq, Option.some.injEq]
    · rintro ⟨c, hc⟩
      cases hc
  · rw [hc, hEval]
    refine ⟨fun w => ⟨nofun, nofun⟩, ⟨fun _ => rfl, fun _ => ⟨c, rfl⟩⟩, ?_⟩
    intro c' hc'
    cases hc'
    exact hCause

/-- A source in which the operands of `>=` are turned around and the right one has a sign. -/
theorem run_turned_operands :
    ∃ lines, compile "a=3;return a>=-a;".toList = .ok lines ∧ lines.length ≤ 1000000 ∧
      run "a=3;return a>=-a;".toList = .value 1 := by
  have hCompile : ∃ lines, compile "a=3;return a>=-a;".toList = .ok lines ∧
      lines.length ≤ 1000000 := ⟨_, rfl, by decide⟩
  obtain ⟨lines, hLines, hLength⟩ := hCompile
  refine ⟨lines, hLines, hLength, ?_⟩
  obtain ⟨tokens, hScan, -, h⟩ := run_eq_value_iff hLines hLength
  have hParse : Stmt.parse (Word.ofTokens "a=3;return a>=-a;".toList tokens) =
      .ok [.expr (.assign (.name "a") (.num 3)),
        .ret (.binary .ge (.name "a") (.signed .minus (.name "a")))] := by
    cases hScan
    rfl
  obtain ⟨ds, hDerives, hStmts⟩ := exists_derives hParse
  have hSteady : ∀ stmt ∈ ds.map StmtDerivation.stmt, stmt.Steady := by
    rw [hStmts]
    simp [Stmt.Steady, Expr.Steady, Expr.assigns]
  obtain ⟨hValue, -⟩ := h ds hDerives (List.forall_mem_map.mp hSteady)
  rw [hValue, hStmts]
  rfl

end Semicolon
