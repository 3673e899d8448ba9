import Mathlib.Data.List.Nodup
import Semicolon.Program

/-!
# Numbered variables

The table of a program holds every name that is written in it, so the index of a name can be read
back: `Program.body_ofStmts` gets the trees over names back from the trees over indices.
-/

namespace Semicolon

namespace Locals

theorem mem_names_declare {t : Locals} {x y : String} :
    y ∈ (t.declare x).2.names ↔ y ∈ t.names ∨ y = x := by
  rw [declare]
  split
  next i hi =>
    -- the name is there already
    refine ⟨Or.inl, ?_⟩
    rintro (hy | rfl)
    · exact hy
    · exact List.mem_of_getElem? (getElem?_of_find? hi)
  next hi => rw [List.mem_append, List.mem_singleton]

theorem mem_names_declareAll {t : Locals} {xs : List String} {y : String} :
    y ∈ (t.declareAll xs).names ↔ y ∈ t.names ∨ y ∈ xs := by
  induction xs generalizing t with
  | nil => simp
  | cons x xs ih => rw [declareAll_cons, ih, mem_names_declare, List.mem_cons, or_assoc]

theorem mem_names_ofNames {xs : List String} {y : String} : y ∈ (ofNames xs).names ↔ y ∈ xs := by
  rw [ofNames, mem_names_declareAll]
  exact ⟨fun h => h.resolve_left nofun, Or.inr⟩

theorem names_declare (t : Locals) (x : String) :
    (t.declare x).2.names = if x ∈ t.names then t.names else t.names ++ [x] := by
  rw [declare]
  split
  next i hi => rw [if_pos (List.mem_of_getElem? (getElem?_of_find? hi))]
  next hi => rw [if_neg (find?_eq_none.mp hi)]

/-- No name is entered twice. -/
theorem nodup_declare {t : Locals} (h : t.names.Nodup) (x : String) :
    (t.declare x).2.names.Nodup := by
  rw [names_declare]
  by_cases hx : x ∈ t.names
  · rwa [if_pos hx]
  · rw [if_neg hx, ← List.concat_eq_append]
    exact List.Nodup.concat hx h

theorem nodup_declareAll {t : Locals} (h : t.names.Nodup) (xs : List String) :
    (t.declareAll xs).names.Nodup := by
  induction xs generalizing t with
  | nil => exact h
  | cons x xs ih => exact ih (nodup_declare h x)

/-- Declaring some names enters those that are new, each where it is first declared. -/
theorem names_declareAll (t : Locals) (xs : List String) :
    (t.declareAll xs).names = t.names ++ (xs.filter (· ∉ t.names)).eraseDups := by
  induction xs generalizing t with
  | nil => simp
  | cons x xs ih =>
    rw [declareAll_cons, ih, names_declare]
    by_cases hx : x ∈ t.names
    · rw [if_pos hx, List.filter_cons_of_neg (by simp [hx])]
    · have hRest : xs.filter (· ∉ t.names ++ [x]) =
          (xs.filter (· ∉ t.names)).filter fun y => !y == x := by
        rw [List.filter_filter]
        refine List.filter_congr fun y _ => ?_
        by_cases hy : y = x <;> simp [hy]
      rw [if_neg hx, List.filter_cons_of_pos (by simp [hx]), List.eraseDups_cons, hRest,
        List.append_assoc, List.singleton_append]

/-- The names of a table are those that were declared, without repetitions. -/
theorem names_ofNames (xs : List String) : (ofNames xs).names = xs.eraseDups := by
  have hAll : xs.filter (· ∉ empty.names) = xs := by
    refine List.filter_eq_self.mpr fun x _ => ?_
    simp [empty]
  rw [ofNames, names_declareAll, hAll]
  rfl

theorem entries_eq (t : Locals) :
    t.entries = t.names.zipIdx.map fun (x, i) => (x, 8 * (i + 1)) := by
  have hOffset : ∀ i, offset i = 8 * (i + 1) := by
    intro i
    exact Nat.mul_comm (i + 1) 8
  simp only [entries, hOffset]

theorem getElem?_indexOf {t : Locals} {x : String} (h : x ∈ t.names) :
    t.names[t.indexOf x]? = some x := by
  cases hi : t.find? x with
  | none => exact absurd h (find?_eq_none.mp hi)
  | some i =>
    rw [indexOf, hi]
    exact getElem?_of_find? hi

theorem find?_eq_indexOf {t : Locals} {x : String} (h : x ∈ t.names) :
    t.find? x = some (t.indexOf x) := by
  cases hFind : t.find? x with
  | none => exact absurd h (find?_eq_none.mp hFind)
  | some i =>
    rw [indexOf, hFind]
    rfl

/-- A name has its index in the table into which it was entered. -/
theorem declare_fst (t : Locals) (x : String) :
    (t.declare x).1 = (t.declare x).2.indexOf x := by
  rw [indexOf]
  cases hFind : t.find? x with
  | some i =>
    have hDeclare : t.declare x = (i, t) := by
      rw [declare, hFind]
    rw [hDeclare, hFind]
    rfl
  | none =>
    have hDeclare : t.declare x = (t.length, { names := t.names ++ [x] }) := by
      rw [declare, hFind]
    have hNew : find? { names := t.names ++ [x] } x = some t.length := by
      rw [find?] at hFind ⊢
      rw [List.findIdx?_append, hFind]
      simp [length]
    rw [hDeclare, hNew]
    rfl

/-- No other name has the index of a name in the table. -/
theorem eq_of_indexOf_eq {t : Locals} {x y : String} (hx : x ∈ t.names)
    (h : t.indexOf y = t.indexOf x) : y = x := by
  have hEntry := getElem?_indexOf hx
  rw [← h] at hEntry
  by_cases hy : y ∈ t.names
  · rw [getElem?_indexOf hy] at hEntry
    exact Option.some.inj hEntry
  · -- a name that is not there has an index behind the last entry
    rw [indexOf, find?_eq_none.mpr hy, Option.getD_none, length,
      List.getElem?_eq_none (Nat.le_refl _)] at hEntry
    cases hEntry

theorem length_declare_le (t : Locals) (x : String) : (t.declare x).2.length ≤ t.length + 1 := by
  rw [declare]
  split
  · exact Nat.le_succ _
  · exact Nat.le_of_eq List.length_append

theorem length_ofNames_le (xs : List String) : (ofNames xs).length ≤ xs.length := by
  have h : ∀ t : Locals, (t.declareAll xs).length ≤ t.length + xs.length := by
    induction xs with
    | nil =>
      intro t
      exact Nat.le_refl _
    | cons x xs ih =>
      intro t
      have hx := length_declare_le t x
      have hxs := ih (t.declare x).2
      rw [declareAll_cons, List.length_cons]
      omega
  have hEmpty := h empty
  rwa [show empty.length = 0 from rfl, Nat.zero_add] at hEmpty

end Locals

namespace Node

variable {ν μ κ : Type}

theorem map_map (f : ν → μ) (g : μ → κ) (n : Node ν) : (n.map f).map g = n.map (g ∘ f) := by
  induction n with
  | num v => rfl
  | var x => rfl
  | binary op l r ihl ihr => rw [map, map, map, ihl, ihr]
  | assign t v iht ihv => rw [map, map, map, iht, ihv]
  | ret e ih => rw [map, map, map, ih]

theorem map_congr {f g : ν → μ} {n : Node ν} (h : ∀ x ∈ n.vars, f x = g x) :
    n.map f = n.map g := by
  induction n with
  | num v => rfl
  | var x => rw [map, map, h x List.mem_cons_self]
  | binary op l r ihl ihr =>
    rw [vars, List.forall_mem_append] at h
    rw [map, map, ihl h.1, ihr h.2]
  | assign t v iht ihv =>
    rw [vars, List.forall_mem_append] at h
    rw [map, map, iht h.1, ihv h.2]
  | ret e ih => rw [map, map, ih h]

end Node

/-! ### Variables as they are written -/

theorem Op.vars_node_perm {ν : Type} (op : Op) (l r : Node ν) :
    (op.node l r).vars.Perm (l.vars ++ r.vars) := by
  cases op <;> first | exact .refl _ | exact List.perm_append_comm

theorem Sign.vars_node {ν : Type} (s : Sign) (e : Node ν) : (s.node e).vars = e.vars := by
  cases s <;> rfl

namespace Expr

theorem names_paren (e : Expr) : (paren e).names = e.names := by
  show Word.names (e.words ++ [.punct .closeParen]) = Word.names e.words
  rw [Word.names_append]
  exact List.append_nil _

theorem names_binary (op : Op) (l r : Expr) : (binary op l r).names = l.names ++ r.names := by
  rw [names, words, Word.names_append]
  rfl

theorem names_assign (t v : Expr) : (assign t v).names = t.names ++ v.names := by
  rw [names, words, Word.names_append]
  rfl

/-- The variables of the tree are those that are written, in another order where `>` turns two
operands around. -/
theorem vars_node_perm (e : Expr) : e.node.vars.Perm e.names := by
  induction e with
  | num v => exact .refl _
  | name x => exact .refl _
  | paren e ih =>
    rw [names_paren]
    exact ih
  | signed s e ih =>
    rw [node, Sign.vars_node]
    exact ih
  | binary op l r ihl ihr =>
    rw [node, names_binary]
    exact (op.vars_node_perm l.node r.node).trans (ihl.append ihr)
  | assign t v iht ihv =>
    rw [node, Node.vars, names_assign]
    exact iht.append ihv

end Expr

theorem Stmt.vars_node_perm (s : Stmt) : s.node.vars.Perm s.names := by
  cases s with
  | expr e =>
    rw [names, words, Word.names_append]
    exact e.vars_node_perm.trans (.of_eq (List.append_nil _).symm)
  | ret e =>
    show e.node.vars.Perm (Word.names (e.words ++ [.punct .semicolon]))
    rw [Word.names_append]
    exact e.vars_node_perm.trans (.of_eq (List.append_nil _).symm)

namespace Program

/-- Every variable of some statements is in their table. -/
theorem mem_names_of_mem_vars {stmts : List Stmt} {s : Stmt} (hs : s ∈ stmts) {x : String}
    (hx : x ∈ s.node.vars) : x ∈ (ofStmts stmts).locals.names :=
  Locals.mem_names_ofNames.mpr (List.mem_flatMap.mpr ⟨s, hs, s.vars_node_perm.mem_iff.mp hx⟩)

/-- With the names of the table in place of the indices, the trees of a program are those of its
statements. -/
theorem body_ofStmts (stmts : List Stmt) :
    (ofStmts stmts).body.map (Node.map ((ofStmts stmts).locals.names[·]?)) =
      stmts.map fun s => s.node.map some := by
  show (stmts.map fun s => s.node.map (ofStmts stmts).locals.indexOf).map _ = _
  rw [List.map_map]
  refine List.map_congr_left fun s hs => ?_
  rw [Function.comp_apply, Node.map_map]
  refine Node.map_congr fun x hx => ?_
  exact Locals.getElem?_indexOf (mem_names_of_mem_vars hs hx)

/-- The table has no more entries than there are variables in the trees. -/
theorem length_locals_le (stmts : List Stmt) :
    (ofStmts stmts).locals.length ≤ ((ofStmts stmts).body.flatMap Node.vars).length := by
  have hVars : ((ofStmts stmts).body.flatMap Node.vars).length =
      (stmts.flatMap Stmt.names).length := by
    show ((stmts.map fun s => s.node.map (ofStmts stmts).locals.indexOf).flatMap
      Node.vars).length = _
    rw [List.flatMap_map, List.length_flatMap, List.length_flatMap]
    refine congrArg List.sum (List.map_congr_left fun s _ => ?_)
    rw [Node.vars_map, List.length_map, s.vars_node_perm.length_eq]
  rw [hVars]
  exact Locals.length_ofNames_le _

end Program

end Semicolon
