import Semicolon.Proofs.Numbering
import Semicolon.Proofs.Parsing
import Semicolon.Proofs.Reading
import Semicolon.Proofs.Spelling

/-!
# Reading undoes writing

`Node.expr` writes a tree with brackets only where they are needed.  What it writes is graded, so
the reader takes the words back to the same expression, and nothing of the tree is lost by it
(`Node.node_expr`).  The words are typed with spaces between them, and the scan takes the text back
to the words (`Token.scan_typed`).
-/

namespace Semicolon

/-! ### Places in an expression -/

namespace Expr

theorem le_level_atLevel {level : Nat} (h : level ≤ Phrase.primary.level) (e : Expr) :
    level ≤ (e.atLevel level).level := by
  rw [atLevel]
  by_cases hLevel : level ≤ e.level
  · rw [if_pos hLevel]
    exact hLevel
  · rw [if_neg hLevel]
    exact h

theorem graded_atLevel {e : Expr} (h : e.Graded) (level : Nat) : (e.atLevel level).Graded := by
  rw [atLevel]
  by_cases hLevel : level ≤ e.level
  · rw [if_pos hLevel]
    exact h
  · rw [if_neg hLevel]
    exact h

theorem written_atLevel {e : Expr} (h : ∀ w ∈ e.words, w.Written) (level : Nat) :
    ∀ w ∈ (e.atLevel level).words, w.Written := by
  rw [atLevel]
  by_cases hLevel : level ≤ e.level
  · rw [if_pos hLevel]
    exact h
  · rw [if_neg hLevel, words, List.forall_mem_cons, List.forall_mem_append,
      List.forall_mem_singleton]
    exact ⟨trivial, h, trivial⟩

end Expr

/-! ### Trees that can be written -/

namespace Node

/-- The trees that are written as an expression: no number is negative, each variable is a word
that names one, and variables alone are assigned to. -/
def Writable : Node String → Prop
  | num v => (Word.num (some v)).Written
  | var x => (Word.ident x).Written
  | binary _ l r => l.Writable ∧ r.Writable
  | assign t v => (∃ x, t = var x) ∧ t.Writable ∧ v.Writable
  | ret _ => False

/-- The trees that are written as a statement. -/
def WritableStmt : Node String → Prop
  | ret e => e.Writable
  | num v => (num v).Writable
  | var x => (var x).Writable
  | binary op l r => (binary op l r).Writable
  | assign t v => (assign t v).Writable

variable {n : Node String}

theorem Writable.noRet (h : n.Writable) : n.noRet = true := by
  induction n with
  | num v => rfl
  | var x => rfl
  | binary op l r ihl ihr => rw [Node.noRet, ihl h.1, ihr h.2, Bool.and_self]
  | assign t v iht ihv => rw [Node.noRet, iht h.2.1, ihv h.2.2, Bool.and_self]
  | ret e => exact h.elim

/-- Each part is written in a place for which it binds tightly enough. -/
theorem Writable.graded_expr (h : n.Writable) : n.expr.Graded := by
  induction n with
  | num v => trivial
  | var x => trivial
  | binary op l r ihl ihr =>
    have hOp : op.op.level + 1 ≤ Phrase.primary.level := Nat.le_succ_of_le op.op.level_lt_unary
    refine ⟨Expr.graded_atLevel (ihl h.1) _, Expr.graded_atLevel (ihr h.2) _, ?_, ?_⟩
    · exact Expr.le_level_atLevel (Nat.le_of_succ_le hOp) _
    · exact Expr.le_level_atLevel hOp _
  | assign t v _ ihv =>
    obtain ⟨⟨x, rfl⟩, -, hv⟩ := h
    exact ⟨trivial, ihv hv, Expr.le_level_atLevel (by decide) _, x, rfl⟩
  | ret e => exact h.elim

theorem Writable.written_expr (h : n.Writable) : ∀ w ∈ n.expr.words, w.Written := by
  induction n with
  | num v =>
    rw [expr, Expr.words, List.forall_mem_singleton]
    exact h
  | var x =>
    rw [expr, Expr.words, List.forall_mem_singleton]
    exact h
  | binary op l r ihl ihr =>
    rw [expr, Expr.words, List.forall_mem_append, List.forall_mem_cons]
    exact ⟨Expr.written_atLevel (ihl h.1) _, trivial, Expr.written_atLevel (ihr h.2) _⟩
  | assign t v iht ihv =>
    rw [expr, Expr.words, List.forall_mem_append, List.forall_mem_cons]
    exact ⟨Expr.written_atLevel (iht h.2.1) _, trivial, ihv h.2.2⟩
  | ret e => exact h.elim

/-- A tree is written as the statement of an expression, or as that of a return. -/
theorem WritableStmt.exists_expr (h : n.WritableStmt) :
    ∃ e : Node String, e.Writable ∧
      (n = e ∧ n.stmt = .expr e.expr ∨ n = .ret e ∧ n.stmt = .ret e.expr) := by
  cases n with
  | ret e => exact ⟨e, h, Or.inr ⟨rfl, rfl⟩⟩
  | num v => exact ⟨num v, h, Or.inl ⟨rfl, rfl⟩⟩
  | var x => exact ⟨var x, h, Or.inl ⟨rfl, rfl⟩⟩
  | binary op l r => exact ⟨binary op l r, h, Or.inl ⟨rfl, rfl⟩⟩
  | assign t v => exact ⟨assign t v, h, Or.inl ⟨rfl, rfl⟩⟩

theorem WritableStmt.node_stmt (h : n.WritableStmt) : n.stmt.node = n := by
  obtain ⟨e, he, ⟨rfl, hStmt⟩ | ⟨rfl, hStmt⟩⟩ := h.exists_expr
  · rw [hStmt]
    exact node_expr he.noRet
  · rw [hStmt]
    exact congrArg ret (node_expr he.noRet)

theorem WritableStmt.graded_stmt (h : n.WritableStmt) : n.stmt.Graded := by
  obtain ⟨e, he, ⟨-, hStmt⟩ | ⟨-, hStmt⟩⟩ := h.exists_expr
  · rw [hStmt]
    exact he.graded_expr
  · rw [hStmt]
    exact he.graded_expr

theorem WritableStmt.written_stmt (h : n.WritableStmt) : ∀ w ∈ n.stmt.words, w.Written := by
  obtain ⟨e, he, ⟨-, hStmt⟩ | ⟨-, hStmt⟩⟩ := h.exists_expr
  · rw [hStmt, Stmt.words, List.forall_mem_append, List.forall_mem_singleton]
    exact ⟨he.written_expr, trivial⟩
  · rw [hStmt, Stmt.words, List.forall_mem_cons, List.forall_mem_append, List.forall_mem_singleton]
    exact ⟨trivial, he.written_expr, trivial⟩

end Node

/-! ### Reading what is written -/

/-- The reader takes the words of some trees back to what was written. -/
theorem Stmt.parse_written {ns : List (Node String)} (h : ∀ n ∈ ns, n.WritableStmt) :
    Stmt.parse (ns.flatMap fun n => n.stmt.words) = .ok (ns.map Node.stmt) := by
  rw [Stmt.parse_eq_ok]
  refine ⟨?_, ?_⟩
  · intro stmt hStmt
    obtain ⟨n, hn, rfl⟩ := List.mem_map.mp hStmt
    exact (h n hn).graded_stmt
  · rw [List.flatMap_map]

/-- **Reading undoes writing.**  Some trees are written as statements, and the words of these are
typed with spaces of any number and kind between them.  The text is scanned and read, and with the
names of the table in place of the indices, the program is made of the same trees. -/
theorem parse_typed {ns : List (Node String)} (h : ∀ n ∈ ns, n.WritableStmt)
    {ws : List (Word × Text)} (hWords : ws.map Prod.fst = ns.flatMap fun n => n.stmt.words)
    (hGaps : Text.Spaced (ws.map Prod.snd)) {lead : Text}
    (hLead : ∀ c ∈ lead, Text.isSpace c = true) :
    ∃ tokens p, Token.scan (lead ++ Word.typed ws) = .ok tokens ∧
      Program.parse (lead ++ Word.typed ws) tokens = .ok p ∧
      p.body.map (Node.map (p.locals.names[·]?)) = ns.map (Node.map some) := by
  have hWritten : ∀ p ∈ ws, p.1.Written := by
    intro p hp
    have hMem := List.mem_map_of_mem (f := Prod.fst) hp
    rw [hWords] at hMem
    obtain ⟨n, hn, hw⟩ := List.mem_flatMap.mp hMem
    exact (h n hn).written_stmt p.1 hw
  obtain ⟨fs, hTyped, hSnd, hFst⟩ := Token.exists_typed hWritten
  rw [← hSnd] at hGaps
  obtain ⟨body, hScan, hStands⟩ := Token.scan_typed hGaps hLead
  rw [hTyped] at hScan hStands
  refine ⟨_, .ofStmts (ns.map Node.stmt), hScan, ?_, ?_⟩
  · refine Program.parse_eq_ok.mpr ⟨ns.map Node.stmt, ?_, rfl⟩
    rw [Token.ofTokens_of_stands hStands, hFst, hWords, Stmt.parse_written h]
  · rw [Program.body_ofStmts, List.map_map]
    refine List.map_congr_left ?_
    intro n hn
    rw [Function.comp_apply, (h n hn).node_stmt]

/-- Both operands of a product and the right one of a difference are in brackets, and the tree is
read back. -/
theorem parse_typed_brackets :
    ∃ tokens p,
      Token.scan "a = 1 - ( 2 - 3 ) ; return ( a + 1 ) * ( b = 2 ) ; ".toList = .ok tokens ∧
      Program.parse "a = 1 - ( 2 - 3 ) ; return ( a + 1 ) * ( b = 2 ) ; ".toList tokens = .ok p ∧
      p.body.map (Node.map (p.locals.names[·]?)) =
        [.assign (.var "a") (.binary .sub (.num 1) (.binary .sub (.num 2) (.num 3))),
          .ret (.binary .mul (.binary .add (.var "a") (.num 1)) (.assign (.var "b") (.num 2)))].map
          (Node.map some) := by
  let ns : List (Node String) :=
    [.assign (.var "a") (.binary .sub (.num 1) (.binary .sub (.num 2) (.num 3))),
      .ret (.binary .mul (.binary .add (.var "a") (.num 1)) (.assign (.var "b") (.num 2)))]
  let ws : List (Word × Text) := (ns.flatMap fun n => n.stmt.words).map fun w => (w, [' '])
  have hWritable : ∀ n ∈ ns, n.WritableStmt := by
    rw [List.forall_mem_cons, List.forall_mem_singleton]
    have ha : (Node.var "a").Writable := ⟨by decide, List.forall_mem_singleton.mpr rfl, by decide⟩
    have hb : (Node.var "b").Writable := ⟨by decide, List.forall_mem_singleton.mpr rfl, by decide⟩
    have h1 : (Node.num 1).Writable := show 0 ≤ Int64.toInt 1 by decide
    have h2 : (Node.num 2).Writable := show 0 ≤ Int64.toInt 2 by decide
    have h3 : (Node.num 3).Writable := show 0 ≤ Int64.toInt 3 by decide
    exact ⟨⟨⟨"a", rfl⟩, ha, h1, h2, h3⟩, ⟨ha, h1⟩, ⟨"b", rfl⟩, hb, h2⟩
  have hSpaced : Text.Spaced (ws.map Prod.snd) :=
    Text.spaced_of_forall_eq (by decide)
  have hSource : ([] : Text) ++ Word.typed ws =
      "a = 1 - ( 2 - 3 ) ; return ( a + 1 ) * ( b = 2 ) ; ".toList := by
    decide
  have hWords : ws.map Prod.fst = ns.flatMap fun n => n.stmt.words := rfl
  have hLead : ∀ c ∈ ([] : Text), Text.isSpace c = true := by
    intro c hc
    cases hc
  have hRead := parse_typed hWritable hWords hSpaced hLead
  rw [hSource] at hRead
  exact hRead

end Semicolon
