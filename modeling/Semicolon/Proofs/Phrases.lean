import Semicolon.Grammar

/-!
# Derivations as expressions

A derivation has steps that leave no trace in its words: a phrase that is only its tighter part.
`Derivation.expr` forgets these steps.  Nothing else is lost: from one nonterminal, at most one
derivation has a given expression (`Derivation.expr_inj`), and there is one exactly if the
expression is graded, that is if each of its parts binds tightly enough for its place
(`Expr.Graded`, `Derivation.exists_expr`).
-/

namespace Semicolon

namespace Phrase

/-- How tightly the phrases of a nonterminal are bound together, as `Expr.level`. -/
def level : Phrase → Nat
  | assign => 0
  | equality => 1
  | relational => 2
  | add => 3
  | mul => 4
  | unary => 5
  | primary => 6

theorem level_inj {p q : Phrase} (h : p.level = q.level) : p = q := by
  cases p <;> cases q <;> first | rfl | exact absurd h (by decide)

theorem level_le_primary (p : Phrase) : p.level ≤ primary.level := by
  cases p <;> decide

theorem level_ofOp (op : Op) : (ofOp op).level = op.level := by
  cases op <;> rfl

theorem level_of_tighter? {p q : Phrase} (h : p.tighter? = some q) : q.level = p.level + 1 := by
  cases p <;> cases h <;> rfl

theorem exists_tighter? {p : Phrase} (h : p.level < primary.level) :
    ∃ q, p.tighter? = some q := by
  cases p <;> first | exact ⟨_, rfl⟩ | exact absurd h (by decide)

theorem exists_tighter?_ofOp (op : Op) : ∃ q, (ofOp op).tighter? = some q := by
  cases op <;> exact ⟨_, rfl⟩

end Phrase

theorem Op.level_lt_unary (op : Op) : op.level < Phrase.unary.level := by
  cases op <;> decide

theorem Op.level_pos (op : Op) : 0 < op.level := by
  cases op <;> decide

namespace Expr

/-- Each part of an expression binds tightly enough for its place, and variables alone are assigned
to. -/
def Graded : Expr → Prop
  | num _ | name _ => True
  | paren e => e.Graded
  | signed _ e => e.Graded ∧ Phrase.primary.level ≤ e.level
  | binary op l r => l.Graded ∧ r.Graded ∧ op.level ≤ l.level ∧ op.level < r.level
  | assign t v => t.Graded ∧ v.Graded ∧ 0 < t.level ∧ ∃ x, t.node = .var x

end Expr

def Stmt.Graded : Stmt → Prop
  | expr e | ret e => e.Graded

namespace Derivation

/-- The derivation without the steps to a tighter phrase. -/
def expr {p : Phrase} : Derivation p → Expr
  | num v => .num v
  | ident x => .name x
  | paren d => .paren d.expr
  | signed s d => .signed s d.expr
  | chain op _ _ l r => .binary op l.expr r.expr
  | assign t v => .assign t.expr v.expr
  | tighter _ d => d.expr

theorem words_expr {p : Phrase} (d : Derivation p) : d.expr.words = d.words := by
  induction d with
  | num v => rfl
  | ident x => rfl
  | paren d ih => rw [expr, Expr.words, ih, words]
  | signed s d ih => rw [expr, Expr.words, ih, words]
  | chain op hOp hNext l r ihl ihr => rw [expr, Expr.words, ihl, ihr, words]
  | assign t v iht ihv => rw [expr, Expr.words, iht, ihv, words]
  | tighter hNext d ih => exact ih

theorem node_expr {p : Phrase} (d : Derivation p) : d.expr.node = d.node := by
  induction d with
  | num v => rfl
  | ident x => rfl
  | paren d ih => exact ih
  | signed s d ih => rw [expr, Expr.node, ih, node_signed]
  | chain op hOp hNext l r ihl ihr => rw [expr, Expr.node, ihl, ihr, node_chain]
  | assign t v iht ihv => rw [expr, Expr.node, iht, ihv, node]
  | tighter hNext d ih => exact ih

theorem chain_level {p q : Phrase} {op : Op} (hOp : Phrase.ofOp op = p)
    (hNext : p.tighter? = some q) (l : Derivation p) (r : Derivation q) :
    (chain op hOp hNext l r).expr.level = p.level := by
  subst hOp
  exact (Phrase.level_ofOp op).symm

theorem level_expr {p : Phrase} (d : Derivation p) : p.level ≤ d.expr.level := by
  induction d with
  | num v => exact Nat.le_refl _
  | ident x => exact Nat.le_refl _
  | paren d ih => exact Nat.le_refl _
  | signed s d ih => exact Nat.le_refl _
  | chain op hOp hNext l r ihl ihr => exact Nat.le_of_eq (chain_level hOp hNext l r).symm
  | assign t v iht ihv => exact Nat.le_refl _
  | tighter hNext d ih =>
    have hLevel := Phrase.level_of_tighter? hNext
    rw [expr]
    omega

theorem graded_expr {p : Phrase} {d : Derivation p} (h : d.Allowed) : d.expr.Graded := by
  induction d with
  | num v => trivial
  | ident x => trivial
  | paren d ih => exact ih h
  | signed s d ih => exact ⟨ih h, d.level_expr⟩
  | @chain p q op hOp hNext l r ihl ihr =>
    have hp := Phrase.level_ofOp op
    have hq := Phrase.level_of_tighter? hNext
    have hl := l.level_expr
    have hr := r.level_expr
    rw [hOp] at hp
    exact ⟨ihl h.1, ihr h.2, by omega, by omega⟩
  | assign t v iht ihv =>
    obtain ⟨hPlace, ht, hv⟩ := h
    exact ⟨iht ht, ihv hv, t.level_expr, by rwa [node_expr]⟩
  | tighter hNext d ih => exact ih h

/-! ### One derivation for one expression -/

/-- A derivation that begins with a step to a tighter phrase has no operator of its own phrase. -/
theorem tighter_level {p q : Phrase} (hNext : p.tighter? = some q) (d : Derivation q) :
    p.level < (tighter hNext d).expr.level := by
  have hLevel := Phrase.level_of_tighter? hNext
  have hExpr := d.level_expr
  rw [expr]
  omega

theorem primary_cases (d : Derivation .primary) :
    (∃ v, d = num v) ∨ (∃ x, d = ident x) ∨ ∃ e, d = paren e := by
  cases d with
  | num v => exact .inl ⟨v, rfl⟩
  | ident x => exact .inr (.inl ⟨x, rfl⟩)
  | paren e => exact .inr (.inr ⟨e, rfl⟩)
  | chain op hOp => cases op <;> cases hOp
  | tighter hNext => cases hNext

/-- From one nonterminal, at most one derivation has a given expression. -/
theorem expr_inj {p : Phrase} {d d' : Derivation p} (h : d.expr = d'.expr) : d = d' := by
  induction d with
  | num v =>
    rcases d'.primary_cases with ⟨v', rfl⟩ | ⟨x', rfl⟩ | ⟨e', rfl⟩
    · rw [Expr.num.inj h]
    · cases h
    · cases h
  | ident x =>
    rcases d'.primary_cases with ⟨v', rfl⟩ | ⟨x', rfl⟩ | ⟨e', rfl⟩
    · cases h
    · rw [Expr.name.inj h]
    · cases h
  | paren e ih =>
    rcases d'.primary_cases with ⟨v', rfl⟩ | ⟨x', rfl⟩ | ⟨e', rfl⟩
    · cases h
    · cases h
    · rw [ih (Expr.paren.inj h)]
  | signed s d ih =>
    cases d' with
    | signed s' d' =>
      obtain ⟨rfl, hd⟩ := Expr.signed.inj h
      rw [ih hd]
    | tighter hNext d' =>
      have hLevel := tighter_level hNext d'
      rw [← h] at hLevel
      exact absurd hLevel (Nat.lt_irrefl _)
    | chain op hOp => cases h
  | @chain p q op hOp hNext l r ihl ihr =>
    cases d' with
    | @chain _ q' op' hOp' hNext' l' r' =>
      obtain rfl : q = q' := Option.some.inj (hNext.symm.trans hNext')
      obtain ⟨rfl, hl, hr⟩ := Expr.binary.inj h
      rw [ihl hl, ihr hr]
    | tighter hNext' d' =>
      have hLevel := tighter_level hNext' d'
      rw [← h, chain_level] at hLevel
      exact absurd hLevel (Nat.lt_irrefl _)
    | _ => cases h
  | assign t v iht ihv =>
    cases d' with
    | assign t' v' =>
      obtain ⟨ht, hv⟩ := Expr.assign.inj h
      rw [iht ht, ihv hv]
    | tighter hNext d' =>
      have hLevel := tighter_level hNext d'
      rw [← h] at hLevel
      exact absurd hLevel (Nat.lt_irrefl _)
    | chain op hOp => cases h
  | @tighter p q hNext d ih =>
    have hLevel := tighter_level hNext d
    cases d' with
    | @tighter _ q' hNext' d' =>
      obtain rfl : q = q' := Option.some.inj (hNext.symm.trans hNext')
      rw [ih h]
    | chain op hOp hNext' l r =>
      rw [h, chain_level] at hLevel
      exact absurd hLevel (Nat.lt_irrefl _)
    | signed s d' =>
      rw [h] at hLevel
      exact absurd hLevel (Nat.lt_irrefl _)
    | assign t v =>
      rw [h] at hLevel
      exact absurd hLevel (Nat.lt_irrefl _)
    | _ => cases hNext

/-! ### A derivation for each graded expression -/

/-- A phrase of one nonterminal is a phrase of every looser one. -/
theorem exists_looser {p q : Phrase} (h : p.level ≤ q.level) {d : Derivation q} (hd : d.Allowed) :
    ∃ d' : Derivation p, d'.expr = d.expr ∧ d'.Allowed := by
  -- by induction on the number of steps between the two
  obtain ⟨n, hn⟩ := Nat.le.dest h
  induction n generalizing p with
  | zero =>
    obtain rfl := Phrase.level_inj hn
    exact ⟨d, rfl, hd⟩
  | succ n ih =>
    have hPrimary := q.level_le_primary
    obtain ⟨r, hNext⟩ := Phrase.exists_tighter? (p := p) (by omega)
    have hLevel := Phrase.level_of_tighter? hNext
    obtain ⟨d', hExpr, hAllowed⟩ := ih (p := r) (by omega) (by omega)
    exact ⟨tighter hNext d', hExpr, hAllowed⟩

/-- A graded expression has a derivation from each nonterminal that is loose enough. -/
theorem exists_expr {e : Expr} (h : e.Graded) {p : Phrase} (hp : p.level ≤ e.level) :
    ∃ d : Derivation p, d.expr = e ∧ d.Allowed := by
  induction e generalizing p with
  | num v => exact exists_looser hp (d := num v) trivial
  | name x => exact exists_looser hp (d := ident x) trivial
  | paren e ih =>
    obtain ⟨inner, rfl, hInner⟩ := ih h (p := .assign) (Nat.zero_le _)
    exact exists_looser hp (d := paren inner) hInner
  | signed s e ih =>
    obtain ⟨inner, rfl, hInner⟩ := ih h.1 (p := .primary) h.2
    exact exists_looser hp (d := signed s inner) hInner
  | binary op l r ihl ihr =>
    obtain ⟨hl, hr, hLeft, hRight⟩ := h
    have hOp := Phrase.level_ofOp op
    obtain ⟨q, hNext⟩ := Phrase.exists_tighter?_ofOp op
    have hLevel := Phrase.level_of_tighter? hNext
    obtain ⟨left, rfl, hLeftOk⟩ := ihl hl (p := .ofOp op) (by omega)
    obtain ⟨right, rfl, hRightOk⟩ := ihr hr (p := q) (by omega)
    rw [Expr.level, ← hOp] at hp
    exact exists_looser hp (d := chain op rfl hNext left right) ⟨hLeftOk, hRightOk⟩
  | assign t v iht ihv =>
    obtain ⟨ht, hv, hLevel, hPlace⟩ := h
    obtain ⟨target, rfl, hTarget⟩ := iht ht (p := .equality) hLevel
    obtain ⟨value, rfl, hValue⟩ := ihv hv (p := .assign) (Nat.zero_le _)
    rw [node_expr] at hPlace
    exact exists_looser hp (d := assign target value) ⟨hPlace, hTarget, hValue⟩

end Derivation

namespace StmtDerivation

def stmt : StmtDerivation → Stmt
  | expr d => .expr d.expr
  | ret d => .ret d.expr

theorem words_stmt (d : StmtDerivation) : d.stmt.words = d.words := by
  cases d <;> simp only [stmt, Stmt.words, words, Derivation.words_expr]

theorem node_stmt (d : StmtDerivation) : d.stmt.node = d.node := by
  cases d <;> simp only [stmt, Stmt.node, node, Derivation.node_expr]

theorem stmt_inj {d d' : StmtDerivation} (h : d.stmt = d'.stmt) : d = d' := by
  cases d with
  | expr d =>
    cases d' with
    | expr d' => rw [Derivation.expr_inj (Stmt.expr.inj h)]
    | ret d' => cases h
  | ret d =>
    cases d' with
    | expr d' => cases h
    | ret d' => rw [Derivation.expr_inj (Stmt.ret.inj h)]

theorem graded_stmt {d : StmtDerivation} (h : d.Allowed) : d.stmt.Graded := by
  cases d with
  | expr d => exact Derivation.graded_expr h
  | ret d => exact Derivation.graded_expr h

theorem exists_stmt {s : Stmt} (h : s.Graded) : ∃ d : StmtDerivation, d.stmt = s ∧ d.Allowed := by
  cases s with
  | expr e =>
    obtain ⟨d, rfl, hd⟩ := Derivation.exists_expr h (p := .assign) (Nat.zero_le _)
    exact ⟨.expr d, rfl, hd⟩
  | ret e =>
    obtain ⟨d, rfl, hd⟩ := Derivation.exists_expr h (p := .assign) (Nat.zero_le _)
    exact ⟨.ret d, rfl, hd⟩

theorem exists_stmts {stmts : List Stmt} (h : ∀ s ∈ stmts, s.Graded) :
    ∃ ds : List StmtDerivation, ds.map stmt = stmts ∧ ∀ d ∈ ds, d.Allowed := by
  induction stmts with
  | nil => exact ⟨[], rfl, nofun⟩
  | cons s stmts ih =>
    rw [List.forall_mem_cons] at h
    obtain ⟨d, rfl, hd⟩ := exists_stmt h.1
    obtain ⟨ds, rfl, hds⟩ := ih h.2
    exact ⟨d :: ds, rfl, List.forall_mem_cons.mpr ⟨hd, hds⟩⟩

theorem flatMap_words_stmt (ds : List StmtDerivation) :
    (ds.map stmt).flatMap Stmt.words = ds.flatMap words := by
  rw [List.flatMap_map]
  exact congrArg (List.flatMap · ds) (funext words_stmt)

end StmtDerivation

end Semicolon
