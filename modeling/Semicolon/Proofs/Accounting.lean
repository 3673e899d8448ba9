import Mathlib.Data.List.Count
import Mathlib.Data.List.Perm.Basic
import Semicolon.Node.Print
import Semicolon.Proofs.Totality

/-!
# Nothing is lost in reading

Whatever is written in a source is in its trees, as often as it is written.  For variables this is
`Expr.vars_node_perm`; for numbers, assignments and returns it is `Expr.parts_node_perm`: a tree has
those that are written, and a zero for each minus sign.  Among words, a minus sign is told from a
subtraction by what stands before it (`Expr.minusSigns_words`).
-/

namespace Semicolon

/-! ### What is in a tree -/

/-- What is in a tree, its variables and operators aside. -/
inductive Part
  | num (value : Int64)
  | assign
  | ret
deriving DecidableEq, Repr

def Part.num? : Part → Option Int64
  | num v => some v
  | _ => none

namespace Node

variable {ν μ : Type}

def parts : Node ν → List Part
  | num v => [.num v]
  | var _ => []
  | binary _ l r => l.parts ++ r.parts
  | assign t v => .assign :: (t.parts ++ v.parts)
  | ret e => .ret :: e.parts

theorem parts_map (f : ν → μ) (n : Node ν) : (n.map f).parts = n.parts := by
  induction n with
  | num v => rfl
  | var x => rfl
  | binary op l r ihl ihr => rw [map, parts, ihl, ihr, parts]
  | assign t v iht ihv => rw [map, parts, iht, ihv, parts]
  | ret e ih => rw [map, parts, ih, parts]

theorem noRet_map (f : ν → μ) (n : Node ν) : (n.map f).noRet = n.noRet := by
  induction n with
  | num v => rfl
  | var x => rfl
  | binary op l r ihl ihr => rw [map, noRet, ihl, ihr, noRet]
  | assign t v iht ihv => rw [map, noRet, iht, ihv, noRet]
  | ret e => rfl

theorem Assignable.map {n : Node ν} (h : n.Assignable) (f : ν → μ) : (n.map f).Assignable := by
  induction n with
  | num v => trivial
  | var x => trivial
  | binary op l r ihl ihr => exact ⟨ihl h.1, ihr h.2⟩
  | assign t v _ ihv =>
    obtain ⟨x, rfl⟩ := isVar_iff.mp h.1
    exact ⟨rfl, ihv h.2⟩
  | ret e ih => exact ih h

end Node

theorem Op.parts_node_perm {ν : Type} (op : Op) (l r : Node ν) :
    (op.node l r).parts.Perm (l.parts ++ r.parts) := by
  cases op <;> first | exact .refl _ | exact List.perm_append_comm

theorem Op.noRet_node {ν : Type} (op : Op) {l r : Node ν} (hl : l.noRet = true)
    (hr : r.noRet = true) : (op.node l r).noRet = true := by
  cases op <;> simp [node, Node.noRet, hl, hr]

theorem Expr.noRet_node (e : Expr) : e.node.noRet = true := by
  induction e with
  | num v => rfl
  | name x => rfl
  | paren e ih => exact ih
  | signed s e ih =>
    cases s with
    | plus => exact ih
    | minus => exact ih
  | binary op l r ihl ihr => exact op.noRet_node ihl ihr
  | assign t v iht ihv => rw [node, Node.noRet, iht, ihv, Bool.and_self]

/-! ### What is written -/

namespace Word

/-- What a word puts into a tree, variables aside. -/
def part? : Word → Option Part
  | num v => v.map .num
  | punct p => if p = .assign then some .assign else none
  | ret => some .ret
  | ident _ | other => none

def parts (ws : List Word) : List Part :=
  ws.filterMap part?

theorem parts_append (ws vs : List Word) : parts (ws ++ vs) = parts ws ++ parts vs :=
  List.filterMap_append

theorem count_parts {a : Part} {w : Word} (h : ∀ v : Word, v.part? = some a ↔ v = w)
    (ws : List Word) : (parts ws).count a = ws.count w := by
  rw [parts, List.count_filterMap, List.count]
  refine List.countP_congr fun v _ => ?_
  rw [beq_iff_eq, beq_iff_eq, h]

theorem part?_eq_ret {w : Word} : w.part? = some .ret ↔ w = .ret := by
  cases w <;> simp [part?]

theorem part?_eq_assign {w : Word} : w.part? = some .assign ↔ w = .punct .assign := by
  cases w <;> simp [part?]

/-- The word can be the last one of an operand. -/
def endsOperand : Word → Bool
  | ident _ | num _ => true
  | punct p => p = .closeParen
  | ret | other => false

/-- The number of minus signs among some words; `after` says if an operand ends before them. -/
def minusSigns (after : Bool) : List Word → Nat
  | [] => 0
  | w :: ws => (if w = .punct .minus ∧ after = false then 1 else 0) + minusSigns w.endsOperand ws

theorem minusSigns_concat_other (after : Bool) (ws : List Word) :
    minusSigns after (ws ++ [other]) = minusSigns after ws := by
  induction ws generalizing after with
  | nil => rfl
  | cons w ws ih => rw [List.cons_append, minusSigns, ih, minusSigns]

end Word

theorem Op.part?_punct (op : Op) : (Word.punct op.punct).part? = none := by
  cases op <;> rfl

theorem Op.endsOperand_punct (op : Op) : (Word.punct op.punct).endsOperand = false := by
  cases op <;> rfl

namespace Expr

/-- The number of minus signs in an expression. -/
def minuses : Expr → Nat
  | num _ | name _ => 0
  | paren e => e.minuses
  | signed .plus e => e.minuses
  | signed .minus e => e.minuses + 1
  | binary _ l r => l.minuses + r.minuses
  | assign t v => t.minuses + v.minuses

theorem parts_words_paren (e : Expr) : Word.parts (paren e).words = Word.parts e.words := by
  show Word.parts (e.words ++ [.punct .closeParen]) = _
  rw [Word.parts_append]
  exact List.append_nil _

theorem parts_words_signed (s : Sign) (e : Expr) :
    Word.parts (signed s e).words = Word.parts e.words := by
  cases s <;> rfl

theorem parts_words_binary (op : Op) (l r : Expr) :
    Word.parts (binary op l r).words = Word.parts l.words ++ Word.parts r.words := by
  rw [words, Word.parts_append, Word.parts, Word.parts, List.filterMap_cons_none op.part?_punct]
  rfl

theorem parts_words_assign (t v : Expr) :
    Word.parts (assign t v).words = Word.parts t.words ++ .assign :: Word.parts v.words := by
  rw [words, Word.parts_append]
  rfl

/-- **The parts of the tree are those that are written and a zero for each minus sign.** -/
theorem parts_node_perm (e : Expr) :
    e.node.parts.Perm (Word.parts e.words ++ List.replicate e.minuses (.num 0)) := by
  rw [List.perm_iff_count]
  intro a
  induction e with
  | num v => rfl
  | name x => rfl
  | paren e ih =>
    rw [parts_words_paren]
    exact ih
  | signed s e ih =>
    rw [parts_words_signed]
    cases s with
    | plus => exact ih
    | minus =>
      show List.count a (.num 0 :: e.node.parts) = _
      rw [minuses, List.replicate_succ, List.perm_middle.count_eq, List.count_cons, List.count_cons,
        ih]
  | binary op l r ihl ihr =>
    rw [node, (op.parts_node_perm _ _).count_eq, parts_words_binary, minuses, List.replicate_add]
    simp only [List.count_append] at ihl ihr ⊢
    omega
  | assign t v iht ihv =>
    rw [node, Node.parts, parts_words_assign, minuses, List.replicate_add]
    simp only [List.count_append, List.count_cons] at iht ihv ⊢
    omega

theorem minusSigns_words (e : Expr) (ws : List Word) :
    Word.minusSigns false (e.words ++ ws) = e.minuses + Word.minusSigns true ws := by
  induction e generalizing ws with
  | num v => rfl
  | name x => rfl
  | paren e ih =>
    rw [words, List.cons_append, List.append_assoc, Word.minusSigns]
    show 0 + Word.minusSigns false (e.words ++ .punct .closeParen :: ws) = _
    rw [ih, Word.minusSigns]
    show 0 + (e.minuses + (0 + Word.minusSigns true ws)) = e.minuses + _
    omega
  | signed s e ih =>
    rw [words, List.cons_append, Word.minusSigns]
    cases s with
    | plus =>
      show 0 + Word.minusSigns false (e.words ++ ws) = e.minuses + _
      rw [ih, Nat.zero_add]
    | minus =>
      show 1 + Word.minusSigns false (e.words ++ ws) = e.minuses + 1 + _
      rw [ih]
      omega
  | binary op l r ihl ihr =>
    rw [words, List.append_assoc, List.cons_append, ihl, Word.minusSigns, if_neg (by simp),
      op.endsOperand_punct, ihr, minuses]
    omega
  | assign t v iht ihv =>
    rw [words, List.append_assoc, List.cons_append, iht, Word.minusSigns, if_neg (by simp)]
    show t.minuses + (0 + Word.minusSigns false (v.words ++ ws)) = t.minuses + v.minuses + _
    rw [ihv]
    omega

theorem semicolon_notMem_words (e : Expr) : Word.punct .semicolon ∉ e.words := by
  induction e with
  | num v => simp [words]
  | name x => simp [words]
  | paren e ih => simp [words, ih]
  | signed s e ih => cases s <;> simp [words, Sign.punct, ih]
  | binary op l r ihl ihr => cases op <;> simp [words, Op.punct, ihl, ihr]
  | assign t v iht ihv => simp [words, iht, ihv]

end Expr

namespace Stmt

def minuses : Stmt → Nat
  | expr e | ret e => e.minuses

theorem parts_node_perm (s : Stmt) :
    s.node.parts.Perm (Word.parts s.words ++ List.replicate s.minuses (.num 0)) := by
  have hWords : ∀ e : Expr, Word.parts (e.words ++ [.punct .semicolon]) = Word.parts e.words := by
    intro e
    rw [Word.parts_append]
    exact List.append_nil _
  cases s with
  | expr e =>
    rw [words, hWords]
    exact e.parts_node_perm
  | ret e =>
    show (Part.ret :: e.node.parts).Perm
      (.ret :: Word.parts (e.words ++ [.punct .semicolon]) ++ List.replicate e.minuses (.num 0))
    rw [hWords]
    exact e.parts_node_perm.cons _

theorem minusSigns_words (s : Stmt) (ws : List Word) :
    Word.minusSigns false (s.words ++ ws) = s.minuses + Word.minusSigns false ws := by
  have hWords : ∀ e : Expr, Word.minusSigns false (e.words ++ .punct .semicolon :: ws) =
      e.minuses + Word.minusSigns false ws := by
    intro e
    rw [e.minusSigns_words, Word.minusSigns]
    exact congrArg (e.minuses + ·) (Nat.zero_add _)
  cases s with
  | expr e =>
    rw [words, List.append_assoc]
    exact hWords e
  | ret e =>
    rw [words, List.cons_append, List.append_assoc]
    exact (Nat.zero_add _).trans (hWords e)

theorem count_semicolon_words (s : Stmt) : s.words.count (.punct .semicolon) = 1 := by
  have hWords : ∀ e : Expr, (e.words ++ [Word.punct .semicolon]).count (.punct .semicolon) = 1 := by
    intro e
    rw [List.count_append, List.count_eq_zero.mpr e.semicolon_notMem_words]
    rfl
  cases s with
  | expr e => exact hWords e
  | ret e =>
    rw [words, List.count_cons_of_ne Word.noConfusion]
    exact hWords e

variable (stmts : List Stmt)

/-- **The parts of some trees are those that are written and a zero for each minus sign.** -/
theorem parts_nodes_perm :
    (stmts.flatMap fun s => s.node.parts).Perm (Word.parts (stmts.flatMap words) ++
      List.replicate (Word.minusSigns false (stmts.flatMap words)) (.num 0)) := by
  rw [List.perm_iff_count]
  intro a
  induction stmts with
  | nil => rfl
  | cons s stmts ih =>
    have hs := s.parts_node_perm.count_eq a
    rw [List.flatMap_cons, List.flatMap_cons, s.minusSigns_words, Word.parts_append,
      List.replicate_add]
    simp only [List.count_append] at hs ih ⊢
    omega

theorem count_semicolon_flatMap :
    (stmts.flatMap words).count (.punct .semicolon) = stmts.length := by
  induction stmts with
  | nil => rfl
  | cons s stmts ih =>
    rw [List.flatMap_cons, List.count_append, s.count_semicolon_words, ih, List.length_cons,
      Nat.add_comm]

end Stmt

/-! ### Tokens and their words -/

namespace Token

variable (source : Text)

def reads (kind : Kind) (text : String) (t : Token) : Bool :=
  t.kind = kind ∧ t.text? source = some text

/-- The names among some tokens, in order and with repetitions. -/
def idents (tokens : List Token) : List String :=
  tokens.filterMap fun t => if t.kind = .ident then t.text? source else none

/-- The values of the numbers among some tokens. -/
def nums (tokens : List Token) : List Int64 :=
  tokens.filterMap fun t => if t.kind = .num then t.value else none

def endsOperand (t : Token) : Bool :=
  t.kind = .num ∨ t.kind = .ident ∨ t.reads source .punctuator ")"

/-- The number of minus signs among the tokens behind `before`: of those `-` that do not directly
follow a number, a name or a `)`. -/
def minusSigns (before : Option Token) : List Token → Nat
  | [] => 0
  | t :: ts =>
    (if t.reads source .punctuator "-" ∧ before.all (!·.endsOperand source) then 1 else 0) +
      minusSigns (some t) ts

variable {source}

theorem reads_punct (p : Punct) (t : Token) :
    t.reads source .punctuator p.text = (Word.ofToken source t == .punct p) := by
  rw [reads, beq_eq_decide, decide_eq_decide]
  exact Word.spells_iff (w := .punct p) Word.noConfusion

theorem reads_return (t : Token) :
    t.reads source .keyword "return" = (Word.ofToken source t == .ret) := by
  rw [reads, beq_eq_decide, decide_eq_decide]
  exact Word.spells_iff (w := .ret) Word.noConfusion

theorem name?_ofToken (t : Token) :
    (Word.ofToken source t).name? = if t.kind = .ident then t.text? source else none := by
  rw [Word.ofToken]
  cases t.kind with
  | punctuator => cases (t.text? source).bind Punct.ofText? <;> rfl
  | keyword => by_cases hText : t.text? source = some returnText <;> simp [hText, Word.name?]
  | ident => cases t.text? source <;> rfl
  | num => rfl
  | eof => rfl

theorem num?_ofToken (t : Token) :
    (Word.ofToken source t).part?.bind Part.num? = if t.kind = .num then t.value else none := by
  rw [Word.ofToken]
  cases t.kind with
  | punctuator =>
    cases (t.text? source).bind Punct.ofText? with
    | none => rfl
    | some p => cases p <;> rfl
  | keyword =>
    by_cases hText : t.text? source = some returnText <;> simp [hText, Word.part?, Part.num?]
  | ident => cases t.text? source <;> rfl
  | num => cases t.value <;> rfl
  | eof => rfl

theorem endsOperand_ofToken {t : Token} (h : ∃ x, t.text? source = some x) :
    (Word.ofToken source t).endsOperand = t.endsOperand source := by
  have hClose : t.reads source .punctuator ")" = (Word.ofToken source t == .punct .closeParen) :=
    reads_punct .closeParen t
  rw [endsOperand, hClose, Word.ofToken]
  cases t.kind with
  | punctuator =>
    cases (t.text? source).bind Punct.ofText? with
    | none => rfl
    | some p => cases p <;> rfl
  | keyword => by_cases hText : t.text? source = some returnText <;> simp [hText, Word.endsOperand]
  | ident =>
    obtain ⟨x, hx⟩ := h
    rw [hx]
    rfl
  | num => rfl
  | eof => rfl

theorem minusSigns_ofToken {tokens : List Token}
    (h : ∀ t ∈ tokens, ∃ x, t.text? source = some x) (before : Option Token) :
    minusSigns source before tokens =
      Word.minusSigns (before.any (endsOperand source)) (tokens.map (Word.ofToken source)) := by
  induction tokens generalizing before with
  | nil => rfl
  | cons t ts ih =>
    rw [List.forall_mem_cons] at h
    have hMinus : t.reads source .punctuator "-" = (Word.ofToken source t == .punct .minus) :=
      reads_punct .minus t
    rw [minusSigns, List.map_cons, Word.minusSigns, ih h.2, endsOperand_ofToken h.1, hMinus]
    congr 1
    cases before <;> simp

variable {tokens : List Token} (hScan : scan source = .ok tokens)

include hScan

/-- The words of a source, and one behind them for its end. -/
theorem map_ofToken_of_scan :
    tokens.map (Word.ofToken source) = Word.ofTokens source tokens ++ [.other] := by
  obtain ⟨fs, body, rfl, hStands, -⟩ := exists_forms_of_scan hScan
  rw [ofTokens_of_stands hStands, List.map_append, map_ofToken_of_stands hStands]
  rfl

theorem countP_reads {kind : Kind} {text : String} {w : Word} (hw : w ≠ .other)
    (h : ∀ t, reads source kind text t = (Word.ofToken source t == w)) :
    tokens.countP (reads source kind text) = (Word.ofTokens source tokens).count w := by
  have hCount := congrArg (List.count w) (map_ofToken_of_scan hScan)
  rw [List.count_append, List.count_singleton, if_neg (by simpa using hw.symm), List.count,
    List.countP_map] at hCount
  rw [funext h]
  exact hCount

theorem idents_eq_names : idents source tokens = Word.names (Word.ofTokens source tokens) := by
  have hNames := congrArg Word.names (map_ofToken_of_scan hScan)
  rw [Word.names_append, Word.names, List.filterMap_map] at hNames
  rw [idents, ← funext name?_ofToken]
  exact hNames.trans (List.append_nil _)

theorem nums_eq_parts :
    nums tokens = (Word.parts (Word.ofTokens source tokens)).filterMap Part.num? := by
  have hParts := congrArg (fun ws => (Word.parts ws).filterMap Part.num?)
    (map_ofToken_of_scan hScan)
  rw [Word.parts_append, Word.parts, List.filterMap_map, List.filterMap_filterMap,
    List.filterMap_append] at hParts
  rw [nums, ← funext (@num?_ofToken source)]
  exact hParts.trans (List.append_nil _)

theorem minusSigns_eq :
    minusSigns source none tokens = Word.minusSigns false (Word.ofTokens source tokens) := by
  have hText : ∀ t ∈ tokens, ∃ x, t.text? source = some x := by
    intro t ht
    exact (exists_text_of_scan hScan ht).2.2
  rw [minusSigns_ofToken hText, map_ofToken_of_scan hScan]
  exact Word.minusSigns_concat_other false _

end Token

/-! ### Programs -/

/-- A program has all that is in the tokens of its source, as often as it is there. -/
structure Program.Accounts (source : Text) (tokens : List Token) (p : Program) : Prop where
  /-- The table has the names in the order in which they first occur. -/
  entries : p.locals.entries =
    (Token.idents source tokens).eraseDups.zipIdx.map fun (x, k) => (x, 8 * (k + 1))
  inRange : ∀ n ∈ p.body, ∀ i ∈ n.vars, i < p.locals.length
  /-- A variable is used as often as its name is written. -/
  references : ∀ x, (p.body.flatMap Node.vars).countP (fun i => p.locals.names[i]? = some x) =
    (Token.idents source tokens).count x
  /-- The numbers are those that are written and a zero for each minus sign. -/
  numbers : ((p.body.flatMap Node.parts).filterMap Part.num?).Perm
    (Token.nums tokens ++ List.replicate (Token.minusSigns source none tokens) 0)
  assignable : ∀ n ∈ p.body, n.Assignable
  /-- A return is the root of its tree. -/
  returns : ∀ n ∈ p.body, n.noRet = true ∨ ∃ e, n = .ret e ∧ e.noRet = true
  statements : p.body.length = tokens.countP (Token.reads source .punctuator ";")
  count_ret : (p.body.flatMap Node.parts).count .ret =
    tokens.countP (Token.reads source .keyword "return")
  count_assign : (p.body.flatMap Node.parts).count .assign =
    tokens.countP (Token.reads source .punctuator "=")

namespace Program

theorem parts_body (stmts : List Stmt) :
    (ofStmts stmts).body.flatMap Node.parts = stmts.flatMap fun s => s.node.parts := by
  show (stmts.map fun s => s.node.map (ofStmts stmts).locals.indexOf).flatMap _ = _
  rw [List.flatMap_map]
  exact List.flatMap_congr fun s _ => Node.parts_map _ _

/-- The variables of a program are those that are written. -/
theorem names_vars_body_perm (stmts : List Stmt) :
    (((ofStmts stmts).body.flatMap Node.vars).map ((ofStmts stmts).locals.names[·]?)).Perm
      ((stmts.flatMap Stmt.names).map some) := by
  have hVars := congrArg (List.flatMap Node.vars) (body_ofStmts stmts)
  rw [List.flatMap_map, List.flatMap_map] at hVars
  simp only [Node.vars_map] at hVars
  rw [List.map_flatMap, List.map_flatMap, hVars]
  exact List.Perm.flatMap_left _ fun s _ => s.vars_node_perm.map some

theorem inRange_body (stmts : List Stmt) :
    ∀ n ∈ (ofStmts stmts).body, ∀ i ∈ n.vars, i < (ofStmts stmts).locals.length := by
  intro n hn i hi
  obtain ⟨s, hs, rfl⟩ := List.mem_map.mp hn
  rw [Node.vars_map] at hi
  obtain ⟨x, hx, rfl⟩ := List.mem_map.mp hi
  exact Locals.indexOf_lt (mem_names_of_mem_vars hs hx)

theorem returns_body (stmts : List Stmt) :
    ∀ n ∈ (ofStmts stmts).body, n.noRet = true ∨ ∃ e, n = .ret e ∧ e.noRet = true := by
  intro n hn
  obtain ⟨s, -, rfl⟩ := List.mem_map.mp hn
  cases s with
  | expr e =>
    refine Or.inl ?_
    rw [Node.noRet_map]
    exact e.noRet_node
  | ret e =>
    refine Or.inr ⟨_, rfl, ?_⟩
    rw [Node.noRet_map]
    exact e.noRet_node

section

variable {ws : List Word} {stmts : List Stmt} (hParse : Stmt.parse ws = .ok stmts)

include hParse

theorem count_references (x : String) :
    ((ofStmts stmts).body.flatMap Node.vars).countP
        (fun i => (ofStmts stmts).locals.names[i]? = some x) = (Word.names ws).count x := by
  have hCount := (names_vars_body_perm stmts).count_eq (some x)
  rw [List.count_map_of_injective _ _ (fun _ _ => Option.some.inj), Stmt.flatMap_names,
    Stmt.words_of_parse hParse, List.count, List.countP_map] at hCount
  rw [← hCount]
  refine List.countP_congr fun i _ => ?_
  simp

theorem nums_body_perm :
    (((ofStmts stmts).body.flatMap Node.parts).filterMap Part.num?).Perm
      ((Word.parts ws).filterMap Part.num? ++ List.replicate (Word.minusSigns false ws) 0) := by
  have hNums := (Stmt.parts_nodes_perm stmts).filterMap Part.num?
  rw [List.filterMap_append, Stmt.words_of_parse hParse,
    List.filterMap_replicate_of_some (f := Part.num?) (a := .num 0) rfl] at hNums
  rw [parts_body]
  exact hNums

theorem count_parts_body {a : Part} {w : Word} (ha : a ≠ .num 0)
    (h : ∀ v : Word, v.part? = some a ↔ v = w) :
    ((ofStmts stmts).body.flatMap Node.parts).count a = ws.count w := by
  have hParts := (Stmt.parts_nodes_perm stmts).count_eq a
  rw [List.count_append, Word.count_parts h, List.count_replicate, if_neg (by simpa using ha.symm),
    Stmt.words_of_parse hParse] at hParts
  rw [parts_body]
  exact hParts

theorem length_body : (ofStmts stmts).body.length = ws.count (.punct .semicolon) := by
  rw [← Stmt.words_of_parse hParse, Stmt.count_semicolon_flatMap]
  exact List.length_map _

end

/-- **Nothing is lost in reading.**  A program has the names, the numbers, the statements, the
assignments and the returns of its source, and the zeros of minus signs, and no others; its
variables are in its table, assignments are to variables, and returns are statements. -/
theorem accounts_of_parse {source : Text} {tokens : List Token} {p : Program}
    (hScan : Token.scan source = .ok tokens) (h : Program.parse source tokens = .ok p) :
    p.Accounts source tokens := by
  obtain ⟨stmts, hStmts, rfl⟩ := parse_eq_ok.mp h
  have hIdents := Token.idents_eq_names hScan
  constructor
  case entries => rw [locals_ofStmts hStmts, Locals.entries_eq, Locals.names_ofNames, hIdents]
  case inRange => exact inRange_body stmts
  case references =>
    intro x
    rw [hIdents]
    exact count_references hStmts x
  case numbers =>
    rw [Token.nums_eq_parts hScan, Token.minusSigns_eq hScan]
    exact nums_body_perm hStmts
  case assignable =>
    intro n hn
    obtain ⟨s, hs, rfl⟩ := List.mem_map.mp hn
    exact (Stmt.assignable_node ((Stmt.parse_eq_ok.mp hStmts).1 s hs)).map _
  case returns => exact returns_body stmts
  case statements =>
    have hTokens := Token.countP_reads hScan Word.noConfusion (Token.reads_punct .semicolon)
    exact (length_body hStmts).trans hTokens.symm
  case count_ret =>
    have hTokens := Token.countP_reads hScan Word.noConfusion Token.reads_return
    have hParts := count_parts_body hStmts Part.noConfusion fun _ => Word.part?_eq_ret
    exact hParts.trans hTokens.symm
  case count_assign =>
    have hTokens := Token.countP_reads hScan Word.noConfusion (Token.reads_punct .assign)
    have hParts := count_parts_body hStmts Part.noConfusion fun _ => Word.part?_eq_assign
    exact hParts.trans hTokens.symm

/-- Operands that are turned around, a name that is used before it is assigned to, and two of three
`-` that are signs. -/
theorem accounts_turned_signs :
    ∃ tokens p, Token.scan "b=a>-2;return a--b;".toList = .ok tokens ∧
      Program.parse "b=a>-2;return a--b;".toList tokens = .ok p ∧
      p.body = [.assign (.var 0) (.binary .lt (.binary .sub (.num 0) (.num 2)) (.var 1)),
        .ret (.binary .sub (.var 1) (.binary .sub (.num 0) (.var 0)))] ∧
      p.locals.entries = [("b", 8), ("a", 16)] ∧
      Token.minusSigns "b=a>-2;return a--b;".toList none tokens = 2 ∧
      p.Accounts "b=a>-2;return a--b;".toList tokens := by
  refine ⟨_, _, rfl, rfl, rfl, rfl, by decide +kernel, ?_⟩
  exact accounts_of_parse rfl rfl

end Program

end Semicolon
