import Semicolon.Parse.Words
import Semicolon.Proofs.Phrases

/-!
# The reader reads graded expressions

Two arguments about one reader.  What it has read is graded: `State.Sound` says so of everything
that is still open, and every step keeps it (`State.Sound.step`).  And it reads every graded
expression: from a place where an operand is wanted, the words of `e` lead to a state that behaves
as if `e` had been read as one operand (`Settles`, `leads_words`), whatever is open there and
whatever follows.  Together, `Stmt.parse_eq_ok`: the reader gives some statements exactly if they
are graded and the words are theirs.
-/

namespace Semicolon

namespace Parse

/-! ### What is read is graded -/

/-- The operators that wait bind less and less tightly from the last one on, and each has a left
operand that binds at least as tightly as itself. -/
def Waiting : List (Expr × Op) → Prop
  | [] => True
  | (l, op) :: rest =>
    l.Graded ∧ op.level ≤ l.level ∧ (∀ q ∈ rest.head?, q.2.level < op.level) ∧ Waiting rest

theorem Waiting.collapse {pending : List (Expr × Op)} (h : Waiting pending) (k : Nat) {e : Expr}
    (he : e.Graded) (hHead : ∀ q ∈ pending.head?, q.2.level < e.level) :
    Waiting (collapse k pending e).1 ∧ (collapse k pending e).2.Graded ∧
      ∀ q ∈ (Parse.collapse k pending e).1.head?, q.2.level < k := by
  induction pending generalizing e with
  | nil => exact ⟨trivial, he, nofun⟩
  | cons p rest ih =>
    obtain ⟨l, op⟩ := p
    rw [Parse.collapse]
    split
    next hk =>
      obtain ⟨hl, hLeft, hRest, hWaiting⟩ := h
      exact ih hWaiting ⟨hl, he, hLeft, hHead _ rfl⟩ hRest
    next hk =>
      refine ⟨h, he, ?_⟩
      rintro q ⟨⟩
      exact Nat.lt_of_not_le hk

/-- The operand behind the operators that are left is no looser than what was asked for. -/
theorem le_level_collapse {n k : Nat} (hn : ∀ op : Op, k ≤ op.level → n ≤ op.level)
    (pending : List (Expr × Op)) {e : Expr} (he : n ≤ e.level) :
    n ≤ (collapse k pending e).2.level := by
  induction pending generalizing e with
  | nil => exact he
  | cons p rest ih =>
    rw [collapse]
    split
    next hk => exact ih (hn p.2 hk)
    next => exact he

def Target (t : Expr) : Prop :=
  t.Graded ∧ 0 < t.level ∧ ∃ x, t.node = .var x

theorem graded_foldl_assign {targets : List Expr} (h : ∀ t ∈ targets, Target t) {e : Expr}
    (he : e.Graded) : (targets.foldl (fun value target => Expr.assign target value) e).Graded := by
  induction targets generalizing e with
  | nil => exact he
  | cons t rest ih =>
    rw [List.forall_mem_cons] at h
    obtain ⟨⟨ht, hLevel, hPlace⟩, hRest⟩ := h
    exact ih hRest ⟨ht, he, hLevel, hPlace⟩

/-- A graded expression that is no operation and no assignment. -/
def Operand (e : Expr) : Prop :=
  e.Graded ∧ Phrase.unary.level ≤ e.level

theorem Operand.head_lt {e : Expr} (h : Operand e) (pending : List (Expr × Op)) :
    ∀ q ∈ pending.head?, q.2.level < e.level := by
  intro q _
  exact Nat.lt_of_lt_of_le q.2.level_lt_unary h.2

theorem operand_underSign (sign : Option Sign) {e : Expr} (h : e.Graded)
    (hLevel : Phrase.primary.level ≤ e.level) : Operand (underSign sign e) := by
  cases sign with
  | none => exact ⟨h, Nat.le_of_succ_le hLevel⟩
  | some s => exact ⟨⟨h, hLevel⟩, Nat.le_refl _⟩

namespace Level

structure Sound (lv : Level) : Prop where
  targets : ∀ t ∈ lv.targets, Target t
  waiting : Waiting lv.pending

theorem sound_start (index : Nat) : Sound { start := index } :=
  ⟨nofun, trivial⟩

variable {lv : Level} {e : Expr}

theorem Sound.side (h : lv.Sound) (he : Operand e) : (lv.side e).Graded ∧ 0 < (lv.side e).level :=
  ⟨(h.waiting.collapse 0 he.1 (he.head_lt _)).2.1,
    le_level_collapse (fun op _ => op.level_pos) _ (Nat.le_trans (by decide) he.2)⟩

theorem Sound.close (h : lv.Sound) (he : Operand e) : (lv.close e).Graded :=
  graded_foldl_assign h.targets (h.side he).1

theorem Sound.shift (h : lv.Sound) (op : Op) (he : Operand e) : (lv.shift op e).Sound := by
  obtain ⟨hRest, hLeft, hHead⟩ := h.waiting.collapse op.level he.1 (he.head_lt _)
  have hLevel : op.level ≤ (collapse op.level lv.pending e).2.level :=
    le_level_collapse (fun _ hk => hk) _ (Nat.le_trans (Nat.le_of_lt op.level_lt_unary) he.2)
  exact ⟨h.targets, hLeft, hLevel, hHead, hRest⟩

theorem Sound.assign (h : lv.Sound) (he : Operand e) {x : String}
    (hPlace : (lv.side e).place? = some x) (index : Nat) : (lv.assign e index).Sound := by
  obtain ⟨hSide, hLevel⟩ := h.side he
  refine ⟨?_, trivial⟩
  rw [Level.assign, List.forall_mem_cons]
  exact ⟨⟨hSide, hLevel, x, Expr.place?_eq_some.mp hPlace⟩, h.targets⟩

end Level

/-- Everything that is open in a state is graded. -/
def State.Sound : State → Prop
  | .start => True
  | .operand _ outer here _ => (∀ b ∈ outer, b.outside.Sound) ∧ here.Sound
  | .operator _ outer here left => (∀ b ∈ outer, b.outside.Sound) ∧ here.Sound ∧ Operand left

theorem sound_readOperand {index : Nat} {isRet : Bool} {outer : List Bracket} {here : Level}
    {sign : Option Sign} {w : Word} {s : State} (hOuter : ∀ b ∈ outer, b.outside.Sound)
    (hHere : here.Sound) (h : readOperand index isRet outer here sign w = .ok s) : s.Sound := by
  unfold readOperand at h
  split at h
  · cases h
    exact ⟨hOuter, hHere, operand_underSign _ trivial (Nat.le_refl _)⟩
  · cases h
    exact ⟨hOuter, hHere, operand_underSign _ trivial (Nat.le_refl _)⟩
  · cases h
  · split at h
    next =>
      cases h
      exact ⟨List.forall_mem_cons.mpr ⟨hHere, hOuter⟩, Level.sound_start _⟩
    next =>
      split at h
      next =>
        cases h
        exact ⟨hOuter, hHere⟩
      next => cases h
  · cases h
  · cases h

theorem graded_statement (isRet : Bool) {e : Expr} (h : e.Graded) :
    (statement isRet e).Graded := by
  cases isRet <;> exact h

theorem sound_readOperator {index : Nat} {isRet : Bool} {outer : List Bracket} {here : Level}
    {left : Expr} {w : Word} {done : Option Stmt} {s : State}
    (hOuter : ∀ b ∈ outer, b.outside.Sound) (hHere : here.Sound) (hLeft : Operand left)
    (h : readOperator index isRet outer here left w = .ok (done, s)) :
    s.Sound ∧ ∀ stmt ∈ done, stmt.Graded := by
  unfold readOperator at h
  split at h
  · split at h
    next x hPlace =>
      cases h
      exact ⟨⟨hOuter, hHere.assign hLeft hPlace _⟩, nofun⟩
    next => cases h
  · cases h
    rw [List.forall_mem_cons] at hOuter
    exact ⟨⟨hOuter.2, hOuter.1, operand_underSign _ (hHere.close hLeft) (Nat.le_refl _)⟩, nofun⟩
  · cases h
    refine ⟨trivial, ?_⟩
    rintro stmt ⟨⟩
    exact graded_statement isRet (hHere.close hLeft)
  · split at h
    next op hOp =>
      cases h
      exact ⟨⟨hOuter, hHere.shift op hLeft⟩, nofun⟩
    next => cases h

/-- A step keeps everything that is open graded, and ends graded statements only. -/
theorem State.Sound.step {s s' : State} (hs : s.Sound) {index : Nat} {w : Word}
    {done : Option Stmt} (h : s.step index w = .ok (done, s')) :
    s'.Sound ∧ ∀ stmt ∈ done, stmt.Graded := by
  have hNone : ∀ stmt ∈ (none : Option Stmt), stmt.Graded := by
    intro stmt hm
    cases hm
  cases s with
  | start =>
    rw [State.step] at h
    split at h
    next =>
      cases h
      exact ⟨⟨List.forall_mem_nil _, Level.sound_start _⟩, hNone⟩
    next =>
      obtain ⟨t, ht, he⟩ := exists_of_map_eq_ok h
      cases he
      exact ⟨sound_readOperand (List.forall_mem_nil _) (Level.sound_start _) ht, hNone⟩
  | operand isRet outer here sign =>
    obtain ⟨t, ht, he⟩ := exists_of_map_eq_ok h
    cases he
    exact ⟨sound_readOperand hs.1 hs.2 ht, hNone⟩
  | operator isRet outer here left =>
    obtain ⟨hOuter, hHere, hLeft⟩ := hs
    exact sound_readOperator hOuter hHere hLeft h

theorem graded_of_readFrom {index : Nat} {s : State} {ws : List Word} {stmts : List Stmt}
    (hs : s.Sound) (h : readFrom index s ws = .ok stmts) : ∀ stmt ∈ stmts, stmt.Graded := by
  induction ws generalizing index s stmts with
  | nil =>
    unfold readFrom at h
    split at h <;> cases h
    nofun
  | cons w ws ih =>
    rw [readFrom] at h
    split at h
    · cases h
    · next done s' hStep =>
      obtain ⟨rest, hRest, he⟩ := exists_of_map_eq_ok h
      obtain ⟨hs', hDone⟩ := hs.step hStep
      subst he
      rw [List.forall_mem_append]
      exact ⟨fun stmt hm => hDone stmt (Option.mem_toList.mp hm), ih hs' hRest⟩

/-! ### What is graded is read -/

/-- From `index` on, the words `ws` take the reader from `s` to `s'` without ending a statement. -/
def Leads (index : Nat) (s : State) (ws : List Word) (s' : State) : Prop :=
  ∀ rest, readFrom index s (ws ++ rest) = readFrom (index + ws.length) s' rest

variable {index : Nat} {s s' s'' : State} {isRet : Bool} {outer : List Bracket} {here : Level}

theorem Leads.trans {ws vs : List Word} (h : Leads index s ws s')
    (h' : Leads (index + ws.length) s' vs s'') : Leads index s (ws ++ vs) s'' := by
  intro rest
  rw [List.append_assoc, h, h', List.length_append, Nat.add_assoc]

theorem Leads.cons {w : Word} {ws : List Word} (h : s.step index w = .ok (none, s'))
    (h' : Leads (index + 1) s' ws s'') : Leads index s (w :: ws) s'' := by
  intro rest
  rw [List.cons_append, readFrom, h]
  dsimp only
  rw [h', List.length_cons, Nat.add_right_comm, Nat.add_assoc]
  cases readFrom (index + (ws.length + 1)) s'' rest <;> rfl

theorem Leads.nil : Leads index s [] s :=
  fun _ => rfl

/-- With `left` behind `here'` the reader goes on as it does with the operand `e` behind `here`:
the whole expression is the same, and so is what the next operator finds, unless `e` is an
assignment. -/
structure Settles (here' : Level) (left : Expr) (here : Level) (e : Expr) : Prop where
  close : here'.close left = here.close e
  start : 0 < e.level → here'.start = here.start
  targets : 0 < e.level → here'.targets = here.targets
  taken : ∀ k, 0 < e.level → k ≤ e.level →
    collapse k here'.pending left = collapse k here.pending e

theorem Settles.refl {e : Expr} : Settles here e here e :=
  ⟨rfl, fun _ => rfl, fun _ => rfl, fun _ _ _ => rfl⟩

theorem collapse_of_head_lt {k : Nat} {pending : List (Expr × Op)} (e : Expr)
    (h : ∀ q ∈ pending.head?, q.2.level < k) : collapse k pending e = (pending, e) := by
  cases pending with
  | nil => rfl
  | cons p rest =>
    rw [collapse, if_neg (Nat.not_le.mpr (h p rfl))]

theorem step_sign (sign : Sign) :
    (State.operand isRet outer here none).step index (.punct sign.punct) =
      .ok (none, .operand isRet outer here (some sign)) := by
  cases sign <;> rfl

theorem step_op (op : Op) (left : Expr) :
    (State.operator isRet outer here left).step index (.punct op.punct) =
      .ok (none, .operand isRet outer (here.shift op left) none) := by
  cases op <;> rfl

theorem step_assign {left : Expr} {x : String} (h : (here.side left).place? = some x) :
    (State.operator isRet outer here left).step index (.punct .assign) =
      .ok (none, .operand isRet outer (here.assign left (index + 1)) none) := by
  simp only [State.step, readOperator, h]

/-- What is open after `op`, if its left operand was read as `l`. -/
theorem Settles.shift {here' : Level} {left l : Expr} (h : Settles here' left here l) {op : Op}
    (hLevel : op.level ≤ l.level) (hHead : ∀ q ∈ here.pending.head?, q.2.level < op.level) :
    here'.shift op left = { here with pending := (l, op) :: here.pending } := by
  have hPos : 0 < l.level := Nat.lt_of_lt_of_le op.level_pos hLevel
  rw [Level.shift, h.taken op.level hPos hLevel, collapse_of_head_lt l hHead, h.start hPos,
    h.targets hPos]

/-- A right operand ends its operation. -/
theorem Settles.binary {here' : Level} {left l r : Expr} {op : Op}
    (h : Settles here' left { here with pending := (l, op) :: here.pending } r)
    (hLevel : op.level < r.level) : Settles here' left here (.binary op l r) := by
  have hPos : 0 < r.level := Nat.lt_of_le_of_lt (Nat.zero_le _) hLevel
  have hCollapse : ∀ k, k ≤ op.level →
      collapse k here'.pending left = collapse k here.pending (.binary op l r) := by
    intro k hk
    rw [h.taken k hPos (by omega), collapse, if_pos hk]
  refine ⟨?_, fun _ => h.start hPos, fun _ => h.targets hPos, ?_⟩
  · rw [Level.close, Level.close, Level.side, Level.side, hCollapse 0 (Nat.zero_le _),
      h.targets hPos]
  · intro k _ hk
    exact hCollapse k hk

/-- A target is what was read since the last `=`. -/
theorem Settles.side {here' : Level} {left t : Expr} (h : Settles here' left here t)
    (hLevel : 0 < t.level) (hNone : here.pending = []) : here'.side left = t := by
  rw [Level.side, h.taken 0 hLevel (Nat.zero_le _), hNone]
  rfl

/-- A value ends its assignment. -/
theorem Settles.assign {here₁ here₂ : Level} {left₁ left₂ t v : Expr}
    (h₁ : Settles here₁ left₁ here t) (hLevel : 0 < t.level) (hNone : here.pending = []) {k : Nat}
    (h₂ : Settles here₂ left₂ (here₁.assign left₁ k) v) :
    Settles here₂ left₂ here (.assign t v) := by
  refine ⟨?_, fun h => absurd h (Nat.lt_irrefl _), fun h => absurd h (Nat.lt_irrefl _),
    fun _ h => absurd h (Nat.lt_irrefl _)⟩
  rw [h₂.close, Level.close, Level.assign, h₁.side hLevel hNone, h₁.targets hLevel, Level.close,
    Level.side, Level.side, hNone]
  rfl

/-- **The words of a graded expression are read as one operand**, in every surrounding in which only
operators wait that bind less tightly. -/
theorem leads_words {e : Expr} (isRet : Bool) (index : Nat) (outer : List Bracket) (here : Level)
    (sign : Option Sign) (he : e.Graded)
    (hSign : sign = none ∨ Phrase.primary.level ≤ e.level)
    (hHead : ∀ q ∈ here.pending.head?, q.2.level < (underSign sign e).level) :
    ∃ here' left, Leads index (.operand isRet outer here sign) e.words
        (.operator isRet outer here' left) ∧ Settles here' left here (underSign sign e) := by
  induction e generalizing index outer here sign with
  | num v => exact ⟨here, _, .cons rfl .nil, .refl⟩
  | name x => exact ⟨here, _, .cons rfl .nil, .refl⟩
  | paren e ih =>
    obtain ⟨here', left, hLeads, hSettles⟩ := ih (index + 1)
      ({ outside := here, sign } :: outer) { start := index + 1 } none he (.inl rfl) nofun
    refine ⟨here, underSign sign (.paren e), .cons rfl (hLeads.trans (.cons ?_ .nil)), .refl⟩
    have hClose : here'.close left = e := hSettles.close
    rw [← hClose]
    rfl
  | signed s e ih =>
    -- no second sign may stand before a sign
    rcases hSign with rfl | hSign
    · obtain ⟨here', left, hLeads, hSettles⟩ :=
        ih (index + 1) outer here (some s) he.1 (.inr he.2) hHead
      exact ⟨here', left, .cons (step_sign s) hLeads, hSettles⟩
    · exact absurd hSign (Nat.not_succ_le_self _)
  | binary op l r ihl ihr =>
    obtain ⟨hl, hr, hLeft, hRight⟩ := he
    rcases hSign with rfl | hSign
    · have hLess : ∀ q ∈ here.pending.head?, q.2.level < op.level := hHead
      obtain ⟨here₁, left₁, hLeads₁, hSettles₁⟩ := ihl index outer here none hl (.inl rfl)
        (fun q hq => Nat.lt_of_lt_of_le (hLess q hq) hLeft)
      have hShift := hSettles₁.shift hLeft hLess
      obtain ⟨here₂, left₂, hLeads₂, hSettles₂⟩ := ihr (index + l.words.length + 1) outer
        (here₁.shift op left₁) none hr (.inl rfl) (by
          rw [hShift]
          rintro q ⟨⟩
          exact hRight)
      rw [hShift] at hSettles₂
      exact ⟨here₂, left₂, hLeads₁.trans (.cons (step_op op left₁) hLeads₂),
        hSettles₂.binary hRight⟩
    · exact absurd hSign (Nat.not_le.mpr (Nat.lt_succ_of_lt op.level_lt_unary))
  | assign t v iht ihv =>
    obtain ⟨ht, hv, hLevel, x, hPlace⟩ := he
    rcases hSign with rfl | hSign
    · -- an assignment is read only where no operator waits
      have hNone : here.pending = [] := by
        cases hp : here.pending with
        | nil => rfl
        | cons q rest => exact absurd (hHead q (by rw [hp]; rfl)) (Nat.not_lt_zero _)
      obtain ⟨here₁, left₁, hLeads₁, hSettles₁⟩ := iht index outer here none ht (.inl rfl)
        (by rw [hNone]; nofun)
      obtain ⟨here₂, left₂, hLeads₂, hSettles₂⟩ := ihv (index + t.words.length + 1) outer
        (here₁.assign left₁ (index + t.words.length + 1)) none hv (.inl rfl) nofun
      have hPlace₁ : (here₁.side left₁).place? = some x := by
        rw [hSettles₁.side hLevel hNone]
        exact Expr.place?_eq_some.mpr hPlace
      exact ⟨here₂, left₂, hLeads₁.trans (.cons (step_assign hPlace₁) hLeads₂),
        hSettles₁.assign hLevel hNone hSettles₂⟩
    · exact absurd hSign (Nat.not_succ_le_zero _)

/-! ### Statements -/

theorem readFrom_start {w : Word} (h : w ≠ .ret) (ws : List Word) :
    readFrom index .start (w :: ws) = readFrom index (.phrase false [] index) (w :: ws) := by
  rw [readFrom, readFrom, State.step, if_neg h, State.phrase, State.step]

theorem exists_head_words (e : Expr) : ∃ w ws, e.words = w :: ws ∧ w ≠ .ret := by
  induction e with
  | num v => exact ⟨_, _, rfl, nofun⟩
  | name x => exact ⟨_, _, rfl, nofun⟩
  | paren e => exact ⟨_, _, rfl, nofun⟩
  | signed s e => exact ⟨_, _, rfl, nofun⟩
  | binary op l r ihl =>
    obtain ⟨w, ws, hw, hRet⟩ := ihl
    exact ⟨w, _, by rw [Expr.words, hw, List.cons_append], hRet⟩
  | assign t v iht =>
    obtain ⟨w, ws, hw, hRet⟩ := iht
    exact ⟨w, _, by rw [Expr.words, hw, List.cons_append], hRet⟩

/-- An expression and a semicolon end a statement. -/
theorem readFrom_phrase (index : Nat) (isRet : Bool) {e : Expr} (he : e.Graded)
    (rest : List Word) :
    readFrom index (.phrase isRet [] index) (e.words ++ .punct .semicolon :: rest) =
      (readFrom (index + (e.words.length + 1)) .start rest).map (statement isRet e :: ·) := by
  obtain ⟨here', left, hLeads, hSettles⟩ :=
    leads_words isRet index [] { start := index } none he (.inl rfl) nofun
  have hClose : here'.close left = e := hSettles.close
  rw [State.phrase, hLeads, readFrom, ← hClose]
  rfl

theorem readFrom_stmt (index : Nat) {stmt : Stmt} (h : stmt.Graded) (rest : List Word) :
    readFrom index .start (stmt.words ++ rest) =
      (readFrom (index + stmt.words.length) .start rest).map (stmt :: ·) := by
  cases stmt with
  | expr e =>
    obtain ⟨w, ws, hw, hRet⟩ := exists_head_words e
    have hPhrase := readFrom_phrase index false h rest
    rw [Stmt.words, List.length_append, List.append_assoc, List.singleton_append]
    rw [hw, List.cons_append] at hPhrase ⊢
    rw [readFrom_start hRet, hPhrase]
    rfl
  | ret e =>
    have hLeads : Leads index .start [.ret] (.phrase true [] (index + 1)) := .cons rfl .nil
    have hPhrase := readFrom_phrase (index + 1) true h rest
    have hStart := hLeads (e.words ++ .punct .semicolon :: rest)
    rw [Nat.add_assoc, Nat.add_comm 1] at hPhrase
    rw [Stmt.words, List.length_cons, List.length_append, List.cons_append, List.append_assoc]
    exact hStart.trans hPhrase

theorem readFrom_stmts (index : Nat) {stmts : List Stmt} (h : ∀ stmt ∈ stmts, stmt.Graded) :
    readFrom index .start (stmts.flatMap Stmt.words) = .ok stmts := by
  induction stmts generalizing index with
  | nil => rfl
  | cons stmt stmts ih =>
    rw [List.forall_mem_cons] at h
    rw [List.flatMap_cons, readFrom_stmt index h.1, ih _ h.2]
    rfl

end Parse

/-- **The reader gives some statements exactly if they are graded and the words are theirs.** -/
theorem Stmt.parse_eq_ok {ws : List Word} {stmts : List Stmt} :
    Stmt.parse ws = .ok stmts ↔
      (∀ stmt ∈ stmts, stmt.Graded) ∧ stmts.flatMap Stmt.words = ws := by
  constructor
  · intro h
    exact ⟨Parse.graded_of_readFrom (s := .start) trivial h, Stmt.words_of_parse h⟩
  · rintro ⟨h, rfl⟩
    exact Parse.readFrom_stmts 0 h

end Semicolon
