import Mathlib.Data.List.Basic
import Semicolon.Proofs.SourceMeaning
import Semicolon.Proofs.Totality

/-!
# Errors are found at the first bad token

Some tokens are viable if a source that compiles begins with them.  When the reader gets stuck, the
tokens that it has read are viable (`viable_of_reached`), and with one more token they are not
(`not_viable_of_stuck`).  The diagnostic is about that token, or, where the token is a `=` behind
something that is no variable, about the beginning of the longest phrase to its left.
-/

namespace Semicolon

open Parse

/-- The first `k` tokens of a source are, by kind and text, the first tokens of a source that
compiles. -/
def Viable (source : Text) (tokens : List Token) (k : Nat) : Prop :=
  ∃ source' tokens' lines, Token.scan source' = .ok tokens' ∧ compile source' = .ok lines ∧
    (tokens'.take k).map (Token.seen source') = (tokens.take k).map (Token.seen source)

/-- The token `t` at index `k` is the first one with which the tokens are not viable. -/
structure FirstBad (source : Text) (tokens : List Token) (k : Nat) (t : Token) : Prop where
  getElem? : tokens[k]? = some t
  viable : Viable source tokens k
  not_viable : ¬ Viable source tokens (k + 1)

/-- Some tokens of a source are a phrase of the grammar. -/
def IsPhrase (p : Phrase) (source : Text) (tokens : List Token) : Prop :=
  ∃ d : Derivation p, List.Forall₂ (Word.Spells source) d.words tokens

/-- Of all phrases of `p` that end before the token `m`, the longest one begins at `start`. -/
structure LongestPhrase (p : Phrase) (source : Text) (tokens : List Token) (start m : Nat) :
    Prop where
  start_lt : start < m
  isPhrase : IsPhrase p source ((tokens.take m).drop start)
  longest : ∀ j < start, ¬ IsPhrase p source ((tokens.take m).drop j)

/-! ### Sources that compile -/

theorem exists_compile_iff {source : Text} {tokens : List Token}
    (hScan : Token.scan source = .ok tokens) :
    (∃ lines, compile source = .ok lines) ↔ Accepts 0 .start (Word.ofTokens source tokens) := by
  constructor
  · rintro ⟨lines, hLines⟩
    obtain ⟨tokens', stmts, hScan', hParse, -⟩ := compile_eq_ok hLines
    rw [hScan] at hScan'
    obtain rfl := Except.ok.inj hScan'
    exact ⟨stmts, hParse⟩
  · rintro ⟨stmts, hStmts⟩
    obtain ⟨lines, hLines⟩ := Program.exists_generate_ofStmts (Stmt.parse_eq_ok.mp hStmts).1
    exact ⟨lines, compile_of_parse hScan hStmts hLines⟩

/-! ### Forms of tokens -/

variable {source : Text} {fs : List Token.Form} {body : List Token}

theorem length_le_of_words (h : List.Forall₂ (Token.Form.Stands source) fs body)
    {read rest : List Word} (hWords : fs.map Token.Form.word = read ++ rest) :
    read.length ≤ body.length := by
  have hSum := congrArg List.length hWords
  rw [List.length_map, List.length_append, h.length_eq] at hSum
  omega

theorem take_seen (h : List.Forall₂ (Token.Form.Stands source) fs body) {k : Nat}
    (hk : k ≤ fs.length) (n : Nat) :
    ((body ++ [Token.eof n]).take k).map (Token.seen source) = (fs.take k).map Token.Form.seen := by
  have hLength := h.length_eq
  rw [List.take_append_of_le_length (by omega), List.map_take, List.map_take,
    Token.map_seen_of_stands h]

/-- The end mark is seen behind the forms. -/
theorem takeWhile_seen (h : List.Forall₂ (Token.Form.Stands source) fs body) (n : Nat) :
    ((body ++ [Token.eof n]).map (Token.seen source)).takeWhile (·.1 != .eof) =
      fs.map Token.Form.seen := by
  rw [List.takeWhile_map]
  show (((body ++ [Token.eof n]).takeWhile (·.kind != .eof)).map _) = _
  rw [Token.takeWhile_of_stands h, Token.map_seen_of_stands h]

/-- Sources that look the same up to some token have the same words up to there. -/
theorem take_words_eq {source' : Text} {fs' : List Token.Form} {body' : List Token}
    (h : List.Forall₂ (Token.Form.Stands source) fs body)
    (h' : List.Forall₂ (Token.Form.Stands source') fs' body') {k n n' : Nat}
    (hSeen : ((body' ++ [Token.eof n']).take k).map (Token.seen source') =
      ((body ++ [Token.eof n]).take k).map (Token.seen source)) :
    (fs'.map Token.Form.word).take k = (fs.map Token.Form.word).take k := by
  have hForms : (fs'.take k).map Token.Form.seen = (fs.take k).map Token.Form.seen := by
    rw [List.map_take, List.map_take, ← takeWhile_seen h n, ← takeWhile_seen h' n',
      List.take_takeWhile, List.take_takeWhile, ← List.map_take, ← List.map_take, hSeen]
  rw [← List.map_take, ← List.map_take, Token.Form.seen_injective.list_map hForms]

/-! ### Viable tokens -/

theorem written_of_mem_completion {s : State} {w : Word} (h : w ∈ s.completion) : w.Written := by
  have hClosers : ∀ outer : List Bracket, ∀ w ∈ closers outer, w.Written := by
    intro outer w hw
    rcases List.mem_append.mp hw with hw | hw
    · rw [List.eq_of_mem_replicate hw]
      trivial
    · rw [List.mem_singleton.mp hw]
      trivial
  cases s with
  | start => cases h
  | operand isRet outer here sign =>
    rcases List.mem_cons.mp h with rfl | h
    · exact Int.le_refl 0
    · exact hClosers outer w h
  | operator isRet outer here left => exact hClosers outer w h

theorem exists_forms_of_written {ws : List Word} (h : ∀ w ∈ ws, w.Written) :
    ∃ fs : List Token.Form, fs.map Token.Form.word = ws := by
  have hPairs : ∀ p ∈ ws.map fun w => (w, ([] : Text)), p.1.Written := by
    intro p hp
    obtain ⟨w, hw, rfl⟩ := List.mem_map.mp hp
    exact h w hw
  obtain ⟨fs, -, -, hWords⟩ := Token.exists_typed hPairs
  refine ⟨fs.map Prod.fst, ?_⟩
  rw [hWords, List.map_map]
  exact List.map_id _

/-- **What was read can be completed to a source that compiles.** -/
theorem viable_of_reached (h : List.Forall₂ (Token.Form.Stands source) fs body) {n : Nat}
    {read rest : List Word} {s : State} (hWords : fs.map Token.Form.word = read ++ rest)
    (hs : s.Reached read) : Viable source (body ++ [Token.eof n]) read.length := by
  obtain ⟨more, hMore⟩ := exists_forms_of_written (fun w => written_of_mem_completion (s := s))
  have hLength : read.length ≤ fs.length := by
    rw [h.length_eq]
    exact length_le_of_words h hWords
  -- the same forms up to here, then those that end all that is open, each with a space behind it
  let forms := (fs.take read.length ++ more).map fun f => (f, [' '])
  have hForms : forms.map Prod.fst = fs.take read.length ++ more := by
    rw [List.map_map]
    exact List.map_id _
  have hSpaced : Text.Spaced (forms.map Prod.snd) := by
    refine Text.spaced_of_forall_eq ?_
    intro gap hGap
    rw [List.map_map] at hGap
    obtain ⟨f, -, rfl⟩ := List.mem_map.mp hGap
    rfl
  have hNone : ∀ c ∈ ([] : Text), Text.isSpace c = true := by
    intro c hc
    cases hc
  obtain ⟨body', hScan, hStands⟩ := Token.scan_typed hSpaced hNone
  rw [hForms] at hStands
  have hAccepts : Accepts 0 .start ((fs.take read.length ++ more).map Token.Form.word) := by
    rw [List.map_append, List.map_take, hWords, List.take_left, hMore, hs.accepts]
    exact accepts_completion read.length s
  rw [← Token.ofTokens_of_stands hStands, ← exists_compile_iff hScan] at hAccepts
  obtain ⟨lines, hLines⟩ := hAccepts
  refine ⟨_, _, lines, hScan, hLines, ?_⟩
  have hTake : (fs.take read.length).length = read.length := by
    rw [List.length_take]
    omega
  rw [take_seen h hLength, take_seen hStands (by rw [List.length_append]; omega),
    List.take_append_of_le_length (by omega), List.take_of_length_le (by omega)]

/-- **With the token at which the reader got stuck, no source compiles.** -/
theorem not_viable_of_stuck (h : List.Forall₂ (Token.Form.Stands source) fs body) {n : Nat}
    {read rest : List Word} {s : State} {e : ParseError}
    (hWords : fs.map Token.Form.word = read ++ rest) (hs : s.Reached read)
    (hStuck : s.Stuck read.length rest e) :
    ¬ Viable source (body ++ [Token.eof n]) (read.length + 1) := by
  rintro ⟨source', tokens', lines, hScan, hLines, hSeen⟩
  have hAccepts := (exists_compile_iff hScan).mp ⟨lines, hLines⟩
  obtain ⟨fs', body', rfl, hStands, -⟩ := Token.exists_forms_of_scan hScan
  rw [Token.ofTokens_of_stands hStands] at hAccepts
  have hTake := take_words_eq h hStands hSeen
  rw [hWords] at hTake
  generalize fs'.map Token.Form.word = ws at hAccepts hTake
  -- the other source begins with the same words, and the next word is the same as well
  have hRead : ws.take read.length = read := by
    have hFirst := congrArg (List.take read.length) hTake
    rwa [List.take_take, List.take_take, Nat.min_eq_left (Nat.le_succ _), List.take_left]
      at hFirst
  have hNext : (ws.drop read.length).take 1 = rest.take 1 := by
    have hLast := congrArg (List.drop read.length) hTake
    rwa [List.drop_take, List.drop_take, List.drop_left, Nat.add_sub_cancel_left] at hLast
  rw [← List.take_append_drop read.length ws, hRead, hs.accepts] at hAccepts
  exact hStuck.not_accepts hNext hAccepts

/-! ### The phrase to the left of `=` -/

theorem isPhrase_iff {p : Phrase} {tokens : List Token} :
    IsPhrase p source tokens ↔
      ∃ d : Derivation p, tokens.map (Word.ofToken source) = d.words := by
  constructor
  · rintro ⟨d, hd⟩
    exact ⟨d, (Word.forall₂_spells_iff d.other_notMem_words).mp hd⟩
  · rintro ⟨d, hd⟩
    exact ⟨d, (Word.forall₂_spells_iff d.other_notMem_words).mpr hd⟩

/-- The reader knows where the longest phrase to its left begins. -/
theorem longestPhrase_of_reached {tokens : List Token} {read : List Word} {isRet : Bool}
    {outer : List Bracket} {here : Level} {left : Expr}
    (hs : (State.operator isRet outer here left).Reached read)
    (hRead : (tokens.take read.length).map (Word.ofToken source) = read) :
    LongestPhrase .equality source tokens here.start read.length := by
  obtain ⟨before, hBefore, hStart, hOpens⟩ := hs.exists_phrase
  obtain ⟨-, hHere, hLeft⟩ := hs.sound
  obtain ⟨hGraded, hLevel⟩ := hHere.side hLeft
  obtain ⟨phrase, hPhrase, -⟩ := Derivation.exists_expr hGraded (p := .equality) hLevel
  have hPhraseWords : phrase.words = (here.side left).words := by
    rw [← phrase.words_expr, hPhrase]
  have hDrop : ∀ j, ((tokens.take read.length).drop j).map (Word.ofToken source) = read.drop j := by
    intro j
    rw [List.map_drop, hRead]
  refine ⟨?_, ?_, ?_⟩
  · obtain ⟨w, ws, hw, -⟩ := exists_head_words (here.side left)
    rw [hBefore, List.length_append, hw, List.length_cons]
    omega
  · rw [isPhrase_iff]
    refine ⟨phrase, ?_⟩
    rw [hDrop, hPhraseWords]
    conv => lhs; rw [hBefore, ← hStart]
    exact List.drop_left
  · intro j hj hLonger
    obtain ⟨d, hd⟩ := isPhrase_iff.mp hLonger
    rw [hDrop] at hd
    -- a longer phrase would go on across the word behind which the expression begins
    have hSplit : read.drop j = before.drop j ++ phrase.words := by
      conv => lhs; rw [hBefore]
      rw [List.drop_append_of_le_length (by omega), hPhraseWords]
    have hNil : before.drop j ≠ [] := by
      intro h
      rw [List.drop_eq_nil_iff] at h
      omega
    have hLast : (before.drop j).getLast? = before.getLast? := by
      rw [List.getLast?_drop, if_neg (by omega)]
    have hOpen : Opens ((before.drop j).getLast hNil) := by
      refine hOpens _ ?_
      rw [← hLast]
      exact List.getLast?_eq_some_getLast hNil
    refine Derivation.words_ne_of_opens (by decide) d phrase hOpen (before.drop j).dropLast ?_
    rw [← hd, hSplit, ← List.singleton_append, ← List.append_assoc, List.dropLast_append_getLast]

/-! ### Diagnostics of the reader -/

/-- There is a token for each word, and the end mark behind them. -/
theorem exists_getElem? {k : Nat} (hk : k ≤ body.length) (n : Nat) :
    ∃ t, (body ++ [Token.eof n])[k]? = some t := by
  refine ⟨_, List.getElem?_eq_getElem ?_⟩
  rw [List.length_append, List.length_singleton]
  omega

/-- The reader gets stuck at the first bad token. -/
theorem exists_firstBad (h : List.Forall₂ (Token.Form.Stands source) fs body) (n : Nat)
    {read rest : List Word} {s : State} {e : ParseError}
    (hWords : fs.map Token.Form.word = read ++ rest) (hs : s.Reached read)
    (hStuck : s.Stuck read.length rest e) :
    ∃ t, FirstBad source (body ++ [Token.eof n]) read.length t := by
  obtain ⟨t, ht⟩ := exists_getElem? (length_le_of_words h hWords) n
  exact ⟨t, ht, viable_of_reached h hWords hs, not_viable_of_stuck h hWords hs hStuck⟩

/-- The words of the tokens that were read are those that the reader has seen. -/
theorem map_take_of_words (h : List.Forall₂ (Token.Form.Stands source) fs body) (n : Nat)
    {read rest : List Word} (hWords : fs.map Token.Form.word = read ++ rest) :
    ((body ++ [Token.eof n]).take read.length).map (Word.ofToken source) = read := by
  rw [List.take_append_of_le_length (length_le_of_words h hWords), List.map_take,
    Token.map_ofToken_of_stands h, hWords, List.take_left]

/-- The next word is that of the next token. -/
theorem ofToken_of_head (h : List.Forall₂ (Token.Form.Stands source) fs body) {n : Nat}
    {read rest : List Word} (hWords : fs.map Token.Form.word = read ++ rest) {w : Word}
    (hw : rest.head? = some w) {t : Token}
    (ht : (body ++ [Token.eof n])[read.length]? = some t) : Word.ofToken source t = w := by
  have hAt : (body.map (Word.ofToken source))[read.length]? = some w := by
    rw [Token.map_ofToken_of_stands h, hWords, List.getElem?_append_right (Nat.le_refl _),
      Nat.sub_self, ← List.head?_eq_getElem?, hw]
  rw [List.getElem?_map, Option.map_eq_some_iff] at hAt
  obtain ⟨t', ht', hWord⟩ := hAt
  rw [List.getElem?_append_left (List.getElem?_eq_some_iff.mp ht').1, ht'] at ht
  rwa [← Option.some.inj ht]

theorem seen_of_punct {t : Token} {p : Punct} (h : Word.ofToken source t = .punct p) :
    t.seen source = (.punctuator, some p.text) := by
  have hSpells := (Word.spells_iff Word.noConfusion).mpr h
  exact Prod.ext hSpells.1 hSpells.2

/-- **Errors are found at the first bad token.**  If the tokens of a source are no program, there is
a diagnostic.  It says that something else was expected, and is about the first token with which no
source compiles; or it says that there is no variable, and then this token is a `=`, and the
diagnostic is about the beginning of the longest equality to its left. -/
theorem parse_error_at_first_bad_token {tokens : List Token} {failure : Failure}
    (hScan : Token.scan source = .ok tokens)
    (h : Program.parse source tokens = .error failure) :
    ∃ d, failure = .diagnosed d ∧ d.stage = .parse ∧
      ((∃ what got k t,
          d.message = "expected " ++ Expected.text what ++ ", but got \"" ++ got ++ "\"" ∧
          Token.describe? source (some t) = some got ∧
          FirstBad source tokens k t ∧ d.place.loc = t.loc) ∨
        (d.message = "not an lvalue" ∧ ∃ m start t u,
          FirstBad source tokens m t ∧ t.seen source = (.punctuator, some "=") ∧
          LongestPhrase .equality source tokens start m ∧
          tokens[start]? = some u ∧ d.place.loc = u.loc)) := by
  obtain ⟨e, d, rfl, hParse, hd, hValue, hLoc⟩ := Program.exists_diagnostic hScan h
  obtain ⟨fs, body, rfl, hStands, -⟩ := Token.exists_forms_of_scan hScan
  obtain ⟨read, rest, s, hWords, hReached, hStuck⟩ := Stmt.exists_stuck_of_parse hParse
  rw [Token.ofTokens_of_stands hStands] at hWords
  obtain ⟨t, hBad⟩ := exists_firstBad hStands source.byteLength hWords hReached hStuck
  have ht := hBad.getElem?
  refine ⟨d, rfl, by rw [ParseError.eq_about hd]; rfl, ?_⟩
  rcases hStuck.error_cases with rfl | ⟨-, rfl⟩ | ⟨isRet, outer, here, left, rfl, hHead, rfl⟩
  · obtain ⟨got, hGot, rfl⟩ := Option.map_eq_some_iff.mp hd
    rw [ht] at hGot
    refine Or.inl ⟨s.wants, got, read.length, t, rfl, hGot, hBad, ?_⟩
    rw [hLoc, ParseError.blamed, ParseError.locOf, ht]
  · exact absurd rfl (hValue read.length)
  · have hLongest :=
      longestPhrase_of_reached hReached (map_take_of_words hStands source.byteLength hWords)
    have hStart : here.start ≤ body.length :=
      Nat.le_trans (Nat.le_of_lt hLongest.start_lt) (length_le_of_words hStands hWords)
    obtain ⟨u, hu⟩ := exists_getElem? hStart source.byteLength
    have hMessage : d.message = "not an lvalue" := by
      cases hd
      rfl
    refine Or.inr ⟨hMessage, read.length, here.start, t, u, hBad, ?_, hLongest, hu, ?_⟩
    · exact seen_of_punct (ofToken_of_head hStands hWords hHead ht)
    · rw [hLoc, ParseError.blamed, ParseError.locOf, hu]

/-- A sum is assigned to, inside of a bracket and behind another assignment. -/
theorem not_lvalue_at_sum :
    ∃ tokens d, Token.scan "a=(b=c+1=2);".toList = .ok tokens ∧
      Program.parse "a=(b=c+1=2);".toList tokens = .error (.diagnosed d) ∧
      d.message = "not an lvalue" ∧ d.place.loc = 5 ∧
      ∃ m t, FirstBad "a=(b=c+1=2);".toList tokens m t ∧
        t.seen "a=(b=c+1=2);".toList = (.punctuator, some "=") := by
  have hScan : ∃ tokens, Token.scan "a=(b=c+1=2);".toList = .ok tokens := ⟨_, rfl⟩
  obtain ⟨tokens, hScan⟩ := hScan
  have hParse : ∃ d, Program.parse "a=(b=c+1=2);".toList tokens = .error (.diagnosed d) ∧
      d.message = "not an lvalue" ∧ d.place.loc = 5 := by
    cases hScan
    exact ⟨_, rfl, rfl, rfl⟩
  obtain ⟨d, hParse, hMessage, hLoc⟩ := hParse
  refine ⟨tokens, d, hScan, hParse, hMessage, hLoc, ?_⟩
  obtain ⟨d', hd, -, hCases⟩ := parse_error_at_first_bad_token hScan hParse
  cases hd
  rcases hCases with ⟨what, got, k, t, hExpected, -⟩ | ⟨-, m, start, t, u, hBad, hSeen, -⟩
  · rw [hMessage] at hExpected
    have hFirst := congrArg (fun s : String => s.toList.head?) hExpected
    simp at hFirst
  · exact ⟨m, t, hBad, hSeen⟩

end Semicolon
