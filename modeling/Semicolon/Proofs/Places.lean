import Mathlib.Order.Bounds.Basic
import Semicolon.Proofs.Totality

/-!
# Where a diagnostic points

A place is made of any byte offset.  `Place.locate?` goes by the bytes of the source and cuts each
of its parts out by its span.  Every span that it takes has a text, so it always finds a place, and
this is the one that `Place.find` gives (`Place.locate?_eq_some`).  `Place.Parts` are the four parts
of a source that a place is made of: the lines before, the line up to the character, the rest of the
line, and the lines behind.
-/

namespace Semicolon

namespace Text

/-! ### Boundaries -/

variable {source : Text}

theorem isBoundary_zero : source.IsBoundary 0 :=
  ⟨[], source, rfl, rfl⟩

/-- Going back ends at the greatest boundary. -/
theorem isGreatest_floor (n : Nat) :
    IsGreatest {b | source.IsBoundary b ∧ b ≤ n} (source.floor n) := by
  induction n with
  | zero => exact ⟨⟨isBoundary_zero, Nat.le_refl 0⟩, fun b hb => hb.2⟩
  | succ n ih =>
    rw [floor]
    by_cases hBoundary : source.isBoundary (n + 1) = true
    · rw [if_pos hBoundary]
      exact ⟨⟨isBoundary_iff.mp hBoundary, Nat.le_refl _⟩, fun b hb => hb.2⟩
    · rw [if_neg hBoundary]
      refine ⟨⟨ih.1.1, Nat.le_succ_of_le ih.1.2⟩, ?_⟩
      rintro b ⟨hb, hLe⟩
      -- the boundary is not at the byte that was passed
      have hNe : b ≠ n + 1 := by
        rintro rfl
        exact hBoundary (isBoundary_iff.mpr hb)
      exact ih.2 ⟨hb, by omega⟩

theorem byteLength_le_cut (before after : Text) {n : Nat} (h : before.byteLength ≤ n) :
    before.byteLength ≤ (cut n (before ++ after)).1.byteLength := by
  obtain ⟨k, rfl⟩ := Nat.exists_eq_add_of_le h
  rw [cut_byteLength_add, byteLength_append]
  exact Nat.le_add_right _ _

/-- A text is cut at the greatest boundary. -/
theorem isGreatest_cut (source : Text) (n : Nat) :
    IsGreatest {b | source.IsBoundary b ∧ b ≤ min n source.byteLength}
      (source.cut n).1.byteLength := by
  have hBoundary : source.IsBoundary (source.cut n).1.byteLength :=
    ⟨_, _, (cut_append n source).symm, rfl⟩
  refine ⟨⟨hBoundary, Nat.le_min.mpr ⟨byteLength_cut_le n source, hBoundary.le⟩⟩, ?_⟩
  rintro b ⟨⟨before, after, rfl, rfl⟩, hLe⟩
  exact byteLength_le_cut before after (Nat.le_trans hLe (Nat.min_le_left _ _))

theorem floor_eq (source : Text) (n : Nat) :
    source.floor (min n source.byteLength) = (source.cut n).1.byteLength :=
  (isGreatest_floor _).unique (isGreatest_cut source n)

/-! ### Line feeds -/

theorem firstFeed?_append {a : Text} (h : '\n' ∉ a) (b : Text) :
    firstFeed? (a ++ b) = (firstFeed? b).map (a.byteLength + ·) := by
  induction a with
  | nil =>
    simp only [List.nil_append, byteLength_nil, Nat.zero_add]
    exact Option.map_id'.symm
  | cons c a ih =>
    rw [List.mem_cons, not_or] at h
    rw [List.cons_append, firstFeed?, if_neg (Ne.symm h.1), ih h.2, Option.map_map, byteLength_cons]
    exact congrArg (Option.map · _) (funext fun n => (Nat.add_assoc _ _ n).symm)

theorem lastFeed?_eq_none {a : Text} (h : '\n' ∉ a) : lastFeed? a = none := by
  induction a with
  | nil => rfl
  | cons c a ih =>
    rw [List.mem_cons, not_or] at h
    rw [lastFeed?, ih h.2]
    exact if_neg (Ne.symm h.1)

theorem lastFeed?_append (a : Text) {b : Text} (h : '\n' ∉ b) :
    lastFeed? (a ++ '\n' :: b) = some a.byteLength := by
  induction a with
  | nil =>
    rw [List.nil_append, lastFeed?, lastFeed?_eq_none h]
    exact if_pos rfl
  | cons c a ih => rw [List.cons_append, lastFeed?, ih, byteLength_cons]

/-- There is nothing before a line, or a line feed. -/
def EndsLine (a : Text) : Prop :=
  a = [] ∨ a.getLast? = some '\n'

/-- There is nothing behind a line, or a line feed. -/
def StartsLine (a : Text) : Prop :=
  a = [] ∨ a.head? = some '\n'

/-- Behind the first line of a text there is nothing, or a line feed. -/
theorem startsLine_dropWhile (a : Text) : StartsLine (a.dropWhile (· != '\n')) := by
  cases hDrop : a.dropWhile (· != '\n') with
  | nil => exact Or.inl rfl
  | cons c cs =>
    have hHead : (a.dropWhile (· != '\n')).head? = some c := by
      rw [hDrop]
      rfl
    have hc := Token.head?_dropWhile hHead
    exact Or.inr (congrArg some (by simpa using hc))

theorem endsLine_reverse {a : Text} (h : StartsLine a) : EndsLine a.reverse := by
  rwa [EndsLine, List.reverse_eq_nil_iff, List.getLast?_reverse]

theorem notMem_takeWhile (a : Text) : '\n' ∉ a.takeWhile (· != '\n') := by
  intro h
  simpa using List.mem_takeWhile_imp h

/-- A line begins behind the last line feed before it. -/
theorem lastFeed?_of_endsLine {pre left : Text} (hPre : EndsLine pre) (hLeft : '\n' ∉ left) :
    ((pre ++ left).lastFeed?.map (· + 1)).getD 0 = pre.byteLength := by
  rcases hPre with rfl | hPre
  · rw [List.nil_append, lastFeed?_eq_none hLeft]
    rfl
  · obtain ⟨lines, rfl⟩ := List.getLast?_eq_some_iff.mp hPre
    rw [List.append_assoc, List.singleton_append, lastFeed?_append lines hLeft, byteLength_append]
    rfl

/-- A line ends before the first line feed behind it. -/
theorem firstFeed?_of_startsLine (before : Text) {right post : Text} (hRight : '\n' ∉ right)
    (hPost : StartsLine post) :
    ((firstFeed? (right ++ post)).map (before.byteLength + ·)).getD
      (before ++ (right ++ post)).byteLength = (before ++ right).byteLength := by
  rw [firstFeed?_append hRight, byteLength_append before right]
  cases post with
  | nil =>
    rw [List.append_nil]
    exact byteLength_append before right
  | cons c post =>
    obtain rfl : c = '\n' := Option.some.inj (hPost.resolve_left (List.cons_ne_nil _ _))
    rfl

end Text

/-! ### Places -/

namespace Place

/-- The four parts of a source that a place is made of. -/
structure Parts (source : Text) (p : Place) (pre left right post : Text) : Prop where
  source_eq : source = pre ++ (left ++ (right ++ post))
  pre_ends : pre.EndsLine
  left_line : '\n' ∉ left
  right_line : '\n' ∉ right
  post_starts : post.StartsLine
  loc_eq : p.loc = (pre ++ left).byteLength
  line_eq : p.line = String.ofList (left ++ right)
  column_eq : p.column = left.length

theorem exists_parts (source : Text) (loc : Nat) :
    ∃ pre left right post, Parts source (find source loc) pre left right post ∧
      (source.cut loc).1 = pre ++ left := by
  have hLeft : (source.cut loc).1 = ((source.cut loc).1.reverse.dropWhile (· != '\n')).reverse ++
      ((source.cut loc).1.reverse.takeWhile (· != '\n')).reverse := by
    rw [← List.reverse_append, List.takeWhile_append_dropWhile, List.reverse_reverse]
  have hRight : (source.cut loc).2 = (source.cut loc).2.takeWhile (· != '\n') ++
      (source.cut loc).2.dropWhile (· != '\n') :=
    List.takeWhile_append_dropWhile.symm
  refine ⟨_, _, _, _, ⟨?_, Text.endsLine_reverse (Text.startsLine_dropWhile _), ?_,
    Text.notMem_takeWhile _, Text.startsLine_dropWhile (source.cut loc).2, ?_, rfl, rfl⟩, hLeft⟩
  · rw [← hRight, ← List.append_assoc, ← hLeft, Text.cut_append]
  · rw [List.mem_reverse]
    exact Text.notMem_takeWhile _
  · rw [← hLeft]
    rfl

namespace Parts

variable {source : Text} {p : Place} {pre left right post : Text}

/-- The text between the beginning of the line and the character. -/
theorem slice?_left (h : Parts source p pre left right post) :
    source.slice? pre.byteLength (p.loc - pre.byteLength) = some left := by
  refine Text.slice?_eq_some.mpr ⟨pre, right ++ post, ?_, rfl, ?_⟩
  · rw [h.source_eq, List.append_assoc]
  · rw [h.loc_eq, Text.byteLength_append]
    omega

theorem slice?_line (h : Parts source p pre left right post) :
    source.slice? pre.byteLength (left ++ right).byteLength = some (left ++ right) := by
  refine Text.slice?_eq_some.mpr ⟨pre, post, ?_, rfl, rfl⟩
  rw [h.source_eq]
  simp only [List.append_assoc]

/-- The text between the character and the end of the line. -/
theorem slice?_right (h : Parts source p pre left right post) :
    source.slice? p.loc ((pre ++ (left ++ right)).byteLength - p.loc) = some right := by
  refine Text.slice?_eq_some.mpr ⟨pre ++ left, post, ?_, ?_, ?_⟩
  · rw [h.source_eq]
    simp only [List.append_assoc]
  · exact h.loc_eq.symm
  · rw [h.loc_eq]
    simp only [Text.byteLength_append]
    omega

end Parts

/-- **Every span that has to be cut out has a text.** -/
theorem locate?_eq_some (source : Text) (loc : Nat) :
    locate? source loc = some (find source loc) := by
  obtain ⟨pre, left, right, post, hParts, hCut⟩ := exists_parts source loc
  have hLoc : source.floor (min loc source.byteLength) = (pre ++ left).byteLength := by
    rw [Text.floor_eq, hCut]
  have hBefore : source.slice? 0 (pre ++ left).byteLength = some (pre ++ left) := by
    refine Text.slice?_eq_some.mpr ⟨[], right ++ post, ?_, rfl, rfl⟩
    rw [hParts.source_eq, List.nil_append, List.append_assoc]
  have hAfter : source.slice? (pre ++ left).byteLength
      (source.byteLength - (pre ++ left).byteLength) = some (right ++ post) := by
    refine Text.slice?_eq_some.mpr ⟨pre ++ left, [], ?_, rfl, ?_⟩
    · rw [hParts.source_eq, List.append_nil, List.append_assoc]
    · rw [hParts.source_eq, ← List.append_assoc, Text.byteLength_append (pre ++ left),
        Nat.add_sub_cancel_left]
  have hStart := Text.lastFeed?_of_endsLine hParts.pre_ends hParts.left_line
  have hStop := Text.firstFeed?_of_startsLine (pre ++ left) hParts.right_line hParts.post_starts
  rw [List.append_assoc pre, ← hParts.source_eq] at hStop
  have hLeft := hParts.slice?_left
  rw [hParts.loc_eq] at hLeft
  have hLine : source.slice? pre.byteLength ((pre ++ left ++ right).byteLength - pre.byteLength) =
      some (left ++ right) := by
    rw [List.append_assoc, Text.byteLength_append pre, Nat.add_sub_cancel_left, hParts.slice?_line]
  simp only [locate?, hLoc, hBefore, hAfter, hStart, hStop, hLeft, hLine, Option.bind_eq_bind,
    Option.bind_some, Option.pure_def, Option.some.injEq]
  rw [← hParts.loc_eq, ← hParts.line_eq, ← hParts.column_eq]

/-- A place stays where it is. -/
theorem find_loc (source : Text) (loc : Nat) :
    find source (find source loc).loc = find source loc := by
  have hCut : source.cut (source.cut loc).1.byteLength = source.cut loc := by
    have hSource := Text.cut_byteLength (source.cut loc).1 (source.cut loc).2
    rwa [Text.cut_append] at hSource
  show find source (source.cut loc).1.byteLength = find source loc
  rw [find, hCut, find]

/-- The place `p` is that of the offset `loc` in a source. -/
structure PointsAt (source : Text) (loc : Nat) (p : Place) : Prop where
  /-- The offset is the greatest boundary that is not behind `loc`. -/
  isGreatest : IsGreatest {b | source.IsBoundary b ∧ b ≤ min loc source.byteLength} p.loc
  /-- The line is the one around the offset.  As many spaces stand before the caret as there are
  characters between the beginning of the line and the offset, where the rest of the line begins. -/
  exists_line : ∃ pre line post, source = pre ++ (line ++ post) ∧ p.line = String.ofList line ∧
    '\n' ∉ line ∧ (pre = [] ∨ pre.getLast? = some '\n') ∧ (post = [] ∨ post.head? = some '\n') ∧
    pre.byteLength ≤ p.loc ∧ p.loc ≤ (pre ++ line).byteLength ∧
    ∃ left, source.slice? pre.byteLength (p.loc - pre.byteLength) = some left ∧
      p.marker = String.ofList (List.replicate left.length ' ' ++ ['^']) ∧
      source.slice? p.loc ((pre ++ line).byteLength - p.loc) = some (line.drop left.length)

theorem pointsAt_find (source : Text) (loc : Nat) : PointsAt source loc (find source loc) := by
  refine ⟨Text.isGreatest_cut source loc, ?_⟩
  obtain ⟨pre, left, right, post, hParts, -⟩ := exists_parts source loc
  have hLoc : (find source loc).loc = pre.byteLength + left.byteLength := by
    rw [hParts.loc_eq, Text.byteLength_append]
  refine ⟨pre, left ++ right, post, ?_, hParts.line_eq, ?_, hParts.pre_ends, hParts.post_starts,
    by omega, ?_, left, hParts.slice?_left, ?_, ?_⟩
  · rw [hParts.source_eq, List.append_assoc]
  · rw [List.mem_append, not_or]
    exact ⟨hParts.left_line, hParts.right_line⟩
  · rw [Text.byteLength_append, Text.byteLength_append]
    omega
  · rw [marker, hParts.column_eq]
  · rw [List.drop_left]
    exact hParts.slice?_right

end Place

namespace Diagnostic

/-- **A diagnostic points at the right character of the right line**, for every source and every
offset.  There is always a place, also if each part of it has to be cut out of the bytes of the
source, and the diagnostic at the offset of the place has the same place. -/
theorem about_points_at_character (stage : Stage) (source : Text) (loc : Nat) (message : String) :
    Place.locate? source loc = some (about stage source loc message).place ∧
      Place.PointsAt source loc (about stage source loc message).place ∧
      (about stage source (about stage source loc message).place.loc message).place =
        (about stage source loc message).place :=
  ⟨Place.locate?_eq_some source loc, Place.pointsAt_find source loc, Place.find_loc source loc⟩

/-- An offset inside of a character, behind a line feed and another character of two bytes. -/
example :
    (about .lex "a\né€;\nb".toList 5 "?").place = { loc := 4, line := "é€;", column := 1 } := by
  decide

end Diagnostic

end Semicolon
