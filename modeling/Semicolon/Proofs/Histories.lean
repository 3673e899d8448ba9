import Mathlib.Algebra.Group.Int.Defs
import Mathlib.Data.Int.ConditionallyCompleteOrder
import Mathlib.Order.CompletePartialOrder
import Mathlib.Order.ConditionallyCompleteLattice.Basic
import Mathlib.Order.Interval.Set.Disjoint
import Semicolon.Proofs.Frame
import Semicolon.Proofs.Numbering
import Semicolon.Proofs.Totality

/-!
# The history of a table

A table is changed by calls only, and a call enters at most one name, at the end.  So what a table
holds after any calls can be said from the names that they declare, and an index that was given out
once stays good.  The frame has room for every entry, and for no two of them the same.
-/

namespace Semicolon.Locals

/-! ### Calls -/

/-- What can be asked of a table. -/
inductive Call
  | declare (x : String)
  | find (x : String)
deriving DecidableEq, Repr

namespace Call

/-- The name that a call is about. -/
def name : Call → String
  | declare x | find x => x

def declared? : Call → Option String
  | declare x => some x
  | find _ => none

/-- The names that some calls declare, in order and with repetitions. -/
def declared (calls : List Call) : List String :=
  calls.filterMap declared?

end Call

/-- The index that a call gives, if any, and the table behind it. -/
def call (t : Locals) : Call → Option Nat × Locals
  | .declare x => (some (t.declare x).1, (t.declare x).2)
  | .find x => (t.find? x, t)

/-- The table behind some calls. -/
def after (t : Locals) (calls : List Call) : Locals :=
  calls.foldl (fun t c => (t.call c).2) t

variable {t : Locals} {x y : String} {i j : Nat}

@[simp] theorem after_cons (t : Locals) (c : Call) (calls : List Call) :
    t.after (c :: calls) = (t.call c).2.after calls := rfl

theorem after_append (t : Locals) (before later : List Call) :
    t.after (before ++ later) = (t.after before).after later :=
  List.foldl_append

/-- Looking for a name changes nothing. -/
theorem after_eq_declareAll (t : Locals) (calls : List Call) :
    t.after calls = t.declareAll (Call.declared calls) := by
  induction calls generalizing t with
  | nil => rfl
  | cons c calls ih =>
    rw [after_cons, ih]
    cases c with
    | declare x => rfl
    | find x => rfl

/-! ### Entries -/

theorem get?_eq (t : Locals) (i : Nat) : t.get? i = t.entries[i]? := by
  simp [get?, entries, Function.comp_def]

theorem get?_eq_some {e : String × Nat} :
    t.get? i = some e ↔ t.names[i]? = some e.1 ∧ e.2 = 8 * (i + 1) := by
  rw [get?, Option.map_eq_some_iff, offset, wordSize, Nat.mul_comm]
  constructor
  · rintro ⟨y, hy, rfl⟩
    exact ⟨hy, rfl⟩
  · rintro ⟨hy, hOffset⟩
    exact ⟨e.1, hy, Prod.ext rfl hOffset.symm⟩

/-- A name that is new is entered at the end, with the next offset. -/
theorem entries_declare (h : x ∉ t.names) :
    (t.declare x).2.entries = t.entries ++ [(x, 8 * (t.length + 1))] := by
  rw [entries_eq, entries_eq, names_declare, if_neg h, List.zipIdx_append, List.map_append,
    Nat.zero_add]
  rfl

theorem declare_of_mem (h : x ∈ t.names) : (t.declare x).2 = t := by
  cases hFind : t.find? x with
  | none => exact absurd h (find?_eq_none.mp hFind)
  | some i => rw [declare, hFind]

/-- A call only appends. -/
theorem entries_prefix_call (t : Locals) (c : Call) : t.entries <+: (t.call c).2.entries := by
  cases c with
  | find x => exact List.prefix_refl _
  | declare x =>
    show t.entries <+: (t.declare x).2.entries
    by_cases hx : x ∈ t.names
    · exact ⟨[], by rw [declare_of_mem hx, List.append_nil]⟩
    · rw [entries_declare hx]
      exact List.prefix_append _ _

theorem entries_prefix_after (t : Locals) (calls : List Call) :
    t.entries <+: (t.after calls).entries := by
  induction calls generalizing t with
  | nil => exact List.prefix_refl _
  | cons c calls ih => exact (entries_prefix_call t c).trans (ih _)

/-- An entry stays what it is. -/
theorem get?_after {e : String × Nat} (h : t.get? i = some e) (calls : List Call) :
    (t.after calls).get? i = some e := by
  rw [get?_eq] at h ⊢
  obtain ⟨hi, rfl⟩ := List.getElem?_eq_some_iff.mp h
  exact List.prefix_iff_getElem?.mp (entries_prefix_after t calls) i hi

/-! ### Names -/

/-- Where no name is entered twice, the entry that is found is the only one of that name. -/
theorem find?_eq_some (h : t.names.Nodup) : t.find? x = some i ↔ t.names[i]? = some x := by
  constructor
  · exact getElem?_of_find?
  · intro hi
    have hx : x ∈ t.names := List.mem_of_getElem? hi
    rw [find?_eq_indexOf hx, Option.some_inj]
    have hIndex := getElem?_indexOf hx
    have hLt := (List.getElem?_eq_some_iff.mp hIndex).1
    exact (List.getElem?_inj hLt h).mp (hIndex.trans hi.symm)

/-- What was declared can be found under the index that was given out. -/
theorem find?_declare (t : Locals) (x : String) :
    (t.declare x).2.find? x = some (t.declare x).1 := by
  rw [declare_fst]
  exact find?_eq_indexOf (mem_names_declare.mpr (.inr rfl))

/-- An index that a call gives is that of its name. -/
theorem get?_call {c : Call} (h : (t.call c).1 = some i) :
    (t.call c).2.get? i = some (c.name, 8 * (i + 1)) := by
  rw [get?_eq_some]
  refine ⟨getElem?_of_find? ?_, rfl⟩
  cases c with
  | find x => exact h
  | declare x => exact (find?_declare t x).trans h

/-! ### The frame -/

theorem isLeast_frameSize (t : Locals) :
    IsLeast { n | 16 ∣ n ∧ 208 ≤ n ∧ 8 * t.length ≤ n } t.frameSize := by
  rw [frameSize, minFrameSize, size, wordSize]
  constructor
  · refine ⟨?_, Nat.le_max_right _ _, ?_⟩
    · omega
    · omega
  · rintro n ⟨⟨k, rfl⟩, hMin, hSize⟩
    omega

/-- The eight bytes of an entry with this offset, for a frame pointer `rbp`. -/
def slot (rbp : Int) (offset : Nat) : Set Int :=
  Set.Ico (rbp - offset) (rbp - offset + wordSize)

theorem offset_of_get? {e : String × Nat} (h : t.get? i = some e) :
    i < t.length ∧ e.2 = 8 * (i + 1) := by
  obtain ⟨hName, hOffset⟩ := get?_eq_some.mp h
  exact ⟨(List.getElem?_eq_some_iff.mp hName).1, hOffset⟩

theorem slot_subset_frame {e : String × Nat} (h : t.get? i = some e) (rbp : Int) :
    slot rbp e.2 ⊆ Set.Ico (rbp - t.frameSize) rbp := by
  obtain ⟨hi, hOffset⟩ := offset_of_get? h
  have hSize := (isLeast_frameSize t).1.2.2
  rw [hOffset, slot, wordSize]
  apply Set.Ico_subset_Ico
  · omega
  · omega

theorem disjoint_slot {e f : String × Nat} (he : t.get? i = some e) (hf : t.get? j = some f)
    (hij : i ≠ j) (rbp : Int) : Disjoint (slot rbp e.2) (slot rbp f.2) := by
  obtain ⟨-, hOffset⟩ := offset_of_get? he
  obtain ⟨-, hOffset'⟩ := offset_of_get? hf
  rw [hOffset, hOffset', slot, slot, wordSize, Set.Ico_disjoint_Ico]
  omega

/-- If the frame does not reach below the least word, the address of an entry is where it should
be. -/
theorem toInt_address {e : String × Nat} (hCount : t.length < 2 ^ 53) (h : t.get? i = some e)
    {rbp : Int64} (hFrame : t.frameSize ≤ rbp.toInt + 2 ^ 63) :
    (rbp - Int64.ofNat e.2).toInt = rbp.toInt - e.2 := by
  obtain ⟨hi, hOffset⟩ := offset_of_get? h
  have hSize := (isLeast_frameSize t).1.2.2
  have hTop := rbp.toInt_lt
  have hWord : (Int64.ofNat e.2).toInt = e.2 := Int64.toInt_ofNat_of_lt (by omega)
  rw [Int64.toInt_sub, hWord, Int.bmod_eq_of_le (by omega) (by omega)]

/-! ### Whole histories -/

/-- What is known of a table from the calls that were made. -/
structure Consistent (calls : List Call) (t : Locals) : Prop where
  /-- The names are in the order in which they were first declared. -/
  order : t.names = (Call.declared calls).eraseDups
  nodup : t.names.Nodup
  offsets : t.entries = t.names.zipIdx.map fun (x, i) => (x, 8 * (i + 1))
  finds : ∀ x i, t.find? x = some i ↔
    x ∈ Call.declared calls ∧ (t.get? i).map Prod.fst = some x
  gives : ∀ x, (t.declare x).2.find? x = some (t.declare x).1
  /-- To declare a name again changes nothing. -/
  again : ∀ x ∈ Call.declared calls, (t.declare x).2 = t
  /-- To declare a new name adds one entry. -/
  appends : ∀ x ∉ Call.declared calls,
    (t.declare x).2.entries = t.entries ++ [(x, 8 * (t.length + 1))]
  /-- An index that was given out denotes what it denoted then. -/
  stable : ∀ before c later i, calls = before ++ c :: later →
    ((empty.after before).call c).1 = some i →
      (empty.after (before ++ [c])).get? i = some (c.name, 8 * (i + 1)) ∧
        t.get? i = some (c.name, 8 * (i + 1))
  frame : IsLeast { n | 16 ∣ n ∧ 208 ≤ n ∧ 8 * t.length ≤ n } t.frameSize
  /-- Every entry lies in the frame. -/
  inside : ∀ i e, t.get? i = some e →
    ∀ rbp, slot rbp e.2 ⊆ Set.Ico (rbp - t.frameSize) rbp
  /-- No two entries meet. -/
  apart : ∀ i j e f, t.get? i = some e → t.get? j = some f → i ≠ j →
    ∀ rbp, Disjoint (slot rbp e.2) (slot rbp f.2)
  /-- No size and no address leaves the range of a word. -/
  words : t.length < 2 ^ 53 → t.InRange ∧ t.frameSize < 2 ^ 63 ∧
    ∀ rbp : Int64, t.frameSize ≤ rbp.toInt + 2 ^ 63 →
      ∀ i e, t.get? i = some e → (rbp - Int64.ofNat e.2).toInt = rbp.toInt - e.2

theorem mem_names_after {calls : List Call} :
    x ∈ (empty.after calls).names ↔ x ∈ Call.declared calls := by
  rw [after_eq_declareAll]
  exact mem_names_ofNames

theorem stable_after {before later : List Call} {c : Call}
    (h : ((empty.after before).call c).1 = some i) :
    (empty.after (before ++ [c])).get? i = some (c.name, 8 * (i + 1)) ∧
      (empty.after (before ++ c :: later)).get? i = some (c.name, 8 * (i + 1)) := by
  have hThen : (empty.after (before ++ [c])).get? i = some (c.name, 8 * (i + 1)) := by
    rw [after_append]
    exact get?_call h
  refine ⟨hThen, ?_⟩
  rw [← List.singleton_append, ← List.append_assoc, after_append]
  exact get?_after hThen later

/-- **A table stays consistent with its frame, whatever is asked of it.** -/
theorem consistent_after (calls : List Call) : Consistent calls (empty.after calls) := by
  have hNodup : (empty.after calls).names.Nodup := by
    rw [after_eq_declareAll]
    exact nodup_declareAll List.nodup_nil _
  constructor
  case order =>
    rw [after_eq_declareAll]
    exact names_ofNames _
  case nodup => exact hNodup
  case offsets => exact entries_eq _
  case finds =>
    intro x i
    have hName : ((empty.after calls).get? i).map Prod.fst = (empty.after calls).names[i]? := by
      rw [get?, Option.map_map]
      exact Option.map_id_apply
    rw [hName, find?_eq_some hNodup, ← mem_names_after]
    exact ⟨fun h => ⟨List.mem_of_getElem? h, h⟩, And.right⟩
  case gives => exact fun x => find?_declare _ x
  case again =>
    intro x hx
    exact declare_of_mem (mem_names_after.mpr hx)
  case appends =>
    intro x hx
    exact entries_declare (mt mem_names_after.mp hx)
  case stable =>
    rintro before c later i rfl h
    exact stable_after h
  case frame => exact isLeast_frameSize _
  case inside =>
    intro i e he rbp
    exact slot_subset_frame he rbp
  case apart =>
    intro i j e f he hf hij rbp
    exact disjoint_slot he hf hij rbp
  case words =>
    intro hCount
    have hSize := frameSize_le hCount
    refine ⟨inRange_of_length (Nat.le_of_lt hCount), by omega, ?_⟩
    intro rbp hFrame i e he
    exact toInt_address hCount he hFrame

/-- Of two names one begins the other one, and both are asked for before they are declared. -/
example : empty.after [.find "ab", .declare "ab", .find "a", .declare "a", .declare "ab"] =
    { names := ["ab", "a"] } := by
  decide

end Semicolon.Locals
