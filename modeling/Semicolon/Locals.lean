/-!
# Local variables

A table of names, each entered once, when it is first declared.  The entry at index `i` has the
eight bytes from `8 * (i + 1)` below the frame pointer on, and `frameSize` is room for all of them,
kept to a multiple of sixteen.
-/

namespace Semicolon

structure Locals where
  /-- The names in the order of their first declaration. -/
  names : List String := []
deriving DecidableEq, Repr

namespace Locals

/-- How many bytes one variable takes. -/
def wordSize : Nat := 8

/-- Room for twenty-six variables is always set aside. -/
def minFrameSize : Nat := 208

def empty : Locals := {}

/-- The number of entries. -/
def length (t : Locals) : Nat :=
  t.names.length

def isEmpty (t : Locals) : Bool :=
  t.names.isEmpty

/-- How many bytes all entries take. -/
def size (t : Locals) : Nat :=
  t.length * wordSize

/-- How far below the frame pointer the entry at index `i` lies. -/
def offset (i : Nat) : Nat :=
  (i + 1) * wordSize

def find? (t : Locals) (x : String) : Option Nat :=
  t.names.findIdx? (· == x)

/-- The index of a name; the length of the table if it is not there. -/
def indexOf (t : Locals) (x : String) : Nat :=
  (t.find? x).getD t.length

/-- The index of `x`, which is entered at the end if it is new, and the table with `x` in it. -/
def declare (t : Locals) (x : String) : Nat × Locals :=
  match t.find? x with
  | some i => (i, t)
  | none => (t.length, { names := t.names ++ [x] })

/-- The name and the offset of the entry at index `i`. -/
def get? (t : Locals) (i : Nat) : Option (String × Nat) :=
  t.names[i]?.map fun x => (x, offset i)

/-- Every entry, with its offset. -/
def entries (t : Locals) : List (String × Nat) :=
  t.names.zipIdx.map fun (x, i) => (x, offset i)

/-- Declares some names in order. -/
def declareAll (t : Locals) (xs : List String) : Locals :=
  xs.foldl (fun t x => (t.declare x).2) t

/-- The table of some names, declared in order. -/
def ofNames (xs : List String) : Locals :=
  empty.declareAll xs

/-- The bytes to set aside below the frame pointer. -/
def frameSize (t : Locals) : Nat :=
  max ((t.size + 15) / 16 * 16) minFrameSize

@[simp] theorem declareAll_nil (t : Locals) : t.declareAll [] = t := rfl

@[simp] theorem declareAll_cons (t : Locals) (x : String) (xs : List String) :
    t.declareAll (x :: xs) = (t.declare x).2.declareAll xs := rfl

theorem declareAll_append (t : Locals) (xs ys : List String) :
    t.declareAll (xs ++ ys) = (t.declareAll xs).declareAll ys :=
  List.foldl_append

theorem find?_eq_none {t : Locals} {x : String} : t.find? x = none ↔ x ∉ t.names := by
  simp only [find?, List.findIdx?_eq_none_iff, beq_eq_false_iff_ne]
  exact ⟨fun h hx => h x hx rfl, fun h y hy hyx => h (hyx ▸ hy)⟩

theorem getElem?_of_find? {t : Locals} {x : String} {i : Nat} (h : t.find? x = some i) :
    t.names[i]? = some x := by
  obtain ⟨hi, hx, _⟩ := List.findIdx?_eq_some_iff_getElem.mp h
  rw [List.getElem?_eq_getElem hi, beq_iff_eq.mp hx]

end Locals

end Semicolon
