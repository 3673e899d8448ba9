import Semicolon.Text.Bytes

/-!
# Punctuators

The fourteen signs of the language.  Where one sign begins another (`=` and `==`), the longer one is
taken: `lead?` tries the signs in the order of `all`, and there the longer ones come first.
-/

namespace Semicolon

inductive Punct
  | eqEq | notEq | le | ge
  | plus | minus | star | slash | openParen | closeParen | lt | gt | assign | semicolon
deriving DecidableEq, Repr

namespace Punct

def text : Punct → String
  | eqEq => "=="
  | notEq => "!="
  | le => "<="
  | ge => ">="
  | plus => "+"
  | minus => "-"
  | star => "*"
  | slash => "/"
  | openParen => "("
  | closeParen => ")"
  | lt => "<"
  | gt => ">"
  | assign => "="
  | semicolon => ";"

/-- Every punctuator, those of two characters before those of one. -/
def all : List Punct :=
  [eqEq, notEq, le, ge, plus, minus, star, slash, openParen, closeParen, lt, gt, assign, semicolon]

/-- The punctuator that a text begins with, the longer one if there are two. -/
def lead? (cs : Text) : Option Punct :=
  all.find? fun p => p.text.toList.isPrefixOf cs

/-- The punctuator that is written so. -/
def ofText? (s : String) : Option Punct :=
  all.find? fun p => p.text == s

@[simp] theorem mem_all (p : Punct) : p ∈ all := by
  cases p <;> decide

@[simp] theorem ofText?_text (p : Punct) : ofText? p.text = some p := by
  cases p <;> decide

theorem ofText?_eq_some {s : String} {p : Punct} : ofText? s = some p ↔ s = p.text := by
  constructor
  · intro h
    have hp := List.find?_some h
    simp only [beq_iff_eq] at hp
    exact hp.symm
  · rintro rfl
    exact ofText?_text p

end Punct

end Semicolon
