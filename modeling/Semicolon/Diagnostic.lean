import Semicolon.Text.Bytes

/-!
# Diagnostics

A diagnostic shows the line of the source that it is about, a caret under the character, and what is
wrong there.  `Place.find` makes a place of any byte offset: one past the end counts as the end, and
one inside a character as the beginning of that character.  `Place.locate?` finds the same place on
the bytes of the source.
-/

namespace Semicolon

namespace Text

/-- The byte at which the first line feed stands. -/
def firstFeed? : Text → Option Nat
  | [] => none
  | c :: cs => if c = '\n' then some 0 else (firstFeed? cs).map (c.utf8Size + ·)

/-- The byte at which the last line feed stands. -/
def lastFeed? : Text → Option Nat
  | [] => none
  | c :: cs =>
    match lastFeed? cs with
    | some n => some (c.utf8Size + n)
    | none => if c = '\n' then some 0 else none

end Text

/-- A character of the source, with the line around it. -/
structure Place where
  /-- The byte offset in the source. -/
  loc : Nat
  /-- The line that the character is on, without its line feed. -/
  line : String
  /-- How many characters of the line come before. -/
  column : Nat
deriving DecidableEq, Repr

namespace Place

def find (source : Text) (loc : Nat) : Place :=
  let (before, after) := source.cut loc
  let left := (before.reverse.takeWhile (· != '\n')).reverse
  let right := after.takeWhile (· != '\n')
  { loc := before.byteLength, line := String.ofList (left ++ right), column := left.length }

/-- The place of a byte offset, found on the bytes of the source: one byte back at a time to a
boundary, and from there to the line feeds around it.  There is none if one of the parts that are
cut out begins or ends inside of a character. -/
def locate? (source : Text) (loc : Nat) : Option Place := do
  let loc := source.floor (min loc source.byteLength)
  let before ← source.slice? 0 loc
  let after ← source.slice? loc (source.byteLength - loc)
  let start := (before.lastFeed?.map (· + 1)).getD 0
  let stop := (after.firstFeed?.map (loc + ·)).getD source.byteLength
  let left ← source.slice? start (loc - start)
  let line ← source.slice? start (stop - start)
  return { loc, line := String.ofList line, column := left.length }

/-- The line under the line: a caret below the character. -/
def marker (p : Place) : String :=
  String.ofList (List.replicate p.column ' ' ++ ['^'])

end Place

/-- The two parts of the language that a source can violate. -/
inductive Diagnostic.Stage
  | lex | parse
deriving DecidableEq, Repr

structure Diagnostic where
  stage : Diagnostic.Stage
  place : Place
  message : String
deriving DecidableEq, Repr

namespace Diagnostic

/-- The diagnostic about one byte offset of a source. -/
def about (stage : Stage) (source : Text) (loc : Nat) (message : String) : Diagnostic :=
  { stage, place := Place.find source loc, message }

def display (d : Diagnostic) : String :=
  d.place.line ++ "\n" ++ d.place.marker ++ " " ++ d.message

end Diagnostic

end Semicolon
