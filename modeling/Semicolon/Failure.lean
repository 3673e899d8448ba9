import Semicolon.Diagnostic

/-!
# Failures

A compilation fails with a diagnostic about the source, or with a fault: a token, a tree or a table
that the stage before should not have handed on.
-/

namespace Semicolon

inductive Fault
  /-- A token has to be quoted, and the source has no text under its span. -/
  | badSpan
  /-- A variable is not in the table of locals. -/
  | unknownLocal
  /-- The target of an assignment is no variable. -/
  | notLvalue
deriving DecidableEq, Repr

/-- Only one kind of fault comes with a text. -/
def Fault.message? : Fault → Option String
  | notLvalue => some "not an lvalue"
  | badSpan | unknownLocal => none

inductive Failure
  | diagnosed (d : Diagnostic)
  | faulted (f : Fault)
deriving DecidableEq, Repr

end Semicolon
