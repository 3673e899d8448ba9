/-!
# Events

What a compilation tells about its progress.  An event has a level, a target and named fields, the
first of which is its message; values are written in decimal.
-/

namespace Semicolon

inductive Event
  | tokenized (tokens : Nat)
  | declared (name : String) (offset : Nat)
  | parsed (statements locals : Nat)
  | generated (stackSize lines : Nat)
deriving DecidableEq, Repr

namespace Event

inductive Level
  | debug | trace
deriving DecidableEq, Repr

def level : Event → Level
  | declared .. => .trace
  | tokenized _ | parsed .. | generated .. => .debug

def target : Event → String
  | tokenized _ => "stackcc"
  | declared .. => "stackcc::locals"
  | parsed .. => "stackcc::parser"
  | generated .. => "stackcc::codegen"

def fields : Event → List (String × String)
  | tokenized tokens => [("message", "tokenized source"), ("tokens", tokens.repr)]
  | declared name offset =>
    [("message", "declared local"), ("name", name), ("offset", offset.repr)]
  | parsed statements locals =>
    [("message", "parsed program"), ("statements", statements.repr), ("locals", locals.repr)]
  | generated stackSize lines =>
    [("message", "generated assembly"), ("stack_size", stackSize.repr), ("lines", lines.repr)]

end Event

end Semicolon
