import Semicolon.Failure
import Semicolon.Locals
import Semicolon.Node
import Semicolon.Parse

/-!
# Programs

A program is a list of trees over the indices of a table of locals.  `ofStmts` numbers the variables
of some statements in the order in which they are first written, also where `>` turns two operands
around.  `parse` takes any tokens: their spans may be wrong, numbers may lack their values, and the
end mark may be missing or stand in the middle.
-/

namespace Semicolon

structure Program where
  body : List (Node Nat)
  locals : Locals
deriving DecidableEq, Repr

namespace Program

def ofStmts (stmts : List Stmt) : Program :=
  let locals := Locals.ofNames (stmts.flatMap Stmt.names)
  { body := stmts.map fun s => s.node.map locals.indexOf, locals }

def parse (source : Text) (tokens : List Token) : Except Failure Program :=
  match Stmt.parse (Word.ofTokens source tokens) with
  | .ok stmts => .ok (ofStmts stmts)
  | .error e =>
    match e.diagnostic? source tokens with
    | some d => .error (.diagnosed d)
    | none => .error (.faulted .badSpan)

end Program

end Semicolon
