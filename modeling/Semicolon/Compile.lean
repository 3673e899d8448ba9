import Semicolon.Assembly.Emit
import Semicolon.Event
import Semicolon.Machine.Run
import Semicolon.Program
import Semicolon.Token.Scan

/-!
# Compiling a source

The stages one after the other: tokens, program, assembly.  `events` is what a compilation reports
on its way, also on one that fails, and `run` executes what was compiled.
-/

namespace Semicolon

/-- The program that a source is. -/
def Program.ofSource (source : Text) : Except Failure Program :=
  match Token.scan source with
  | .error e => .error (.diagnosed (e.diagnostic source))
  | .ok tokens => Program.parse source tokens

/-- The lines of assembly for a source. -/
def compile (source : Text) : Except Failure (List String) :=
  match Program.ofSource source with
  | .error failure => .error failure
  | .ok program =>
    match program.generate with
    | .error fault => .error (.faulted fault)
    | .ok lines => .ok lines

/-- The assembly for a source as one text. -/
def assembly (source : Text) : Except Failure String :=
  (compile source).map fun lines => "\n".intercalate lines ++ "\n"

/-- One event for each entry of a table. -/
def Locals.events (t : Locals) : List Event :=
  t.entries.map fun (name, offset) => .declared name offset

/-- What is reported once the program is known. -/
def Program.events (p : Program) : List Event :=
  .parsed p.body.length p.locals.length ::
    match p.generate with
    | .error _ => []
    | .ok lines => [.generated p.locals.frameSize lines.length]

/-- What a compilation reports, in order. -/
def events (source : Text) : List Event :=
  match Token.scan source with
  | .error _ => []
  | .ok tokens =>
    let ws := Word.ofTokens source tokens
    let declared := Locals.ofNames (Word.names (ws.take (Stmt.consumed ws)))
    .tokenized tokens.length :: declared.events ++
      match Program.parse source tokens with
      | .error _ => []
      | .ok program => program.events

/-- How compiling and executing a source ends. -/
inductive Outcome
  | value (v : Int64)
  | rejected (f : Failure)
  | crashed (c : Crash)
deriving DecidableEq, Repr

/-- Compiles a source and executes the result. -/
def run (source : Text) : Outcome :=
  match compile source with
  | .error failure => .rejected failure
  | .ok lines =>
    match execute lines with
    | .error crash => .crashed crash
    | .ok v => .value v

end Semicolon
