import Semicolon.Compile
import Semicolon.Text.Control

/-!
# The command line

One argument is the source.  `-h`, `--help`, `-V` and `--version` ask for a text instead, before the
source or after it; any other argument with a leading hyphen is the source if there is none yet.
Behind a first `--`, every argument is taken as it is.
-/

namespace Semicolon.CommandLine

/-- An argument, as bytes. -/
abbrev Argument := List UInt8

/-- What a command line asks for. -/
inductive Request
  | compile (source : String)
  | help
  | version
  | usage
deriving DecidableEq, Repr

/-- How one argument is meant, before `--`. -/
inductive Reading
  | separator
  /-- An option that is always understood. -/
  | option (r : Request)
  /-- It starts with a hyphen; behind a source it means the request. -/
  | hyphenated (r : Request)
  | plain
deriving DecidableEq, Repr

def decode? (arg : Argument) : Option String :=
  String.fromUTF8? ⟨arg.toArray⟩

def encode (s : String) : Argument :=
  s.toUTF8.toList

/-- The request of one letter behind a hyphen. -/
def letter (b : UInt8) : Request :=
  if b = 'h'.toUInt8 then .help else if b = 'V'.toUInt8 then .version else .usage

/-- An option by its name, which takes no value. -/
def long (name : Argument) : Reading :=
  let stem := name.takeWhile (· != '='.toUInt8)
  let asks (r : Request) : Reading := .option (if stem = name then r else .usage)
  if stem = encode "help" then asks .help
  else if stem = encode "version" then asks .version
  else .hyphenated .usage

/-- How an argument is meant, if it is not behind `--`. -/
def classify (arg : Argument) : Reading :=
  let hyphen := '-'.toUInt8
  match arg with
  | [] => .plain
  | [_] => .plain
  | b :: c :: cs =>
    if b ≠ hyphen then .plain
    else if c = hyphen then
      if cs = [] then .separator else long cs
    else if (c :: cs).all (letter · ≠ .usage) then .option (letter c)
    else .hyphenated (letter c)

/-- The request for the source, once all arguments are read. -/
def finish : Option Argument → Request
  | none => .usage
  | some arg =>
    match decode? arg with
    | some source => .compile source
    | none => .usage

/-- The request `r` behind a source, which has to be text even so. -/
def behind (source : Option Argument) (r : Request) : Request :=
  match source with
  | none => r
  | some arg => if (decode? arg).isSome then r else .usage

/-- Reads arguments behind `--`. -/
def readPlain : Option Argument → List Argument → Request
  | source, [] => finish source
  | none, [arg] => finish (some arg)
  | _, _ => .usage

/-- Reads arguments, after the source if there was one. -/
def read (source : Option Argument) : List Argument → Request
  | [] => finish source
  | arg :: args =>
    match classify arg, source with
    | .separator, _ => readPlain source args
    | .option r, _ => behind source r
    | .hyphenated r, some _ => behind source r
    | .hyphenated _, none | .plain, none => read (some arg) args
    | .plain, some _ => .usage

/-- What a program leaves behind. -/
structure Reply where
  code : Nat := 0
  stdout : String := ""
  stderr : String := ""
deriving DecidableEq, Repr

/-- The name of the program when it is not called by one. -/
def defaultName : String := "stackcc"

def versionText : String := "stackcc 0.1.0\n"

/-- The last part of a path; there is none if the path ends at a root or goes up. -/
def fileName? (path : String) : Option String :=
  ((path.splitOn "/").filter fun part => part ≠ "" ∧ part ≠ ".").getLast?.filter (· ≠ "..")

/-- The name by which a help text calls the program; it holds no control sequence. -/
def shownName (program : String) : String :=
  String.ofList (Text.visible ((fileName? program).getD defaultName).toList)

def helpText (program : String) : String :=
  "Compile a tiny C-like program into x86-64 assembly on stdout\n\n" ++
  "Usage: " ++ shownName program ++ " <SOURCE>\n\n" ++
  "Arguments:\n" ++
  "  <SOURCE>  Program text, e.g. \"a=3; b=5; return a+b;\"\n\n" ++
  "Options:\n" ++
  "  -h, --help     Print help\n" ++
  "  -V, --version  Print version\n"

def usageText (program : String) : String :=
  "usage: " ++ program ++ " <source>"

/-- What a failure leaves on the error stream. -/
def failureText : Failure → String
  | .diagnosed d => d.display
  | .faulted fault => fault.message?.getD "internal error"

def Request.reply (program : String) : Request → Reply
  | .help => { stdout := helpText program }
  | .version => { stdout := versionText }
  | .usage => { code := 1, stderr := usageText program ++ "\n" }
  | .compile source =>
    match assembly source.toList with
    | .ok text => { stdout := text }
    | .error failure => { code := 1, stderr := failureText failure ++ "\n" }

/-- What the program called `program` does with its arguments. -/
def reply (program : String) (args : List Argument) : Reply :=
  (read none args).reply program

end Semicolon.CommandLine
