import Semicolon.Punct
import Semicolon.Token

/-!
# Words

A word is what the grammar sees of a token: its spelling and its value, and not where it stands.  A
token whose span has no text, and one that is spelt like nothing in the grammar, is `other`.
-/

namespace Semicolon

inductive Word
  | punct (p : Punct)
  | ret
  | ident (name : String)
  | num (value : Option Int64)
  | other
deriving DecidableEq, Repr

namespace Word

def ofToken (source : Text) (t : Token) : Word :=
  match t.kind with
  | .punctuator =>
    match (t.text? source).bind Punct.ofText? with
    | some p => punct p
    | none => other
  | .keyword => if t.text? source = some Token.returnText then ret else other
  | .ident =>
    match t.text? source with
    | some name => ident name
    | none => other
  | .num => num t.value
  | .eof => other

/-- The words up to the end of the input; what follows the first end mark is not part of it. -/
def ofTokens (source : Text) (tokens : List Token) : List Word :=
  (tokens.takeWhile (·.kind != .eof)).map (ofToken source)

def name? : Word → Option String
  | ident x => some x
  | _ => none

/-- The identifiers among some words, in order and with repetitions. -/
def names (ws : List Word) : List String :=
  ws.filterMap name?

@[simp] theorem names_append (ws vs : List Word) : names (ws ++ vs) = names ws ++ names vs :=
  List.filterMap_append

end Word

end Semicolon
