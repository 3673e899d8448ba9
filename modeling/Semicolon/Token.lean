import Semicolon.Text.Bytes

/-!
# Tokens

A token is a span of the source, counted in bytes, with what it was recognised as and, for a number,
its value.  Nothing ties the span of a token to a source: `text?` looks, and may find no text there.
-/

namespace Semicolon

inductive Token.Kind
  | punctuator | ident | keyword | num | eof
deriving DecidableEq, Repr

structure Token where
  kind : Token.Kind
  loc : Nat
  len : Nat
  value : Option Int64 := none
deriving DecidableEq, Repr

namespace Token

/-- The word that is no name. -/
def returnText : String := "return"

/-- The token at the end of a source of `loc` bytes. -/
def eof (loc : Nat) : Token :=
  { kind := .eof, loc, len := 0 }

/-- The text under the span of a token. -/
def text? (t : Token) (source : Text) : Option String :=
  (source.slice? t.loc t.len).map String.ofList

/-- What an error calls a token: `EOF` at the end of the input, else its text. -/
def describe? (source : Text) : Option Token → Option String
  | none => some "EOF"
  | some t => if t.kind = .eof then some "EOF" else t.text? source

end Token

end Semicolon
