import Semicolon.Diagnostic
import Semicolon.Punct
import Semicolon.Text.Blank
import Semicolon.Text.Numeral
import Semicolon.Token

/-!
# Scanning

`scan` cuts a source into tokens from left to right.  Where no space stands, `lead` says what the
longest token is that begins there; the scan then passes over its characters.  `scanFrom_space` and
`scanFrom_lead` are the resulting equations.
-/

namespace Semicolon

/-- Why no token begins at some character. -/
inductive LexError.Cause
  | invalidToken (c : Char)
  | numberTooLarge
deriving DecidableEq, Repr

structure LexError where
  cause : LexError.Cause
  loc : Nat
deriving DecidableEq, Repr

namespace LexError

def message (e : LexError) : String :=
  match e.cause with
  | .invalidToken c => "invalid token: '" ++ String.singleton c ++ "'"
  | .numberTooLarge => "invalid number: number too large to fit in target type"

def diagnostic (source : Text) (e : LexError) : Diagnostic :=
  Diagnostic.about .lex source e.loc e.message

end LexError

namespace Token

/-- What a scan recognises at one place: a kind, the number of characters, and a value. -/
structure Lead where
  kind : Kind
  len : Nat
  value : Option Int64 := none
deriving DecidableEq, Repr

/-- The token that stands at byte `loc`. -/
def Lead.token (l : Lead) (loc : Nat) : Token :=
  { kind := l.kind, loc, len := l.len, value := l.value }

/-- The longest token that the text `c :: cs` begins with. -/
def lead (c : Char) (cs : Text) : Except LexError.Cause Lead :=
  if c.isDigit then
    let digits := c :: cs.takeWhile Char.isDigit
    let n := Text.digitsValue digits
    if n ≤ Text.maxWord then
      .ok { kind := .num, len := digits.length, value := some (Int64.ofNat n) }
    else
      .error .numberTooLarge
  else if c.isLower then
    let letters := c :: cs.takeWhile Char.isLower
    .ok { kind := if letters = returnText.toList then .keyword else .ident, len := letters.length }
  else
    match Punct.lead? (c :: cs) with
    | some p => .ok { kind := .punctuator, len := p.text.length }
    | none => .error (.invalidToken c)

/-- Scans a text that starts at byte `loc` of the source, of which the first `covered` characters
belong to the token before. -/
def scanFrom (loc covered : Nat) : Text → Except LexError (List Token)
  | [] => .ok [eof loc]
  | c :: cs =>
    match covered with
    | k + 1 => scanFrom (loc + c.utf8Size) k cs
    | 0 =>
      if Text.isSpace c then
        scanFrom (loc + c.utf8Size) 0 cs
      else
        match lead c cs with
        | .error cause => .error { cause, loc }
        | .ok l => (scanFrom (loc + c.utf8Size) (l.len - 1) cs).map (l.token loc :: ·)

/-- The tokens of a source, the last of them at its end. -/
def scan (source : Text) : Except LexError (List Token) :=
  scanFrom 0 0 source

/-- Characters that are covered are passed over. -/
theorem scanFrom_append (loc : Nat) (a b : Text) :
    scanFrom loc a.length (a ++ b) = scanFrom (loc + a.byteLength) 0 b := by
  induction a generalizing loc with
  | nil => rfl
  | cons c cs ih =>
    simp only [List.cons_append, List.length_cons, scanFrom, Text.byteLength_cons]
    rw [ih, Nat.add_assoc]

theorem scanFrom_space (loc : Nat) {c : Char} (cs : Text) (hc : Text.isSpace c = true) :
    scanFrom loc 0 (c :: cs) = scanFrom (loc + 1) 0 cs := by
  rw [scanFrom, if_pos hc, Text.utf8Size_of_isSpace hc]

theorem scanFrom_stop (loc : Nat) {c : Char} {cs : Text} {cause : LexError.Cause}
    (hc : Text.isSpace c = false) (hl : lead c cs = .error cause) :
    scanFrom loc 0 (c :: cs) = .error { cause, loc } := by
  rw [scanFrom, if_neg (by simp [hc]), hl]

/-- The scan goes on behind the token that it recognised. -/
theorem scanFrom_lead (loc : Nat) {c : Char} {a b : Text} {l : Lead}
    (hc : Text.isSpace c = false) (hl : lead c (a ++ b) = .ok l) (hlen : l.len = a.length + 1) :
    scanFrom loc 0 (c :: (a ++ b)) =
      (scanFrom (loc + Text.byteLength (c :: a)) 0 b).map (l.token loc :: ·) := by
  rw [scanFrom, if_neg (by simp [hc]), hl]
  simp only [hlen, Nat.add_sub_cancel, Text.byteLength_cons]
  rw [scanFrom_append, Nat.add_assoc]

end Token

end Semicolon
