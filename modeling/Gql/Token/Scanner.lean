import Gql.Token.Basic
import Gql.Token.Fault
/-!
# Scanning one token

A scanner looks at the characters from where a token starts and says what they make,
a token or a fault, and how many characters it took.  Spans are found by reading the
characters taken from the token's starting cursor, so a scanner never counts bytes,
lines or columns itself.

This module holds the shared result type and the scanners of the short tokens:
ignored characters, comments, names and spreads.
-/
namespace Gql

/-- What one scan gives: a token or a fault, and the number of characters it took. -/
abbrev Scanned := Except LexError Token × Nat

namespace Scanned

def token (start : Cursor) (cs : List Char) (kind : TokenKind) (value : String) (n : Nat) :
    Scanned :=
  (.ok ⟨kind, value, start.spanOf cs 0 n⟩, n)

def fault (start : Cursor) (cs : List Char) (f : LexFault) (i j : Nat) (notes : List Note)
    (n : Nat) : Scanned :=
  (.error ⟨f, start.spanOf cs i j, notes⟩, n)

end Scanned

/-- Characters skipped between tokens: space, tab, comma, line feed, carriage return and
the byte-order mark. -/
def isIgnored (c : Char) : Bool :=
  c == ' ' || c == '\t' || c == ',' || c == '\n' || c == '\r' || c == '\uFEFF'

def isNameStart (c : Char) : Bool := c == '_' || c.isAlpha

def isNameContinue (c : Char) : Bool := c == '_' || c.isAlphanum

def isLineBreak (c : Char) : Bool := c == '\n' || c == '\r'

def scanName (start : Cursor) (cs : List Char) : Scanned :=
  let n := 1 + ((cs.drop 1).takeWhile isNameContinue).length
  Scanned.token start cs .name (String.ofList (cs.take n)) n

/-- A comment: `#` and the rest of the line; the value leaves out the `#`. -/
def scanComment (start : Cursor) (cs : List Char) : Scanned :=
  let body := (cs.drop 1).takeWhile (fun c => !isLineBreak c)
  Scanned.token start cs .comment (String.ofList body) (1 + body.length)

/-- The spread `...`; one or two dots alone are faults. -/
def scanSpread (start : Cursor) (cs : List Char) : Scanned :=
  match cs with
  | '.' :: '.' :: '.' :: _ => Scanned.token start cs .spread "..." 3
  | '.' :: '.' :: _ =>
    Scanned.fault start cs (.invalidSpread "..") 0 2
      [Note.help "add one more `.` to form the spread operator `...`"] 2
  | _ => Scanned.fault start cs (.invalidSpread ".") 0 1 [] 1

end Gql
