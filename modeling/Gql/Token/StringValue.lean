import Gql.Token.Scanner
import Gql.Text.Characters
/-!
# Quoted string literals

A string runs from a double quote to the next unescaped one on the same line.  Inside,
a backslash starts an escape: `\" \\ \/ \b \f \n \r \t` stand for one character each,
and `\uXXXX` for the code point with those four hexadecimal digits; a high surrogate
written this way joins the low surrogate escape right after it into one character.

Faults: a line break or the end of the input before the closing quote; a control
character other than tab; an escape letter that starts no escape; `\u` without four
digits (the fault shows up to four characters after `\u`, stopping at a quote or line
break, and takes them); a surrogate that is not part of a pair.
-/
namespace Gql

def simpleEscape? (c : Char) : Option Char :=
  if c = '"' then some '"'
  else if c = '\\' then some '\\'
  else if c = '/' then some '/'
  else if c = 'b' then some '\x08'
  else if c = 'f' then some '\x0c'
  else if c = 'n' then some '\n'
  else if c = 'r' then some '\r'
  else if c = 't' then some '\t'
  else none

def isForbiddenInString (c : Char) : Bool := c.toNat < 0x20 && c != '\t'

def joinSurrogates (hi lo : Nat) : Nat := 0x10000 + (hi - 0xD800) * 0x400 + (lo - 0xDC00)

def isHighSurrogate (n : Nat) : Bool := 0xD800 ≤ n && n ≤ 0xDBFF

def isLowSurrogate (n : Nat) : Bool := 0xDC00 ≤ n && n ≤ 0xDFFF

/-- The fault for `\u` at index `i` not followed by four hexadecimal digits; `r` is what
follows the `u`. -/
def badUnicodeEscape (start : Cursor) (cs : List Char) (i : Nat) (r : List Char) : Scanned :=
  let shown := (r.take 4).takeWhile (fun c => c != '"' && !isLineBreak c)
  let n := i + 2 + shown.length
  Scanned.fault start cs (.invalidUnicodeEscape (String.ofList shown)) i n [] n

/-- The fault for a surrogate `h` written alone by the escape at index `i`. -/
def loneSurrogate (start : Cursor) (cs : List Char) (i h : Nat) : Scanned :=
  Scanned.fault start cs (.invalidUnicodeEscape (Text.hexUpper 4 h)) i (i + 6) [] (i + 6)

/-- Reads the body of a quoted string of `cs`: `r` is what follows the `i` characters
already taken, `acc` the decoded characters so far, last first. -/
def stringBody (start : Cursor) (cs : List Char) : List Char → Nat → List Char → Scanned
  | [], i, _ =>
    Scanned.fault start cs .unterminatedString i i
      [Note.generalAt "string started here" (start.spanOf cs 0 i)] i
  | '\n' :: _, i, _ | '\r' :: _, i, _ =>
    Scanned.fault start cs .unterminatedString i i
      [Note.help ("use a block string (`\"\"\"`) for multi-line strings, " ++
        "or escape the line break with `\\n`")] i
  | '"' :: _, i, acc => Scanned.token start cs .string (String.ofList acc.reverse) (i + 1)
  | '\\' :: [], i, _ | '\\' :: '\n' :: _, i, _ | '\\' :: '\r' :: _, i, _ =>
    Scanned.fault start cs .unterminatedString i (i + 1) [] (i + 1)
  | '\\' :: 'u' :: a :: b :: c :: d :: r, i, acc =>
    match Text.hexNumber? [a, b, c, d] with
    | none => badUnicodeEscape start cs i (a :: b :: c :: d :: r)
    | some h =>
      if isHighSurrogate h then
        match r with
        | '\\' :: 'u' :: e :: f :: g :: k :: r' =>
          match Text.hexNumber? [e, f, g, k] with
          | some lo =>
            if isLowSurrogate lo then
              stringBody start cs r' (i + 12) (Char.ofNat (joinSurrogates h lo) :: acc)
            else loneSurrogate start cs i h
          | none => loneSurrogate start cs i h
        | _ => loneSurrogate start cs i h
      else if isLowSurrogate h then loneSurrogate start cs i h
      else stringBody start cs r (i + 6) (Char.ofNat h :: acc)
  | '\\' :: 'u' :: r, i, _ => badUnicodeEscape start cs i r
  | '\\' :: e :: r, i, acc =>
    match simpleEscape? e with
    | some d => stringBody start cs r (i + 2) (d :: acc)
    | none => Scanned.fault start cs (.invalidEscape e.toString) i (i + 2) [] (i + 2)
  | c :: r, i, acc =>
    if isForbiddenInString c then
      Scanned.fault start cs (.invalidCharacter c.toNat) i (i + 1) [] (i + 1)
    else stringBody start cs r (i + 1) (c :: acc)

def scanString (start : Cursor) (cs : List Char) : Scanned :=
  stringBody start cs (cs.drop 1) 1 []

end Gql
