import Gql.Token.Scanner
/-!
# Number literals

```text
IntValue   : -? (0 | [1-9][0-9]*)
FloatValue : IntValue ('.' [0-9]+)? ([eE] [+-]? [0-9]+)?
```

A number is a `float` when it has a fraction or an exponent, else an `int`; its value is
its lexeme.  A digit right after a leading zero is a fault that takes the digit; a part
without digits is a fault that takes nothing more and names what stands there instead.
Both faults span the number read so far.  What follows the number is not looked at.
-/
namespace Gql

def digitsAt (cs : List Char) (i : Nat) : Nat := ((cs.drop i).takeWhile Char.isDigit).length

/-- The index after the digits that must stand at index `i`, or the fault for a number
starting at `start` that has none there. -/
def needDigits (start : Cursor) (cs : List Char) (i : Nat) : Except Scanned Nat :=
  if digitsAt cs i = 0 then
    .error (Scanned.fault start cs (.expectedDigit (describeNext (cs.drop i).head?)) 0 i [] i)
  else .ok (i + digitsAt cs i)

def integerEnd (start : Cursor) (cs : List Char) (i : Nat) : Except Scanned Nat :=
  match cs.drop i with
  | '0' :: d :: _ =>
    if d.isDigit then
      .error (Scanned.fault start cs (.digitAfterZero d) 0 (i + 2)
        [Note.spec "https://spec.graphql.org/September2025/#sec-Int-Value"] (i + 2))
    else .ok (i + 1)
  | '0' :: [] => .ok (i + 1)
  | _ => needDigits start cs i

/-- The index after an optional fraction at index `i`, and whether there was one. -/
def fractionEnd (start : Cursor) (cs : List Char) (i : Nat) : Except Scanned (Nat × Bool) :=
  match cs.drop i with
  | '.' :: _ => (needDigits start cs (i + 1)).map (·, true)
  | _ => .ok (i, false)

def exponentEnd (start : Cursor) (cs : List Char) (i : Nat) : Except Scanned (Nat × Bool) :=
  match cs.drop i with
  | 'e' :: '+' :: _ | 'e' :: '-' :: _ | 'E' :: '+' :: _ | 'E' :: '-' :: _ =>
    (needDigits start cs (i + 2)).map (·, true)
  | 'e' :: _ | 'E' :: _ => (needDigits start cs (i + 1)).map (·, true)
  | _ => .ok (i, false)

/-- A number literal at the front of `cs`, which starts with `-` or a digit. -/
def scanNumber (start : Cursor) (cs : List Char) : Scanned :=
  let signEnd := if cs.head? = some '-' then 1 else 0
  let outcome : Except Scanned Scanned := do
    let i ← integerEnd start cs signEnd
    let (j, hasFraction) ← fractionEnd start cs i
    let (k, hasExponent) ← exponentEnd start cs j
    let kind := if hasFraction || hasExponent then TokenKind.float else .int
    pure (Scanned.token start cs kind (String.ofList (cs.take k)) k)
  match outcome with
  | .ok s => s
  | .error s => s

end Gql
