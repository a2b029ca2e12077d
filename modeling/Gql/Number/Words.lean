/-!
# Number lexemes as machine words

Integer lexemes read as signed 64-bit words, and decimal lexemes read as binary64 words.
-/

/-!
## Reading integers as signed 64-bit words

An integer lexeme is an optional minus sign and decimal digits.  Read as a signed 64-bit
word it is its value when that lies in `[-2^63, 2^63)`; above, it is too large, below, too
small.
-/
namespace Gql.Number

def digitsValue (ds : List Char) : Nat := ds.foldl (fun acc c => acc * 10 + (c.toNat - 48)) 0

def readInt64 (lexeme : String) : Except String Int :=
  match lexeme.toList with
  | '-' :: ds =>
    let n := digitsValue ds
    if n ≤ Nat.pow 2 63 then .ok (-(n : Int)) else .error "number too small to fit in target type"
  | ds =>
    let n := digitsValue ds
    if n < Nat.pow 2 63 then .ok n else .error "number too large to fit in target type"

/-!
## Decimal numbers as binary64

A decimal number is read into the IEEE 754 binary64 word nearest to its value, a tie going
to the word with an even significand.  Values too large for any finite word become
infinity and values closer to zero than half the least subnormal become zero, both keeping
the sign.  The word is computed with exact integer arithmetic on the decimal's digits and
exponent: find the binade of the value, scale it to 53 significant bits (fewer below the
normal range), divide, and round the remainder.
-/

def infinityBits : Nat := 0x7FF0000000000000

def signBit : Nat := Nat.pow 2 63

/-- `num / den` rounded to the nearest natural number, a tie going to the even one. -/
def roundHalfEven (num den : Nat) : Nat :=
  let q := num / den
  let r := num % den
  if 2 * r > den || (2 * r == den && q % 2 == 1) then q + 1 else q

/-- The exponent `k` with `2^k ≤ p / q < 2^(k+1)`, for positive `p` and `q`. -/
def binade (p q : Nat) : Int :=
  let k : Int := (Nat.log2 p : Int) - Nat.log2 q
  let below : Bool :=
    if 0 ≤ k then p < q * Nat.pow 2 k.toNat else p * Nat.pow 2 ((-k).toNat) < q
  if below then k - 1 else k

/-- The binary64 word nearest to the positive rational `p / q`. -/
def nearestWord (p q : Nat) : Nat :=
  let k := binade p q
  if -1022 ≤ k then
    let shift : Int := 52 - k
    let s := if 0 ≤ shift then roundHalfEven (p * Nat.pow 2 shift.toNat) q
      else roundHalfEven p (q * Nat.pow 2 ((-shift).toNat))
    let (s, k) := if s = Nat.pow 2 53 then (Nat.pow 2 52, k + 1) else (s, k)
    if 1023 < k then infinityBits else (k + 1023).toNat * Nat.pow 2 52 + (s - Nat.pow 2 52)
  else roundHalfEven (p * Nat.pow 2 1074) q

def decimalWord (m : Nat) (e : Int) : Nat :=
  if m = 0 then 0
  else
    let size : Int := e + (Nat.toDigits 10 m).length
    if 310 < size then infinityBits
    else if size < -330 then 0
    else if 0 ≤ e then nearestWord (m * Nat.pow 10 e.toNat) 1
    else nearestWord m (Nat.pow 10 ((-e).toNat))

/-- The parts of a decimal lexeme `-?digits(.digits)?([eE][+-]?digits)?`: the sign, the
digits, and the power of ten they are scaled by. -/
def decimalParts (lexeme : String) : Bool × Nat × Int :=
  let cs := lexeme.toList
  let (neg, cs) := match cs with
    | '-' :: r => (true, r)
    | r => (false, r)
  let whole := cs.takeWhile Char.isDigit
  let cs := cs.dropWhile Char.isDigit
  let (frac, cs) := match cs with
    | '.' :: r => (r.takeWhile Char.isDigit, r.dropWhile Char.isDigit)
    | r => ([], r)
  let exp : Int := match cs with
    | 'e' :: r | 'E' :: r =>
      match r with
      | '-' :: ds => -(digitsValue ds : Int)
      | '+' :: ds => digitsValue ds
      | ds => digitsValue ds
    | _ => 0
  (neg, digitsValue (whole ++ frac), exp - frac.length)

/-- The binary64 word of a number lexeme, as sixteen lower-case hexadecimal digits are
wont to show it. -/
def readBinary64 (lexeme : String) : Nat :=
  let (neg, m, e) := decimalParts lexeme
  decimalWord m e + (if neg then signBit else 0)

end Gql.Number
