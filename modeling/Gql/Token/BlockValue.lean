import Gql.Token.Scanner
/-!
# Block strings

The value of a block string, and the lexer's reading of block string literals.
-/

/-!
## The value of a block string

A block string keeps its lines but not the indentation that the surrounding document gave
them.  From the raw text between the delimiters (escaped delimiters already restored, line
breaks already `\n`), the value is found in three steps:

1. the common indentation is the least number of leading spaces and tabs over the lines
   after the first that hold anything else;
2. that many characters are removed from the front of every line after the first;
3. lines holding only spaces and tabs are dropped from both ends.
-/
namespace Gql.Text

def isIndent (c : Char) : Bool := c == ' ' || c == '\t'

def indentOf (line : List Char) : Nat := (line.takeWhile isIndent).length

def isBlankLine (line : List Char) : Bool := line.all isIndent

/-- The least indentation over the lines after the first that hold more than indentation. -/
def commonIndent (lines : List (List Char)) : Option Nat :=
  ((lines.drop 1).filter (fun l => !isBlankLine l)).map indentOf |>.min?

def dedent (lines : List (List Char)) : List (List Char) :=
  match commonIndent lines, lines with
  | some k, first :: rest => first :: rest.map (List.drop k)
  | _, _ => lines

def trimBlankLines (lines : List (List Char)) : List (List Char) :=
  ((lines.dropWhile isBlankLine).reverse.dropWhile isBlankLine).reverse

/-- The value of a block string with raw content `raw`; only `\n` separates lines. -/
def blockStringValue (raw : String) : String :=
  "\n".intercalate ((trimBlankLines (dedent (raw.toList.splitOn '\n'))).map String.ofList)

end Gql.Text

/-!
## Block string literals

A block string runs from `"""` to the next `"""` that is not escaped as `\"""`, across
lines.  Its raw content restores escaped delimiters and writes every carriage return,
alone or before a line feed, as a line feed; the token's value is the block-string value
of that content (`Text.blockStringValue`).

Faults: the end of the input before the closing delimiter, and a control character other
than tab, line feed and carriage return.
-/
namespace Gql

/-- A control character that may not stand raw in a block string: below U+0020, tab and
line breaks excepted. -/
def isForbiddenInBlock (c : Char) : Bool :=
  c.toNat < 0x20 && c != '\t' && c != '\n' && c != '\r'

/-- Reads the body of a block string of `cs`: `r` is what follows the `i` characters
already taken, `acc` the raw content so far, last first. -/
def blockBody (start : Cursor) (cs : List Char) : List Char → Nat → List Char → Scanned
  | [], i, _ =>
    Scanned.fault start cs .unterminatedBlockString i i
      [Note.generalAt "block string started here" (start.spanOf cs 0 i)] i
  | '"' :: '"' :: '"' :: _, i, acc =>
    Scanned.token start cs .blockString (Text.blockStringValue (String.ofList acc.reverse)) (i + 3)
  | '\\' :: '"' :: '"' :: '"' :: r, i, acc => blockBody start cs r (i + 4) ('"' :: '"' :: '"' :: acc)
  | '\r' :: '\n' :: r, i, acc => blockBody start cs r (i + 2) ('\n' :: acc)
  | '\r' :: r, i, acc => blockBody start cs r (i + 1) ('\n' :: acc)
  | c :: r, i, acc =>
    if isForbiddenInBlock c then
      Scanned.fault start cs (.invalidCharacter c.toNat) i (i + 1) [] (i + 1)
    else blockBody start cs r (i + 1) (c :: acc)

def scanBlockString (start : Cursor) (cs : List Char) : Scanned :=
  blockBody start cs (cs.drop 3) 3 []

end Gql
