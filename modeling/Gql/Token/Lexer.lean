import Gql.Token.Number
import Gql.Token.StringValue
import Gql.Token.BlockValue
/-!
# The lexer

A `Lexer` is the text not yet read and the cursor where it starts.  One `read` skips the
ignored characters, scans one token or fault from there, and leaves the lexer after what
the scan took, so that reading again after a fault goes on behind it.  At the end of the
text every read gives the end token, with an empty span at the end.
-/
namespace Gql

/-- The token or fault at the front of `cs`, which starts with no ignored character;
the end token when `cs` is empty. -/
def scanToken (start : Cursor) (cs : List Char) : Scanned :=
  match cs with
  | [] => Scanned.token start cs .eof "" 0
  | c :: r =>
    match TokenKind.ofSymbolChar? c with
    | some k => Scanned.token start cs k (k.symbol?.getD "") 1
    | none =>
      if c = '#' then scanComment start cs
      else if c = '.' then scanSpread start cs
      else if c = '"' then
        match r with
        | '"' :: '"' :: _ => scanBlockString start cs
        | _ => scanString start cs
      else if c = '\'' then
        Scanned.fault start cs .singleQuote 0 1 [Note.help "GraphQL strings are delimited by `\"`"] 1
      else if isNameStart c then scanName start cs
      else if c = '-' || c.isDigit then scanNumber start cs
      else Scanned.fault start cs (.unexpectedCharacter (describeChar c)) 0 1 [] 1

structure Lexer where
  rest : List Char
  pos : Cursor := {}
deriving Repr

namespace Lexer

def ofString (text : String) : Lexer := ⟨text.toList, {}⟩

/-- Reads one token or fault, and the lexer after it. -/
def read (lx : Lexer) : Except LexError Token × Lexer :=
  let start := lx.pos.advance (lx.rest.takeWhile isIgnored)
  let cs := lx.rest.dropWhile isIgnored
  let scanned := scanToken start cs
  (scanned.1, ⟨cs.drop scanned.2, start.advance (cs.take scanned.2)⟩)

end Lexer

end Gql
