import Gql.Source
import Gql.Text.Characters
/-!
# Tokens and their kinds

The kinds of token, and the token itself: a kind, a value and the span it covers.
-/

/-!
## Kinds of token

Names, the two kinds of number, the two kinds of string, comments, the fourteen
punctuators, the end of the input, and `error`, which stands for a fault in a listing of
tokens.
-/
namespace Gql

inductive TokenKind
  | eof
  | error
  | name
  | int
  | float
  | string
  | blockString
  | comment
  | bang
  | dollar
  | amp
  | colon
  | equals
  | atSign
  | pipe
  | parenL
  | parenR
  | bracketL
  | bracketR
  | braceL
  | braceR
  | spread
deriving Repr, DecidableEq

namespace TokenKind

def symbol? : TokenKind → Option String
  | .bang => some "!"
  | .dollar => some "$"
  | .amp => some "&"
  | .colon => some ":"
  | .equals => some "="
  | .atSign => some "@"
  | .pipe => some "|"
  | .parenL => some "("
  | .parenR => some ")"
  | .bracketL => some "["
  | .bracketR => some "]"
  | .braceL => some "\x7b"
  | .braceR => some "\x7d"
  | .spread => some "..."
  | _ => none

def singleCharSymbols : List (Char × TokenKind) :=
  [('!', .bang), ('$', .dollar), ('&', .amp), (':', .colon), ('=', .equals), ('@', .atSign),
    ('|', .pipe), ('(', .parenL), (')', .parenR), ('[', .bracketL), (']', .bracketR),
    ('\x7b', .braceL), ('\x7d', .braceR)]

def ofSymbolChar? (c : Char) : Option TokenKind :=
  (singleCharSymbols.find? (·.1 == c)).map (·.2)

/-- Whether a token of this kind closes a listing: the end of the input, or a fault. -/
def closes : TokenKind → Bool
  | .eof | .error => true
  | _ => false

def tag : TokenKind → String
  | .eof => "Eof"
  | .error => "Error"
  | .name => "Name"
  | .int => "Int"
  | .float => "Float"
  | .string => "String"
  | .blockString => "BlockString"
  | .comment => "Comment"
  | .bang => "Bang"
  | .dollar => "Dollar"
  | .amp => "Amp"
  | .colon => "Colon"
  | .equals => "Equals"
  | .atSign => "At"
  | .pipe => "Pipe"
  | .parenL => "ParenL"
  | .parenR => "ParenR"
  | .bracketL => "BracketL"
  | .bracketR => "BracketR"
  | .braceL => "BraceL"
  | .braceR => "BraceR"
  | .spread => "Spread"

/-- How a kind reads in messages: a punctuator as its symbol, the end as `<EOF>`. -/
def display (k : TokenKind) : String :=
  match k.symbol? with
  | some s => s
  | none =>
    match k with
    | .eof => "<EOF>"
    | _ => k.tag

end TokenKind

/-!
## Tokens

A token is a kind, a value and the span it covers.  The value is the decoded text:
the lexeme of a name or number, the contents of a string after escapes are resolved,
the value of a block string, the text of a comment after `#`, the symbol of a
punctuator, and nothing for the end of the input.
-/

structure Token where
  kind : TokenKind
  value : String
  span : Span
deriving Repr, DecidableEq

namespace Token

/-- Whether the token is the name `word`; keywords of GraphQL are plain names. -/
def isKeyword (t : Token) (word : String) : Bool := t.kind == .name && t.value == word

/-- How a token reads in listings: punctuators and the end by their kind, every other
token as its kind followed by its quoted value. -/
def display (t : Token) : String :=
  match t.kind.symbol?, t.kind with
  | some _, _ => t.kind.display
  | none, .eof => t.kind.display
  | none, _ => t.kind.display ++ " " ++ Text.quote t.value

end Token

end Gql
