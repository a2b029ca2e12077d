import Gql.Source
import Gql.Text.Characters
/-!
# Notes and lexical faults

The notes a diagnostic may carry, and the faults the lexer meets, with their messages and
notes.
-/

/-!
## Notes attached to a diagnostic

A fault may carry notes: a general remark, possibly pointing at a second place in the
source ("string started here"), a hint on how to mend the text, or the section of the
GraphQL specification that the text breaks.
-/
namespace Gql

inductive NoteKind
  | general
  | help
  | spec
deriving Repr, DecidableEq

/-- The word that introduces a note in a detailed diagnostic. -/
def NoteKind.label : NoteKind → String
  | .general => "note"
  | .help => "help"
  | .spec => "spec"

structure Note where
  kind : NoteKind
  message : String
  location : Option Span := none
deriving Repr, DecidableEq

def Note.generalAt (message : String) (span : Span) : Note := ⟨.general, message, some span⟩

def Note.help (message : String) : Note := ⟨.help, message, none⟩

def Note.spec (url : String) : Note := ⟨.spec, url, none⟩

/-!
## Lexical faults

The ways a text can fail to split into tokens, each with the message it is reported
under.  A `LexError` places a fault in the source and may carry notes.
-/

/-- A character as a message names it: between backticks if it can be seen, by its code
point (`U+0009`) if it is a control character, a blank other than the plain space, or the
zero-width space. -/
def describeChar (c : Char) : String :=
  if Text.isControl c || (Text.isWhiteSpace c && c != ' ') || c == '\u200B' then
    "U+" ++ Text.hexUpper 4 c.toNat
  else
    "`" ++ c.toString ++ "`"

def describeNext : Option Char → String
  | some c => describeChar c
  | none => "<EOF>"

inductive LexFault
  | unexpectedCharacter (shown : String)
  | singleQuote
  | invalidSpread (dots : String)
  | digitAfterZero (digit : Char)
  | expectedDigit (found : String)
  | unterminatedString
  | unterminatedBlockString
  | invalidCharacter (code : Nat)
  | invalidEscape (shown : String)
  | invalidUnicodeEscape (shown : String)
deriving Repr, DecidableEq

def LexFault.message : LexFault → String
  | .unexpectedCharacter s => "unexpected character " ++ s
  | .singleQuote =>
    "unexpected single quote character (`'`), did you mean to use a double quote (`\"`)?"
  | .invalidSpread s => "unexpected `" ++ s ++ "`"
  | .digitAfterZero d => "invalid number, unexpected digit after 0: `" ++ d.toString ++ "`"
  | .expectedDigit found => "invalid number, expected digit but got " ++ found
  | .unterminatedString => "unterminated string"
  | .unterminatedBlockString => "unterminated block string"
  | .invalidCharacter code => "invalid character within string: U+" ++ Text.hexUpper 4 code
  | .invalidEscape s => "invalid character escape sequence: `\\" ++ s ++ "`"
  | .invalidUnicodeEscape s => "invalid Unicode escape sequence: `\\u" ++ s ++ "`"

structure LexError where
  fault : LexFault
  span : Span
  notes : List Note := []
deriving Repr, DecidableEq

def LexError.message (e : LexError) : String := e.fault.message

end Gql
