import Gql.Token.Basic
import Gql.Json
import Gql.Diagnostic.Basic
/-!
# Tokens and diagnostics as JSON

How tokens, their positions, diagnostics and their notes are written as JSON.
-/

/-!
## Tokens as JSON

A token is written as `{"kind", "value", "position"}`, and its span as a position
`{"start", "end", "line", "column", "source"}` naming the source it lies in.
-/
namespace Gql

def Span.positionJson (name : String) (s : Span) : Json :=
  .obj [("start", .num s.start), ("end", .num s.stop), ("line", .num s.line),
    ("column", .num s.column), ("source", .str name)]

def Token.toJson (name : String) (t : Token) : Json :=
  .obj [("kind", .str t.kind.tag), ("value", .str t.value), ("position", t.span.positionJson name)]

/-!
## Diagnostics as JSON

Locations are written as `{"source_name", "line", "column", "start", "end"}`, notes as
`{"kind", "message", "location"}`.  A lexical fault is written by its name alone when it
has no data (`"SingleQuote"`), else as a one-field object from its name to its data
(`{"InvalidSpread": ".."}`).  A syntax fault is an object with its `type`, its short
`display` text and its data.
-/

def Span.locationJson (name : String) (s : Span) : Json :=
  .obj [("source_name", .str name), ("line", .num s.line), ("column", .num s.column),
    ("start", .num s.start), ("end", .num s.stop)]

def NoteKind.tag : NoteKind → String
  | .general => "General"
  | .help => "Help"
  | .spec => "Spec"

def Note.toJson (name : String) (n : Note) : Json :=
  .obj [("kind", .str n.kind.tag), ("message", .str n.message),
    ("location", match n.location with
      | some s => s.locationJson name
      | none => .null)]

def LexFault.toJson : LexFault → Json
  | .unexpectedCharacter s => .obj [("UnexpectedCharacter", .str s)]
  | .singleQuote => .str "SingleQuote"
  | .invalidSpread s => .obj [("InvalidSpread", .str s)]
  | .digitAfterZero d => .obj [("UnexpectedDigitAfterZero", .str d.toString)]
  | .expectedDigit found => .obj [("ExpectedDigit", .obj [("found", .str found)])]
  | .unterminatedString => .str "UnterminatedString"
  | .unterminatedBlockString => .str "UnterminatedBlockString"
  | .invalidCharacter code => .obj [("InvalidCharacterInString", .num code)]
  | .invalidEscape s => .obj [("InvalidEscapeSequence", .str s)]
  | .invalidUnicodeEscape s => .obj [("InvalidUnicodeEscape", .str s)]

/-- The syntax fault as JSON: its type, display text and data. -/
def SyntaxFault.toJson (f : SyntaxFault) : Json :=
  let strs (xs : List String) : Json := .arr (xs.map Json.str)
  let fields : List (String × Json) := match f with
    | .lexical lf => [("type", .str "Lexer"), ("lex_kind", lf.toJson)]
    | .unexpectedToken expected found =>
      [("type", .str "UnexpectedToken"), ("expected", strs expected), ("found", .str found)]
    | .unexpectedEnd expected => [("type", .str "UnexpectedEof"), ("expected", strs expected)]
    | .emptyConstruct c => [("type", .str "EmptyConstruct"), ("construct", .str c)]
    | .reservedName n => [("type", .str "ReservedName"), ("name", .str n)]
    | .variableNotAllowed c => [("type", .str "VariableNotAllowed"), ("context", .str c)]
    | .nestingTooDeep limit => [("type", .str "NestingTooDeep"), ("limit", .num limit)]
  .obj (fields ++ [("display", .str f.display)])

end Gql
