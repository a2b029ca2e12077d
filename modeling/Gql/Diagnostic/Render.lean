import Gql.Diagnostic.Basic
import Gql.Token.Scanner
/-!
# Rendering diagnostics

A diagnostic is shown on one line as `name:line:column: error: message`, or in detail:
the message, the place, the line of source with the offending text underlined by `^`,
and each note, with the line it points at underlined by `-`.

The line of source is found by the same line breaks as the cursor counts (line feed,
carriage return, or both together), so the line of a span is the line its start lies on.
The underline starts under the span's column and is as long as the span's text up to the
first line break, and at least one character; a span that does not fall on character
boundaries of the source is underlined by one character.
-/
namespace Gql

namespace Text

/-- The text after the first line break of `cs`, a carriage return and line feed counting
as one break; none when there is no break. -/
def afterLineBreak (cs : List Char) : Option (List Char) :=
  match cs.dropWhile (fun c => !isLineBreak c) with
  | '\r' :: '\n' :: r => some r
  | _ :: r => some r
  | [] => none

def nthLine : Nat → List Char → Option (List Char)
  | 0, cs => some (cs.takeWhile (fun c => !isLineBreak c))
  | k + 1, cs =>
    match afterLineBreak cs with
    | some r => nthLine k r
    | none => none

def alignRight (width : Nat) (s : String) : String :=
  String.ofList (List.replicate (width - s.length) ' ') ++ s

def spaces (n : Nat) : String := String.ofList (List.replicate n ' ')

end Text

namespace Span

def place (name : String) (s : Span) : String :=
  name ++ ":" ++ toString s.line ++ ":" ++ toString s.column

/-- How many characters the underline of a span has in `source`. -/
def underlineLength (source : List Char) (s : Span) : Nat :=
  match Text.sliceBytes source s.start (max s.stop s.start) with
  | some text => max 1 (text.takeWhile (fun c => !isLineBreak c)).length
  | none => 1

/-- The three lines that show a span in `source` with its text underlined by `mark`;
nothing when the span's line does not exist. -/
def snippet (source : List Char) (s : Span) (mark : Char) : Option String :=
  match s.line with
  | 0 => none
  | l + 1 =>
    (Text.nthLine l source).map fun content =>
      let width := max 2 (toString s.line).length
      Text.spaces width ++ " |\n" ++
        Text.alignRight width (toString s.line) ++ " | " ++ String.ofList content ++ "\n" ++
        Text.spaces width ++ " | " ++ Text.spaces (s.column - 1) ++
          String.ofList (List.replicate (s.underlineLength source) mark) ++ "\n"

end Span

namespace Diagnostic

def oneline (name : String) (d : Diagnostic) : String :=
  d.span.place name ++ ": error: " ++ d.message

/-- The detailed form, with source lines when the source text is given. -/
def detailed (name : String) (source : Option String) (d : Diagnostic) : String :=
  let cs := source.map String.toList
  let shown (s : Span) (mark : Char) : String :=
    match cs with
    | some text => (s.snippet text mark).getD ""
    | none => ""
  let noteText (n : Note) : String :=
    "   = " ++ n.kind.label ++ ": " ++ n.message ++ "\n" ++
      match n.location with
      | some s => shown s '-'
      | none => ""
  "error: " ++ d.message ++ "\n" ++ "  --> " ++ d.span.place name ++ "\n" ++
    shown d.span '^' ++ String.join (d.notes.map noteText)

end Diagnostic

end Gql
