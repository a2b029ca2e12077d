import Gql.Cli.Args
import Gql.Cli.Files
import Gql.Token.Stream
import Gql.Diagnostic.Json
import Gql.Diagnostic.Render
import Gql.Document.Syntax
import Gql.Document.Json
import Gql.Document.Printer
/-!
# Running the commands

Each command reads files from a file system and ends with an exit code and what it writes to
standard output and to standard error (either may be absent).

* `fmt` writes the canonical text of a document, or its first fault in detail.
* `tokens` writes every token of a file, comments included, as a JSON array; or the first
  lexical fault in detail.
* `parse` walks each path, keeps the regular files whose extension is one of those asked
  for (a single path naming a file is kept whatever its extension, when nothing else is),
  and writes one JSON object `{"source", "document"}` per file that reads without fault.
  Walk failures, read failures and faults are reported in that order, followed by a count.

A file that cannot be read is reported as `❌ failed to read PATH: REASON`.
-/
namespace Gql.Cli

/-- How a command ended: its exit code and what it wrote to each stream. -/
structure Outcome where
  exitCode : Nat
  stdout : Option String
  stderr : Option String
deriving Repr, DecidableEq

def failureMark : String := "❌"

def readFailure (path why : String) : String :=
  failureMark ++ " failed to read " ++ path ++ ": " ++ why

def Outcome.failure (text : String) : Outcome := ⟨1, none, some text⟩

def Outcome.success (text : String) : Outcome := ⟨0, some text, none⟩

def runFmt (fs : FileSystem) (path : String) : Outcome :=
  match fs.readText path with
  | .error e => .failure (readFailure path e)
  | .ok text =>
    let p := Document.parse text
    match p.error with
    | none => .success p.document.render
    | some d => .failure (d.detailed path (some text))

def runTokens (fs : FileSystem) (pretty : Bool) (path : String) : Outcome :=
  match fs.readText path with
  | .error e => .failure (readFailure path e)
  | .ok text =>
    match (Lexer.ofString text).listing with
    | (_, some e) => .failure ((Diagnostic.ofLex e).detailed path (some text))
    | (ts, none) => .success (Json.render pretty (.arr (ts.map (Token.toJson path))))

/-- An extension as asked for: without the dots it starts with. -/
def trimDots (ext : String) : String := String.ofList (ext.toList.dropWhile (· == '.'))

def hasExtension (exts : List String) (path : String) : Bool :=
  match (fileName? path).bind extension? with
  | some e => exts.contains e
  | none => false

def keptFile (exts : List String) : WalkStep → Option String
  | .ok (q, true) => if hasExtension exts q then some q else none
  | _ => none

def walkFailure : WalkStep → Option String
  | .error why => some (failureMark ++ " " ++ why)
  | .ok _ => none

/-- The files that `parse` reads, and the walk failures met while finding them. -/
def findFiles (fs : FileSystem) (exts : List String) (paths : List String) :
    List String × List String :=
  let steps := paths.flatMap fs.walk
  let files := match steps.filterMap (keptFile exts), paths with
    | [], [p] => if fs.isFile p then [p] else []
    | found, _ => found
  (files, steps.filterMap walkFailure)

/-- The JSON line of a file that parsed, or the detailed fault of one that did not. -/
def parseOne (pretty : Bool) (path text : String) : Except String String :=
  let p := Document.parse text
  match p.error with
  | none =>
    .ok (Json.render pretty (.obj [("source", .str path), ("document", p.document.toJson)]))
  | some d => .error (d.detailed path (some text))

/-- `parse PATHS...`: the syntax trees of the files found, as JSON. -/
def runParse (fs : FileSystem) (pretty : Bool) (exts : List String) (paths : List String) :
    Outcome :=
  let (files, walkFailures) := findFiles fs (exts.map trimDots) paths
  let reads := files.map fun f => (f, fs.readText f)
  let readFailures := reads.filterMap fun
    | (f, .error e) => some (readFailure f e)
    | (_, .ok _) => none
  let outcomes := reads.filterMap fun
    | (f, .ok text) => some (parseOne pretty f text)
    | (_, .error _) => none
  let parsed := outcomes.filterMap fun
    | .ok line => some line
    | .error _ => none
  let faults := outcomes.filterMap fun
    | .error text => some text
    | .ok _ => none
  let stdout := if parsed.isEmpty then none else some ("\n".intercalate parsed)
  let errors := walkFailures ++ readFailures ++ faults
  if errors.isEmpty then ⟨0, stdout, none⟩
  else
    let summary := failureMark ++ " Parsed " ++ toString parsed.length ++ " GraphQL files; " ++
      toString errors.length ++ " failed."
    ⟨1, stdout, some ("\n".intercalate (errors ++ [summary]))⟩

def Command.paths : Command → List String
  | .fmt path | .tokens _ path => [path]
  | .parse _ _ paths => paths

def Command.run (fs : FileSystem) : Command → Outcome
  | .fmt path => runFmt fs path
  | .tokens pretty path => runTokens fs pretty path
  | .parse pretty exts paths => runParse fs pretty exts paths

end Gql.Cli
