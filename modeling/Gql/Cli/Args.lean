/-!
# The command line

```text
gql [-v|--verbose] <COMMAND>
  fmt <FILE_PATH>
  parse [--pretty] [--graphql-file-exts <EXT>[,<EXT>...]]... <FILE_OR_DIR_PATHS>...
  tokens [--pretty] <FILE_PATH>
```

Arguments are read left to right and the first that cannot be taken stops the reading.
`-h`/`--help` anywhere, or the `help` command, stops with a request for help;
`-V`/`--version` before the command stops with a request for the version.  `-v` may stand
before or after the command, once on each side.  After `--` every argument is a path.
A flag given twice, a flag with a value attached (`--pretty=x`), an unknown flag, an extra
path and an unknown command each stop the reading; a missing path stops it at the end.
With no command at all there is nothing to run.

A path or an option's value is only settled when the next known flag, the next value of
another argument or the end is read: an empty path, or an option whose next argument is
a flag, is refused then, unless an unknown flag, a flag with a value attached or an extra
path stops the reading first.  The paths of `parse` are one argument with many values, so
a further path joins them and settles nothing.
-/
namespace Gql.Cli

inductive ArgStop
  | displayHelp
  | displayVersion
  | missingRequiredArgument
  | unknownArgument
  | invalidSubcommand
  | invalidValue
  | argumentConflict
  | tooManyValues
deriving Repr, DecidableEq

namespace ArgStop

def tag : ArgStop → String
  | .displayHelp => "DisplayHelp"
  | .displayVersion => "DisplayVersion"
  | .missingRequiredArgument => "MissingRequiredArgument"
  | .unknownArgument => "UnknownArgument"
  | .invalidSubcommand => "InvalidSubcommand"
  | .invalidValue => "InvalidValue"
  | .argumentConflict => "ArgumentConflict"
  | .tooManyValues => "TooManyValues"

/-- Help and version requests end the program successfully; the other stops are usage
errors. -/
def exitCode : ArgStop → Nat
  | .displayHelp | .displayVersion => 0
  | _ => 2

end ArgStop

inductive Command
  | fmt (path : String)
  | parse (pretty : Bool) (extensions : List String) (paths : List String)
  | tokens (pretty : Bool) (path : String)
deriving Repr, DecidableEq

inductive Invocation
  | run (verbose : Bool) (cmd : Command)
  | noCommand (verbose : Bool)
  | stop (why : ArgStop)
deriving Repr, DecidableEq

inductive CommandName
  | fmt
  | parse
  | tokens
deriving Repr, DecidableEq

def CommandName.ofWord? (w : String) : Option CommandName :=
  if w = "fmt" then some .fmt
  else if w = "parse" then some .parse
  else if w = "tokens" then some .tokens
  else none

def isCommandWord (w : String) : Bool := (CommandName.ofWord? w).isSome || w == "help"

def isFlagLike (a : String) : Bool := a.startsWith "-" && a != "-"

/-- A long flag `--name` or `--name=value`, split into its name and attached value. -/
def splitLong (a : String) : String × Option String :=
  match (a.drop 2).toString.splitOn "=" with
  | [name] => (name, none)
  | name :: rest => (name, some ("=".intercalate rest))
  | [] => ("", none)

def defaultExtensions : List String := ["graphql", "gql"]

/-- The value read last and not yet settled, with whether it will be refused then: the paths of
`parse` read since the last settling, or one path or an option's value. -/
inductive OpenValue
  | settled
  | paths (refused : Bool)
  | single (refused : Bool)
deriving Repr, DecidableEq

def OpenValue.refused : OpenValue → Bool
  | .settled => false
  | .paths b => b
  | .single b => b

structure Reading where
  verbose : Bool := false
  pretty : Bool := false
  extensions : Option (List String) := none
  paths : List String := []
  pending : OpenValue := .settled
deriving Repr

/-- Settles the value still open: the reading goes on, or stops as that value is
refused. -/
def Reading.settle (r : Reading) : Except ArgStop Reading :=
  if r.pending.refused then .error .invalidValue else .ok { r with pending := .settled }

/-- Ends the reading of command `c`'s arguments: its command, the missing path, or the
refusal of a value still open. -/
def Reading.finish (c : CommandName) (outer : Bool) (r : Reading) : Invocation :=
  let verbose := outer || r.verbose
  if r.pending.refused then .stop .invalidValue
  else
    match c, r.paths with
    | _, [] => .stop .missingRequiredArgument
    | .fmt, p :: _ => .run verbose (.fmt p)
    | .tokens, p :: _ => .run verbose (.tokens r.pretty p)
    | .parse, ps => .run verbose (.parse r.pretty (r.extensions.getD defaultExtensions) ps)

/-- Takes one path: `fmt` and `tokens` take one, `parse` any number.  A path joins the
paths of `parse` still open; otherwise taking it settles the value before.  An empty path
is left to be refused when it is settled in turn. -/
def Reading.addPath (c : CommandName) (r : Reading) (p : String) : Except ArgStop Reading :=
  match c, r.paths, r.pending with
  | .parse, _, .paths bad =>
    .ok { r with paths := r.paths ++ [p], pending := .paths (bad || p.isEmpty) }
  | .parse, _, _ => do
    let r ← r.settle
    pure { r with paths := r.paths ++ [p], pending := .paths p.isEmpty }
  | _, [], _ => do
    let r ← r.settle
    pure { r with paths := [p], pending := .single p.isEmpty }
  | _, _ :: _, _ => .error .unknownArgument

def readShort : List Char → Reading → Except ArgStop Reading
  | [], r => .ok r
  | 'h' :: _, r => do
    let _ ← r.settle
    .error .displayHelp
  | 'v' :: more, r => do
    let r ← r.settle
    if r.verbose then .error .argumentConflict else readShort more { r with verbose := true }
  | _, _ => .error .unknownArgument

/-- Takes the flag `--name` of command `c`, with the value attached to it if any; `next` is
the argument after it, which an option without an attached value takes unless it is a
flag.  A known flag settles the value before it; an option that gets no value is left to
be refused when it is settled.  Gives the new reading and whether `next` was taken. -/
def readLong (c : CommandName) (name : String) (attached : Option String) (next : Option String)
    (r : Reading) : Except ArgStop (Reading × Bool) :=
  if name = "help" then
    if attached.isSome then .error .tooManyValues
    else do
      let _ ← r.settle
      .error .displayHelp
  else if name = "verbose" then
    if attached.isSome then .error .tooManyValues
    else do
      let r ← r.settle
      if r.verbose then .error .argumentConflict else .ok ({ r with verbose := true }, false)
  else if name = "pretty" ∧ c ≠ .fmt then
    if attached.isSome then .error .tooManyValues
    else do
      let r ← r.settle
      if r.pretty then .error .argumentConflict else .ok ({ r with pretty := true }, false)
  else if name = "graphql-file-exts" ∧ c = .parse then do
    let r ← r.settle
    let add (v : String) : Reading :=
      { r with extensions := some (r.extensions.getD [] ++ v.splitOn ",") }
    match attached, next with
    | some v, _ => .ok (add v, false)
    | none, some v =>
      if isFlagLike v then .ok ({ r with pending := .single true }, false)
      else .ok ({ add v with pending := .single false }, true)
    | none, none => .ok ({ r with pending := .single true }, false)
  else .error .unknownArgument

/-- Reads the arguments of command `c`; `outer` is whether `-v` stood before the command,
`escaped` whether `--` has been passed. -/
def readCommand (c : CommandName) (outer : Bool) (args : List String) (escaped : Bool)
    (r : Reading) : Invocation :=
  match args with
  | [] => r.finish c outer
  | a :: rest =>
    if escaped || !isFlagLike a then
      match r.addPath c a with
      | .ok r => readCommand c outer rest escaped r
      | .error e => .stop e
    else if a = "--" then readCommand c outer rest true r
    else if a.startsWith "--" then
      let (name, attached) := splitLong a
      match readLong c name attached rest.head? r with
      | .ok (r, false) => readCommand c outer rest false r
      | .ok (r, true) =>
        match rest with
        | _ :: more => readCommand c outer more false r
        | [] => r.finish c outer
      | .error e => .stop e
    else
      match readShort (a.drop 1).toString.toList r with
      | .ok r => readCommand c outer rest false r
      | .error e => .stop e

def readHelp : List String → Invocation
  | [] => .stop .displayHelp
  | [w] => if isCommandWord w then .stop .displayHelp else .stop .invalidSubcommand
  | _ => .stop .invalidSubcommand

def readTopShort : List Char → Bool → Option (Bool × Option ArgStop)
  | [], v => some (v, none)
  | 'h' :: _, v => some (v, some .displayHelp)
  | 'V' :: _, v => some (v, some .displayVersion)
  | 'v' :: more, v => if v then some (v, some .argumentConflict) else readTopShort more true
  | _, v => some (v, some .unknownArgument)

def readArgs : List String → Bool → Invocation
  | [], v => .noCommand v
  | a :: rest, v =>
    if a = "--" then
      match rest with
      | [] => .noCommand v
      | b :: _ => if isCommandWord b then .stop .unknownArgument else .stop .invalidSubcommand
    else if a.startsWith "--" then
      let (name, attached) := splitLong a
      if name = "help" ∨ name = "version" ∨ name = "verbose" then
        if attached.isSome then .stop .tooManyValues
        else if name = "help" then .stop .displayHelp
        else if name = "version" then .stop .displayVersion
        else if v then .stop .argumentConflict
        else readArgs rest true
      else .stop .unknownArgument
    else if isFlagLike a then
      match readTopShort (a.drop 1).toString.toList v with
      | some (v', none) => readArgs rest v'
      | some (_, some e) => .stop e
      | none => .stop .unknownArgument
    else if a = "help" then readHelp rest
    else
      match CommandName.ofWord? a with
      | some c => readCommand c v rest false {}
      | none => .stop .invalidSubcommand

def Invocation.ofArgs (args : List String) : Invocation := readArgs args false

end Gql.Cli
