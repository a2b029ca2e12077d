import Gql.Cli.Commands
/-!
# The `gql` program

Reads the command line, reads the paths it names from the file system, runs the command on
them, and writes what the command wrote, each stream's text followed by a line break.

The file system the command sees is what this layer could read at those paths.  Lean's IO
gives it no listing of a directory, so a walk from a path meets the path alone: a regular
file when its bytes could be read, and otherwise a failure that names the path and the
reason the read gave.  A walk from a regular file meets that file alone, as the commands
require (`snapshot_walksFileAlone`).
-/
namespace Gql.Cli

def usage : String :=
  "Lex, parse and format GraphQL query documents.\n\n" ++
  "Usage: gql [OPTIONS] [COMMAND]\n\n" ++
  "Commands:\n" ++
  "  fmt     Print the canonical text of a GraphQL query document.\n" ++
  "  parse   Parse GraphQL query documents and print their syntax trees as JSON.\n" ++
  "  tokens  Print the token stream of a GraphQL file as JSON.\n" ++
  "  help    Print this message or the help of the given subcommand(s)\n\n" ++
  "Options:\n" ++
  "  -v, --verbose  Enable verbose output.\n" ++
  "  -h, --help     Print help\n" ++
  "  -V, --version  Print version"

def readPath (p : String) : IO (String × Except String ByteArray) := do
  try
    pure (p, .ok (← IO.FS.readBinFile p))
  catch e =>
    pure (p, .error (toString e))

/-- The file system of the paths read: a path holds text when its bytes are UTF-8. -/
def snapshot (read : List (String × Except String ByteArray)) : FileSystem where
  readText p :=
    match read.lookup p with
    | some (.ok bytes) =>
      match String.fromUTF8? bytes with
      | some text => .ok text
      | none => .error "stream did not contain valid UTF-8"
    | some (.error why) => .error why
    | none => .error "No such file or directory (os error 2)"
  isFile p :=
    match read.lookup p with
    | some (.ok _) => true
    | _ => false
  walk p :=
    match read.lookup p with
    | some (.ok _) => [.ok (p, true)]
    | some (.error why) => [.error ("IO error for operation on " ++ p ++ ": " ++ why)]
    | none => [.error ("IO error for operation on " ++ p ++ ": No such file or directory (os error 2)")]

theorem snapshot_walksFileAlone (read : List (String × Except String ByteArray)) :
    (snapshot read).WalksFileAlone := by
  intro p h
  simp only [snapshot] at h ⊢
  split at h
  · rename_i bytes hp
    rw [hp]
  · cases h

/-- Runs the program on its arguments and gives its exit code. -/
def runMain (args : List String) : IO UInt32 := do
  match Invocation.ofArgs args with
  | .stop why =>
    match why with
    | .displayHelp => IO.println usage
    | .displayVersion => IO.println "gql 0.1.0"
    | _ => IO.eprintln ("error: " ++ why.tag ++ "\n\n" ++ usage)
    return why.exitCode.toUInt32
  | .noCommand _ =>
    IO.println usage
    return 0
  | .run _ cmd =>
    let read ← cmd.paths.mapM readPath
    let o := cmd.run (snapshot read)
    if let some s := o.stdout then IO.println s
    if let some s := o.stderr then IO.eprintln s
    return o.exitCode.toUInt32

end Gql.Cli

def main (args : List String) : IO UInt32 := Gql.Cli.runMain args
