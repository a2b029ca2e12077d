/-!
# The file system the commands read

The commands read files and walk directories through the file system they are given, which
reads the text of a file, tells whether a path names a regular file, and walks from a path.
How it does so is its own: a walk meets the path itself and then, below a directory, its
entries depth first, those of each directory in name order, and it may fail at any entry on
the way; a failure is described by the system's own text.  Of all this the commands rely on
one law, `FileSystem.WalksFileAlone`: a walk from a regular file meets that file alone.

The last name of a path and its extension are read by the rules of the standard library.
-/
namespace Gql.Cli

/-- What a walk meets at one step: an entry's path and whether it is a regular file, or a
failure and the text that describes it. -/
abbrev WalkStep := Except String (String × Bool)

structure FileSystem where
  readText : String → Except String String
  isFile : String → Bool
  walk : String → List WalkStep

def FileSystem.WalksFileAlone (fs : FileSystem) : Prop :=
  ∀ p, fs.isFile p = true → fs.walk p = [.ok (p, true)]

/-- The last name of a path, unless that is `.` or `..` or the path has none. -/
def fileName? (p : String) : Option String :=
  match ((p.splitOn "/").filter (fun n => n != "")).getLast? with
  | some n => if n = "." ∨ n = ".." then none else some n
  | none => none

/-- The extension of a file name: what follows its last dot, unless the dot is its first
character.  A name ending in a dot has the empty extension. -/
def extension? (name : String) : Option String :=
  if name = ".." then none
  else
    match (name.splitOn ".").reverse with
    | [_] | [] => none
    | ext :: before =>
      if ".".intercalate before.reverse = "" then none else some ext

end Gql.Cli
