import Gql.Text.Characters
/-!
# JSON values and their text

Listings of tokens and documents are written as JSON.  A `Json` value keeps the fields of
an object in the order they were given, since that order is part of the text.  Two layouts
are written: `compact`, with no blank at all, and `pretty`, one item per line indented by
two spaces per level, `": "` after each key, and `[]` and `{}` for empty containers.

Strings escape the double quote, the backslash, and the control characters: backspace,
form feed, line feed, carriage return and tab by letter, the others as `\u00xx` in lower
case.  Every other character is written as itself.
-/
namespace Gql

/-- A JSON value whose objects keep their fields in order.  Numbers here are counts and
offsets, so they are natural numbers. -/
inductive Json
  | null
  | bool (b : Bool)
  | num (n : Nat)
  | str (s : String)
  | arr (items : List Json)
  | obj (fields : List (String × Json))
deriving Repr, Inhabited

namespace Json

def optStr : Option String → Json
  | some s => .str s
  | none => .null

def optNum : Option Nat → Json
  | some n => .num n
  | none => .null

def escapeChar (c : Char) : String :=
  if c = '"' then "\\\""
  else if c = '\\' then "\\\\"
  else if c = '\x08' then "\\b"
  else if c = '\x0c' then "\\f"
  else if c = '\n' then "\\n"
  else if c = '\r' then "\\r"
  else if c = '\t' then "\\t"
  else if c.toNat < 0x20 then "\\u" ++ Text.hexLower 4 c.toNat
  else c.toString

def quote (s : String) : String :=
  "\"" ++ String.join (s.toList.map escapeChar) ++ "\""

def scalarText : Json → String
  | .null => "null"
  | .bool b => if b then "true" else "false"
  | .num n => toString n
  | .str s => quote s
  | _ => ""

mutual

def compact : Json → String
  | .arr items => "[" ++ compactItems items ++ "]"
  | .obj fields => "\x7b" ++ compactFields fields ++ "\x7d"
  | v => scalarText v

def compactItems : List Json → String
  | [] => ""
  | [x] => compact x
  | x :: xs => compact x ++ "," ++ compactItems xs

def compactFields : List (String × Json) → String
  | [] => ""
  | [(k, v)] => quote k ++ ":" ++ compact v
  | (k, v) :: rest => quote k ++ ":" ++ compact v ++ "," ++ compactFields rest

end

def indent (level : Nat) : String := String.ofList (List.replicate (2 * level) ' ')

mutual

/-- The value in pretty layout, its inner lines indented for nesting level `level`. -/
def pretty (level : Nat) : Json → String
  | .arr [] => "[]"
  | .arr items => "[\n" ++ prettyItems (level + 1) items ++ "\n" ++ indent level ++ "]"
  | .obj [] => "\x7b\x7d"
  | .obj fields => "\x7b\n" ++ prettyFields (level + 1) fields ++ "\n" ++ indent level ++ "\x7d"
  | v => scalarText v

def prettyItems (level : Nat) : List Json → String
  | [] => ""
  | [x] => indent level ++ pretty level x
  | x :: xs => indent level ++ pretty level x ++ ",\n" ++ prettyItems level xs

def prettyFields (level : Nat) : List (String × Json) → String
  | [] => ""
  | [(k, v)] => indent level ++ quote k ++ ": " ++ pretty level v
  | (k, v) :: rest =>
    indent level ++ quote k ++ ": " ++ pretty level v ++ ",\n" ++ prettyFields level rest

end

def render (asPretty : Bool) (v : Json) : String :=
  if asPretty then pretty 0 v else compact v

end Json

end Gql
