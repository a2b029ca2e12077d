import Gql.Document.Basic
/-!
# Looking things up in a document

Operations are found by name, or, when no name is asked for, the one operation of a
document that has exactly one; fragments, arguments and object fields are found by name,
the first of that name winning.  The small views of values and types that diagnostics and
tools use stand here too.
-/
namespace Gql

namespace Document

/-- The position of the operation named `name`, the first of that name; without a name,
the position of the only operation, if there is exactly one. -/
def findOperation? (d : Document) : Option String → Option Nat
  | some n => d.operations.findIdx? (·.name == some n)
  | none => if d.operations.length = 1 then some 0 else none

def findFragment? (d : Document) (name : String) : Option Nat :=
  d.fragments.findIdx? (·.name == name)

def operation? (d : Document) (name : Option String) : Option Operation :=
  (d.findOperation? name).bind (d.operations[·]?)

def fragment? (d : Document) (name : String) : Option Fragment :=
  (d.findFragment? name).bind (d.fragments[·]?)

end Document

def Argument.find? (args : List Argument) (name : String) : Option Value :=
  (args.find? (·.name == name)).map (·.value)

namespace Value

def kindTag : Value → String
  | .variable _ => "Variable"
  | .int _ => "Int"
  | .float _ => "Float"
  | .string _ => "String"
  | .blockString _ => "BlockString"
  | .boolean _ => "Boolean"
  | .null => "Null"
  | .enum _ => "Enum"
  | .list _ => "List"
  | .object _ => "Object"

/-- The text of a scalar: the variable's name, the lexeme, the string's value, the enum's
name, or `true`, `false`, `null`; lists and objects have none. -/
def raw? : Value → Option String
  | .variable s | .int s | .float s | .string s | .blockString s | .enum s => some s
  | .boolean b => some (if b then "true" else "false")
  | .null => some "null"
  | .list _ | .object _ => none

def children : Value → List Value
  | .list items => items
  | .object fields => fields.map (·.2)
  | _ => []

def getField? : Value → String → Option Value
  | .object fields, name => (fields.find? (·.1 == name)).map (·.2)
  | _, _ => none

def asBool? : Value → Option Bool
  | .boolean b => some b
  | _ => none

def asVariable? : Value → Option String
  | .variable n => some n
  | _ => none

def listLength? : Value → Option Nat
  | .list items => some items.length
  | _ => none

def objectLength? : Value → Option Nat
  | .object fields => some fields.length
  | _ => none

end Value

namespace TypeRef

def name? : TypeRef → Option String
  | .named n _ => some n
  | .list _ _ => none

def elem? : TypeRef → Option TypeRef
  | .named _ _ => none
  | .list e _ => some e

def isNonNull : TypeRef → Bool
  | .named _ b | .list _ b => b

/-- The name at the bottom of any nesting of lists. -/
def innermostName : TypeRef → String
  | .named n _ => n
  | .list e _ => e.innermostName

end TypeRef

namespace Selection

def directives : Selection → List Directive
  | .field _ _ _ ds _ | .fragmentSpread _ ds | .inlineFragment _ ds _ => ds

def isField : Selection → Bool
  | .field .. => true
  | _ => false

end Selection

end Gql
