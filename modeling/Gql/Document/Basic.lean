/-!
# Query documents

The syntax tree of an executable GraphQL document: operations (queries, mutations,
subscriptions) and fragments, their selections, arguments, directives, values,
variable definitions and type references.

Scalars keep their text: numbers are their lexemes, strings their decoded values.  A
field always has an alias; without one written it equals the field's name.
-/
namespace Gql

/-- An input value; an object keeps its fields in the order written, repeated names kept. -/
inductive Value
  | variable (name : String)
  | int (lexeme : String)
  | float (lexeme : String)
  | string (value : String)
  | blockString (value : String)
  | boolean (b : Bool)
  | null
  | enum (name : String)
  | list (items : List Value)
  | object (fields : List (String × Value))
deriving Repr, Inhabited

structure Argument where
  name : String
  value : Value
deriving Repr, Inhabited

structure Directive where
  name : String
  arguments : List Argument
deriving Repr, Inhabited

/-- The type of a variable: a named type or a list of a type, either possibly non-null. -/
inductive TypeRef
  | named (name : String) (nonNull : Bool)
  | list (elem : TypeRef) (nonNull : Bool)
deriving Repr, Inhabited, DecidableEq

/-- One selection of a selection set: a field under its response key, the use `...Name` of a
named fragment, or a fragment written in place, whose type condition may be left out. -/
inductive Selection
  | field (key name : String) (arguments : List Argument) (directives : List Directive)
      (selectionSet : Option (List Selection))
  | fragmentSpread (name : String) (directives : List Directive)
  | inlineFragment (typeCondition : Option String) (directives : List Directive)
      (selectionSet : List Selection)
deriving Repr, Inhabited

inductive OperationKind
  | query
  | mutation
  | subscription
deriving Repr, Inhabited, DecidableEq

structure VariableDefinition where
  name : String
  varType : TypeRef
  directives : List Directive
  defaultValue : Option Value
deriving Repr, Inhabited

structure Operation where
  kind : OperationKind
  name : Option String
  variableDefinitions : List VariableDefinition
  directives : List Directive
  selectionSet : List Selection
deriving Repr, Inhabited

structure Fragment where
  name : String
  typeCondition : String
  directives : List Directive
  selectionSet : List Selection
deriving Repr, Inhabited

/-- A document: its operations and its fragments, each in the order written. -/
structure Document where
  operations : List Operation := []
  fragments : List Fragment := []
deriving Repr, Inhabited

namespace OperationKind

def keyword : OperationKind → String
  | .query => "query"
  | .mutation => "mutation"
  | .subscription => "subscription"

def ofKeyword? (w : String) : Option OperationKind :=
  if w = "query" then some .query
  else if w = "mutation" then some .mutation
  else if w = "subscription" then some .subscription
  else none

end OperationKind

/-- An operation is written in short form, a bare selection set, when it is a query with
no name, no variables and no directives. -/
def Operation.isShorthand (o : Operation) : Bool :=
  o.kind == .query && o.name.isNone && o.variableDefinitions.isEmpty && o.directives.isEmpty

namespace Document

def addOperation (d : Document) (o : Operation) : Document :=
  { d with operations := d.operations ++ [o] }

def addFragment (d : Document) (f : Fragment) : Document :=
  { d with fragments := d.fragments ++ [f] }

def definitionCount (d : Document) : Nat := d.operations.length + d.fragments.length

end Document

end Gql
