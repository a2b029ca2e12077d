import Gql.Document.Basic
/-!
# Walking a document

A walk meets the nodes of a document in pre-order: operations, then fragments; within an
operation its variable definitions (each with its type, default value and directives), its
directives, then its selections; within a selection its directives, then a field's
argument values, then the selections inside it.  A directive comes before the values of its
arguments, and a value before the values inside it.

`Walk` gathers what the walk meets, one list per sort of node, each in the order met.
-/
namespace Gql

/-- The nodes of each sort that a walk meets, in the order met. -/
structure Walk where
  variableDefinitions : List VariableDefinition := []
  selections : List Selection := []
  fields : List Selection := []
  directives : List Directive := []
  values : List Value := []
  types : List TypeRef := []

instance : Append Walk where
  append a b :=
    ⟨a.variableDefinitions ++ b.variableDefinitions, a.selections ++ b.selections, a.fields ++ b.fields,
      a.directives ++ b.directives, a.values ++ b.values, a.types ++ b.types⟩

def Walk.concat (ws : List Walk) : Walk := ws.foldr (· ++ ·) {}

mutual

/-- A value and the values inside it, in pre-order. -/
def Value.preorder : Value → List Value
  | .list items => .list items :: Value.preorderItems items
  | .object fields => .object fields :: Value.preorderFields fields
  | v => [v]

def Value.preorderItems : List Value → List Value
  | [] => []
  | v :: vs => v.preorder ++ Value.preorderItems vs

def Value.preorderFields : List (String × Value) → List Value
  | [] => []
  | (_, v) :: rest => v.preorder ++ Value.preorderFields rest

end

def TypeRef.preorder : TypeRef → List TypeRef
  | .named n b => [.named n b]
  | .list e b => .list e b :: e.preorder

def Argument.preorder (args : List Argument) : List Value := args.flatMap (·.value.preorder)

def Directive.walk (d : Directive) : Walk := { directives := [d], values := Argument.preorder d.arguments }

def Directive.walkList (ds : List Directive) : Walk := Walk.concat (ds.map Directive.walk)

mutual

def Selection.walk : Selection → Walk
  | .field key name args dirs sub =>
    { selections := [.field key name args dirs sub], fields := [.field key name args dirs sub] } ++
      Directive.walkList dirs ++ { values := Argument.preorder args } ++ Selection.walkSub sub
  | .fragmentSpread name dirs =>
    { selections := [.fragmentSpread name dirs] } ++ Directive.walkList dirs
  | .inlineFragment cond dirs sels =>
    { selections := [.inlineFragment cond dirs sels] } ++ Directive.walkList dirs ++
      Selection.walkList sels

def Selection.walkSub : Option (List Selection) → Walk
  | some sels => Selection.walkList sels
  | none => {}

def Selection.walkList : List Selection → Walk
  | [] => {}
  | s :: rest => s.walk ++ Selection.walkList rest

end

def VariableDefinition.walk (v : VariableDefinition) : Walk :=
  { variableDefinitions := [v], types := v.varType.preorder,
    values := (v.defaultValue.map Value.preorder).getD [] } ++ Directive.walkList v.directives

def Operation.walk (o : Operation) : Walk :=
  Walk.concat (o.variableDefinitions.map VariableDefinition.walk) ++ Directive.walkList o.directives ++
    Selection.walkList o.selectionSet

def Fragment.walk (f : Fragment) : Walk :=
  Directive.walkList f.directives ++ Selection.walkList f.selectionSet

/-- The whole document: operations, then fragments. -/
def Document.walk (d : Document) : Walk :=
  Walk.concat (d.operations.map Operation.walk) ++ Walk.concat (d.fragments.map Fragment.walk)

end Gql
