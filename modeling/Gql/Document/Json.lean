import Gql.Document.Basic
import Gql.Json
/-!
# Documents as JSON

The JSON form of a document names every node's kind and fields as the GraphQL
specification does, fields in a fixed order.  A value is `{"kind": K, "value": v}` with
numbers kept as their lexemes, `null` as `{"kind": "Null"}` alone, and object fields as
`{"name", "value"}` pairs in the order written.
-/
namespace Gql

mutual

def Value.toJson : Value → Json
  | .variable n => .obj [("kind", .str "Variable"), ("value", .str n)]
  | .int s => .obj [("kind", .str "Int"), ("value", .str s)]
  | .float s => .obj [("kind", .str "Float"), ("value", .str s)]
  | .string s => .obj [("kind", .str "String"), ("value", .str s)]
  | .blockString s => .obj [("kind", .str "BlockString"), ("value", .str s)]
  | .boolean b => .obj [("kind", .str "Boolean"), ("value", .bool b)]
  | .null => .obj [("kind", .str "Null")]
  | .enum s => .obj [("kind", .str "Enum"), ("value", .str s)]
  | .list items => .obj [("kind", .str "List"), ("value", .arr (Value.itemsToJson items))]
  | .object fields => .obj [("kind", .str "Object"), ("value", .arr (Value.fieldsToJson fields))]

def Value.itemsToJson : List Value → List Json
  | [] => []
  | v :: vs => v.toJson :: Value.itemsToJson vs

def Value.fieldsToJson : List (String × Value) → List Json
  | [] => []
  | (n, v) :: rest => .obj [("name", .str n), ("value", v.toJson)] :: Value.fieldsToJson rest

end

def Argument.toJson (a : Argument) : Json := .obj [("name", .str a.name), ("value", a.value.toJson)]

def Directive.toJson (d : Directive) : Json :=
  .obj [("name", .str d.name), ("arguments", .arr (d.arguments.map Argument.toJson))]

def Directive.listToJson (ds : List Directive) : Json := .arr (ds.map Directive.toJson)

/-- `{"kind": "Named", "name", "non_null"}` or `{"kind": "List", "elem", "non_null"}`. -/
def TypeRef.toJson : TypeRef → Json
  | .named n nonNull => .obj [("kind", .str "Named"), ("name", .str n), ("non_null", .bool nonNull)]
  | .list e nonNull => .obj [("kind", .str "List"), ("elem", e.toJson), ("non_null", .bool nonNull)]

mutual

def Selection.toJson : Selection → Json
  | .field key name args dirs sub =>
    .obj [("kind", .str "Field"), ("alias", .str key), ("name", .str name),
      ("arguments", .arr (args.map Argument.toJson)), ("directives", Directive.listToJson dirs),
      ("selection_set", Selection.subselectionToJson sub)]
  | .fragmentSpread name dirs =>
    .obj [("kind", .str "FragmentSpread"), ("name", .str name),
      ("directives", Directive.listToJson dirs)]
  | .inlineFragment cond dirs sels =>
    .obj [("kind", .str "InlineFragment"), ("type_condition", Json.optStr cond),
      ("directives", Directive.listToJson dirs), ("selection_set", .arr (Selection.listToJson sels))]

def Selection.subselectionToJson : Option (List Selection) → Json
  | some sels => .arr (Selection.listToJson sels)
  | none => .null

def Selection.listToJson : List Selection → List Json
  | [] => []
  | s :: rest => s.toJson :: Selection.listToJson rest

end

def OperationKind.tag : OperationKind → String
  | .query => "Query"
  | .mutation => "Mutation"
  | .subscription => "Subscription"

/-- `{"variable", "var_type", "directives", "default_value"}`. -/
def VariableDefinition.toJson (v : VariableDefinition) : Json :=
  .obj [("variable", .str v.name), ("var_type", v.varType.toJson),
    ("directives", Directive.listToJson v.directives),
    ("default_value", match v.defaultValue with
      | some d => d.toJson
      | none => .null)]

/-- `{"operation_type", "name", "variable_definitions", "directives", "selection_set"}`. -/
def Operation.toJson (o : Operation) : Json :=
  .obj [("operation_type", .str o.kind.tag), ("name", Json.optStr o.name),
    ("variable_definitions", .arr (o.variableDefinitions.map VariableDefinition.toJson)),
    ("directives", Directive.listToJson o.directives),
    ("selection_set", .arr (Selection.listToJson o.selectionSet))]

def Fragment.toJson (f : Fragment) : Json :=
  .obj [("name", .str f.name), ("type_condition", .str f.typeCondition),
    ("directives", Directive.listToJson f.directives),
    ("selection_set", .arr (Selection.listToJson f.selectionSet))]

def Document.toJson (d : Document) : Json :=
  .obj [("operations", .arr (d.operations.map Operation.toJson)),
    ("fragments", .arr (d.fragments.map Fragment.toJson))]

end Gql
