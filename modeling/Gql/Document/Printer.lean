import Gql.Document.Basic
import Gql.Text.Characters
/-!
# Canonical text of a document

Every node of a document is written back as GraphQL text in one canonical layout:
definitions one per line, operations before fragments; a selection set as `{ a b }`;
arguments as `(a: 1, b: 2)`; directives each after a blank; lists as `[1, 2]` and objects
as `{a: 1}`.  A query with no name, variables or directives is written in short form, as
its selection set alone, and an alias is written only when it differs from the name.

Strings are written between double quotes with the quote, the backslash and the control
characters escaped; block strings between triple quotes, with an inner triple quote
escaped and line breaks put where the delimiters would otherwise run into the value.
-/
namespace Gql

namespace Text

def escapeInString (c : Char) : String :=
  if c = '"' then "\\\""
  else if c = '\\' then "\\\\"
  else if c = '\n' then "\\n"
  else if c = '\r' then "\\r"
  else if c = '\t' then "\\t"
  else if c = '\x08' then "\\b"
  else if c = '\x0c' then "\\f"
  else if c.toNat < 0x20 then "\\u" ++ hexUpper 4 c.toNat
  else c.toString

def stringLiteral (s : String) : String :=
  "\"" ++ String.join (s.toList.map escapeInString) ++ "\""

/-- Writes every `"""` of a block string's value as `\"""`, scanning left to right. -/
def escapeDelimiters : List Char → List Char
  | '"' :: '"' :: '"' :: r => '\\' :: '"' :: '"' :: '"' :: escapeDelimiters r
  | c :: r => c :: escapeDelimiters r
  | [] => []

/-- A block string value as a triple-quoted literal: a line break after the opening
delimiter when the value has several lines, and one before the closing delimiter when the
value ends with a quote or a backslash. -/
def blockLiteral (s : String) : String :=
  let cs := s.toList
  let lead := if cs.contains '\n' then "\n" else ""
  let trail := match cs.getLast? with
    | some '"' | some '\\' => "\n"
    | _ => ""
  "\"\"\"" ++ lead ++ String.ofList (escapeDelimiters cs) ++ trail ++ "\"\"\""

end Text

mutual

def Value.render : Value → String
  | .variable n => "$" ++ n
  | .int s => s
  | .float s => s
  | .string s => Text.stringLiteral s
  | .blockString s => Text.blockLiteral s
  | .boolean b => if b then "true" else "false"
  | .null => "null"
  | .enum s => s
  | .list items => "[" ++ Value.renderItems items ++ "]"
  | .object fields => "\x7b" ++ Value.renderFields fields ++ "\x7d"

def Value.renderItems : List Value → String
  | [] => ""
  | [v] => v.render
  | v :: vs => v.render ++ ", " ++ Value.renderItems vs

def Value.renderFields : List (String × Value) → String
  | [] => ""
  | [(n, v)] => n ++ ": " ++ v.render
  | (n, v) :: rest => n ++ ": " ++ v.render ++ ", " ++ Value.renderFields rest

end

def Argument.render (a : Argument) : String := a.name ++ ": " ++ a.value.render

def Argument.renderList : List Argument → String
  | [] => ""
  | args => "(" ++ ", ".intercalate (args.map Argument.render) ++ ")"

def Directive.render (d : Directive) : String := "@" ++ d.name ++ Argument.renderList d.arguments

def Directive.renderList (ds : List Directive) : String :=
  String.join (ds.map (" " ++ Directive.render ·))

def TypeRef.render : TypeRef → String
  | .named n nonNull => n ++ (if nonNull then "!" else "")
  | .list e nonNull => "[" ++ e.render ++ "]" ++ (if nonNull then "!" else "")

mutual

def Selection.render : Selection → String
  | .field key name args dirs sub =>
    (if key = name then "" else key ++ ": ") ++ name ++ Argument.renderList args ++
      Directive.renderList dirs ++ Selection.renderSubselection sub
  | .fragmentSpread name dirs => "..." ++ name ++ Directive.renderList dirs
  | .inlineFragment cond dirs sels =>
    "..." ++ (match cond with
      | some t => " on " ++ t
      | none => "") ++ Directive.renderList dirs ++ " " ++ Selection.renderSet sels

def Selection.renderSubselection : Option (List Selection) → String
  | some sels => " " ++ Selection.renderSet sels
  | none => ""

def Selection.renderSet (sels : List Selection) : String :=
  "\x7b" ++ Selection.renderItems sels ++ " \x7d"

def Selection.renderItems : List Selection → String
  | [] => ""
  | s :: rest => " " ++ s.render ++ Selection.renderItems rest

end

def VariableDefinition.render (v : VariableDefinition) : String :=
  "$" ++ v.name ++ ": " ++ v.varType.render ++
    (match v.defaultValue with
      | some d => " = " ++ d.render
      | none => "") ++ Directive.renderList v.directives

/-- An operation; in short form when `isShorthand` holds. -/
def Operation.render (o : Operation) : String :=
  if o.isShorthand then Selection.renderSet o.selectionSet
  else
    o.kind.keyword ++ (match o.name with
      | some n => " " ++ n
      | none => "") ++
    (match o.variableDefinitions with
      | [] => ""
      | vs => "(" ++ ", ".intercalate (vs.map VariableDefinition.render) ++ ")") ++
    Directive.renderList o.directives ++ " " ++ Selection.renderSet o.selectionSet

def Fragment.render (f : Fragment) : String :=
  "fragment " ++ f.name ++ " on " ++ f.typeCondition ++ Directive.renderList f.directives ++ " " ++
    Selection.renderSet f.selectionSet

/-- The canonical text of a document: its operations, then its fragments, one per line. -/
def Document.render (d : Document) : String :=
  "\n".intercalate (d.operations.map Operation.render ++ d.fragments.map Fragment.render)

end Gql
