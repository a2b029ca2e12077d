import Gql.Token.Fault
/-!
# Diagnostics

A `Diagnostic` is what reading a document reports when it stops: the message, the span
it points at, the kind of fault, and notes.  A lexical fault becomes a diagnostic with the
fault's own message and notes; the other faults come from the grammar.
-/
namespace Gql

inductive SyntaxFault
  | lexical (fault : LexFault)
  | unexpectedToken (expected : List String) (found : String)
  | unexpectedEnd (expected : List String)
  | emptyConstruct (construct : String)
  | reservedName (name : String)
  | variableNotAllowed (context : String)
  | nestingTooDeep (limit : Nat)
deriving Repr, DecidableEq

def SyntaxFault.display : SyntaxFault → String
  | .lexical f => "lexer error: " ++ f.message
  | .unexpectedToken _ found => "unexpected token: `" ++ found ++ "`"
  | .unexpectedEnd _ => "unexpected end of input"
  | .emptyConstruct c => "empty " ++ c
  | .reservedName n => "reserved name: `" ++ n ++ "`"
  | .variableNotAllowed c => "variable not allowed in " ++ c
  | .nestingTooDeep limit => "nesting deeper than " ++ toString limit ++ " levels"

/-- A fault of a document: its message, where it lies, its kind, and its notes. -/
structure Diagnostic where
  message : String
  span : Span
  fault : SyntaxFault
  notes : List Note := []
deriving Repr, DecidableEq

namespace Diagnostic

def ofLex (e : LexError) : Diagnostic := ⟨e.message, e.span, .lexical e.fault, e.notes⟩

/-- Whether the fault lies in the tokens rather than in the grammar. -/
def isLexical (d : Diagnostic) : Bool :=
  match d.fault with
  | .lexical _ => true
  | _ => false

def addNote (d : Diagnostic) (n : Note) : Diagnostic := { d with notes := d.notes ++ [n] }

end Diagnostic

end Gql
