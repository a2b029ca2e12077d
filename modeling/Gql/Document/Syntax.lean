import Gql.Document.Basic
import Gql.Diagnostic.Basic
import Gql.Token.Stream
/-!
# Reading a document from its tokens

The grammar of an executable document, read by recursive descent over the significant
tokens (comments left out) with one token of lookahead:

```text
Document       : Definition*
Definition     : Operation | Fragment
Operation      : SelectionSet | OperationKind Name? VariableDefs? Directives SelectionSet
VariableDefs   : ( VariableDef+ )
VariableDef    : $ Name : Type (= Value)? Directives
Fragment       : fragment FragmentName on Name Directives SelectionSet
SelectionSet   : { Selection+ }
Selection      : Field | ... FragmentName Directives | ... (on Name)? Directives SelectionSet
Field          : (Name :)? Name Arguments? Directives SelectionSet?
Arguments      : ( (Name : Value)+ )
Directives     : (@ Name Arguments?)*
Value          : $ Name | Int | Float | String | BlockString | Name | [ Value* ] | { (Name : Value)* }
Type           : (Name | [ Type ]) !?
```

A fragment name is any name but `on`.  Values in a variable's default and in the
directives of a variable definition may not hold variables.

Each rule takes the tokens and gives the node and the tokens after it, with the proof that
they are no more (`Taken'`) or fewer (`Taken`) than before; the first fault ends the read.
Values, selection sets and list types each open one level of nesting, and a 65th level is
a fault placed at the token where it would start.  Every loop and every recursive call
either takes a token or opens a level, which is why each rule ends.

The last section reads the same grammar with the nesting kept as a counter in the reader's
state, as the counter rises and falls on the way in and out of each level.
-/
namespace Gql

/-- How a message names a token: `<EOF>` for the end, `string` and the quoted value for a
string, `block string` for a block string, and the token's text in backticks otherwise. -/
def Token.describe (t : Token) : String :=
  match t.kind with
  | .eof => "<EOF>"
  | .string => "string " ++ Text.quote t.value
  | .blockString => "block string"
  | _ => "`" ++ t.value ++ "`"

namespace Diagnostic

/-- The fault of finding `t` where one of `expected` was needed; at the end of the input it
is an unexpected end. -/
def unexpected (t : Token) (expected : List String) : Diagnostic :=
  let wanted := match expected with
    | [one] => one
    | _ => "one of " ++ ", ".intercalate expected
  { message := "expected " ++ wanted ++ ", found " ++ t.describe
    span := t.span
    fault := if t.kind = .eof then .unexpectedEnd expected else .unexpectedToken expected t.describe }

def nestingLimit : Nat := 64

/-- The fault of opening one level more than `limit` allows, at the token `t` where it would
start. -/
def tooDeep (limit : Nat) (t : Token) : Diagnostic :=
  ⟨"maximum nesting depth exceeded", t.span, .nestingTooDeep limit, []⟩

def empty (item construct : String) (t : Token) : Diagnostic :=
  ⟨"expected at least one " ++ item ++ ", found " ++ t.describe, t.span, .emptyConstruct construct, []⟩

/-- The fault of reaching the end `t` inside a list opened by `opening` and closed by
`close`; a note points at the opening. -/
def unclosed (opening : Token) (close : TokenKind) (t : Token) : Diagnostic :=
  { message := "expected `" ++ close.display ++ "`, found <EOF>"
    span := t.span
    fault := .unexpectedEnd ["`" ++ close.display ++ "`"]
    notes := [Note.generalAt ("`" ++ opening.kind.display ++ "` opened here") opening.span] }

def reservedOn (t : Token) : Diagnostic :=
  { message := "fragment name cannot be `on`"
    span := t.span
    fault := .reservedName "on"
    notes := [Note.spec "https://spec.graphql.org/September2025/#FragmentName"] }

def variableForbidden (t : Token) (place : String) : Diagnostic :=
  ⟨"variables are not allowed in " ++ place, t.span, .variableNotAllowed place, []⟩

def notDefinition (t : Token) : Diagnostic :=
  { message := "unexpected " ++ t.describe
    span := t.span
    fault := .unexpectedToken ["`query`", "`mutation`", "`subscription`", "`fragment`", "`\x7b`"]
      t.describe
    notes := [Note.help ("a query document contains operations (`query`, `mutation`, " ++
      "`subscription` or a bare `\x7b ... \x7d`) and `fragment` definitions")] }

end Diagnostic

/-- Where a value stands, which decides whether it may hold variables. -/
inductive ValueContext
  | variablesAllowed
  | defaultValue
  | variableDirective
deriving Repr, DecidableEq

def ValueContext.forbidding? : ValueContext → Option String
  | .variablesAllowed => none
  | .defaultValue => some "variable default values"
  | .variableDirective => some "variable definition directives"

/-- What a read of a prefix of `ts` gives: the node and the tokens after it, strictly
fewer. -/
abbrev Taken (ts : List Token) (α : Type) := α × {r : List Token // r.length < ts.length}

theorem length_lt_cons (t : Token) (r : List Token) : r.length < (t :: r).length :=
  Nat.lt_succ_self _

abbrev Taken' (ts : List Token) (α : Type) := α × {r : List Token // r.length ≤ ts.length}

def TypeRef.markNonNull : TypeRef → TypeRef
  | .named n _ => .named n true
  | .list e _ => .list e true

namespace Syntax

variable (stop : Stop) (limit : Nat)

/-- The next token of `ts`: its first, or the end token when it is empty; a fault that ends
the tokens is reported when it is reached. -/
def peek : List Token → Except Diagnostic Token
  | t :: _ => .ok t
  | [] =>
    match stop with
    | .eof t => .ok t
    | .fault e => .error (.ofLex e)

def atEnd (expected : List String) : Diagnostic :=
  match stop with
  | .eof t => .unexpected t expected
  | .fault e => .ofLex e

def unclosedAtEnd (opening : Token) (close : TokenKind) : Diagnostic :=
  match stop with
  | .eof t => .unclosed opening close t
  | .fault e => .ofLex e

def tooDeepAt (ts : List Token) : Diagnostic :=
  match peek stop ts with
  | .ok t => .tooDeep limit t
  | .error e => e

def expect (k : TokenKind) : (ts : List Token) → Except Diagnostic (Taken ts Token)
  | [] => .error (atEnd stop ["`" ++ k.display ++ "`"])
  | t :: r =>
    if t.kind = k then .ok (t, ⟨r, length_lt_cons t r⟩)
    else .error (.unexpected t ["`" ++ k.display ++ "`"])

def expectName : (ts : List Token) → Except Diagnostic (Taken ts Token)
  | [] => .error (atEnd stop ["name"])
  | t :: r => if t.kind = .name then .ok (t, ⟨r, length_lt_cons t r⟩) else .error (.unexpected t ["name"])

def expectKeyword (w : String) : (ts : List Token) → Except Diagnostic (Taken ts Token)
  | [] => .error (atEnd stop ["`" ++ w ++ "`"])
  | t :: r => if t.isKeyword w then .ok (t, ⟨r, length_lt_cons t r⟩) else .error (.unexpected t ["`" ++ w ++ "`"])

/-- Takes the next token if `p` holds of it: the tokens after it, or none.  The end token
is never taken, and a fault that ends the tokens is reported. -/
def accept (p : Token → Bool) : (ts : List Token) →
    Except Diagnostic (Option {r : List Token // r.length < ts.length})
  | t :: r => .ok (if p t then some ⟨r, length_lt_cons t r⟩ else none)
  | [] =>
    match stop with
    | .eof _ => .ok none
    | .fault e => .error (.ofLex e)

def nextIs (k : TokenKind) (ts : List Token) : Except Diagnostic Bool :=
  (peek stop ts).map (·.kind = k)

def nonEmpty (close : TokenKind) (item construct : String) : List Token → Except Diagnostic Unit
  | t :: _ => if t.kind = close then .error (.empty item construct t) else .ok ()
  | [] => .ok ()

def fragmentName (ts : List Token) : Except Diagnostic (Taken ts String) := do
  let (t, rest) ← expectName stop ts
  if t.isKeyword "on" then .error (.reservedOn t) else pure (t.value, rest)

/-- Items read by `item` up to a token of kind `close`, which is taken; `opening` is the
token that opened the list. -/
def itemsUntil {α : Type} (close : TokenKind) (opening : Token)
    (item : (ts : List Token) → Except Diagnostic (Taken ts α)) (ts : List Token) : Except Diagnostic (Taken' ts (List α)) :=
  match ts with
  | [] => .error (unclosedAtEnd stop opening close)
  | t :: r =>
    if t.kind = close then .ok ([], ⟨r, Nat.le_of_lt (length_lt_cons t r)⟩)
    else if t.kind = .eof then .error (.unclosed opening close t)
    else do
      let (x, ⟨r1, h1⟩) ← item (t :: r)
      let (xs, ⟨r2, h2⟩) ← itemsUntil close opening item r1
      pure (x :: xs, ⟨r2, by omega⟩)
termination_by ts.length
decreasing_by all_goals (try simp only [List.length_cons] at *); all_goals omega

/-- A list that holds at least one item: `open`, items read by `item`, `close`.  The
`item` and `construct` words name what is missing when the list is empty. -/
def nonEmptyList {α : Type} (openKind close : TokenKind) (item construct : String)
    (read : (ts : List Token) → Except Diagnostic (Taken ts α)) (ts : List Token) : Except Diagnostic (Taken ts (List α)) := do
  let (opening, ⟨r1, h1⟩) ← expect stop openKind ts
  nonEmpty close item construct r1
  let (xs, ⟨r2, h2⟩) ← itemsUntil stop close opening read r1
  pure (xs, ⟨r2, by omega⟩)

mutual

def value (ctx : ValueContext) (d : Nat) (ts : List Token) : Except Diagnostic (Taken ts Value) :=
  if h : limit ≤ d then .error (tooDeepAt stop limit ts)
  else
    match ts with
    | [] => .error (atEnd stop ["value"])
    | t :: r =>
      match t.kind with
      | .bracketL => do
        let (items, ⟨r1, h1⟩) ← listItems ctx (d + 1) t r
        pure (.list items, ⟨r1, by have := length_lt_cons t r; omega⟩)
      | .braceL => do
        let (fields, ⟨r1, h1⟩) ← objectFields ctx (d + 1) t r
        pure (.object fields, ⟨r1, by have := length_lt_cons t r; omega⟩)
      | .dollar =>
        match ctx.forbidding? with
        | some place => .error (.variableForbidden t place)
        | none => do
          let (n, ⟨r1, h1⟩) ← expectName stop r
          pure (.variable n.value, ⟨r1, by have := length_lt_cons t r; omega⟩)
      | .int => .ok (.int t.value, ⟨r, length_lt_cons t r⟩)
      | .float => .ok (.float t.value, ⟨r, length_lt_cons t r⟩)
      | .string => .ok (.string t.value, ⟨r, length_lt_cons t r⟩)
      | .blockString => .ok (.blockString t.value, ⟨r, length_lt_cons t r⟩)
      | .name =>
        let v : Value :=
          if t.value = "true" then .boolean true
          else if t.value = "false" then .boolean false
          else if t.value = "null" then .null
          else .enum t.value
        .ok (v, ⟨r, length_lt_cons t r⟩)
      | _ => .error (.unexpected t ["value"])
termination_by (limit - d, ts.length, 0)
decreasing_by all_goals (try simp only [List.length_cons] at *); all_goals decreasing_tactic

def listItems (ctx : ValueContext) (d : Nat) (opening : Token) (ts : List Token) :
    Except Diagnostic (Taken' ts (List Value)) :=
  match ts with
  | [] => .error (unclosedAtEnd stop opening .bracketR)
  | t :: r =>
    if t.kind = .bracketR then .ok ([], ⟨r, Nat.le_of_lt (length_lt_cons t r)⟩)
    else if t.kind = .eof then .error (.unclosed opening .bracketR t)
    else do
      let (v, ⟨r1, h1⟩) ← value ctx d (t :: r)
      let (vs, ⟨r2, h2⟩) ← listItems ctx d opening r1
      pure (v :: vs, ⟨r2, by omega⟩)
termination_by (limit - d, ts.length, 1)
decreasing_by all_goals (try simp only [List.length_cons] at *); all_goals decreasing_tactic

def objectFields (ctx : ValueContext) (d : Nat) (opening : Token) (ts : List Token) :
    Except Diagnostic (Taken' ts (List (String × Value))) :=
  match ts with
  | [] => .error (unclosedAtEnd stop opening .braceR)
  | t :: r =>
    if t.kind = .braceR then .ok ([], ⟨r, Nat.le_of_lt (length_lt_cons t r)⟩)
    else if t.kind = .eof then .error (.unclosed opening .braceR t)
    else do
      let (n, ⟨r1, h1⟩) ← expectName stop (t :: r)
      let (_, ⟨r2, h2⟩) ← expect stop .colon r1
      let (v, ⟨r3, h3⟩) ← value ctx d r2
      let (fs, ⟨r4, h4⟩) ← objectFields ctx d opening r3
      pure ((n.value, v) :: fs, ⟨r4, by omega⟩)
termination_by (limit - d, ts.length, 1)
decreasing_by all_goals (try simp only [List.length_cons] at *); all_goals decreasing_tactic

end

def typeRef (d : Nat) (ts : List Token) : Except Diagnostic (Taken ts TypeRef) :=
  if h : limit ≤ d then .error (tooDeepAt stop limit ts)
  else
    let bare : Except Diagnostic (Taken ts TypeRef) :=
      match ts with
      | [] => .error (atEnd stop ["type"])
      | t :: r =>
        match t.kind with
        | .name => .ok (.named t.value false, ⟨r, length_lt_cons t r⟩)
        | .bracketL => do
          let (e, ⟨r1, h1⟩) ← typeRef (d + 1) r
          let (_, ⟨r2, h2⟩) ← expect stop .bracketR r1
          pure (.list e false, ⟨r2, by have := length_lt_cons t r; omega⟩)
        | _ => .error (.unexpected t ["type"])
    do
      let (ty, ⟨r1, h1⟩) ← bare
      match ← accept stop (·.kind = .bang) r1 with
      | some ⟨r2, h2⟩ => pure (ty.markNonNull, ⟨r2, by omega⟩)
      | none => pure (ty, ⟨r1, h1⟩)
termination_by limit - d

def argument (ctx : ValueContext) (d : Nat) (ts : List Token) : Except Diagnostic (Taken ts Argument) := do
  let (n, ⟨r1, h1⟩) ← expectName stop ts
  let (_, ⟨r2, h2⟩) ← expect stop .colon r1
  let (v, ⟨r3, h3⟩) ← value stop limit ctx d r2
  pure (⟨n.value, v⟩, ⟨r3, by omega⟩)

def arguments (ctx : ValueContext) (d : Nat) (ts : List Token) : Except Diagnostic (Taken' ts (List Argument)) := do
  if ← nextIs stop .parenL ts then
    let (args, ⟨r, h⟩) ← nonEmptyList stop .parenL .parenR "argument" "argument list" (argument stop limit ctx d) ts
    pure (args, ⟨r, by omega⟩)
  else pure ([], ⟨ts, Nat.le_refl _⟩)

def directives (ctx : ValueContext) (d : Nat) (ts : List Token) : Except Diagnostic (Taken' ts (List Directive)) := do
  match ← accept stop (·.kind = .atSign) ts with
  | none => pure ([], ⟨ts, Nat.le_refl _⟩)
  | some ⟨r1, h1⟩ =>
    let (n, ⟨r2, h2⟩) ← expectName stop r1
    let (args, ⟨r3, h3⟩) ← arguments stop limit ctx d r2
    let (ds, ⟨r4, h4⟩) ← directives ctx d r3
    pure (⟨n.value, args⟩ :: ds, ⟨r4, by omega⟩)
termination_by ts.length
decreasing_by all_goals omega

def typeCondition (ts : List Token) : Except Diagnostic (Taken' ts (Option String)) := do
  match ← accept stop (·.isKeyword "on") ts with
  | some ⟨r, h⟩ =>
    let (n, ⟨r', h'⟩) ← expectName stop r
    pure (some n.value, ⟨r', by omega⟩)
  | none => pure (none, ⟨ts, Nat.le_refl _⟩)

/-- The name of a field whose first name is `first`: the name after `:` when `first` is an
alias, and `first` itself otherwise. -/
def fieldName (first : Token) (ts : List Token) : Except Diagnostic (Taken' ts String) := do
  match ← accept stop (·.kind = .colon) ts with
  | some ⟨r, h⟩ =>
    let (n, ⟨r', h'⟩) ← expectName stop r
    pure (n.value, ⟨r', by omega⟩)
  | none => pure (first.value, ⟨ts, Nat.le_refl _⟩)

mutual

def selectionSet (d : Nat) (ts : List Token) : Except Diagnostic (Taken ts (List Selection)) :=
  if h : limit ≤ d then .error (tooDeepAt stop limit ts)
  else do
    let (opening, ⟨r1, h1⟩) ← expect stop .braceL ts
    nonEmpty .braceR "definition" "selection set" r1
    let (sels, ⟨r2, h2⟩) ← selections (d + 1) opening r1
    pure (sels, ⟨r2, by omega⟩)
termination_by (limit - d, ts.length, 2)

def subselection (d : Nat) (ts : List Token) : Except Diagnostic (Taken' ts (Option (List Selection))) := do
  if ← nextIs stop .braceL ts then
    let (sels, ⟨r, h⟩) ← selectionSet d ts
    pure (some sels, ⟨r, Nat.le_of_lt h⟩)
  else pure (none, ⟨ts, Nat.le_refl _⟩)
termination_by (limit - d, ts.length, 3)

def selections (d : Nat) (opening : Token) (ts : List Token) : Except Diagnostic (Taken' ts (List Selection)) :=
  match ts with
  | [] => .error (unclosedAtEnd stop opening .braceR)
  | t :: r =>
    if t.kind = .braceR then .ok ([], ⟨r, Nat.le_of_lt (length_lt_cons t r)⟩)
    else if t.kind = .eof then .error (.unclosed opening .braceR t)
    else do
      let (s, ⟨r1, h1⟩) ← selection d (t :: r)
      let (ss, ⟨r2, h2⟩) ← selections d opening r1
      pure (s :: ss, ⟨r2, by omega⟩)
termination_by (limit - d, ts.length, 1)
decreasing_by all_goals (try simp only [List.length_cons] at *); all_goals decreasing_tactic

def selection (d : Nat) (ts : List Token) : Except Diagnostic (Taken ts Selection) := do
  match ← accept stop (·.kind = .spread) ts with
  | some ⟨r1, h1⟩ =>
    let u ← peek stop r1
    if u.isKeyword "on" || u.kind = .atSign || u.kind = .braceL then
      let (cond, ⟨r2, h2⟩) ← typeCondition stop r1
      let (dirs, ⟨r3, h3⟩) ← directives stop limit .variablesAllowed d r2
      let (sels, ⟨r4, h4⟩) ← selectionSet d r3
      pure (.inlineFragment cond dirs sels, ⟨r4, by omega⟩)
    else
      let (n, ⟨r2, h2⟩) ← fragmentName stop r1
      let (dirs, ⟨r3, h3⟩) ← directives stop limit .variablesAllowed d r2
      pure (.fragmentSpread n dirs, ⟨r3, by omega⟩)
  | none =>
    let (first, ⟨r1, h1⟩) ← expectName stop ts
    let (name, ⟨r2, h2⟩) ← fieldName stop first r1
    let (args, ⟨r3, h3⟩) ← arguments stop limit .variablesAllowed d r2
    let (dirs, ⟨r4, h4⟩) ← directives stop limit .variablesAllowed d r3
    let (sub, ⟨r5, h5⟩) ← subselection d r4
    pure (.field first.value name args dirs sub, ⟨r5, by omega⟩)
termination_by (limit - d, ts.length, 0)

end

def defaultValue (ts : List Token) : Except Diagnostic (Taken' ts (Option Value)) := do
  match ← accept stop (·.kind = .equals) ts with
  | some ⟨r, h⟩ =>
    let (v, ⟨r', h'⟩) ← value stop limit .defaultValue 0 r
    pure (some v, ⟨r', by omega⟩)
  | none => pure (none, ⟨ts, Nat.le_refl _⟩)

def variableDefinition (ts : List Token) : Except Diagnostic (Taken ts VariableDefinition) := do
  let (_, ⟨r1, h1⟩) ← expect stop .dollar ts
  let (n, ⟨r2, h2⟩) ← expectName stop r1
  let (_, ⟨r3, h3⟩) ← expect stop .colon r2
  let (ty, ⟨r4, h4⟩) ← typeRef stop limit 0 r3
  let (dflt, ⟨r5, h5⟩) ← defaultValue stop limit r4
  let (dirs, ⟨r6, h6⟩) ← directives stop limit .variableDirective 0 r5
  pure (⟨n.value, ty, dirs, dflt⟩, ⟨r6, by omega⟩)

def operationName (ts : List Token) : Except Diagnostic (Taken' ts (Option String)) := do
  if ← nextIs stop .name ts then
    let (n, ⟨r, h⟩) ← expectName stop ts
    pure (some n.value, ⟨r, by omega⟩)
  else pure (none, ⟨ts, Nat.le_refl _⟩)

def variableDefinitions (ts : List Token) : Except Diagnostic (Taken' ts (List VariableDefinition)) := do
  if ← nextIs stop .parenL ts then
    let (vs, ⟨r, h⟩) ← nonEmptyList stop .parenL .parenR "variable definition" "variable definitions"
      (variableDefinition stop limit) ts
    pure (vs, ⟨r, by omega⟩)
  else pure ([], ⟨ts, Nat.le_refl _⟩)

def operation (ts : List Token) : Except Diagnostic (Taken ts Operation) := do
  if ← nextIs stop .braceL ts then
    let (sels, rest) ← selectionSet stop limit 0 ts
    pure (⟨.query, none, [], [], sels⟩, rest)
  else
    let (kw, ⟨r1, h1⟩) ← expectName stop ts
    let some kind := OperationKind.ofKeyword? kw.value
      | .error (.unexpected kw ["`query`", "`mutation`", "`subscription`"])
    let (name, ⟨r2, h2⟩) ← operationName stop r1
    let (vars, ⟨r3, h3⟩) ← variableDefinitions stop limit r2
    let (dirs, ⟨r4, h4⟩) ← directives stop limit .variablesAllowed 0 r3
    let (sels, ⟨r5, h5⟩) ← selectionSet stop limit 0 r4
    pure (⟨kind, name, vars, dirs, sels⟩, ⟨r5, by omega⟩)

def fragment (ts : List Token) : Except Diagnostic (Taken ts Fragment) := do
  let (_, ⟨r1, h1⟩) ← expectKeyword stop "fragment" ts
  let (n, ⟨r2, h2⟩) ← fragmentName stop r1
  let (_, ⟨r3, h3⟩) ← expectKeyword stop "on" r2
  let (cond, ⟨r4, h4⟩) ← expectName stop r3
  let (dirs, ⟨r5, h5⟩) ← directives stop limit .variablesAllowed 0 r4
  let (sels, ⟨r6, h6⟩) ← selectionSet stop limit 0 r5
  pure (⟨n, cond.value, dirs, sels⟩, ⟨r6, by omega⟩)

/-- Reads definitions into `doc` until the end: the document, and the fault that stopped
the read if one did.  The definitions read before a fault are kept. -/
def definitions (doc : Document) (ts : List Token) : Document × Option Diagnostic :=
  match peek stop ts with
  | .error e => (doc, some e)
  | .ok t =>
    if t.kind = .eof then (doc, none)
    else if t.isKeyword "fragment" then
      match fragment stop limit ts with
      | .error e => (doc, some e)
      | .ok (f, ⟨r, _⟩) => definitions (doc.addFragment f) r
    else if t.kind = .braceL || t.isKeyword "query" || t.isKeyword "mutation" ||
        t.isKeyword "subscription" then
      match operation stop limit ts with
      | .error e => (doc, some e)
      | .ok (o, ⟨r, _⟩) => definitions (doc.addOperation o) r
    else (doc, some (.notDefinition t))
termination_by ts.length
decreasing_by all_goals omega

end Syntax

structure Parsed where
  document : Document
  error : Option Diagnostic
deriving Repr

def Document.parse (text : String) : Parsed :=
  let (ts, stop) := (Lexer.ofString text).significant
  let (doc, err) := Syntax.definitions stop Diagnostic.nestingLimit {} ts
  ⟨doc, err⟩

/-!
## The nesting counter

The reader keeps one counter for values, selection sets and list types.  Entering one of
them raises the counter and then compares it with the limit, failing at the next token once
it is past; leaving one lowers the counter whatever the construct gave, so a failure on
entering is the one way out that leaves the counter raised.

The rules here are those of `Syntax` with this counter threaded through them as state in
place of the depth argument.  Each change of the counter is also written to a log of steps
that the reader itself never reads: it records the value each check saw and where, each exit
lowered, and each definition started at, for the statements about a whole read.
-/

/-- A change of the nesting counter, or a look at it: a definition starting with the counter
at `n`, a check that raised it to `n` on entering a construct at the tokens `rest`, or an
exit that lowered it from `n`. -/
inductive CounterStep
  | start (n : Nat)
  | check (n : Nat) (rest : List Token)
  | leave (n : Nat)
deriving Repr, DecidableEq

structure Counter where
  depth : Nat
  steps : List CounterStep
deriving Repr

namespace Counter

def raise (s : Counter) (ts : List Token) : Counter := ⟨s.depth + 1, s.steps ++ [.check (s.depth + 1) ts]⟩

def lower (s : Counter) : Counter := ⟨s.depth - 1, s.steps ++ [.leave s.depth]⟩

def begin (s : Counter) : Counter := ⟨s.depth, s.steps ++ [.start s.depth]⟩

end Counter

namespace Nesting

variable (stop : Stop) (limit : Nat)

def lift {α : Type} (x : Except Diagnostic α) : EStateM Diagnostic Counter α := fun s =>
  match x with
  | .ok a => .ok a s
  | .error e => .error e s

def enter (ts : List Token) : EStateM Diagnostic Counter Unit := fun s =>
  if limit < s.depth + 1 then .error (Syntax.tooDeepAt stop limit ts) (s.raise ts)
  else .ok () (s.raise ts)

/-- Runs `x`, then leaves the construct, on success and on failure alike. -/
def exiting {α : Type} (x : EStateM Diagnostic Counter α) : EStateM Diagnostic Counter α := fun s =>
  match x s with
  | .ok a s' => .ok a s'.lower
  | .error e s' => .error e s'.lower

def itemsUntil {α : Type} (close : TokenKind) (opening : Token)
    (item : (ts : List Token) → EStateM Diagnostic Counter (Taken ts α)) (ts : List Token) :
    EStateM Diagnostic Counter (Taken' ts (List α)) :=
  match ts with
  | [] => throw (Syntax.unclosedAtEnd stop opening close)
  | t :: r =>
    if t.kind = close then pure ([], ⟨r, Nat.le_of_lt (length_lt_cons t r)⟩)
    else if t.kind = .eof then throw (.unclosed opening close t)
    else do
      let (x, ⟨r1, h1⟩) ← item (t :: r)
      let (xs, ⟨r2, h2⟩) ← itemsUntil close opening item r1
      pure (x :: xs, ⟨r2, by omega⟩)
termination_by ts.length
decreasing_by omega

def nonEmptyList {α : Type} (openKind close : TokenKind) (item construct : String)
    (read : (ts : List Token) → EStateM Diagnostic Counter (Taken ts α)) (ts : List Token) :
    EStateM Diagnostic Counter (Taken ts (List α)) := do
  let (opening, ⟨r1, h1⟩) ← lift (Syntax.expect stop openKind ts)
  lift (Syntax.nonEmpty close item construct r1)
  let (xs, ⟨r2, h2⟩) ← itemsUntil stop close opening read r1
  pure (xs, ⟨r2, by omega⟩)

mutual

def value (ctx : ValueContext) (ts : List Token) : EStateM Diagnostic Counter (Taken ts Value) := do
  enter stop limit ts
  exiting (valueImpl ctx ts)
termination_by (ts.length, 1)

def valueImpl (ctx : ValueContext) (ts : List Token) : EStateM Diagnostic Counter (Taken ts Value) :=
  match ts with
  | [] => throw (Syntax.atEnd stop ["value"])
  | t :: r =>
    match t.kind with
    | .bracketL => do
      let (items, ⟨r1, h1⟩) ← listItems ctx t r
      pure (.list items, ⟨r1, by have := length_lt_cons t r; omega⟩)
    | .braceL => do
      let (fields, ⟨r1, h1⟩) ← objectFields ctx t r
      pure (.object fields, ⟨r1, by have := length_lt_cons t r; omega⟩)
    | .dollar =>
      match ctx.forbidding? with
      | some place => throw (.variableForbidden t place)
      | none => do
        let (n, ⟨r1, h1⟩) ← lift (Syntax.expectName stop r)
        pure (.variable n.value, ⟨r1, by have := length_lt_cons t r; omega⟩)
    | .int => pure (.int t.value, ⟨r, length_lt_cons t r⟩)
    | .float => pure (.float t.value, ⟨r, length_lt_cons t r⟩)
    | .string => pure (.string t.value, ⟨r, length_lt_cons t r⟩)
    | .blockString => pure (.blockString t.value, ⟨r, length_lt_cons t r⟩)
    | .name =>
      let v : Value :=
        if t.value = "true" then .boolean true
        else if t.value = "false" then .boolean false
        else if t.value = "null" then .null
        else .enum t.value
      pure (v, ⟨r, length_lt_cons t r⟩)
    | _ => throw (.unexpected t ["value"])
termination_by (ts.length, 0)

def listItems (ctx : ValueContext) (opening : Token) (ts : List Token) :
    EStateM Diagnostic Counter (Taken' ts (List Value)) :=
  match ts with
  | [] => throw (Syntax.unclosedAtEnd stop opening .bracketR)
  | t :: r =>
    if t.kind = .bracketR then pure ([], ⟨r, Nat.le_of_lt (length_lt_cons t r)⟩)
    else if t.kind = .eof then throw (.unclosed opening .bracketR t)
    else do
      let (v, ⟨r1, h1⟩) ← value ctx (t :: r)
      let (vs, ⟨r2, h2⟩) ← listItems ctx opening r1
      pure (v :: vs, ⟨r2, by omega⟩)
termination_by (ts.length, 2)
decreasing_by all_goals (try simp only [List.length_cons] at *); all_goals decreasing_tactic

def objectFields (ctx : ValueContext) (opening : Token) (ts : List Token) :
    EStateM Diagnostic Counter (Taken' ts (List (String × Value))) :=
  match ts with
  | [] => throw (Syntax.unclosedAtEnd stop opening .braceR)
  | t :: r =>
    if t.kind = .braceR then pure ([], ⟨r, Nat.le_of_lt (length_lt_cons t r)⟩)
    else if t.kind = .eof then throw (.unclosed opening .braceR t)
    else do
      let (n, ⟨r1, h1⟩) ← lift (Syntax.expectName stop (t :: r))
      let (_, ⟨r2, h2⟩) ← lift (Syntax.expect stop .colon r1)
      let (v, ⟨r3, h3⟩) ← value ctx r2
      let (fs, ⟨r4, h4⟩) ← objectFields ctx opening r3
      pure ((n.value, v) :: fs, ⟨r4, by omega⟩)
termination_by (ts.length, 2)
decreasing_by all_goals (try simp only [List.length_cons] at *); all_goals decreasing_tactic

end

mutual

def typeRef (ts : List Token) : EStateM Diagnostic Counter (Taken ts TypeRef) := do
  enter stop limit ts
  exiting (typeRefImpl ts)
termination_by (ts.length, 1)

def typeRefImpl (ts : List Token) : EStateM Diagnostic Counter (Taken ts TypeRef) :=
  let bare : EStateM Diagnostic Counter (Taken ts TypeRef) :=
    match ts with
    | [] => throw (Syntax.atEnd stop ["type"])
    | t :: r =>
      match t.kind with
      | .name => pure (.named t.value false, ⟨r, length_lt_cons t r⟩)
      | .bracketL => do
        let (e, ⟨r1, h1⟩) ← typeRef r
        let (_, ⟨r2, h2⟩) ← lift (Syntax.expect stop .bracketR r1)
        pure (.list e false, ⟨r2, by have := length_lt_cons t r; omega⟩)
      | _ => throw (.unexpected t ["type"])
  do
    let (ty, ⟨r1, h1⟩) ← bare
    match ← lift (Syntax.accept stop (·.kind = .bang) r1) with
    | some ⟨r2, h2⟩ => pure (ty.markNonNull, ⟨r2, by omega⟩)
    | none => pure (ty, ⟨r1, h1⟩)
termination_by (ts.length, 0)

end

def argument (ctx : ValueContext) (ts : List Token) : EStateM Diagnostic Counter (Taken ts Argument) := do
  let (n, ⟨r1, h1⟩) ← lift (Syntax.expectName stop ts)
  let (_, ⟨r2, h2⟩) ← lift (Syntax.expect stop .colon r1)
  let (v, ⟨r3, h3⟩) ← value stop limit ctx r2
  pure (⟨n.value, v⟩, ⟨r3, by omega⟩)

def arguments (ctx : ValueContext) (ts : List Token) :
    EStateM Diagnostic Counter (Taken' ts (List Argument)) := do
  if ← lift (Syntax.nextIs stop .parenL ts) then
    let (args, ⟨r, h⟩) ← nonEmptyList stop .parenL .parenR "argument" "argument list"
      (argument stop limit ctx) ts
    pure (args, ⟨r, by omega⟩)
  else pure ([], ⟨ts, Nat.le_refl _⟩)

def directives (ctx : ValueContext) (ts : List Token) :
    EStateM Diagnostic Counter (Taken' ts (List Directive)) := do
  match ← lift (Syntax.accept stop (·.kind = .atSign) ts) with
  | none => pure ([], ⟨ts, Nat.le_refl _⟩)
  | some ⟨r1, h1⟩ =>
    let (n, ⟨r2, h2⟩) ← lift (Syntax.expectName stop r1)
    let (args, ⟨r3, h3⟩) ← arguments stop limit ctx r2
    let (ds, ⟨r4, h4⟩) ← directives ctx r3
    pure (⟨n.value, args⟩ :: ds, ⟨r4, by omega⟩)
termination_by ts.length
decreasing_by omega

mutual

def selectionSet (ts : List Token) : EStateM Diagnostic Counter (Taken ts (List Selection)) := do
  enter stop limit ts
  exiting do
    let (opening, ⟨r1, h1⟩) ← lift (Syntax.expect stop .braceL ts)
    lift (Syntax.nonEmpty .braceR "definition" "selection set" r1)
    let (sels, ⟨r2, h2⟩) ← selections opening r1
    pure (sels, ⟨r2, by omega⟩)
termination_by (ts.length, 2)

def subselection (ts : List Token) :
    EStateM Diagnostic Counter (Taken' ts (Option (List Selection))) := do
  if ← lift (Syntax.nextIs stop .braceL ts) then
    let (sels, ⟨r, h⟩) ← selectionSet ts
    pure (some sels, ⟨r, Nat.le_of_lt h⟩)
  else pure (none, ⟨ts, Nat.le_refl _⟩)
termination_by (ts.length, 3)

def selections (opening : Token) (ts : List Token) :
    EStateM Diagnostic Counter (Taken' ts (List Selection)) :=
  match ts with
  | [] => throw (Syntax.unclosedAtEnd stop opening .braceR)
  | t :: r =>
    if t.kind = .braceR then pure ([], ⟨r, Nat.le_of_lt (length_lt_cons t r)⟩)
    else if t.kind = .eof then throw (.unclosed opening .braceR t)
    else do
      let (s, ⟨r1, h1⟩) ← selection (t :: r)
      let (ss, ⟨r2, h2⟩) ← selections opening r1
      pure (s :: ss, ⟨r2, by omega⟩)
termination_by (ts.length, 1)
decreasing_by all_goals (try simp only [List.length_cons] at *); all_goals decreasing_tactic

def selection (ts : List Token) : EStateM Diagnostic Counter (Taken ts Selection) := do
  match ← lift (Syntax.accept stop (·.kind = .spread) ts) with
  | some ⟨r1, h1⟩ =>
    let u ← lift (Syntax.peek stop r1)
    if u.isKeyword "on" || u.kind = .atSign || u.kind = .braceL then
      let (cond, ⟨r2, h2⟩) ← lift (Syntax.typeCondition stop r1)
      let (dirs, ⟨r3, h3⟩) ← directives stop limit .variablesAllowed r2
      let (sels, ⟨r4, h4⟩) ← selectionSet r3
      pure (.inlineFragment cond dirs sels, ⟨r4, by omega⟩)
    else
      let (n, ⟨r2, h2⟩) ← lift (Syntax.fragmentName stop r1)
      let (dirs, ⟨r3, h3⟩) ← directives stop limit .variablesAllowed r2
      pure (.fragmentSpread n dirs, ⟨r3, by omega⟩)
  | none =>
    let (first, ⟨r1, h1⟩) ← lift (Syntax.expectName stop ts)
    let (name, ⟨r2, h2⟩) ← lift (Syntax.fieldName stop first r1)
    let (args, ⟨r3, h3⟩) ← arguments stop limit .variablesAllowed r2
    let (dirs, ⟨r4, h4⟩) ← directives stop limit .variablesAllowed r3
    let (sub, ⟨r5, h5⟩) ← subselection r4
    pure (.field first.value name args dirs sub, ⟨r5, by omega⟩)
termination_by (ts.length, 0)

end

def defaultValue (ts : List Token) : EStateM Diagnostic Counter (Taken' ts (Option Value)) := do
  match ← lift (Syntax.accept stop (·.kind = .equals) ts) with
  | some ⟨r, h⟩ =>
    let (v, ⟨r', h'⟩) ← value stop limit .defaultValue r
    pure (some v, ⟨r', by omega⟩)
  | none => pure (none, ⟨ts, Nat.le_refl _⟩)

def variableDefinition (ts : List Token) : EStateM Diagnostic Counter (Taken ts VariableDefinition) := do
  let (_, ⟨r1, h1⟩) ← lift (Syntax.expect stop .dollar ts)
  let (n, ⟨r2, h2⟩) ← lift (Syntax.expectName stop r1)
  let (_, ⟨r3, h3⟩) ← lift (Syntax.expect stop .colon r2)
  let (ty, ⟨r4, h4⟩) ← typeRef stop limit r3
  let (dflt, ⟨r5, h5⟩) ← defaultValue stop limit r4
  let (dirs, ⟨r6, h6⟩) ← directives stop limit .variableDirective r5
  pure (⟨n.value, ty, dirs, dflt⟩, ⟨r6, by omega⟩)

def variableDefinitions (ts : List Token) :
    EStateM Diagnostic Counter (Taken' ts (List VariableDefinition)) := do
  if ← lift (Syntax.nextIs stop .parenL ts) then
    let (vs, ⟨r, h⟩) ← nonEmptyList stop .parenL .parenR "variable definition" "variable definitions"
      (variableDefinition stop limit) ts
    pure (vs, ⟨r, by omega⟩)
  else pure ([], ⟨ts, Nat.le_refl _⟩)

def operation (ts : List Token) : EStateM Diagnostic Counter (Taken ts Operation) := do
  if ← lift (Syntax.nextIs stop .braceL ts) then
    let (sels, rest) ← selectionSet stop limit ts
    pure (⟨.query, none, [], [], sels⟩, rest)
  else
    let (kw, ⟨r1, h1⟩) ← lift (Syntax.expectName stop ts)
    let some kind := OperationKind.ofKeyword? kw.value
      | throw (.unexpected kw ["`query`", "`mutation`", "`subscription`"])
    let (name, ⟨r2, h2⟩) ← lift (Syntax.operationName stop r1)
    let (vars, ⟨r3, h3⟩) ← variableDefinitions stop limit r2
    let (dirs, ⟨r4, h4⟩) ← directives stop limit .variablesAllowed r3
    let (sels, ⟨r5, h5⟩) ← selectionSet stop limit r4
    pure (⟨kind, name, vars, dirs, sels⟩, ⟨r5, by omega⟩)

def fragment (ts : List Token) : EStateM Diagnostic Counter (Taken ts Fragment) := do
  let (_, ⟨r1, h1⟩) ← lift (Syntax.expectKeyword stop "fragment" ts)
  let (n, ⟨r2, h2⟩) ← lift (Syntax.fragmentName stop r1)
  let (_, ⟨r3, h3⟩) ← lift (Syntax.expectKeyword stop "on" r2)
  let (cond, ⟨r4, h4⟩) ← lift (Syntax.expectName stop r3)
  let (dirs, ⟨r5, h5⟩) ← directives stop limit .variablesAllowed r4
  let (sels, ⟨r6, h6⟩) ← selectionSet stop limit r5
  pure (⟨n, cond.value, dirs, sels⟩, ⟨r6, by omega⟩)

/-- Reads definitions into `doc` until the end, noting the counter as each one starts: the
document, the fault that stopped the read if one did, and the counter after it. -/
def definitions (doc : Document) (ts : List Token) (s : Counter) :
    Document × Option Diagnostic × Counter :=
  match Syntax.peek stop ts with
  | .error e => (doc, some e, s)
  | .ok t =>
    if t.kind = .eof then (doc, none, s)
    else if t.isKeyword "fragment" then
      match fragment stop limit ts s.begin with
      | .error e s' => (doc, some e, s')
      | .ok (f, ⟨r, _⟩) s' => definitions (doc.addFragment f) r s'
    else if t.kind = .braceL || t.isKeyword "query" || t.isKeyword "mutation" ||
        t.isKeyword "subscription" then
      match operation stop limit ts s.begin with
      | .error e s' => (doc, some e, s')
      | .ok (o, ⟨r, _⟩) s' => definitions (doc.addOperation o) r s'
    else (doc, some (.notDefinition t), s)
termination_by ts.length
decreasing_by all_goals omega

end Nesting

/-- Reads the document that a text holds with the nesting counter as state: what the read
gives, and the counter it ends with. -/
def Document.parseCounting (text : String) : Parsed × Counter :=
  let (ts, stop) := (Lexer.ofString text).significant
  let (doc, err, s) := Nesting.definitions stop Diagnostic.nestingLimit {} ts ⟨0, []⟩
  (⟨doc, err⟩, s)

end Gql
