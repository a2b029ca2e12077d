import Gql.Document.Syntax
/-!
# Grammar — the executable documents, as relations on tokens

Each rule of the grammar of an executable document is an inductive relation between a list
of tokens and the node they spell, with one constructor per alternative.  A relation looks
only at the kinds and values of tokens, never at their spans, and reads the whole list it is
given: `IsValue lim ctx d ts v` says that `ts` is exactly the tokens of the value `v`.

```text
Document       : Definition*
Definition     : Operation | Fragment
Operation      : SelectionSet | OperationKind Name? VariableDefs? Directives SelectionSet
VariableDefs   : ( VariableDef+ )
VariableDef    : $ Name : Type (= Value)? Directives
Fragment       : fragment FragmentName on Name Directives SelectionSet
SelectionSet   : { Selection+ }
Selection      : Field | ... FragmentName Directives | ... (on Name)? Directives SelectionSet
Field          : (Name :)? Name Arguments? Directives SelectionSet?
Arguments      : ( (Name : Value)+ )
Directives     : (@ Name Arguments?)*
Value          : $ Name | Int | Float | String | BlockString | Name | [ Value* ] | { (Name : Value)* }
Type           : (Name | [ Type ]) !?
```

A fragment name is a name other than `on`; the names `true`, `false` and `null` are the
boolean and null values, every other name an enum value.  A variable may not stand in the
default value of a variable or in the arguments of a variable's directives (`ValueContext`).

Values, selection sets and list types nest: each of them at depth `d` needs `d < lim`, and
what it holds sits at depth `d + 1`.  Operations and fragments start at depth `0`, so `lim`
bounds how deep a document may nest; `IsDocument Diagnostic.nestingLimit` is the language the
reader accepts.
-/
namespace Gql

namespace Grammar

/-- Items one after another, each spelled by `item`. -/
inductive Seq {α : Type} (item : List Token → α → Prop) : List Token → List α → Prop
  | nil : Seq item [] []
  | cons {ts rest a as} : item ts a → Seq item rest as → Seq item (ts ++ rest) (a :: as)

variable (lim : Nat)

mutual

/-- The tokens of a value at depth `d` in context `ctx`. -/
inductive IsValue : ValueContext → Nat → List Token → Value → Prop
  | variable {ctx d} {dollar n : Token} : d < lim → ctx.forbidding? = none → dollar.kind = .dollar →
      n.kind = .name → IsValue ctx d [dollar, n] (.variable n.value)
  | int {ctx d} {t : Token} : d < lim → t.kind = .int → IsValue ctx d [t] (.int t.value)
  | float {ctx d} {t : Token} : d < lim → t.kind = .float → IsValue ctx d [t] (.float t.value)
  | string {ctx d} {t : Token} : d < lim → t.kind = .string → IsValue ctx d [t] (.string t.value)
  | blockString {ctx d} {t : Token} : d < lim → t.kind = .blockString →
      IsValue ctx d [t] (.blockString t.value)
  | boolean {ctx d} {t : Token} (b : Bool) : d < lim → t.kind = .name →
      t.value = (if b then "true" else "false") → IsValue ctx d [t] (.boolean b)
  | null {ctx d} {t : Token} : d < lim → t.kind = .name → t.value = "null" → IsValue ctx d [t] .null
  | enum {ctx d} {t : Token} : d < lim → t.kind = .name → t.value ≠ "true" → t.value ≠ "false" →
      t.value ≠ "null" → IsValue ctx d [t] (.enum t.value)
  | list {ctx d} {o c : Token} {ts vs} : d < lim → o.kind = .bracketL → c.kind = .bracketR →
      IsValues ctx (d + 1) ts vs → IsValue ctx d (o :: ts ++ [c]) (.list vs)
  | object {ctx d} {o c : Token} {ts fs} : d < lim → o.kind = .braceL → c.kind = .braceR →
      IsFields ctx (d + 1) ts fs → IsValue ctx d (o :: ts ++ [c]) (.object fs)

inductive IsValues : ValueContext → Nat → List Token → List Value → Prop
  | nil {ctx d} : IsValues ctx d [] []
  | cons {ctx d ts rest v vs} : IsValue ctx d ts v → IsValues ctx d rest vs →
      IsValues ctx d (ts ++ rest) (v :: vs)

inductive IsFields : ValueContext → Nat → List Token → List (String × Value) → Prop
  | nil {ctx d} : IsFields ctx d [] []
  | cons {ctx d} {n colon : Token} {ts rest v fs} : n.kind = .name → colon.kind = .colon →
      IsValue ctx d ts v → IsFields ctx d rest fs → IsFields ctx d (n :: colon :: ts ++ rest) ((n.value, v) :: fs)

end

inductive IsArgument : ValueContext → Nat → List Token → Argument → Prop
  | mk {ctx d} {n colon : Token} {ts v} : n.kind = .name → colon.kind = .colon → IsValue lim ctx d ts v →
      IsArgument ctx d (n :: colon :: ts) ⟨n.value, v⟩

inductive IsArguments : ValueContext → Nat → List Token → List Argument → Prop
  | none {ctx d} : IsArguments ctx d [] []
  | some {ctx d} {o c : Token} {ts args} : o.kind = .parenL → c.kind = .parenR →
      Seq (IsArgument lim ctx d) ts args → args ≠ [] → IsArguments ctx d (o :: ts ++ [c]) args

inductive IsDirective : ValueContext → Nat → List Token → Directive → Prop
  | mk {ctx d} {sign n : Token} {ts args} : sign.kind = .atSign → n.kind = .name →
      IsArguments lim ctx d ts args → IsDirective ctx d (sign :: n :: ts) ⟨n.value, args⟩

abbrev IsDirectives (ctx : ValueContext) (d : Nat) : List Token → List Directive → Prop :=
  Seq (IsDirective lim ctx d)

inductive IsBang : List Token → Bool → Prop
  | none : IsBang [] false
  | some {b : Token} : b.kind = .bang → IsBang [b] true

inductive IsType : Nat → List Token → TypeRef → Prop
  | named {d} {t : Token} {bang nonNull} : d < lim → t.kind = .name → IsBang bang nonNull →
      IsType d (t :: bang) (.named t.value nonNull)
  | list {d} {o c : Token} {ts e bang nonNull} : d < lim → o.kind = .bracketL → c.kind = .bracketR →
      IsType (d + 1) ts e → IsBang bang nonNull → IsType d (o :: ts ++ c :: bang) (.list e nonNull)

/-- How a field is named: `name`, whose response key is the name itself, or `alias: name`. -/
inductive IsFieldName : List Token → String → String → Prop
  | plain {n : Token} : n.kind = .name → IsFieldName [n] n.value n.value
  | aliased {a colon n : Token} : a.kind = .name → colon.kind = .colon → n.kind = .name →
      IsFieldName [a, colon, n] a.value n.value

inductive IsTypeCondition : List Token → Option String → Prop
  | none : IsTypeCondition [] none
  | some {on n : Token} : on.isKeyword "on" = true → n.kind = .name → IsTypeCondition [on, n] (some n.value)

mutual

inductive IsSelection : Nat → List Token → Selection → Prop
  | field {d tn ta td tss key name args dirs sub} : IsFieldName tn key name →
      IsArguments lim .variablesAllowed d ta args → IsDirectives lim .variablesAllowed d td dirs →
      IsSubselection d tss sub → IsSelection d (tn ++ ta ++ td ++ tss) (.field key name args dirs sub)
  | fragmentSpread {d} {s n : Token} {td dirs} : s.kind = .spread → n.kind = .name → n.value ≠ "on" →
      IsDirectives lim .variablesAllowed d td dirs → IsSelection d (s :: n :: td) (.fragmentSpread n.value dirs)
  | inlineFragment {d} {s : Token} {tc td ts cond dirs sels} : s.kind = .spread → IsTypeCondition tc cond →
      IsDirectives lim .variablesAllowed d td dirs → IsSelectionSet d ts sels →
      IsSelection d (s :: tc ++ td ++ ts) (.inlineFragment cond dirs sels)

inductive IsSubselection : Nat → List Token → Option (List Selection) → Prop
  | none {d} : IsSubselection d [] none
  | some {d ts sels} : IsSelectionSet d ts sels → IsSubselection d ts (some sels)

inductive IsSelectionSet : Nat → List Token → List Selection → Prop
  | mk {d} {o c : Token} {ts sels} : d < lim → o.kind = .braceL → c.kind = .braceR →
      IsSelections (d + 1) ts sels → sels ≠ [] → IsSelectionSet d (o :: ts ++ [c]) sels

inductive IsSelections : Nat → List Token → List Selection → Prop
  | nil {d} : IsSelections d [] []
  | cons {d ts rest s ss} : IsSelection d ts s → IsSelections d rest ss → IsSelections d (ts ++ rest) (s :: ss)

end

inductive IsDefault : List Token → Option Value → Prop
  | none : IsDefault [] none
  | some {eq : Token} {ts v} : eq.kind = .equals → IsValue lim .defaultValue 0 ts v → IsDefault (eq :: ts) (some v)

inductive IsVariableDefinition : List Token → VariableDefinition → Prop
  | mk {dollar n colon : Token} {tt td tds ty dflt dirs} : dollar.kind = .dollar → n.kind = .name →
      colon.kind = .colon → IsType lim 0 tt ty → IsDefault lim td dflt → IsDirectives lim .variableDirective 0 tds dirs →
      IsVariableDefinition (dollar :: n :: colon :: tt ++ td ++ tds) ⟨n.value, ty, dirs, dflt⟩

inductive IsVariables : List Token → List VariableDefinition → Prop
  | none : IsVariables [] []
  | some {o c : Token} {ts vs} : o.kind = .parenL → c.kind = .parenR → Seq (IsVariableDefinition lim) ts vs → vs ≠ [] →
      IsVariables (o :: ts ++ [c]) vs

inductive IsOperationName : List Token → Option String → Prop
  | none : IsOperationName [] none
  | some {n : Token} : n.kind = .name → IsOperationName [n] (some n.value)

/-- The tokens of an operation: a bare selection set, which is a query, or written out. -/
inductive IsOperation : List Token → Operation → Prop
  | shorthand {ts sels} : IsSelectionSet lim 0 ts sels → IsOperation ts ⟨.query, none, [], [], sels⟩
  | full {kw : Token} {kind tn tv td ts name vars dirs sels} : kw.kind = .name →
      OperationKind.ofKeyword? kw.value = some kind → IsOperationName tn name → IsVariables lim tv vars →
      IsDirectives lim .variablesAllowed 0 td dirs → IsSelectionSet lim 0 ts sels →
      IsOperation (kw :: tn ++ tv ++ td ++ ts) ⟨kind, name, vars, dirs, sels⟩

inductive IsFragment : List Token → Fragment → Prop
  | mk {frag n on cond : Token} {td ts dirs sels} : frag.isKeyword "fragment" = true → n.kind = .name →
      n.value ≠ "on" → on.isKeyword "on" = true → cond.kind = .name → IsDirectives lim .variablesAllowed 0 td dirs →
      IsSelectionSet lim 0 ts sels → IsFragment (frag :: n :: on :: cond :: td ++ ts) ⟨n.value, cond.value, dirs, sels⟩

/-- Definitions one after another: the operations and the fragments among them, each in the
order written. -/
inductive IsDefinitions : List Token → List Operation → List Fragment → Prop
  | nil : IsDefinitions [] [] []
  | operation {ts rest o os fs} : IsOperation lim ts o → IsDefinitions rest os fs →
      IsDefinitions (ts ++ rest) (o :: os) fs
  | fragment {ts rest f os fs} : IsFragment lim ts f → IsDefinitions rest os fs →
      IsDefinitions (ts ++ rest) os (f :: fs)

/-- The tokens of a document, nesting at most `lim` levels deep. -/
def IsDocument (ts : List Token) (doc : Document) : Prop :=
  IsDefinitions lim ts doc.operations doc.fragments

/-! ### First tokens

What a sentence of a rule starts with; the reader decides on these. -/

section First

variable {lim : Nat} {ctx : ValueContext} {d : Nat} {ts : List Token}

theorem IsValue.first {v : Value} (h : IsValue lim ctx d ts v) :
    ∃ t r, ts = t :: r ∧ t.kind ≠ .bracketR ∧ t.kind ≠ .eof := by
  cases h <;> exact ⟨_, _, rfl, by simp [*], by simp [*]⟩

theorem IsArgument.first {a : Argument} (h : IsArgument lim ctx d ts a) : ∃ t r, ts = t :: r ∧ t.kind = .name := by
  cases h
  exact ⟨_, _, rfl, by assumption⟩

theorem IsSelection.first {s : Selection} (h : IsSelection lim d ts s) :
    ∃ t r, ts = t :: r ∧ (t.kind = .name ∨ t.kind = .spread) := by
  cases h with
  | field hn =>
    cases hn <;> exact ⟨_, _, rfl, .inl (by assumption)⟩
  | fragmentSpread hs => exact ⟨_, _, rfl, .inr hs⟩
  | inlineFragment hs => exact ⟨_, _, rfl, .inr hs⟩

theorem IsVariableDefinition.first {vd : VariableDefinition} (h : IsVariableDefinition lim ts vd) :
    ∃ t r, ts = t :: r ∧ t.kind = .dollar := by
  cases h
  exact ⟨_, _, rfl, by assumption⟩

theorem IsArguments.lead {args : List Argument} (h : IsArguments lim ctx d ts args) :
    ∀ t ∈ ts.head?, t.kind = .parenL := by
  cases h <;> simp [*]

theorem IsDirectives.lead {dirs : List Directive} (h : IsDirectives lim ctx d ts dirs) :
    ∀ t ∈ ts.head?, t.kind = .atSign := by
  cases h with
  | nil => simp
  | cons hd _ => cases hd; simp [*]

theorem IsSelectionSet.lead {sels : List Selection} (h : IsSelectionSet lim d ts sels) :
    ∀ t ∈ ts.head?, t.kind = .braceL := by
  cases h; simp [*]

theorem IsSubselection.lead {sub : Option (List Selection)} (h : IsSubselection lim d ts sub) :
    ∀ t ∈ ts.head?, t.kind = .braceL := by
  cases h with
  | none => simp
  | some hs => exact hs.lead

theorem IsBang.lead {b : Bool} (h : IsBang ts b) : ∀ t ∈ ts.head?, t.kind = .bang := by
  cases h <;> simp [*]

theorem IsDefault.lead {v : Option Value} (h : IsDefault lim ts v) : ∀ t ∈ ts.head?, t.kind = .equals := by
  cases h <;> simp [*]

theorem IsVariables.lead {vs : List VariableDefinition} (h : IsVariables lim ts vs) :
    ∀ t ∈ ts.head?, t.kind = .parenL := by
  cases h <;> simp [*]

theorem IsOperation.first {op : Operation} (h : IsOperation lim ts op) :
    ∃ t r, ts = t :: r ∧ (t.kind = .braceL ∨ t.kind = .name ∧ OperationKind.ofKeyword? t.value ≠ none) := by
  cases h with
  | shorthand hs => cases hs; exact ⟨_, _, rfl, .inl (by assumption)⟩
  | full hk hkind => exact ⟨_, _, rfl, .inr ⟨hk, by simp [hkind]⟩⟩

theorem IsFragment.first {f : Fragment} (h : IsFragment lim ts f) :
    ∃ t r, ts = t :: r ∧ t.isKeyword "fragment" = true := by
  cases h
  exact ⟨_, _, rfl, by assumption⟩

end First

end Grammar

end Gql
