import Gql.Proofs.Literals
/-!
# Spelling — the tokens of a written document

`Value.spell` and its siblings give the tokens, as kinds and values, that the canonical text
of a node is made of, in the layout of `Document.render`.  A node is well-formed
(`Document.WellFormed`) when that text reads back as that node: every name in it is a name
of GraphQL, the names of fragments are not `on`, an enum value is no `true`, `false` or
`null`, numbers are lexemes of their kind, block strings hold values that a block string can
have, no selection set is empty, no variable stands in a default value or in the arguments
of a variable's directives, and it nests no deeper than `lim`.

The main statement here is the grammar half of reading a written document back: the tokens
that a well-formed document spells are a sentence of the grammar for that very document
(`Document.isDocument_of_spell`).
-/
namespace Gql

def TokenKind.lexeme (k : TokenKind) : TokenKind × String := (k, k.symbol?.getD "")

/-! ### The tokens of a node -/

mutual

def Value.spell : Value → List (TokenKind × String)
  | .variable n => [TokenKind.dollar.lexeme, (.name, n)]
  | .int s => [(.int, s)]
  | .float s => [(.float, s)]
  | .string s => [(.string, s)]
  | .blockString s => [(.blockString, s)]
  | .boolean b => [(.name, if b then "true" else "false")]
  | .null => [(.name, "null")]
  | .enum s => [(.name, s)]
  | .list items => TokenKind.bracketL.lexeme :: Value.spellItems items ++ [TokenKind.bracketR.lexeme]
  | .object fields => TokenKind.braceL.lexeme :: Value.spellFields fields ++ [TokenKind.braceR.lexeme]

def Value.spellItems : List Value → List (TokenKind × String)
  | [] => []
  | v :: vs => v.spell ++ Value.spellItems vs

def Value.spellFields : List (String × Value) → List (TokenKind × String)
  | [] => []
  | (n, v) :: fs => (.name, n) :: TokenKind.colon.lexeme :: v.spell ++ Value.spellFields fs

end

def Argument.spell (a : Argument) : List (TokenKind × String) :=
  (.name, a.name) :: TokenKind.colon.lexeme :: a.value.spell

def Argument.spellList : List Argument → List (TokenKind × String)
  | [] => []
  | args => TokenKind.parenL.lexeme :: args.flatMap Argument.spell ++ [TokenKind.parenR.lexeme]

def Directive.spell (d : Directive) : List (TokenKind × String) :=
  TokenKind.atSign.lexeme :: (.name, d.name) :: Argument.spellList d.arguments

def Directive.spellList (ds : List Directive) : List (TokenKind × String) := ds.flatMap Directive.spell

def TypeRef.spellBang (nonNull : Bool) : List (TokenKind × String) :=
  if nonNull then [TokenKind.bang.lexeme] else []

def TypeRef.spell : TypeRef → List (TokenKind × String)
  | .named n nonNull => (.name, n) :: TypeRef.spellBang nonNull
  | .list e nonNull =>
    TokenKind.bracketL.lexeme :: e.spell ++ TokenKind.bracketR.lexeme :: TypeRef.spellBang nonNull

def Selection.spellCondition : Option String → List (TokenKind × String)
  | some t => [(.name, "on"), (.name, t)]
  | none => []

mutual

def Selection.spell : Selection → List (TokenKind × String)
  | .field key name args dirs sub =>
    (if key = name then [] else [(.name, key), TokenKind.colon.lexeme]) ++ (.name, name) ::
      (Argument.spellList args ++ Directive.spellList dirs ++ Selection.spellSubselection sub)
  | .fragmentSpread name dirs => TokenKind.spread.lexeme :: (.name, name) :: Directive.spellList dirs
  | .inlineFragment cond dirs sels =>
    TokenKind.spread.lexeme :: (Selection.spellCondition cond ++ Directive.spellList dirs ++
      (TokenKind.braceL.lexeme :: Selection.spellItems sels ++ [TokenKind.braceR.lexeme]))

def Selection.spellSubselection : Option (List Selection) → List (TokenKind × String)
  | some sels => TokenKind.braceL.lexeme :: Selection.spellItems sels ++ [TokenKind.braceR.lexeme]
  | none => []

def Selection.spellItems : List Selection → List (TokenKind × String)
  | [] => []
  | s :: rest => s.spell ++ Selection.spellItems rest

end

def Selection.spellSet (sels : List Selection) : List (TokenKind × String) :=
  TokenKind.braceL.lexeme :: Selection.spellItems sels ++ [TokenKind.braceR.lexeme]

def VariableDefinition.spellDefault : Option Value → List (TokenKind × String)
  | some d => TokenKind.equals.lexeme :: d.spell
  | none => []

def VariableDefinition.spell (v : VariableDefinition) : List (TokenKind × String) :=
  TokenKind.dollar.lexeme :: (.name, v.name) :: TokenKind.colon.lexeme :: (v.varType.spell ++
    VariableDefinition.spellDefault v.defaultValue ++ Directive.spellList v.directives)

def Operation.spellName : Option String → List (TokenKind × String)
  | some n => [(.name, n)]
  | none => []

def Operation.spellVariables : List VariableDefinition → List (TokenKind × String)
  | [] => []
  | vs => TokenKind.parenL.lexeme :: vs.flatMap VariableDefinition.spell ++ [TokenKind.parenR.lexeme]

def Operation.spell (o : Operation) : List (TokenKind × String) :=
  if o.isShorthand then Selection.spellSet o.selectionSet
  else
    (.name, o.kind.keyword) :: (Operation.spellName o.name ++ Operation.spellVariables o.variableDefinitions ++
      Directive.spellList o.directives ++ Selection.spellSet o.selectionSet)

def Fragment.spell (f : Fragment) : List (TokenKind × String) :=
  (.name, "fragment") :: (.name, f.name) :: (.name, "on") :: (.name, f.typeCondition) ::
    (Directive.spellList f.directives ++ Selection.spellSet f.selectionSet)

def Document.spell (d : Document) : List (TokenKind × String) :=
  d.operations.flatMap Operation.spell ++ d.fragments.flatMap Fragment.spell

/-! ### Well-formed documents -/

section WellFormed

variable (lim : Nat)

mutual

/-- A value, at depth `d` in context `ctx`, that reads back from its text. -/
def Value.WellFormed : ValueContext → Nat → Value → Prop
  | ctx, d, .variable n => d < lim ∧ ctx.forbidding? = none ∧ isName n = true
  | _, d, .int s => d < lim ∧ IsIntLexeme s.toList
  | _, d, .float s => d < lim ∧ IsFloatLexeme s.toList
  | _, d, .string _ => d < lim
  | _, d, .blockString s => d < lim ∧ IsBlockValue s
  | _, d, .boolean _ => d < lim
  | _, d, .null => d < lim
  | _, d, .enum s => d < lim ∧ isName s = true ∧ s ≠ "true" ∧ s ≠ "false" ∧ s ≠ "null"
  | ctx, d, .list items => d < lim ∧ Value.ItemsWellFormed ctx (d + 1) items
  | ctx, d, .object fields => d < lim ∧ Value.FieldsWellFormed ctx (d + 1) fields

def Value.ItemsWellFormed : ValueContext → Nat → List Value → Prop
  | _, _, [] => True
  | ctx, d, v :: vs => Value.WellFormed ctx d v ∧ Value.ItemsWellFormed ctx d vs

def Value.FieldsWellFormed : ValueContext → Nat → List (String × Value) → Prop
  | _, _, [] => True
  | ctx, d, (n, v) :: fs => isName n = true ∧ Value.WellFormed ctx d v ∧ Value.FieldsWellFormed ctx d fs

end

def Argument.WellFormed (ctx : ValueContext) (d : Nat) (a : Argument) : Prop :=
  isName a.name = true ∧ a.value.WellFormed lim ctx d

def Directive.WellFormed (ctx : ValueContext) (d : Nat) (dir : Directive) : Prop :=
  isName dir.name = true ∧ ∀ a ∈ dir.arguments, a.WellFormed lim ctx d

def TypeRef.WellFormed : Nat → TypeRef → Prop
  | d, .named n _ => d < lim ∧ isName n = true
  | d, .list e _ => d < lim ∧ TypeRef.WellFormed (d + 1) e

mutual

def Selection.WellFormed : Nat → Selection → Prop
  | d, .field key name args dirs sub =>
    isName key = true ∧ isName name = true ∧ (∀ a ∈ args, a.WellFormed lim .variablesAllowed d) ∧
      (∀ dir ∈ dirs, dir.WellFormed lim .variablesAllowed d) ∧ Selection.SubselectionWellFormed d sub
  | d, .fragmentSpread name dirs =>
    isName name = true ∧ name ≠ "on" ∧ ∀ dir ∈ dirs, dir.WellFormed lim .variablesAllowed d
  | d, .inlineFragment cond dirs sels =>
    (∀ t ∈ cond, isName t = true) ∧ (∀ dir ∈ dirs, dir.WellFormed lim .variablesAllowed d) ∧
      d < lim ∧ sels ≠ [] ∧ Selection.ItemsWellFormed (d + 1) sels

def Selection.SubselectionWellFormed : Nat → Option (List Selection) → Prop
  | d, some sels => d < lim ∧ sels ≠ [] ∧ Selection.ItemsWellFormed (d + 1) sels
  | _, none => True

def Selection.ItemsWellFormed : Nat → List Selection → Prop
  | _, [] => True
  | d, s :: rest => Selection.WellFormed d s ∧ Selection.ItemsWellFormed d rest

end

/-- A selection set at depth `d`: not empty, its selections one level deeper. -/
def Selection.SetWellFormed (d : Nat) (sels : List Selection) : Prop :=
  d < lim ∧ sels ≠ [] ∧ Selection.ItemsWellFormed lim (d + 1) sels

def VariableDefinition.WellFormed (v : VariableDefinition) : Prop :=
  isName v.name = true ∧ v.varType.WellFormed lim 0 ∧ (∀ dv ∈ v.defaultValue, dv.WellFormed lim .defaultValue 0) ∧
    ∀ dir ∈ v.directives, dir.WellFormed lim .variableDirective 0

def Operation.WellFormed (o : Operation) : Prop :=
  (∀ n ∈ o.name, isName n = true) ∧ (∀ v ∈ o.variableDefinitions, v.WellFormed lim) ∧
    (∀ dir ∈ o.directives, dir.WellFormed lim .variablesAllowed 0) ∧ Selection.SetWellFormed lim 0 o.selectionSet

def Fragment.WellFormed (f : Fragment) : Prop :=
  isName f.name = true ∧ f.name ≠ "on" ∧ isName f.typeCondition = true ∧
    (∀ dir ∈ f.directives, dir.WellFormed lim .variablesAllowed 0) ∧ Selection.SetWellFormed lim 0 f.selectionSet

/-- A document that reads back from its canonical text, nesting at most `lim` levels deep. -/
def Document.WellFormed (d : Document) : Prop :=
  (∀ o ∈ d.operations, o.WellFormed lim) ∧ ∀ f ∈ d.fragments, f.WellFormed lim

end WellFormed

/-! ### Tokens with given kinds and values -/

namespace Token

variable {ts : List Token} {ks : List (TokenKind × String)}

theorem lexemes_nil (h : ts.map Token.lexeme = []) : ts = [] := List.map_eq_nil_iff.1 h

theorem lexemes_cons {k : TokenKind} {v : String} (h : ts.map Token.lexeme = (k, v) :: ks) :
    ∃ t rest, ts = t :: rest ∧ t.kind = k ∧ t.value = v ∧ rest.map Token.lexeme = ks := by
  obtain ⟨t, rest, rfl, ht, hrest⟩ := List.map_eq_cons_iff.1 h
  simp only [Token.lexeme, Prod.mk.injEq] at ht
  exact ⟨t, rest, rfl, ht.1, ht.2, hrest⟩

theorem lexemes_single {k : TokenKind} {v : String} (h : ts.map Token.lexeme = [(k, v)]) :
    ∃ t, ts = [t] ∧ t.kind = k ∧ t.value = v := by
  obtain ⟨t, rest, rfl, hk, hv, hrest⟩ := lexemes_cons h
  rw [lexemes_nil hrest]
  exact ⟨t, rfl, hk, hv⟩

theorem lexemes_append {ls : List (TokenKind × String)} (h : ts.map Token.lexeme = ks ++ ls) :
    ∃ a b, ts = a ++ b ∧ a.map Token.lexeme = ks ∧ b.map Token.lexeme = ls :=
  List.map_eq_append_iff.1 h

theorem isKeyword_of {t : Token} {w : String} (hk : t.kind = .name) (hv : t.value = w) :
    t.isKeyword w = true := by
  simp [Token.isKeyword, hk, hv]

theorem lexemes_wrap {k k' : TokenKind} (h : ts.map Token.lexeme = k.lexeme :: ks ++ [k'.lexeme]) :
    ∃ o mid c, ts = o :: mid ++ [c] ∧ o.kind = k ∧ c.kind = k' ∧ mid.map Token.lexeme = ks := by
  obtain ⟨o, rest, rfl, ho, -, hrest⟩ := lexemes_cons h
  obtain ⟨mid, last, rfl, hmid, hlast⟩ := lexemes_append hrest
  obtain ⟨c, rfl, hc, -⟩ := lexemes_single hlast
  exact ⟨o, mid, c, rfl, ho, hc, hmid⟩

end Token

/-! ### The tokens of a well-formed node are a sentence for it -/

section Grammar

variable {lim : Nat}

open Token Grammar

mutual

theorem Value.isValue_of_spell : ∀ {ctx : ValueContext} {d : Nat} (v : Value) {ts : List Token},
    v.WellFormed lim ctx d → ts.map Token.lexeme = v.spell → IsValue lim ctx d ts v
  | _, _, .variable n, _, ⟨hd, hc, _⟩, h => by
    obtain ⟨t1, r1, rfl, h1, -, h1'⟩ := lexemes_cons h
    obtain ⟨t2, rfl, h2, rfl⟩ := lexemes_single h1'
    exact .variable hd hc h1 h2
  | _, _, .int s, _, ⟨hd, _⟩, h => by
    obtain ⟨t, rfl, hk, rfl⟩ := lexemes_single h
    exact .int hd hk
  | _, _, .float s, _, ⟨hd, _⟩, h => by
    obtain ⟨t, rfl, hk, rfl⟩ := lexemes_single h
    exact .float hd hk
  | _, _, .string s, _, hd, h => by
    obtain ⟨t, rfl, hk, rfl⟩ := lexemes_single h
    exact .string hd hk
  | _, _, .blockString s, _, ⟨hd, _⟩, h => by
    obtain ⟨t, rfl, hk, rfl⟩ := lexemes_single h
    exact .blockString hd hk
  | _, _, .boolean b, _, hd, h => by
    obtain ⟨t, rfl, hk, hv⟩ := lexemes_single h
    exact .boolean b hd hk hv
  | _, _, .null, _, hd, h => by
    obtain ⟨t, rfl, hk, hv⟩ := lexemes_single h
    exact .null hd hk hv
  | _, _, .enum s, _, ⟨hd, _, h1, h2, h3⟩, h => by
    obtain ⟨t, rfl, hk, rfl⟩ := lexemes_single h
    exact .enum hd hk h1 h2 h3
  | _, _, .list items, _, ⟨hd, hitems⟩, h => by
    obtain ⟨o, mid, c, rfl, ho, hc, hmid⟩ := lexemes_wrap h
    exact .list hd ho hc (Value.isValues_of_spell items hitems hmid)
  | _, _, .object fields, _, ⟨hd, hfields⟩, h => by
    obtain ⟨o, mid, c, rfl, ho, hc, hmid⟩ := lexemes_wrap h
    exact .object hd ho hc (Value.isFields_of_spell fields hfields hmid)

theorem Value.isValues_of_spell : ∀ {ctx : ValueContext} {d : Nat} (vs : List Value) {ts : List Token},
    Value.ItemsWellFormed lim ctx d vs → ts.map Token.lexeme = Value.spellItems vs → IsValues lim ctx d ts vs
  | _, _, [], _, _, h => by
    rw [lexemes_nil h]
    exact .nil
  | _, _, v :: vs, _, ⟨hv, hvs⟩, h => by
    obtain ⟨a, b, rfl, ha, hb⟩ := lexemes_append h
    exact .cons (Value.isValue_of_spell v hv ha) (Value.isValues_of_spell vs hvs hb)

theorem Value.isFields_of_spell : ∀ {ctx : ValueContext} {d : Nat} (fs : List (String × Value))
    {ts : List Token}, Value.FieldsWellFormed lim ctx d fs → ts.map Token.lexeme = Value.spellFields fs →
      IsFields lim ctx d ts fs
  | _, _, [], _, _, h => by
    rw [lexemes_nil h]
    exact .nil
  | _, _, (n, v) :: fs, _, ⟨_, hv, hfs⟩, h => by
    obtain ⟨a, b, rfl, ha, hb⟩ := lexemes_append h
    obtain ⟨tn, r1, rfl, hn, rfl, h1⟩ := lexemes_cons ha
    obtain ⟨tc, r2, rfl, hc, -, h2⟩ := lexemes_cons h1
    exact .cons hn hc (Value.isValue_of_spell v hv h2) (Value.isFields_of_spell fs hfs hb)

end

theorem seq_of_spell {α : Type} {item : List Token → α → Prop} {spell : α → List (TokenKind × String)}
    {P : α → Prop} (hitem : ∀ x ts, P x → ts.map Token.lexeme = spell x → item ts x) :
    ∀ {xs : List α} {ts : List Token}, (∀ x ∈ xs, P x) → ts.map Token.lexeme = xs.flatMap spell →
      Seq item ts xs
  | [], _, _, h => by
    rw [lexemes_nil h]
    exact .nil
  | x :: xs, _, hxs, h => by
    rw [List.flatMap_cons] at h
    obtain ⟨a, b, rfl, ha, hb⟩ := lexemes_append h
    exact .cons (hitem x a (hxs x (by simp)) ha) (seq_of_spell hitem (fun y hy => hxs y (by simp [hy])) hb)

theorem Argument.isArgument_of_spell {ctx : ValueContext} {d : Nat} (a : Argument) {ts : List Token}
    (ha : a.WellFormed lim ctx d) (h : ts.map Token.lexeme = a.spell) : IsArgument lim ctx d ts a := by
  obtain ⟨tn, r1, rfl, hn, hv, h1⟩ := lexemes_cons h
  obtain ⟨tc, r2, rfl, hc, -, h2⟩ := lexemes_cons h1
  have hnode : a = ⟨tn.value, a.value⟩ := by rw [hv]
  rw [hnode]
  exact .mk hn hc (Value.isValue_of_spell a.value ha.2 h2)

theorem Argument.isArguments_of_spell {ctx : ValueContext} {d : Nat} (args : List Argument) {ts : List Token}
    (hargs : ∀ a ∈ args, a.WellFormed lim ctx d) (h : ts.map Token.lexeme = Argument.spellList args) :
    IsArguments lim ctx d ts args := by
  match args, hargs, h with
  | [], _, h =>
    rw [lexemes_nil h]
    exact .none
  | a :: as, hargs, h =>
    obtain ⟨o, mid, c, rfl, ho, hc, hmid⟩ := lexemes_wrap h
    exact .some ho hc (seq_of_spell (fun x _ hx hs => x.isArgument_of_spell hx hs) hargs hmid) (by simp)

theorem Directive.isDirective_of_spell {ctx : ValueContext} {d : Nat} (dir : Directive) {ts : List Token}
    (hdir : dir.WellFormed lim ctx d) (h : ts.map Token.lexeme = dir.spell) : IsDirective lim ctx d ts dir := by
  obtain ⟨ts, r1, rfl, hs, -, h1⟩ := lexemes_cons h
  obtain ⟨tn, r2, rfl, hn, hv, h2⟩ := lexemes_cons h1
  have hnode : dir = ⟨tn.value, dir.arguments⟩ := by rw [hv]
  rw [hnode]
  exact .mk hs hn (Argument.isArguments_of_spell dir.arguments hdir.2 h2)

theorem Directive.isDirectives_of_spell {ctx : ValueContext} {d : Nat} (dirs : List Directive)
    {ts : List Token} (hdirs : ∀ dir ∈ dirs, dir.WellFormed lim ctx d)
    (h : ts.map Token.lexeme = Directive.spellList dirs) : IsDirectives lim ctx d ts dirs :=
  seq_of_spell (fun x _ hx hs => x.isDirective_of_spell hx hs) hdirs h

theorem TypeRef.isBang_of_spell (nonNull : Bool) {ts : List Token}
    (h : ts.map Token.lexeme = TypeRef.spellBang nonNull) : IsBang ts nonNull := by
  cases nonNull with
  | false =>
    rw [lexemes_nil h]
    exact .none
  | true =>
    obtain ⟨b, rfl, hb, -⟩ := lexemes_single h
    exact .some hb

theorem TypeRef.isType_of_spell : ∀ {d : Nat} (t : TypeRef) {ts : List Token},
    t.WellFormed lim d → ts.map Token.lexeme = t.spell → IsType lim d ts t
  | _, .named n nonNull, _, ⟨hd, _⟩, h => by
    obtain ⟨tn, bang, rfl, hn, rfl, hbang⟩ := lexemes_cons h
    exact .named hd hn (TypeRef.isBang_of_spell nonNull hbang)
  | _, .list e nonNull, _, ⟨hd, he⟩, h => by
    obtain ⟨o, r1, rfl, ho, -, h1⟩ := lexemes_cons h
    obtain ⟨te, r2, rfl, hte, h2⟩ := lexemes_append h1
    obtain ⟨c, bang, rfl, hc, -, hbang⟩ := lexemes_cons h2
    exact .list hd ho hc (TypeRef.isType_of_spell e he hte) (TypeRef.isBang_of_spell nonNull hbang)

theorem Selection.isFieldName_of_spell {key name : String} {ts : List Token}
    (h : ts.map Token.lexeme = (if key = name then [] else [(.name, key), TokenKind.colon.lexeme]) ++ [(.name, name)]) :
    IsFieldName ts key name := by
  by_cases hkey : key = name
  · rw [if_pos hkey, List.nil_append] at h
    obtain ⟨tn, rfl, hn, rfl⟩ := lexemes_single h
    rw [hkey]
    exact .plain hn
  · rw [if_neg hkey] at h
    obtain ⟨ta, r1, rfl, ha, rfl, h1⟩ := lexemes_cons h
    obtain ⟨tc, r2, rfl, hc, -, h2⟩ := lexemes_cons h1
    obtain ⟨tn, rfl, hn, rfl⟩ := lexemes_single h2
    exact .aliased ha hc hn

theorem Selection.isTypeCondition_of_spell (cond : Option String) {ts : List Token}
    (h : ts.map Token.lexeme = Selection.spellCondition cond) : IsTypeCondition ts cond := by
  cases cond with
  | none =>
    rw [lexemes_nil h]
    exact .none
  | some t =>
    obtain ⟨ton, r1, rfl, hk, hv, h1⟩ := lexemes_cons h
    obtain ⟨tn, rfl, hn, rfl⟩ := lexemes_single h1
    exact .some (Token.isKeyword_of hk hv) hn

mutual

theorem Selection.isSelection_of_spell : ∀ {d : Nat} (s : Selection) {ts : List Token},
    s.WellFormed lim d → ts.map Token.lexeme = s.spell → IsSelection lim d ts s
  | _, .field key name args dirs sub, _, ⟨_, _, hargs, hdirs, hsub⟩, h => by
    obtain ⟨tk, r1, rfl, hk, h1⟩ := lexemes_append h
    obtain ⟨tn, r2, rfl, hn, rfl, h2⟩ := lexemes_cons h1
    obtain ⟨tad, tss, rfl, had, hss⟩ := lexemes_append h2
    obtain ⟨ta, td, rfl, ha, hd⟩ := lexemes_append had
    have hname : (tk ++ [tn]).map Token.lexeme =
        (if key = tn.value then [] else [(.name, key), TokenKind.colon.lexeme]) ++ [(.name, tn.value)] := by
      simp [hk, Token.lexeme, hn]
    have hsel := IsSelection.field (Selection.isFieldName_of_spell hname)
      (Argument.isArguments_of_spell args hargs ha) (Directive.isDirectives_of_spell dirs hdirs hd)
      (Selection.isSubselection_of_spell sub hsub hss)
    simpa using hsel
  | _, .fragmentSpread name dirs, _, ⟨_, hon, hdirs⟩, h => by
    obtain ⟨ts, r1, rfl, hs, -, h1⟩ := lexemes_cons h
    obtain ⟨tn, td, rfl, hn, rfl, hd⟩ := lexemes_cons h1
    exact .fragmentSpread hs hn hon (Directive.isDirectives_of_spell dirs hdirs hd)
  | _, .inlineFragment cond dirs sels, _, ⟨_, hdirs, hlt, hne, hitems⟩, h => by
    obtain ⟨ts, r1, rfl, hs, -, h1⟩ := lexemes_cons h
    obtain ⟨tcd, tset, rfl, hcd, hset⟩ := lexemes_append h1
    obtain ⟨tc, td, rfl, hc, hd⟩ := lexemes_append hcd
    obtain ⟨o, mid, c, rfl, ho, hc', hmid⟩ := lexemes_wrap hset
    have hsel := IsSelection.inlineFragment hs (Selection.isTypeCondition_of_spell cond hc)
      (Directive.isDirectives_of_spell dirs hdirs hd)
      (.mk hlt ho hc' (Selection.isSelections_of_spell sels hitems hmid) hne)
    simpa using hsel

theorem Selection.isSubselection_of_spell : ∀ {d : Nat} (sub : Option (List Selection)) {ts : List Token},
    Selection.SubselectionWellFormed lim d sub → ts.map Token.lexeme = Selection.spellSubselection sub →
      IsSubselection lim d ts sub
  | _, none, _, _, h => by
    rw [lexemes_nil h]
    exact .none
  | _, some sels, _, ⟨hd, hne, hitems⟩, h => by
    obtain ⟨o, mid, c, rfl, ho, hc, hmid⟩ := lexemes_wrap h
    exact .some (.mk hd ho hc (Selection.isSelections_of_spell sels hitems hmid) hne)

theorem Selection.isSelections_of_spell : ∀ {d : Nat} (sels : List Selection) {ts : List Token},
    Selection.ItemsWellFormed lim d sels → ts.map Token.lexeme = Selection.spellItems sels →
      IsSelections lim d ts sels
  | _, [], _, _, h => by
    rw [lexemes_nil h]
    exact .nil
  | _, s :: rest, _, ⟨hs, hrest⟩, h => by
    obtain ⟨a, b, rfl, ha, hb⟩ := lexemes_append h
    exact .cons (Selection.isSelection_of_spell s hs ha) (Selection.isSelections_of_spell rest hrest hb)

end

theorem Selection.isSelectionSet_of_spell {d : Nat} (sels : List Selection) {ts : List Token}
    (hset : Selection.SetWellFormed lim d sels) (h : ts.map Token.lexeme = Selection.spellSet sels) :
    IsSelectionSet lim d ts sels := by
  obtain ⟨hd, hne, hitems⟩ := hset
  obtain ⟨o, mid, c, rfl, ho, hc, hmid⟩ := lexemes_wrap h
  exact .mk hd ho hc (Selection.isSelections_of_spell sels hitems hmid) hne


theorem VariableDefinition.isDefault_of_spell (dflt : Option Value) {ts : List Token}
    (hdflt : ∀ dv ∈ dflt, dv.WellFormed lim .defaultValue 0)
    (h : ts.map Token.lexeme = VariableDefinition.spellDefault dflt) : IsDefault lim ts dflt := by
  cases dflt with
  | none =>
    rw [lexemes_nil h]
    exact .none
  | some dv =>
    obtain ⟨te, tv, rfl, he, -, hv⟩ := lexemes_cons h
    exact .some he (Value.isValue_of_spell dv (hdflt dv rfl) hv)

theorem VariableDefinition.isVariableDefinition_of_spell (v : VariableDefinition) {ts : List Token}
    (hv : v.WellFormed lim) (h : ts.map Token.lexeme = v.spell) : IsVariableDefinition lim ts v := by
  obtain ⟨name, ty, dirs, dflt⟩ := v
  obtain ⟨-, hty, hdflt, hdirs⟩ := hv
  obtain ⟨tdollar, r1, rfl, hd, -, h1⟩ := lexemes_cons h
  obtain ⟨tn, r2, rfl, hn, rfl, h2⟩ := lexemes_cons h1
  obtain ⟨tc, r3, rfl, hc, -, h3⟩ := lexemes_cons h2
  obtain ⟨ttd, tds, rfl, htd, hds⟩ := lexemes_append h3
  obtain ⟨tt, td, rfl, htt, hdf⟩ := lexemes_append htd
  have hdef := IsVariableDefinition.mk hd hn hc (TypeRef.isType_of_spell ty hty htt)
    (isDefault_of_spell dflt hdflt hdf) (Directive.isDirectives_of_spell dirs hdirs hds)
  simpa using hdef

theorem OperationKind.ofKeyword?_keyword (k : OperationKind) : OperationKind.ofKeyword? k.keyword = some k := by
  cases k <;> simp [OperationKind.ofKeyword?, OperationKind.keyword]

theorem Operation.eq_of_isShorthand {o : Operation} (h : o.isShorthand = true) :
    o = ⟨.query, none, [], [], o.selectionSet⟩ := by
  obtain ⟨kind, name, vars, dirs, sels⟩ := o
  simp only [Operation.isShorthand, Bool.and_eq_true, beq_iff_eq, Option.isNone_iff_eq_none,
    List.isEmpty_iff] at h
  obtain ⟨⟨⟨rfl, rfl⟩, rfl⟩, rfl⟩ := h
  rfl

theorem Operation.isOperationName_of_spell (name : Option String) {ts : List Token}
    (h : ts.map Token.lexeme = Operation.spellName name) : IsOperationName ts name := by
  cases name with
  | none =>
    rw [lexemes_nil h]
    exact .none
  | some n =>
    obtain ⟨tn, rfl, hn, rfl⟩ := lexemes_single h
    exact .some hn

theorem Operation.isVariables_of_spell (vars : List VariableDefinition) {ts : List Token}
    (hvars : ∀ v ∈ vars, v.WellFormed lim)
    (h : ts.map Token.lexeme = Operation.spellVariables vars) : IsVariables lim ts vars := by
  match vars, hvars, h with
  | [], _, h =>
    rw [lexemes_nil h]
    exact .none
  | v :: vs, hvars, h =>
    obtain ⟨o, mid, c, rfl, ho, hc, hmid⟩ := lexemes_wrap h
    exact .some ho hc (seq_of_spell (fun x _ hx hs => x.isVariableDefinition_of_spell hx hs) hvars hmid)
      (by simp)

theorem Operation.isOperation_of_spell (o : Operation) {ts : List Token} (ho : o.WellFormed lim)
    (h : ts.map Token.lexeme = o.spell) : IsOperation lim ts o := by
  obtain ⟨hname, hvars, hdirs, hset⟩ := ho
  unfold Operation.spell at h
  by_cases hs : o.isShorthand
  · rw [if_pos hs] at h
    rw [Operation.eq_of_isShorthand hs]
    exact .shorthand (Selection.isSelectionSet_of_spell _ hset h)
  · rw [if_neg hs] at h
    obtain ⟨kind, name, vars, dirs, sels⟩ := o
    obtain ⟨kw, r1, rfl, hk, hkw, h1⟩ := lexemes_cons h
    obtain ⟨tnvd, tset, rfl, hnvd, hsetT⟩ := lexemes_append h1
    obtain ⟨tnv, td, rfl, hnv, hd⟩ := lexemes_append hnvd
    obtain ⟨tn, tv, rfl, hn, hv⟩ := lexemes_append hnv
    have hop : IsOperation lim _ _ := IsOperation.full hk (by rw [hkw, OperationKind.ofKeyword?_keyword])
      (isOperationName_of_spell name hn) (isVariables_of_spell vars hvars hv)
      (Directive.isDirectives_of_spell dirs hdirs hd) (Selection.isSelectionSet_of_spell sels hset hsetT)
    simpa using hop

theorem Fragment.isFragment_of_spell (f : Fragment) {ts : List Token} (hf : f.WellFormed lim)
    (h : ts.map Token.lexeme = f.spell) : IsFragment lim ts f := by
  obtain ⟨name, cond, dirs, sels⟩ := f
  obtain ⟨-, hon, -, hdirs, hset⟩ := hf
  obtain ⟨tf, r1, rfl, hfk, hfv, h1⟩ := lexemes_cons h
  obtain ⟨tn, r2, rfl, hn, rfl, h2⟩ := lexemes_cons h1
  obtain ⟨ton, r3, rfl, hok, hov, h3⟩ := lexemes_cons h2
  obtain ⟨tc, r4, rfl, hc, rfl, h4⟩ := lexemes_cons h3
  obtain ⟨td, tset, rfl, hd, hsetT⟩ := lexemes_append h4
  have hfrag := IsFragment.mk (Token.isKeyword_of hfk hfv) hn hon (Token.isKeyword_of hok hov) hc
    (Directive.isDirectives_of_spell dirs hdirs hd) (Selection.isSelectionSet_of_spell sels hset hsetT)
  simpa using hfrag

theorem Document.isDefinitions_of_spell_fragments (frags : List Fragment) {ts : List Token}
    (hfrags : ∀ f ∈ frags, f.WellFormed lim) (h : ts.map Token.lexeme = frags.flatMap Fragment.spell) :
    IsDefinitions lim ts [] frags := by
  induction frags generalizing ts with
  | nil =>
    rw [lexemes_nil h]
    exact .nil
  | cons f fs ih =>
    rw [List.flatMap_cons] at h
    obtain ⟨a, b, rfl, ha, hb⟩ := lexemes_append h
    exact .fragment (f.isFragment_of_spell (hfrags f (by simp)) ha)
      (ih (fun g hg => hfrags g (by simp [hg])) hb)

theorem Document.isDefinitions_of_spell (ops : List Operation) (frags : List Fragment) {ts : List Token}
    (hops : ∀ o ∈ ops, o.WellFormed lim) (hfrags : ∀ f ∈ frags, f.WellFormed lim)
    (h : ts.map Token.lexeme = ops.flatMap Operation.spell ++ frags.flatMap Fragment.spell) :
    IsDefinitions lim ts ops frags := by
  induction ops generalizing ts with
  | nil => exact isDefinitions_of_spell_fragments frags hfrags (by simpa using h)
  | cons o os ih =>
    rw [List.flatMap_cons, List.append_assoc] at h
    obtain ⟨a, b, rfl, ha, hb⟩ := lexemes_append h
    exact .operation (o.isOperation_of_spell (hops o (by simp)) ha)
      (ih (fun p hp => hops p (by simp [hp])) hb)

/-- **The tokens a well-formed document spells are a sentence of the grammar for it.** -/
theorem Document.isDocument_of_spell (d : Document) {ts : List Token} (hd : d.WellFormed lim)
    (h : ts.map Token.lexeme = d.spell) : IsDocument lim ts d :=
  isDefinitions_of_spell d.operations d.fragments hd.1 hd.2 h

end Grammar

end Gql
