import Gql.Proofs.Spelling
import Gql.Proofs.Acceptance
/-!
# RoundTrip — a well-formed document reads back from its text

`Document.render` writes a document as text, and reading that text gives the same document
back, with no fault, whenever the document is well-formed (`parse_render`).

The proof meets in the middle, at the tokens that `Spelling` lists for each node.  The text of
a node lexes to exactly those tokens (`Value.lexes_render` and its siblings).  Each name,
number and string in it is followed by a blank, a comma or a punctuator, so no token runs into
the next one.  The tokens are then a sentence of the grammar for the node
(`Document.isDocument_of_spell`), and the reader reads such a sentence back
(`Syntax.definitions_complete`).
-/
namespace Gql

namespace Lexer

/-! ### Putting pieces of text together -/

/-- A piece after which any text may come, then another piece. -/
theorem Lexes.cat_open {Q : List Char → Prop} {a b : List Char} {ks ls : List (TokenKind × String)}
    (ha : Lexes (fun _ => True) a ks) (hb : Lexes Q b ls) : Lexes Q (a ++ b) (ks ++ ls) :=
  ha.append hb fun _ _ => trivial

/-- A piece that needs a boundary after it, then a piece that starts with one. -/
theorem Lexes.cat {a b : List Char} {ks ls : List (TokenKind × String)} (ha : Lexes Boundary a ks)
    (hb : Lexes Boundary b ls) (hbd : Boundary b) : Lexes Boundary (a ++ b) (ks ++ ls) :=
  ha.append hb fun _ hr => hbd.append hr

theorem lexes_punct (P : List Char → Prop) (c : Char) (k : TokenKind)
    (h : TokenKind.ofSymbolChar? c = some k) : Lexes P [c] [k.lexeme] :=
  lexes_symbol P h

theorem boundary_ignored {c : Char} (r : List Char) (h : isIgnored c = true) : Boundary (c :: r) :=
  (boundary_cons c r).2 (.inl h)

theorem boundary_punct {c : Char} (r : List Char) (h : (TokenKind.ofSymbolChar? c).isSome = true) :
    Boundary (c :: r) :=
  (boundary_cons c r).2 (.inr h)

theorem lexes_blank (P : List Char → Prop) : Lexes P [' '] [] := lexes_ignored P (by simp [isIgnored])

theorem lexes_comma_blank (P : List Char → Prop) : Lexes P [',', ' '] [] :=
  lexes_ignored P (by simp [isIgnored])

theorem lexes_name_blank {w : String} (hw : isName w = true) :
    Lexes (fun _ => True) (w.toList ++ [' ']) [(.name, w)] := by
  have h : Lexes (fun _ => True) (w.toList ++ [' ']) ([(.name, w)] ++ []) :=
    (lexes_name hw).append (lexes_blank _) fun _ _ => boundary_ignored _ rfl
  rwa [List.append_nil] at h

theorem lexes_entry {n : String} {cs : List Char} {ks : List (TokenKind × String)} (hn : isName n = true)
    (h : Lexes Boundary cs ks) :
    Lexes Boundary (n.toList ++ (':' :: ' ' :: cs)) ((.name, n) :: TokenKind.colon.lexeme :: ks) :=
  (lexes_name hn).cat ((lexes_punct _ ':' .colon rfl).cat_open ((lexes_blank _).cat_open h))
    (boundary_punct _ rfl)

/-- **Pieces written with a separator of ignored characters between them** read as their
tokens one after the other. -/
theorem lexes_intercalate (sep : String) (hsep : ∀ c ∈ sep.toList, isIgnored c = true)
    (hne : sep.toList ≠ []) :
    ∀ (L : List (String × List (TokenKind × String))), (∀ p ∈ L, Lexes Boundary p.1.toList p.2) →
      Lexes Boundary (sep.intercalate (L.map Prod.fst)).toList (L.flatMap Prod.snd)
  | [], _ => lexes_nil _
  | [p], h => by simpa using h p (by simp)
  | p :: q :: L, h => by
    have hrest := lexes_intercalate sep hsep hne (q :: L) fun r hr => h r (by simp [hr])
    have hbd : Boundary (sep.toList ++ (sep.intercalate ((q :: L).map Prod.fst)).toList) := by
      obtain ⟨c, cs, hc⟩ := List.exists_cons_of_ne_nil hne
      rw [hc]
      exact boundary_ignored _ (hsep c (by simp [hc]))
    rw [List.map_cons, List.map_cons, String.intercalate_cons_cons, ← List.map_cons, String.toList_append,
      String.toList_append, List.append_assoc, List.flatMap_cons]
    exact (h p (by simp)).cat ((lexes_ignored _ hsep).cat_open hrest) hbd

end Lexer

open Lexer

/-! ### The text of each node lexes to its tokens -/

section Render

variable {lim : Nat}

mutual

theorem Value.lexes_render : ∀ {ctx : ValueContext} {d : Nat} (v : Value), v.WellFormed lim ctx d →
    Lexes Boundary v.render.toList v.spell
  | _, _, .variable n, ⟨_, _, hn⟩ => by
    rw [Value.render, String.toList_append]
    exact (lexes_punct _ '$' .dollar rfl).cat_open (lexes_name hn)
  | _, _, .int _, ⟨_, hs⟩ => lexes_int hs
  | _, _, .float _, ⟨_, hs⟩ => lexes_float hs
  | _, _, .string s, _ => lexes_stringLiteral s
  | _, _, .blockString _, ⟨_, hs⟩ => (lexes_blockLiteral hs).mono fun _ _ => trivial
  | _, _, .boolean b, _ => by cases b <;> exact lexes_name rfl
  | _, _, .null, _ => lexes_name rfl
  | _, _, .enum _, ⟨_, hs, _⟩ => lexes_name hs
  | _, _, .list items, ⟨_, hitems⟩ => by
    simp only [Value.render, String.toList_append, List.append_assoc]
    exact (lexes_punct _ '[' .bracketL rfl).cat_open
      ((Value.lexes_renderItems items hitems).cat (lexes_punct _ ']' .bracketR rfl) (boundary_punct _ rfl))
  | _, _, .object fields, ⟨_, hfields⟩ => by
    simp only [Value.render, String.toList_append, List.append_assoc]
    exact (lexes_punct _ '\x7b' .braceL rfl).cat_open
      ((Value.lexes_renderFields fields hfields).cat (lexes_punct _ '\x7d' .braceR rfl) (boundary_punct _ rfl))

theorem Value.lexes_renderItems : ∀ {ctx : ValueContext} {d : Nat} (vs : List Value),
    Value.ItemsWellFormed lim ctx d vs → Lexes Boundary (Value.renderItems vs).toList (Value.spellItems vs)
  | _, _, [], _ => lexes_nil _
  | _, _, [v], ⟨hv, _⟩ => by
    simp only [Value.spellItems, List.append_nil]
    exact Value.lexes_render v hv
  | _, _, v :: w :: vs, ⟨hv, hws⟩ => by
    show Lexes Boundary (v.render ++ ", " ++ Value.renderItems (w :: vs)).toList
      (v.spell ++ Value.spellItems (w :: vs))
    rw [String.toList_append, String.toList_append, List.append_assoc]
    exact (Value.lexes_render v hv).cat
      ((lexes_comma_blank _).cat_open (Value.lexes_renderItems (w :: vs) hws)) (boundary_ignored _ rfl)

theorem Value.lexes_renderFields : ∀ {ctx : ValueContext} {d : Nat} (fs : List (String × Value)),
    Value.FieldsWellFormed lim ctx d fs → Lexes Boundary (Value.renderFields fs).toList (Value.spellFields fs)
  | _, _, [], _ => lexes_nil _
  | _, _, [(n, v)], ⟨hn, hv, _⟩ => by
    simp only [Value.renderFields, Value.spellFields, String.toList_append, List.append_assoc, List.append_nil]
    exact lexes_entry hn (Value.lexes_render v hv)
  | _, _, (n, v) :: f :: fs, ⟨hn, hv, hfs⟩ => by
    show Lexes Boundary (n ++ ": " ++ v.render ++ ", " ++ Value.renderFields (f :: fs)).toList
      ((.name, n) :: TokenKind.colon.lexeme :: v.spell ++ Value.spellFields (f :: fs))
    simp only [String.toList_append, List.append_assoc]
    have hentry : Lexes Boundary (n.toList ++ (':' :: ' ' :: v.render.toList))
        ((.name, n) :: TokenKind.colon.lexeme :: v.spell) :=
      lexes_entry hn (Value.lexes_render v hv)
    have h := hentry.cat ((lexes_comma_blank _).cat_open (Value.lexes_renderFields (f :: fs) hfs))
      (boundary_ignored _ rfl)
    simpa using h

end

theorem Argument.lexes_render {ctx : ValueContext} {d : Nat} (a : Argument) (ha : a.WellFormed lim ctx d) :
    Lexes Boundary a.render.toList a.spell := by
  simp only [Argument.render, String.toList_append, List.append_assoc]
  exact lexes_entry ha.1 (Value.lexes_render a.value ha.2)

theorem Argument.boundary_renderList (args : List Argument) : Boundary (Argument.renderList args).toList := by
  cases args with
  | nil => exact boundary_nil
  | cons a as =>
    simp only [Argument.renderList, String.toList_append, List.append_assoc]
    exact boundary_punct _ rfl

theorem Argument.lexes_renderList {ctx : ValueContext} {d : Nat} (args : List Argument)
    (hargs : ∀ a ∈ args, a.WellFormed lim ctx d) :
    Lexes Boundary (Argument.renderList args).toList (Argument.spellList args) := by
  match args, hargs with
  | [], _ => exact lexes_nil _
  | a :: as, hargs =>
    have hsep := lexes_intercalate ", " (by simp [isIgnored]) (by simp)
      ((a :: as).map fun b => (b.render, b.spell)) (by
        simp only [List.mem_map]
        rintro _ ⟨b, hb, rfl⟩
        exact b.lexes_render (hargs b hb))
    simp only [List.map_map, List.flatMap_map, Function.comp_def] at hsep
    simp only [Argument.renderList, String.toList_append, List.append_assoc]
    exact (lexes_punct _ '(' .parenL rfl).cat_open (hsep.cat (lexes_punct _ ')' .parenR rfl) (boundary_punct _ rfl))

theorem Directive.lexes_render {ctx : ValueContext} {d : Nat} (dir : Directive) (hdir : dir.WellFormed lim ctx d) :
    Lexes Boundary dir.render.toList dir.spell := by
  simp only [Directive.render, String.toList_append, List.append_assoc]
  exact (lexes_punct _ '@' .atSign rfl).cat_open ((lexes_name hdir.1).cat
    (Argument.lexes_renderList dir.arguments hdir.2) (Argument.boundary_renderList dir.arguments))

theorem Directive.renderList_cons (dir : Directive) (ds : List Directive) :
    Directive.renderList (dir :: ds) = " " ++ dir.render ++ Directive.renderList ds := by
  rw [Directive.renderList, List.map_cons, String.join_cons]
  rfl

theorem Directive.boundary_renderList (ds : List Directive) : Boundary (Directive.renderList ds).toList := by
  cases ds with
  | nil => exact boundary_nil
  | cons dir ds =>
    rw [Directive.renderList_cons, String.toList_append, String.toList_append, List.append_assoc]
    exact boundary_ignored _ rfl

theorem Directive.lexes_renderList {ctx : ValueContext} {d : Nat} (ds : List Directive)
    (hds : ∀ dir ∈ ds, dir.WellFormed lim ctx d) :
    Lexes Boundary (Directive.renderList ds).toList (Directive.spellList ds) := by
  induction ds with
  | nil => exact lexes_nil _
  | cons dir ds ih =>
    rw [Directive.renderList_cons, String.toList_append, String.toList_append, List.append_assoc]
    have hrest := ih fun e he => hds e (by simp [he])
    exact (lexes_blank _).cat_open ((dir.lexes_render (hds dir (by simp))).cat hrest (Directive.boundary_renderList ds))

theorem TypeRef.lexes_bang (P : List Char → Prop) (nonNull : Bool) :
    Lexes P (if nonNull then "!" else "").toList (TypeRef.spellBang nonNull) := by
  cases nonNull with
  | false => exact lexes_nil _
  | true => exact lexes_punct _ '!' .bang rfl

theorem TypeRef.boundary_bang (nonNull : Bool) : Boundary (if nonNull then "!" else "").toList := by
  cases nonNull with
  | false => exact boundary_nil
  | true => exact boundary_punct _ rfl

theorem TypeRef.lexes_render : ∀ {d : Nat} (t : TypeRef), t.WellFormed lim d → Lexes Boundary t.render.toList t.spell
  | _, .named n nonNull, ⟨_, hn⟩ => by
    simp only [TypeRef.render, String.toList_append]
    exact (lexes_name hn).cat (TypeRef.lexes_bang _ nonNull) (TypeRef.boundary_bang nonNull)
  | _, .list e nonNull, ⟨_, he⟩ => by
    simp only [TypeRef.render, String.toList_append, List.append_assoc]
    exact (lexes_punct _ '[' .bracketL rfl).cat_open ((TypeRef.lexes_render e he).cat
      ((lexes_punct _ ']' .bracketR rfl).cat_open (TypeRef.lexes_bang _ nonNull)) (boundary_punct _ rfl))

/-! ### Selections -/

theorem Selection.renderItems_nil : Selection.renderItems [] = "" := by
  rw [Selection.renderItems]

theorem Selection.renderItems_cons (s : Selection) (sels : List Selection) :
    Selection.renderItems (s :: sels) = " " ++ s.render ++ Selection.renderItems sels := by
  rw [Selection.renderItems]

theorem Selection.boundary_renderItems (sels : List Selection) : Boundary (Selection.renderItems sels).toList := by
  cases sels with
  | nil => rw [Selection.renderItems_nil]; exact boundary_nil
  | cons s sels =>
    rw [Selection.renderItems_cons, String.toList_append, String.toList_append, List.append_assoc]
    exact boundary_ignored _ rfl

theorem Selection.lexes_renderSet {sels : List Selection}
    (h : Lexes Boundary (Selection.renderItems sels).toList (Selection.spellItems sels)) :
    Lexes Boundary (Selection.renderSet sels).toList (Selection.spellSet sels) := by
  rw [Selection.renderSet, String.toList_append, String.toList_append, List.append_assoc]
  exact (lexes_punct _ '\x7b' .braceL rfl).cat_open (h.cat ((lexes_blank _).cat_open (lexes_punct _ '\x7d' .braceR rfl))
    (boundary_ignored _ rfl))

theorem Selection.lexes_condition (cond : Option String) (hcond : ∀ t ∈ cond, isName t = true) :
    Lexes Boundary (match cond with
      | some t => " on " ++ t
      | none => "").toList (Selection.spellCondition cond) := by
  cases cond with
  | none => exact lexes_nil _
  | some t =>
    simp only [String.toList_append]
    exact (lexes_blank _).cat_open ((lexes_name_blank (w := "on") rfl).cat_open (lexes_name (hcond t rfl)))

theorem Selection.render_inlineFragment (cond : Option String) (dirs : List Directive) (sels : List Selection) :
    (Selection.inlineFragment cond dirs sels).render =
      "..." ++ (match cond with
        | some t => " on " ++ t
        | none => "") ++ Directive.renderList dirs ++ " " ++ Selection.renderSet sels := by
  cases cond <;> rw [Selection.render]

theorem Selection.boundary_renderSubselection (sub : Option (List Selection)) :
    Boundary (Selection.renderSubselection sub).toList := by
  cases sub with
  | none => rw [Selection.renderSubselection]; exact boundary_nil
  | some sels =>
    rw [Selection.renderSubselection, String.toList_append]
    exact boundary_ignored _ rfl

mutual

theorem Selection.lexes_render : ∀ {d : Nat} (s : Selection), s.WellFormed lim d →
    Lexes Boundary s.render.toList s.spell
  | _, .field key name args dirs sub, ⟨hkey, hname, hargs, hdirs, hsub⟩ => by
    have hpre : Lexes (fun _ => True) (if key = name then "" else key ++ ": ").toList
        (if key = name then [] else [(.name, key), TokenKind.colon.lexeme]) := by
      split
      · exact lexes_nil _
      · rw [String.toList_append]
        exact (lexes_name hkey).append ((lexes_punct _ ':' .colon rfl).cat_open (lexes_blank _))
          fun _ _ => boundary_punct _ rfl
    have hdirsub := (Directive.lexes_renderList dirs hdirs).cat (Selection.lexes_renderSubselection sub hsub)
      (Selection.boundary_renderSubselection sub)
    have hrest := (lexes_name hname).cat ((Argument.lexes_renderList args hargs).cat hdirsub
      ((Directive.boundary_renderList dirs).append (Selection.boundary_renderSubselection sub)))
      ((Argument.boundary_renderList args).append
        ((Directive.boundary_renderList dirs).append (Selection.boundary_renderSubselection sub)))
    simp only [Selection.render, Selection.spell, String.toList_append, List.append_assoc]
    exact hpre.cat_open hrest
  | _, .fragmentSpread name dirs, ⟨hname, _, hdirs⟩ => by
    simp only [Selection.render, Selection.spell, String.toList_append, List.append_assoc]
    exact (lexes_spread _).cat_open ((lexes_name hname).cat (Directive.lexes_renderList dirs hdirs)
      (Directive.boundary_renderList dirs))
  | _, .inlineFragment cond dirs sels, ⟨hcond, hdirs, _, _, hitems⟩ => by
    have hset := (lexes_blank _).cat_open (Selection.lexes_renderSet (Selection.lexes_renderItems sels hitems))
    have htail := (Directive.lexes_renderList dirs hdirs).cat hset (boundary_ignored _ rfl)
    have hbd := (Directive.boundary_renderList dirs).append (boundary_ignored (c := ' ') (Selection.renderSet sels).toList rfl)
    simp only [Selection.render_inlineFragment, Selection.spell, String.toList_append, List.append_assoc]
    exact (lexes_spread _).cat_open ((Selection.lexes_condition cond hcond).cat htail hbd)

theorem Selection.lexes_renderSubselection : ∀ {d : Nat} (sub : Option (List Selection)),
    Selection.SubselectionWellFormed lim d sub →
      Lexes Boundary (Selection.renderSubselection sub).toList (Selection.spellSubselection sub)
  | _, none, _ => by
    rw [Selection.renderSubselection]
    exact lexes_nil _
  | _, some sels, ⟨_, _, hitems⟩ => by
    rw [Selection.renderSubselection, String.toList_append]
    exact (lexes_blank _).cat_open (Selection.lexes_renderSet (Selection.lexes_renderItems sels hitems))

theorem Selection.lexes_renderItems : ∀ {d : Nat} (sels : List Selection), Selection.ItemsWellFormed lim d sels →
    Lexes Boundary (Selection.renderItems sels).toList (Selection.spellItems sels)
  | _, [], _ => by
    rw [Selection.renderItems_nil]
    exact lexes_nil _
  | _, s :: rest, ⟨hs, hrest⟩ => by
    rw [Selection.renderItems_cons, String.toList_append, String.toList_append, List.append_assoc]
    exact (lexes_blank _).cat_open ((Selection.lexes_render s hs).cat (Selection.lexes_renderItems rest hrest)
      (Selection.boundary_renderItems rest))

end

theorem VariableDefinition.lexes_default (dflt : Option Value) (hdflt : ∀ dv ∈ dflt, dv.WellFormed lim .defaultValue 0) :
    Lexes Boundary (match dflt with
      | some dv => " = " ++ dv.render
      | none => "").toList (VariableDefinition.spellDefault dflt) := by
  cases dflt with
  | none => exact lexes_nil _
  | some dv =>
    rw [String.toList_append]
    exact (lexes_blank _).cat_open ((lexes_punct _ '=' .equals rfl).cat_open
      ((lexes_blank _).cat_open (Value.lexes_render dv (hdflt dv rfl))))

theorem VariableDefinition.boundary_default (dflt : Option Value) :
    Boundary (match dflt with
      | some dv => " = " ++ dv.render
      | none => "").toList := by
  cases dflt with
  | none => exact boundary_nil
  | some dv =>
    rw [String.toList_append]
    exact boundary_ignored _ rfl

theorem VariableDefinition.lexes_render (v : VariableDefinition) (hv : v.WellFormed lim) :
    Lexes Boundary v.render.toList v.spell := by
  obtain ⟨hname, hty, hdflt, hdirs⟩ := hv
  have hbd := (VariableDefinition.boundary_default v.defaultValue).append (Directive.boundary_renderList v.directives)
  have htail := (VariableDefinition.lexes_default v.defaultValue hdflt).cat
    (Directive.lexes_renderList v.directives hdirs) (Directive.boundary_renderList v.directives)
  have htype := (TypeRef.lexes_render v.varType hty).cat htail hbd
  simp only [VariableDefinition.render, VariableDefinition.spell, String.toList_append, List.append_assoc]
  exact (lexes_punct _ '$' .dollar rfl).cat_open ((lexes_name hname).cat
    ((lexes_punct _ ':' .colon rfl).cat_open ((lexes_blank _).cat_open htype)) (boundary_punct _ rfl))

theorem OperationKind.isName_keyword (k : OperationKind) : isName k.keyword = true := by
  cases k <;> rfl

theorem Operation.lexes_renderName (name : Option String) (hname : ∀ n ∈ name, isName n = true) :
    Lexes Boundary (match name with
      | some n => " " ++ n
      | none => "").toList (Operation.spellName name) := by
  cases name with
  | none => exact lexes_nil _
  | some n =>
    rw [String.toList_append]
    exact (lexes_blank _).cat_open (lexes_name (hname n rfl))

theorem Operation.boundary_renderName (name : Option String) :
    Boundary (match name with
      | some n => " " ++ n
      | none => "").toList := by
  cases name with
  | none => exact boundary_nil
  | some n =>
    rw [String.toList_append]
    exact boundary_ignored _ rfl

theorem Operation.lexes_renderVariables (vars : List VariableDefinition) (hvars : ∀ v ∈ vars, v.WellFormed lim) :
    Lexes Boundary (match vars with
      | [] => ""
      | vs => "(" ++ ", ".intercalate (vs.map VariableDefinition.render) ++ ")").toList
      (Operation.spellVariables vars) := by
  match vars, hvars with
  | [], _ => exact lexes_nil _
  | v :: vs, hvars =>
    have hsep := lexes_intercalate ", " (by simp [isIgnored]) (by simp)
      ((v :: vs).map fun w => (w.render, w.spell)) (by
        simp only [List.mem_map]
        rintro _ ⟨w, hw, rfl⟩
        exact w.lexes_render (hvars w hw))
    simp only [List.map_map, List.flatMap_map, Function.comp_def] at hsep
    simp only [String.toList_append, List.append_assoc]
    exact (lexes_punct _ '(' .parenL rfl).cat_open (hsep.cat (lexes_punct _ ')' .parenR rfl) (boundary_punct _ rfl))

theorem Operation.boundary_renderVariables (vars : List VariableDefinition) :
    Boundary (match vars with
      | [] => ""
      | vs => "(" ++ ", ".intercalate (vs.map VariableDefinition.render) ++ ")").toList := by
  cases vars with
  | nil => exact boundary_nil
  | cons v vs =>
    simp only [String.toList_append, List.append_assoc]
    exact boundary_punct _ rfl

theorem Operation.lexes_render (o : Operation) (ho : o.WellFormed lim) : Lexes Boundary o.render.toList o.spell := by
  obtain ⟨hname, hvars, hdirs, _, _, hitems⟩ := ho
  have hset := Selection.lexes_renderSet (Selection.lexes_renderItems o.selectionSet hitems)
  unfold Operation.render Operation.spell
  by_cases hs : o.isShorthand = true
  · rw [if_pos hs, if_pos hs]
    exact hset
  · rw [if_neg hs, if_neg hs]
    have hbd := (Directive.boundary_renderList o.directives).append
      (boundary_ignored (c := ' ') (Selection.renderSet o.selectionSet).toList rfl)
    have hdirs' := (Directive.lexes_renderList o.directives hdirs).cat ((lexes_blank _).cat_open hset)
      (boundary_ignored _ rfl)
    have hvars' := (Operation.lexes_renderVariables o.variableDefinitions hvars).cat hdirs' hbd
    have hbd' := (Operation.boundary_renderVariables o.variableDefinitions).append hbd
    have hname' := (Operation.lexes_renderName o.name hname).cat hvars' hbd'
    simp only [String.toList_append, List.append_assoc]
    exact (lexes_name (OperationKind.isName_keyword o.kind)).cat hname'
      ((Operation.boundary_renderName o.name).append hbd')

theorem Fragment.lexes_render (f : Fragment) (hf : f.WellFormed lim) : Lexes Boundary f.render.toList f.spell := by
  obtain ⟨hname, _, hcond, hdirs, _, _, hitems⟩ := hf
  have hset := (lexes_blank _).cat_open (Selection.lexes_renderSet (Selection.lexes_renderItems f.selectionSet hitems))
  have htail := (Directive.lexes_renderList f.directives hdirs).cat hset (boundary_ignored _ rfl)
  have hbd := (Directive.boundary_renderList f.directives).append
    (boundary_ignored (c := ' ') (Selection.renderSet f.selectionSet).toList rfl)
  have hon := (lexes_name_blank (w := "on") rfl).cat_open ((lexes_name hcond).cat htail hbd)
  simp only [Fragment.render, Fragment.spell, String.toList_append, List.append_assoc]
  exact (lexes_name_blank (w := "fragment") rfl).cat_open ((lexes_name hname).cat ((lexes_blank _).cat_open hon)
    (boundary_ignored _ rfl))

/-- **The text of a well-formed document lexes to the tokens it spells.** -/
theorem Document.lexes_render (d : Document) (hd : d.WellFormed lim) : Lexes Boundary d.render.toList d.spell := by
  have h := lexes_intercalate "\n" (by simp [isIgnored]) (by simp)
    (d.operations.map (fun o => (o.render, o.spell)) ++ d.fragments.map (fun f => (f.render, f.spell))) (by
      intro p hp
      simp only [List.mem_append, List.mem_map] at hp
      rcases hp with ⟨o, ho, rfl⟩ | ⟨f, hf, rfl⟩
      · exact o.lexes_render (hd.1 o ho)
      · exact f.lexes_render (hd.2 f hf))
  simp only [List.map_append, List.map_map, List.flatMap_append, List.flatMap_map, Function.comp_def] at h
  exact h

end Render

/-- **A well-formed document reads back from its text**, with no fault. -/
theorem parse_render (d : Document) (hd : d.WellFormed Diagnostic.nestingLimit) :
    Document.parse d.render = ⟨d, none⟩ := by
  obtain ⟨ts, pos, hts, hsig⟩ := Document.lexes_render d hd {} [] boundary_nil
  rw [List.append_nil, significant_empty, List.append_nil] at hsig
  have hdoc := Document.isDocument_of_spell d hd hts
  rw [Document.parse_eq]
  simp only [Lexer.ofString, hsig]
  rw [Syntax.definitions_complete _ hdoc rfl rfl]
  simp

/-- A query with a variable, a default, an alias, a directive and a fragment spread, and the
fragment it spreads, read back from their text. -/
theorem parse_render_hero :
    let d : Document :=
      ⟨[⟨.query, some "Hero", [⟨"ep", .named "Episode" true, [], some (.enum "JEDI")⟩], [],
          [.field "hero" "hero" [⟨"episode", .variable "ep"⟩] [⟨"include", [⟨"if", .boolean true⟩]⟩]
            (some [.field "nick" "name" [] [] none, .fragmentSpread "Friends" []])]⟩],
        [⟨"Friends", "Character", [], [.field "friends" "friends" [⟨"first", .list [.null, .string "a\"b"]⟩] []
            (some [.field "name" "name" [] [] none])]⟩]⟩
    d.WellFormed Diagnostic.nestingLimit ∧ Document.parse d.render = ⟨d, none⟩ := by
  intro d
  have hd : d.WellFormed Diagnostic.nestingLimit := by
    simp [d, Document.WellFormed, Operation.WellFormed, Fragment.WellFormed, VariableDefinition.WellFormed,
      Selection.SetWellFormed, Selection.WellFormed, Selection.SubselectionWellFormed, Selection.ItemsWellFormed,
      Argument.WellFormed, Directive.WellFormed, TypeRef.WellFormed, Value.WellFormed, Value.ItemsWellFormed,
      ValueContext.forbidding?, Diagnostic.nestingLimit]
    decide
  exact ⟨hd, parse_render d hd⟩

end Gql
