import Mathlib.Tactic.SplitIfs
import Gql.Proofs.Descent.Sound
/-!
# Depth — the nesting limit cuts a reading only where it is reached

The reader carries the depth of the construct it reads: values, selection sets and list types
read what they hold one level deeper, every other rule reads at the depth it was given, and a
definition starts at depth `0`.  Each level is opened by a brace or a bracket that the reader
has taken and not yet closed, so the depth at which a rule reads is the number of braces and
brackets open in the tokens taken since the definition started (`nestingLevel`).

Hence the limit on the depth cuts a reading only where it is reached (`definitions_agree`):
read with a larger limit, the tokens give the same document and fault, unless the reading at
the smaller limit `L` stops with the fault of nesting too deep, at a point where exactly `L`
levels are open — about to enter a construct at level `L + 1` — placed at the next token, or
the lexical fault that ends the tokens.  As no more levels can be open than tokens were taken,
a limit above the number of tokens is never reached: the reading ends by the tokens it takes
alone (`definitions_eq_beyond_length`).  For a parse, read at `Diagnostic.nestingLimit`, the
fault stands at the first token of the construct that would sit one level deeper than the
limit allows (`parse_stops_only_at_nesting_limit`).
-/
namespace Gql

def TokenKind.nesting : TokenKind → Int
  | .braceL | .bracketL => 1
  | .braceR | .bracketR => -1
  | _ => 0

/-- The levels that the tokens `ts` leave open: their opening braces and brackets less their
closing ones. -/
def nestingLevel : List Token → Int
  | [] => 0
  | t :: ts => t.kind.nesting + nestingLevel ts

@[simp] theorem nestingLevel_nil : nestingLevel [] = 0 := rfl

@[simp] theorem nestingLevel_cons (t : Token) (ts : List Token) :
    nestingLevel (t :: ts) = t.kind.nesting + nestingLevel ts := rfl

@[simp] theorem nestingLevel_append (a b : List Token) :
    nestingLevel (a ++ b) = nestingLevel a + nestingLevel b := by
  induction a with
  | nil => simp
  | cons t a ih =>
    simp only [List.cons_append, nestingLevel_cons, ih]
    omega

theorem TokenKind.nesting_le_one (k : TokenKind) : k.nesting ≤ 1 := by
  cases k <;> decide

theorem nestingLevel_le_length (ts : List Token) : nestingLevel ts ≤ ts.length := by
  induction ts with
  | nil => simp
  | cons t ts ih =>
    have := t.kind.nesting_le_one
    simp only [nestingLevel_cons, List.length_cons]
    omega

/-! ### Sentences close what they open -/

namespace Grammar

variable {lim : Nat}

theorem Seq.level {α : Type} {N : List Token → α → Prop} (hN : ∀ {us a}, N us a → nestingLevel us = 0) :
    ∀ {ts xs}, Seq N ts xs → nestingLevel ts = 0
  | _, _, .nil => rfl
  | _, _, .cons hn hs => by simp [hN hn, Seq.level hN hs]

mutual

theorem IsValue.level : ∀ {ctx d ts v}, IsValue lim ctx d ts v → nestingLevel ts = 0
  | _, _, _, _, .variable _ _ hk hn => by simp [hk, hn, TokenKind.nesting]
  | _, _, _, _, .int _ hk => by simp [hk, TokenKind.nesting]
  | _, _, _, _, .float _ hk => by simp [hk, TokenKind.nesting]
  | _, _, _, _, .string _ hk => by simp [hk, TokenKind.nesting]
  | _, _, _, _, .blockString _ hk => by simp [hk, TokenKind.nesting]
  | _, _, _, _, .boolean _ _ hk _ => by simp [hk, TokenKind.nesting]
  | _, _, _, _, .null _ hk _ => by simp [hk, TokenKind.nesting]
  | _, _, _, _, .enum _ hk _ _ _ => by simp [hk, TokenKind.nesting]
  | _, _, _, _, .list _ ho hc hvs => by simp [ho, hc, IsValues.level hvs, TokenKind.nesting]
  | _, _, _, _, .object _ ho hc hfs => by simp [ho, hc, IsFields.level hfs, TokenKind.nesting]

theorem IsValues.level : ∀ {ctx d ts vs}, IsValues lim ctx d ts vs → nestingLevel ts = 0
  | _, _, _, _, .nil => rfl
  | _, _, _, _, .cons hv hvs => by simp [IsValue.level hv, IsValues.level hvs]

theorem IsFields.level : ∀ {ctx d ts fs}, IsFields lim ctx d ts fs → nestingLevel ts = 0
  | _, _, _, _, .nil => rfl
  | _, _, _, _, .cons hn hc hv hfs => by simp [hn, hc, IsValue.level hv, IsFields.level hfs, TokenKind.nesting]

end

theorem IsArgument.level {ctx d ts a} (h : IsArgument lim ctx d ts a) : nestingLevel ts = 0 := by
  cases h with
  | mk hn hc hv => simp [hn, hc, hv.level, TokenKind.nesting]

theorem IsArguments.level {ctx d ts args} (h : IsArguments lim ctx d ts args) : nestingLevel ts = 0 := by
  cases h with
  | none => rfl
  | some ho hc hs _ => simp [ho, hc, Seq.level IsArgument.level hs, TokenKind.nesting]

theorem IsDirectives.level {ctx d ts dirs} (h : IsDirectives lim ctx d ts dirs) : nestingLevel ts = 0 :=
  Seq.level (fun hd => by cases hd with | mk hs hn ha => simp [hs, hn, ha.level, TokenKind.nesting]) h

theorem IsType.level {d ts ty} (h : IsType lim d ts ty) : nestingLevel ts = 0 := by
  have hbang : ∀ {bang b}, IsBang bang b → nestingLevel bang = 0 := fun hb => by
    cases hb with
    | none => rfl
    | some hk => simp [hk, TokenKind.nesting]
  induction h with
  | named _ hk hb => simp [hk, hbang hb, TokenKind.nesting]
  | list _ ho hc _ hb ih => simp [ho, hc, ih, hbang hb, TokenKind.nesting]

theorem IsFieldName.level {tn key name} (h : IsFieldName tn key name) : nestingLevel tn = 0 := by
  cases h <;> simp [*, TokenKind.nesting]

theorem IsTypeCondition.level {tc cond} (h : IsTypeCondition tc cond) : nestingLevel tc = 0 := by
  cases h with
  | none => rfl
  | some hon hn =>
    simp only [Token.isKeyword, Bool.and_eq_true, beq_iff_eq] at hon
    simp [hon.1, hn, TokenKind.nesting]

mutual

theorem IsSelection.level : ∀ {d ts s}, IsSelection lim d ts s → nestingLevel ts = 0
  | _, _, _, .field hn ha hd hs => by
    simp [hn.level, ha.level, hd.level, IsSubselection.level hs]
  | _, _, _, .fragmentSpread hs hn _ hd => by simp [hs, hn, hd.level, TokenKind.nesting]
  | _, _, _, .inlineFragment hs hc hd hss => by
    simp [hs, hc.level, hd.level, IsSelectionSet.level hss, TokenKind.nesting]

theorem IsSubselection.level : ∀ {d ts sub}, IsSubselection lim d ts sub → nestingLevel ts = 0
  | _, _, _, .none => rfl
  | _, _, _, .some hss => IsSelectionSet.level hss

theorem IsSelectionSet.level : ∀ {d ts sels}, IsSelectionSet lim d ts sels → nestingLevel ts = 0
  | _, _, _, .mk _ ho hc hs _ => by simp [ho, hc, IsSelections.level hs, TokenKind.nesting]

theorem IsSelections.level : ∀ {d ts sels}, IsSelections lim d ts sels → nestingLevel ts = 0
  | _, _, _, .nil => rfl
  | _, _, _, .cons hs hss => by simp [IsSelection.level hs, IsSelections.level hss]

end

theorem IsDefault.level {ts dflt} (h : IsDefault lim ts dflt) : nestingLevel ts = 0 := by
  cases h with
  | none => rfl
  | some he hv => simp [he, hv.level, TokenKind.nesting]

theorem IsVariableDefinition.level {ts vd} (h : IsVariableDefinition lim ts vd) : nestingLevel ts = 0 := by
  cases h with
  | mk hd hn hc ht hdf hds => simp [hd, hn, hc, ht.level, hdf.level, hds.level, TokenKind.nesting]

theorem IsVariables.level {ts vars} (h : IsVariables lim ts vars) : nestingLevel ts = 0 := by
  cases h with
  | none => rfl
  | some ho hc hvs _ => simp [ho, hc, Seq.level IsVariableDefinition.level hvs, TokenKind.nesting]

theorem IsOperationName.level {ts name} (h : IsOperationName ts name) : nestingLevel ts = 0 := by
  cases h with
  | none => rfl
  | some hk => simp [hk, TokenKind.nesting]

theorem IsOperation.level {ts op} (h : IsOperation lim ts op) : nestingLevel ts = 0 := by
  cases h with
  | shorthand hs => exact hs.level
  | full hk _ hn hv hd hs => simp [hk, hn.level, hv.level, hd.level, hs.level, TokenKind.nesting]

theorem IsFragment.level {ts f} (h : IsFragment lim ts f) : nestingLevel ts = 0 := by
  cases h with
  | mk hf hn _ hon hc hd hs =>
    simp only [Token.isKeyword, Bool.and_eq_true, beq_iff_eq] at hf hon
    simp [hf.1, hn, hon.1, hc, hd.level, hs.level, TokenKind.nesting]

end Grammar

/-! ### Two readings at two limits -/

namespace Syntax

open Grammar

/-- Two results of a rule read at depth `d` from `ts`, at the limit `L` and at a larger one: the
same, or the first is the fault of nesting too deep before the tokens `rest`, where the depth
and the levels that the tokens taken before `rest` open make `L`. -/
def Agree (stop : Stop) (L d : Nat) (ts : List Token) {β : Type} (x y : Except Diagnostic β) : Prop :=
  x = y ∨ ∃ pre rest, ts = pre ++ rest ∧ x = .error (tooDeepAt stop L rest) ∧ (d : Int) + nestingLevel pre = L

/-- A read whose successes take tokens that leave `δ` levels open. -/
def LeavesOpen {α : Type} {P : List Token → Prop} (δ : Int) (ts : List Token)
    (x : Except Diagnostic (α × Subtype P)) : Prop :=
  ∀ a, x = .ok a → ∃ p, ts = p ++ a.2.1 ∧ nestingLevel p = δ

section Agree

variable {stop : Stop} {L d : Nat} {ts : List Token} {β γ : Type}

theorem Agree.refl (x : Except Diagnostic β) : Agree stop L d ts x x := .inl rfl

theorem agree_tooDeepAt (h : d = L) (y : Except Diagnostic β) :
    Agree stop L d ts (.error (tooDeepAt stop L ts)) y :=
  .inr ⟨[], ts, rfl, rfl, by simp [h]⟩

/-- What agrees after the tokens `p`, at the depth that they leave, agrees before them. -/
theorem Agree.append (d' : Nat) {p r : List Token} {x y : Except Diagnostic β} (hts : ts = p ++ r)
    (hd : (d' : Int) = d + nestingLevel p) (h : Agree stop L d' r x y) : Agree stop L d ts x y := by
  rcases h with rfl | ⟨pre, rest, hr, hx, hl⟩
  · exact .inl rfl
  · refine .inr ⟨p ++ pre, rest, by rw [hts, hr, List.append_assoc], hx, ?_⟩
    rw [nestingLevel_append]
    omega

theorem Agree.bind {x y : Except Diagnostic β} {f g : β → Except Diagnostic γ} (hxy : Agree stop L d ts x y)
    (hfg : ∀ a, x = .ok a → Agree stop L d ts (f a) (g a)) : Agree stop L d ts (x >>= f) (y >>= g) := by
  rcases hxy with rfl | ⟨pre, rest, hts, rfl, hl⟩
  · cases x with
    | error e => exact .inl rfl
    | ok a => exact hfg a rfl
  · exact .inr ⟨pre, rest, hts, rfl, hl⟩

theorem Agree.cons (d' : Nat) {r : List Token} {t : Token} {x y : Except Diagnostic β}
    (hts : ts = t :: r) (hd : (d' : Int) = d + t.kind.nesting) (h : Agree stop L d' r x y) :
    Agree stop L d ts x y :=
  h.append d' (p := [t]) hts (by simp [hd])

/-- Two reads that agree and take tokens leaving `δ` levels open, then go on to agree on what
they leave, at the depth those levels make. -/
theorem Agree.bind_open {α : Type} {P : List Token → Prop} {x y : Except Diagnostic (α × Subtype P)}
    {f g : α × Subtype P → Except Diagnostic γ} {δ : Int} (d' : Nat) (hd : (d' : Int) = d + δ)
    (hxy : Agree stop L d ts x y) (hx : LeavesOpen δ ts x)
    (hfg : ∀ a, x = .ok a → Agree stop L d' a.2.1 (f a) (g a)) : Agree stop L d ts (x >>= f) (y >>= g) := by
  refine hxy.bind fun a ha => ?_
  obtain ⟨p, hts, hp⟩ := hx a ha
  exact (hfg a ha).append d' hts (by rw [hp]; exact hd)

theorem Agree.bind_closed {α : Type} {P : List Token → Prop} {x y : Except Diagnostic (α × Subtype P)}
    {f g : α × Subtype P → Except Diagnostic γ}
    (hxy : Agree stop L d ts x y) (hx : LeavesOpen 0 ts x)
    (hfg : ∀ a, x = .ok a → Agree stop L d a.2.1 (f a) (g a)) : Agree stop L d ts (x >>= f) (y >>= g) :=
  hxy.bind_open d (by simp) hx hfg

end Agree

/-! ### The levels each rule leaves open -/

section Leaves

variable {stop : Stop} {L d : Nat} {ts : List Token} {ctx : ValueContext}

theorem LeavesOpen.of_sound {α : Type} {P : List Token → Prop} {x : Except Diagnostic (α × Subtype P)}
    {R : List Token → α → Prop} {δ : Int} (hR : ∀ {pre a}, R pre a → nestingLevel pre = δ)
    (h : ∀ {a r}, x = .ok (a, r) → ∃ pre, ts = pre ++ r.1 ∧ R pre a) : LeavesOpen δ ts x := by
  rintro ⟨a, r⟩ hx
  obtain ⟨pre, hts, hpre⟩ := h hx
  exact ⟨pre, hts, hR hpre⟩

theorem expect_leaves {k : TokenKind} : LeavesOpen k.nesting ts (expect stop k ts) := by
  rintro ⟨t, r⟩ h
  obtain ⟨hts, hk⟩ := expect_ok h
  exact ⟨[t], hts, by simp [hk]⟩

theorem expectName_leaves : LeavesOpen 0 ts (expectName stop ts) := by
  rintro ⟨t, r⟩ h
  obtain ⟨hts, hk⟩ := expectName_ok h
  exact ⟨[t], hts, by simp [hk, TokenKind.nesting]⟩

theorem expectKeyword_leaves {w : String} : LeavesOpen 0 ts (expectKeyword stop w ts) := by
  rintro ⟨t, r⟩ h
  obtain ⟨hts, hk⟩ := expectKeyword_ok h
  simp only [Token.isKeyword, Bool.and_eq_true, beq_iff_eq] at hk
  exact ⟨[t], hts, by simp [hk.1, TokenKind.nesting]⟩

theorem fragmentName_leaves : LeavesOpen 0 ts (fragmentName stop ts) := by
  rintro ⟨n, r⟩ h
  obtain ⟨t, hts, hk, -⟩ := fragmentName_ok h
  exact ⟨[t], hts, by simp [hk, TokenKind.nesting]⟩

theorem fieldName_leaves {first : Token} : LeavesOpen 0 ts (fieldName stop first ts) := by
  rintro ⟨name, r⟩ h
  obtain ⟨y, hy, h⟩ := bind_eq_ok.1 h
  cases y with
  | some r1 =>
    obtain ⟨colon, hts, hcolon⟩ := accept_some hy
    obtain ⟨⟨n, r2, h2⟩, hn, h⟩ := bind_eq_ok.1 h
    cases h
    obtain ⟨hr1, hnk⟩ := expectName_ok hn
    simp only [decide_eq_true_eq] at hcolon
    exact ⟨[colon, n], by simp [hts, hr1], by simp [hcolon, hnk, TokenKind.nesting]⟩
  | none =>
    cases h
    exact ⟨[], rfl, rfl⟩

theorem value_leaves : LeavesOpen 0 ts (value stop L ctx d ts) :=
  .of_sound IsValue.level value_sound

theorem typeRef_leaves : LeavesOpen 0 ts (typeRef stop L d ts) :=
  .of_sound IsType.level typeRef_sound

theorem argument_leaves : LeavesOpen 0 ts (argument stop L ctx d ts) :=
  .of_sound IsArgument.level argument_sound

theorem arguments_leaves : LeavesOpen 0 ts (arguments stop L ctx d ts) :=
  .of_sound IsArguments.level arguments_sound

theorem directives_leaves : LeavesOpen 0 ts (directives stop L ctx d ts) :=
  .of_sound IsDirectives.level directives_sound

theorem typeCondition_leaves : LeavesOpen 0 ts (typeCondition stop ts) :=
  .of_sound IsTypeCondition.level typeCondition_sound

theorem selection_leaves : LeavesOpen 0 ts (selection stop L d ts) :=
  .of_sound IsSelection.level selection_sound

theorem defaultValue_leaves : LeavesOpen 0 ts (defaultValue stop L ts) :=
  .of_sound IsDefault.level defaultValue_sound

theorem variableDefinition_leaves : LeavesOpen 0 ts (variableDefinition stop L ts) :=
  .of_sound IsVariableDefinition.level variableDefinition_sound

theorem operationName_leaves : LeavesOpen 0 ts (operationName stop ts) :=
  .of_sound IsOperationName.level operationName_sound

theorem variableDefinitions_leaves : LeavesOpen 0 ts (variableDefinitions stop L ts) :=
  .of_sound IsVariables.level variableDefinitions_sound

theorem operation_leaves : LeavesOpen 0 ts (operation stop L ts) :=
  .of_sound IsOperation.level operation_sound

theorem fragment_leaves : LeavesOpen 0 ts (fragment stop L ts) :=
  .of_sound IsFragment.level fragment_sound

end Leaves

/-! ### The rules read alike at two limits

Each rule is read at the limit `L` and at a larger `L'` from a depth `d ≤ L`.  Below the
limit both readings take the same steps: the steps that do not look at the depth give the
same result, and the rules they enter agree by recursion, at the depth that the tokens taken
before them leave.  At the limit the reading at `L` stops, which is the second case of
`Agree`. -/

section Rules

variable {stop : Stop} {L L' : Nat}

/-- The check on entering a nested construct: at the limit the reading at `L` stops with the
fault of nesting too deep, and below it both readings go on. -/
theorem agree_depthCheck {β : Type} {d : Nat} {ts : List Token} (hd : d ≤ L) (hL : L ≤ L')
    {x : ¬ L ≤ d → Except Diagnostic β} {y : ¬ L' ≤ d → Except Diagnostic β}
    (h : ∀ h h', Agree stop L d ts (x h) (y h')) :
    Agree stop L d ts (if h : L ≤ d then .error (tooDeepAt stop L ts) else x h)
      (if h : L' ≤ d then .error (tooDeepAt stop L' ts) else y h) := by
  by_cases hLd : L ≤ d
  · rw [dif_pos hLd]
    exact agree_tooDeepAt (by omega) _
  · rw [dif_neg hLd, dif_neg (by omega)]
    exact h hLd (by omega)

mutual

theorem value_agree (hL : L ≤ L') {ctx : ValueContext} : ∀ {d} {ts : List Token}, d ≤ L →
    Agree stop L d ts (value stop L ctx d ts) (value stop L' ctx d ts)
  | d, ts, hd => by
    rw [value.eq_def, value.eq_def]
    refine agree_depthCheck hd hL fun hLd _ => ?_
    match ts with
    | [] => exact .refl _
    | t :: r =>
      dsimp only
      cases hk : t.kind
      all_goals dsimp only
      -- only a list or an object is read one level deeper; every other value is one token
      case bracketL =>
        refine Agree.bind (Agree.cons (d + 1) rfl (by simp [hk, TokenKind.nesting]) (listItems_agree hL (by omega))) ?_
        exact fun _ _ => .refl _
      case braceL =>
        refine Agree.bind (Agree.cons (d + 1) rfl (by simp [hk, TokenKind.nesting]) (objectFields_agree hL (by omega))) ?_
        exact fun _ _ => .refl _
      all_goals exact .refl _
termination_by _ ts => (ts.length, 0)
decreasing_by all_goals decreasing_with omega

theorem listItems_agree (hL : L ≤ L') {ctx : ValueContext} {o : Token} : ∀ {d} {ts : List Token}, d ≤ L →
    Agree stop L d ts (listItems stop L ctx d o ts) (listItems stop L' ctx d o ts)
  | _, [], _ => by
    rw [listItems, listItems]
    exact .refl _
  | d, t :: r, hd => by
    rw [listItems, listItems]
    split_ifs
    · exact .refl _
    · exact .refl _
    · refine Agree.bind_closed (value_agree hL hd) value_leaves ?_
      rintro ⟨v, r1, h1⟩ -
      exact Agree.bind (listItems_agree hL hd) fun _ _ => .refl _
termination_by _ ts => (ts.length, 1)
decreasing_by all_goals decreasing_with omega

theorem objectFields_agree (hL : L ≤ L') {ctx : ValueContext} {o : Token} : ∀ {d} {ts : List Token}, d ≤ L →
    Agree stop L d ts (objectFields stop L ctx d o ts) (objectFields stop L' ctx d o ts)
  | _, [], _ => by
    rw [objectFields, objectFields]
    exact .refl _
  | d, t :: r, hd => by
    rw [objectFields, objectFields]
    split_ifs
    · exact .refl _
    · exact .refl _
    · refine Agree.bind_closed (.refl _) expectName_leaves ?_
      rintro ⟨n, r1, h1⟩ -
      refine Agree.bind_closed (.refl _) expect_leaves ?_
      rintro ⟨c, r2, h2⟩ -
      refine Agree.bind_closed (value_agree hL hd) value_leaves ?_
      rintro ⟨v, r3, h3⟩ -
      exact Agree.bind (objectFields_agree hL hd) fun _ _ => .refl _
termination_by _ ts => (ts.length, 1)
decreasing_by all_goals decreasing_with grind

end

theorem typeRef_agree (hL : L ≤ L') : ∀ {d} {ts : List Token}, d ≤ L →
    Agree stop L d ts (typeRef stop L d ts) (typeRef stop L' d ts)
  | d, ts, hd => by
    rw [typeRef.eq_def, typeRef.eq_def]
    refine agree_depthCheck hd hL fun hLd _ => ?_
    dsimp only
    -- the `!` after a type does not look at the depth
    refine Agree.bind ?_ fun _ _ => .refl _
    match ts with
    | [] => exact .refl _
    | t :: r =>
      dsimp only
      cases hk : t.kind
      all_goals dsimp only
      case bracketL =>
        refine Agree.cons (d + 1) rfl (by simp [hk, TokenKind.nesting]) ?_
        refine Agree.bind_closed (typeRef_agree hL (by omega)) typeRef_leaves ?_
        exact fun _ _ => .refl _
      all_goals exact .refl _
termination_by _ ts => ts.length

theorem argument_agree (hL : L ≤ L') {ctx : ValueContext} {d} {ts : List Token} (hd : d ≤ L) :
    Agree stop L d ts (argument stop L ctx d ts) (argument stop L' ctx d ts) := by
  unfold argument
  refine Agree.bind_closed (.refl _) expectName_leaves ?_
  rintro ⟨n, r1, h1⟩ -
  refine Agree.bind_closed (.refl _) expect_leaves ?_
  rintro ⟨c, r2, h2⟩ -
  exact Agree.bind (value_agree hL hd) fun _ _ => .refl _

theorem itemsUntil_agree {α : Type} {close : TokenKind} {o : Token} {d : Nat}
    {item item' : (ts : List Token) → Except Diagnostic (Taken ts α)}
    (hitem : ∀ ts, Agree stop L d ts (item ts) (item' ts)) (hleaves : ∀ ts, LeavesOpen 0 ts (item ts)) :
    ∀ ts, Agree stop L d ts (itemsUntil stop close o item ts) (itemsUntil stop close o item' ts)
  | [] => by
    rw [itemsUntil, itemsUntil]
    exact .refl _
  | t :: r => by
    rw [itemsUntil, itemsUntil]
    split_ifs
    · exact .refl _
    · exact .refl _
    · refine Agree.bind_closed (hitem _) (hleaves _) ?_
      rintro ⟨x, r1, h1⟩ -
      exact Agree.bind (itemsUntil_agree hitem hleaves r1) fun _ _ => .refl _
termination_by ts => ts.length
decreasing_by all_goals decreasing_with grind

theorem nonEmptyList_agree {α : Type} {openKind close : TokenKind} {itemWord construct : String} {d : Nat}
    {read read' : (ts : List Token) → Except Diagnostic (Taken ts α)} (hk : openKind.nesting = 0)
    (hread : ∀ ts, Agree stop L d ts (read ts) (read' ts)) (hleaves : ∀ ts, LeavesOpen 0 ts (read ts))
    (ts : List Token) :
    Agree stop L d ts (nonEmptyList stop openKind close itemWord construct read ts)
      (nonEmptyList stop openKind close itemWord construct read' ts) := by
  unfold nonEmptyList
  refine Agree.bind_open d (by simp [hk]) (.refl _) expect_leaves ?_
  rintro ⟨o, r1, h1⟩ -
  refine Agree.bind (.refl _) fun _ _ => ?_
  exact Agree.bind (itemsUntil_agree hread hleaves r1) fun _ _ => .refl _

theorem arguments_agree (hL : L ≤ L') {ctx : ValueContext} {d} {ts : List Token} (hd : d ≤ L) :
    Agree stop L d ts (arguments stop L ctx d ts) (arguments stop L' ctx d ts) := by
  unfold arguments
  refine Agree.bind (.refl _) fun b _ => ?_
  split_ifs
  · refine Agree.bind (nonEmptyList_agree rfl (fun _ => argument_agree hL hd) (fun _ => argument_leaves) _) ?_
    exact fun _ _ => .refl _
  · exact .refl _

theorem directives_agree (hL : L ≤ L') {ctx : ValueContext} {d} (hd : d ≤ L) : ∀ {ts : List Token},
    Agree stop L d ts (directives stop L ctx d ts) (directives stop L' ctx d ts)
  | ts => by
    rw [directives, directives]
    refine Agree.bind (.refl _) fun o ho => ?_
    rcases o with _ | ⟨r1, h1⟩
    · exact .refl _
    · obtain ⟨t, hts, hk⟩ := accept_some ho
      simp only [decide_eq_true_eq] at hk
      refine Agree.cons d hts (by simp [hk, TokenKind.nesting]) ?_
      refine Agree.bind_closed (.refl _) expectName_leaves ?_
      rintro ⟨n, r2, h2⟩ -
      refine Agree.bind_closed (arguments_agree hL hd) arguments_leaves ?_
      rintro ⟨args, r3, h3⟩ -
      exact Agree.bind (directives_agree hL hd) fun _ _ => .refl _
termination_by ts => ts.length
decreasing_by all_goals decreasing_with omega

mutual

theorem selectionSet_agree (hL : L ≤ L') : ∀ {d} {ts : List Token}, d ≤ L →
    Agree stop L d ts (selectionSet stop L d ts) (selectionSet stop L' d ts)
  | d, ts, hd => by
    rw [selectionSet.eq_def, selectionSet.eq_def]
    refine agree_depthCheck hd hL fun hLd _ => ?_
    refine Agree.bind_open (d + 1) (by simp [TokenKind.nesting]) (.refl _) expect_leaves ?_
    rintro ⟨o, r1, h1⟩ -
    refine Agree.bind (.refl _) fun _ _ => ?_
    exact Agree.bind (selections_agree hL (by omega)) fun _ _ => .refl _
termination_by _ ts => (ts.length, 2)
decreasing_by all_goals decreasing_with omega

theorem subselection_agree (hL : L ≤ L') : ∀ {d} {ts : List Token}, d ≤ L →
    Agree stop L d ts (subselection stop L d ts) (subselection stop L' d ts)
  | d, ts, hd => by
    rw [subselection, subselection]
    refine Agree.bind (.refl _) fun b _ => ?_
    split_ifs
    · exact Agree.bind (selectionSet_agree hL hd) fun _ _ => .refl _
    · exact .refl _
termination_by _ ts => (ts.length, 3)
decreasing_by all_goals decreasing_with omega

theorem selections_agree (hL : L ≤ L') {o : Token} : ∀ {d} {ts : List Token}, d ≤ L →
    Agree stop L d ts (selections stop L d o ts) (selections stop L' d o ts)
  | _, [], _ => by
    rw [selections, selections]
    exact .refl _
  | d, t :: r, hd => by
    rw [selections, selections]
    split_ifs
    · exact .refl _
    · exact .refl _
    · refine Agree.bind_closed (selection_agree hL hd) selection_leaves ?_
      rintro ⟨s, r1, h1⟩ -
      exact Agree.bind (selections_agree hL hd) fun _ _ => .refl _
termination_by _ ts => (ts.length, 1)
decreasing_by all_goals decreasing_with omega

theorem selection_agree (hL : L ≤ L') : ∀ {d} {ts : List Token}, d ≤ L →
    Agree stop L d ts (selection stop L d ts) (selection stop L' d ts)
  | d, ts, hd => by
    rw [selection, selection]
    refine Agree.bind (.refl _) fun o ho => ?_
    rcases o with _ | ⟨r1, h1⟩
    · refine Agree.bind_closed (.refl _) expectName_leaves ?_
      rintro ⟨first, r1, h1⟩ -
      refine Agree.bind_closed (.refl _) fieldName_leaves ?_
      rintro ⟨name, r2, h2⟩ -
      refine Agree.bind_closed (arguments_agree hL hd) arguments_leaves ?_
      rintro ⟨args, r3, h3⟩ -
      refine Agree.bind_closed (directives_agree hL hd) directives_leaves ?_
      rintro ⟨dirs, r4, h4⟩ -
      exact Agree.bind (subselection_agree hL hd) fun _ _ => .refl _
    · obtain ⟨t, hts, hk⟩ := accept_some ho
      simp only [decide_eq_true_eq] at hk
      refine Agree.cons d hts (by simp [hk, TokenKind.nesting]) ?_
      refine Agree.bind (.refl _) fun u _ => ?_
      split_ifs
      · refine Agree.bind_closed (.refl _) typeCondition_leaves ?_
        rintro ⟨cond, r2, h2⟩ -
        refine Agree.bind_closed (directives_agree hL hd) directives_leaves ?_
        rintro ⟨dirs, r3, h3⟩ -
        exact Agree.bind (selectionSet_agree hL hd) fun _ _ => .refl _
      · refine Agree.bind_closed (.refl _) fragmentName_leaves ?_
        rintro ⟨n, r2, h2⟩ -
        exact Agree.bind (directives_agree hL hd) fun _ _ => .refl _
termination_by _ ts => (ts.length, 0)
decreasing_by all_goals decreasing_with omega

end

/-! The rules of a definition start at depth `0`. -/

theorem defaultValue_agree (hL : L ≤ L') {ts : List Token} :
    Agree stop L 0 ts (defaultValue stop L ts) (defaultValue stop L' ts) := by
  unfold defaultValue
  refine Agree.bind (.refl _) fun o ho => ?_
  rcases o with _ | ⟨r1, h1⟩
  · exact .refl _
  · obtain ⟨t, hts, hk⟩ := accept_some ho
    simp only [decide_eq_true_eq] at hk
    refine Agree.cons 0 hts (by simp [hk, TokenKind.nesting]) ?_
    exact Agree.bind (value_agree hL (Nat.zero_le _)) fun _ _ => .refl _

theorem variableDefinition_agree (hL : L ≤ L') {ts : List Token} :
    Agree stop L 0 ts (variableDefinition stop L ts) (variableDefinition stop L' ts) := by
  unfold variableDefinition
  refine Agree.bind_closed (.refl _) expect_leaves ?_
  rintro ⟨dollar, r1, h1⟩ -
  refine Agree.bind_closed (.refl _) expectName_leaves ?_
  rintro ⟨n, r2, h2⟩ -
  refine Agree.bind_closed (.refl _) expect_leaves ?_
  rintro ⟨c, r3, h3⟩ -
  refine Agree.bind_closed (typeRef_agree hL (Nat.zero_le _)) typeRef_leaves ?_
  rintro ⟨ty, r4, h4⟩ -
  refine Agree.bind_closed (defaultValue_agree hL) defaultValue_leaves ?_
  rintro ⟨dflt, r5, h5⟩ -
  exact Agree.bind (directives_agree hL (Nat.zero_le _)) fun _ _ => .refl _

theorem variableDefinitions_agree (hL : L ≤ L') {ts : List Token} :
    Agree stop L 0 ts (variableDefinitions stop L ts) (variableDefinitions stop L' ts) := by
  unfold variableDefinitions
  refine Agree.bind (.refl _) fun b _ => ?_
  split_ifs
  · refine Agree.bind (nonEmptyList_agree rfl (fun _ => variableDefinition_agree hL)
      (fun _ => variableDefinition_leaves) _) ?_
    exact fun _ _ => .refl _
  · exact .refl _

theorem operation_agree (hL : L ≤ L') (ts : List Token) :
    Agree stop L 0 ts (operation stop L ts) (operation stop L' ts) := by
  unfold operation
  refine Agree.bind (.refl _) fun b _ => ?_
  split_ifs
  · exact Agree.bind (selectionSet_agree hL (Nat.zero_le _)) fun _ _ => .refl _
  · refine Agree.bind_closed (.refl _) expectName_leaves ?_
    rintro ⟨kw, r1, h1⟩ -
    dsimp only
    cases OperationKind.ofKeyword? kw.value with
    | none => exact .refl _
    | some kind =>
      dsimp only
      refine Agree.bind_closed (.refl _) operationName_leaves ?_
      rintro ⟨name, r2, h2⟩ -
      refine Agree.bind_closed (variableDefinitions_agree hL) variableDefinitions_leaves ?_
      rintro ⟨vars, r3, h3⟩ -
      refine Agree.bind_closed (directives_agree hL (Nat.zero_le _)) directives_leaves ?_
      rintro ⟨dirs, r4, h4⟩ -
      exact Agree.bind (selectionSet_agree hL (Nat.zero_le _)) fun _ _ => .refl _

theorem fragment_agree (hL : L ≤ L') (ts : List Token) :
    Agree stop L 0 ts (fragment stop L ts) (fragment stop L' ts) := by
  unfold fragment
  refine Agree.bind_closed (.refl _) expectKeyword_leaves ?_
  rintro ⟨kw, r1, h1⟩ -
  refine Agree.bind_closed (.refl _) fragmentName_leaves ?_
  rintro ⟨n, r2, h2⟩ -
  refine Agree.bind_closed (.refl _) expectKeyword_leaves ?_
  rintro ⟨on, r3, h3⟩ -
  refine Agree.bind_closed (.refl _) expectName_leaves ?_
  rintro ⟨cond, r4, h4⟩ -
  refine Agree.bind_closed (directives_agree hL (Nat.zero_le _)) directives_leaves ?_
  rintro ⟨dirs, r5, h5⟩ -
  exact Agree.bind (selectionSet_agree hL (Nat.zero_le _)) fun _ _ => .refl _

end Rules

/-! ### The whole reading -/

section Definitions

variable {stop : Stop} {L L' : Nat}

/-- Two readings of the definitions in `ts`: the same, or the first stops with the fault of
nesting too deep before the tokens `rest`, where the tokens before `rest` leave `L` levels
open. -/
def AgreeAll (stop : Stop) (L : Nat) (ts : List Token) (x y : Document × Option Diagnostic) : Prop :=
  x = y ∨ ∃ pre rest doc, ts = pre ++ rest ∧ nestingLevel pre = L ∧ x = (doc, some (tooDeepAt stop L rest))

theorem AgreeAll.append {ts r : List Token} {x y : Document × Option Diagnostic}
    (hp : ∃ p, ts = p ++ r ∧ nestingLevel p = 0) (h : AgreeAll stop L r x y) : AgreeAll stop L ts x y := by
  obtain ⟨p, hts, hp⟩ := hp
  rcases h with rfl | ⟨pre, rest, doc, hr, hl, h⟩
  · exact .inl rfl
  · exact .inr ⟨p ++ pre, rest, doc, by rw [hts, hr, List.append_assoc], by simp [hp, hl], h⟩

/-- A definition read alike at two limits, leaving nothing open, and followed by readings
that agree: equal readings go on alike, and a reading stopped too deep inside the definition
stops the whole reading there. -/
theorem agreeAll_of_agree {ts : List Token} {α : Type} {x y : Except Diagnostic (Taken ts α)} {doc : Document}
    {F G : Except Diagnostic (Taken ts α) → Document × Option Diagnostic}
    (hF : ∀ e, F (.error e) = (doc, some e)) (hG : ∀ e, G (.error e) = (doc, some e))
    (hxy : Agree stop L 0 ts x y) (hx : LeavesOpen 0 ts x)
    (hok : ∀ a, x = .ok a → AgreeAll stop L a.2.1 (F (.ok a)) (G (.ok a))) : AgreeAll stop L ts (F x) (G y) := by
  rcases hxy with rfl | ⟨pre, rest, hts, rfl, hl⟩
  · cases hx' : x with
    | error e => exact .inl (by rw [hF, hG])
    | ok a => exact (hok a hx').append (hx a hx')
  · exact .inr ⟨pre, rest, doc, hts, by simpa using hl, hF _⟩

/-- **The limit cuts a reading only where it is reached**: read at a larger limit, the
definitions in `ts` give the same document and fault, or the reading at `L` stops with the
fault of nesting too deep at a point where the tokens before it leave exactly `L` levels
open. -/
theorem definitions_agree (hL : L ≤ L') :
    ∀ (doc : Document) (ts : List Token), AgreeAll stop L ts (definitions stop L doc ts) (definitions stop L' doc ts)
  | doc, ts => by
    rw [definitions, definitions]
    cases peek stop ts with
    | error e => exact .inl rfl
    | ok t =>
      dsimp only
      split_ifs
      · exact .inl rfl
      · have hxy : Agree stop L 0 ts _ _ := fragment_agree hL ts
        have hx : LeavesOpen 0 ts (fragment stop L ts) := fragment_leaves
        generalize fragment stop L ts = x at hxy hx ⊢
        generalize fragment stop L' ts = y at hxy ⊢
        apply agreeAll_of_agree (fun _ => rfl) (fun _ => rfl) hxy hx
        rintro ⟨f, r, h⟩ -
        exact definitions_agree hL _ r
      · have hxy : Agree stop L 0 ts _ _ := operation_agree hL ts
        have hx : LeavesOpen 0 ts (operation stop L ts) := operation_leaves
        generalize operation stop L ts = x at hxy hx ⊢
        generalize operation stop L' ts = y at hxy ⊢
        apply agreeAll_of_agree (fun _ => rfl) (fun _ => rfl) hxy hx
        rintro ⟨o, r, h⟩ -
        exact definitions_agree hL _ r
      · exact .inl rfl
termination_by _ ts => ts.length

/-- Where the fault of nesting too deep stands: at the next token, or, where the tokens end at
a lexical fault, that fault. -/
theorem tooDeepAt_cases (stop : Stop) (L : Nat) (rest : List Token) :
    (∃ t, peek stop rest = .ok t ∧ tooDeepAt stop L rest = .tooDeep L t) ∨
      (rest = [] ∧ ∃ f, stop = .fault f ∧ tooDeepAt stop L rest = .ofLex f) := by
  unfold tooDeepAt
  match rest, stop with
  | t :: r, _ => exact .inl ⟨t, rfl, rfl⟩
  | [], .eof t => exact .inl ⟨t, rfl, rfl⟩
  | [], .fault f => exact .inr ⟨rfl, f, rfl, rfl⟩

end Definitions

end Syntax

/-! ### The limit and the length of the input -/

/-- **A limit above the number of tokens is never reached**: with such a limit, the
definitions in `ts` read as they do under every larger limit.  A reading is never more levels
deep than the braces and brackets it has taken, so its recursion is bounded by the tokens it
takes, not by the limit. -/
theorem definitions_eq_beyond_length {stop : Stop} {L L' : Nat} (doc : Document) {ts : List Token}
    (hlen : ts.length < L) (hL : L ≤ L') :
    Syntax.definitions stop L doc ts = Syntax.definitions stop L' doc ts := by
  rcases Syntax.definitions_agree hL doc ts with h | ⟨pre, rest, doc', hts, hl, -⟩
  · exact h
  · -- the levels open before `rest` number at most the tokens before it, fewer than `L`
    have hpre : pre.length ≤ ts.length := by simp [hts]
    have := nestingLevel_le_length pre
    omega

theorem definitions_eq_beyond_length_braces :
    ([⟨.braceL, "\x7b", ⟨0, 1, 1, 1⟩⟩, ⟨.name, "a", ⟨2, 3, 1, 3⟩⟩, ⟨.braceR, "\x7d", ⟨4, 5, 1, 5⟩⟩] : List Token).length < 4 ∧
      4 ≤ 64 ∧
      Syntax.definitions (.eof ⟨.eof, "", ⟨5, 5, 1, 6⟩⟩) 4 {}
          [⟨.braceL, "\x7b", ⟨0, 1, 1, 1⟩⟩, ⟨.name, "a", ⟨2, 3, 1, 3⟩⟩, ⟨.braceR, "\x7d", ⟨4, 5, 1, 5⟩⟩] =
        Syntax.definitions (.eof ⟨.eof, "", ⟨5, 5, 1, 6⟩⟩) 64 {}
          [⟨.braceL, "\x7b", ⟨0, 1, 1, 1⟩⟩, ⟨.name, "a", ⟨2, 3, 1, 3⟩⟩, ⟨.braceR, "\x7d", ⟨4, 5, 1, 5⟩⟩] :=
  ⟨by decide, by decide, definitions_eq_beyond_length {} (by decide) (by decide)⟩

/-! ### The limit of a parse -/

/-- **The nesting limit stops a parse only where it is reached.**  A text parses as it does
under every larger limit, or its parse stops with the nesting fault at a point where the tokens
before it have opened exactly `nestingLimit` more braces and brackets than they closed, so that
the reader is entering a construct one level deeper; the fault then stands at the next token,
or is the lexical fault that ends the tokens there. -/
theorem parse_stops_only_at_nesting_limit (text : String) {L : Nat} (hL : Diagnostic.nestingLimit ≤ L) :
    let ts := (Lexer.ofString text).significant.1
    let stop := (Lexer.ofString text).significant.2
    ((Document.parse text).document, (Document.parse text).error) = Syntax.definitions stop L {} ts ∨
      ∃ pre rest, ts = pre ++ rest ∧ nestingLevel pre = Diagnostic.nestingLimit ∧
        ((∃ t, Syntax.peek stop rest = .ok t ∧
            (Document.parse text).error = some (.tooDeep Diagnostic.nestingLimit t)) ∨
          (rest = [] ∧ ∃ f, stop = .fault f ∧ (Document.parse text).error = some (.ofLex f))) := by
  intro ts stop
  have hparse : ((Document.parse text).document, (Document.parse text).error) =
      Syntax.definitions stop Diagnostic.nestingLimit {} ts := rfl
  rcases Syntax.definitions_agree hL {} ts with h | ⟨pre, rest, doc, hts, hl, h⟩
  · exact .inl (hparse.trans h)
  · refine .inr ⟨pre, rest, hts, hl, ?_⟩
    have herr : (Document.parse text).error = some (Syntax.tooDeepAt stop Diagnostic.nestingLimit rest) :=
      congrArg Prod.snd (hparse.trans h)
    rw [herr]
    rcases Syntax.tooDeepAt_cases stop Diagnostic.nestingLimit rest with ⟨t, hp, he⟩ | ⟨hr, f, hs, he⟩
    · exact .inl ⟨t, hp, by rw [he]⟩
    · exact .inr ⟨hr, f, hs, by rw [he]⟩

end Gql
