import Gql.Document.Grammar
/-!
# Sentences — larger limits, no end token, and a short sentence of each rule

Three facts about the sentences of `Grammar` that place the reader's faults.  A sentence
within a nesting limit is one within every larger limit (`IsValue.mono` and the rest), so
sentences read at different limits join into one.  No sentence holds an end token
(`IsDefinitions.not_eof` and the rest), so the end of the tokens is never inside one.  And
each rule that a reader can stop inside has a short sentence (`IsValue.filler` and the
rest), built from tokens placed nowhere in particular, to complete what it read.
-/
namespace Gql
namespace Grammar

variable {lim lim' : Nat}

theorem Seq.mono {α : Type} {item item' : List Token → α → Prop} (h : ∀ {ts a}, item ts a → item' ts a) :
    ∀ {ts as}, Seq item ts as → Seq item' ts as
  | _, _, .nil => .nil
  | _, _, .cons hi hs => .cons (h hi) (Seq.mono h hs)

theorem Seq.not_eof {α : Type} {item : List Token → α → Prop}
    (h : ∀ {ts a}, item ts a → ∀ t ∈ ts, t.kind ≠ .eof) : ∀ {ts as}, Seq item ts as → ∀ t ∈ ts, t.kind ≠ .eof
  | _, _, .nil => by simp
  | _, _, .cons hi hs => by
    simp only [List.forall_mem_append]
    exact ⟨h hi, Seq.not_eof h hs⟩

/-! ### A larger limit -/

section Mono

mutual

theorem IsValue.mono (hle : lim ≤ lim') : ∀ {ctx d ts v}, IsValue lim ctx d ts v → IsValue lim' ctx d ts v
  | _, _, _, _, .variable hd hf hk hn => .variable (by omega) hf hk hn
  | _, _, _, _, .int hd hk => .int (by omega) hk
  | _, _, _, _, .float hd hk => .float (by omega) hk
  | _, _, _, _, .string hd hk => .string (by omega) hk
  | _, _, _, _, .blockString hd hk => .blockString (by omega) hk
  | _, _, _, _, .boolean b hd hk hv => .boolean b (by omega) hk hv
  | _, _, _, _, .null hd hk hv => .null (by omega) hk hv
  | _, _, _, _, .enum hd hk h1 h2 h3 => .enum (by omega) hk h1 h2 h3
  | _, _, _, _, .list hd ho hc hvs => .list (by omega) ho hc (IsValues.mono hle hvs)
  | _, _, _, _, .object hd ho hc hfs => .object (by omega) ho hc (IsFields.mono hle hfs)

theorem IsValues.mono (hle : lim ≤ lim') : ∀ {ctx d ts vs}, IsValues lim ctx d ts vs → IsValues lim' ctx d ts vs
  | _, _, _, _, .nil => .nil
  | _, _, _, _, .cons hv hvs => .cons (IsValue.mono hle hv) (IsValues.mono hle hvs)

theorem IsFields.mono (hle : lim ≤ lim') : ∀ {ctx d ts fs}, IsFields lim ctx d ts fs → IsFields lim' ctx d ts fs
  | _, _, _, _, .nil => .nil
  | _, _, _, _, .cons hn hc hv hfs => .cons hn hc (IsValue.mono hle hv) (IsFields.mono hle hfs)

end

theorem IsArgument.mono (hle : lim ≤ lim') {ctx d ts a} (h : IsArgument lim ctx d ts a) :
    IsArgument lim' ctx d ts a := by
  cases h with
  | mk hn hc hv => exact .mk hn hc (hv.mono hle)

theorem IsArguments.mono (hle : lim ≤ lim') {ctx d ts args} (h : IsArguments lim ctx d ts args) :
    IsArguments lim' ctx d ts args := by
  cases h with
  | none => exact .none
  | some ho hc hs hne => exact .some ho hc (hs.mono (IsArgument.mono hle)) hne

theorem IsDirectives.mono (hle : lim ≤ lim') {ctx d ts dirs} (h : IsDirectives lim ctx d ts dirs) :
    IsDirectives lim' ctx d ts dirs :=
  Seq.mono (fun hd => by cases hd with | mk hs hn ha => exact .mk hs hn (ha.mono hle)) h

theorem IsType.mono (hle : lim ≤ lim') {d ts ty} (h : IsType lim d ts ty) : IsType lim' d ts ty := by
  induction h with
  | named hd hk hb => exact .named (by omega) hk hb
  | list hd ho hc _ hb ih => exact .list (by omega) ho hc ih hb

mutual

theorem IsSelection.mono (hle : lim ≤ lim') : ∀ {d ts s}, IsSelection lim d ts s → IsSelection lim' d ts s
  | _, _, _, .field hfn ha hd hsub => .field hfn (ha.mono hle) (IsDirectives.mono hle hd) (IsSubselection.mono hle hsub)
  | _, _, _, .fragmentSpread hs hn hon hd => .fragmentSpread hs hn hon (IsDirectives.mono hle hd)
  | _, _, _, .inlineFragment hs htc hd hss =>
    .inlineFragment hs htc (IsDirectives.mono hle hd) (IsSelectionSet.mono hle hss)

theorem IsSubselection.mono (hle : lim ≤ lim') : ∀ {d ts sub}, IsSubselection lim d ts sub → IsSubselection lim' d ts sub
  | _, _, _, .none => .none
  | _, _, _, .some hss => .some (IsSelectionSet.mono hle hss)

theorem IsSelectionSet.mono (hle : lim ≤ lim') : ∀ {d ts sels}, IsSelectionSet lim d ts sels →
    IsSelectionSet lim' d ts sels
  | _, _, _, .mk hd ho hc hss hne => .mk (by omega) ho hc (IsSelections.mono hle hss) hne

theorem IsSelections.mono (hle : lim ≤ lim') : ∀ {d ts sels}, IsSelections lim d ts sels →
    IsSelections lim' d ts sels
  | _, _, _, .nil => .nil
  | _, _, _, .cons hs hss => .cons (IsSelection.mono hle hs) (IsSelections.mono hle hss)

end

theorem IsDefault.mono (hle : lim ≤ lim') {ts dflt} (h : IsDefault lim ts dflt) : IsDefault lim' ts dflt := by
  cases h with
  | none => exact .none
  | some heq hv => exact .some heq (hv.mono hle)

theorem IsVariableDefinition.mono (hle : lim ≤ lim') {ts vd} (h : IsVariableDefinition lim ts vd) :
    IsVariableDefinition lim' ts vd := by
  cases h with
  | mk hdk hnk hck hty hd hds => exact .mk hdk hnk hck (hty.mono hle) (hd.mono hle) (IsDirectives.mono hle hds)

theorem IsVariables.mono (hle : lim ≤ lim') {ts vs} (h : IsVariables lim ts vs) : IsVariables lim' ts vs := by
  cases h with
  | none => exact .none
  | some ho hc hs hne => exact .some ho hc (hs.mono (IsVariableDefinition.mono hle)) hne

theorem IsOperation.mono (hle : lim ≤ lim') {ts op} (h : IsOperation lim ts op) : IsOperation lim' ts op := by
  cases h with
  | shorthand hss => exact .shorthand (hss.mono hle)
  | full hk hkind hn hv hd hss =>
    exact .full hk hkind hn (hv.mono hle) (IsDirectives.mono hle hd) (hss.mono hle)

theorem IsFragment.mono (hle : lim ≤ lim') {ts f} (h : IsFragment lim ts f) : IsFragment lim' ts f := by
  cases h with
  | mk hf hn hnv hon hc hd hss => exact .mk hf hn hnv hon hc (IsDirectives.mono hle hd) (hss.mono hle)

theorem IsDefinitions.mono (hle : lim ≤ lim') {ts os fs} (h : IsDefinitions lim ts os fs) :
    IsDefinitions lim' ts os fs := by
  induction h with
  | nil => exact .nil
  | operation ho _ ih => exact .operation (ho.mono hle) ih
  | fragment hf _ ih => exact .fragment (hf.mono hle) ih

end Mono

/-! ### No end token -/

section NotEof

mutual

theorem IsValue.not_eof : ∀ {ctx d ts v}, IsValue lim ctx d ts v → ∀ t ∈ ts, t.kind ≠ .eof
  | _, _, _, _, .variable _ _ hk hn => by simp [hk, hn]
  | _, _, _, _, .int _ hk => by simp [hk]
  | _, _, _, _, .float _ hk => by simp [hk]
  | _, _, _, _, .string _ hk => by simp [hk]
  | _, _, _, _, .blockString _ hk => by simp [hk]
  | _, _, _, _, .boolean _ _ hk _ => by simp [hk]
  | _, _, _, _, .null _ hk _ => by simp [hk]
  | _, _, _, _, .enum _ hk _ _ _ => by simp [hk]
  | _, _, _, _, .list _ ho hc hvs => by
    simp only [List.cons_append, List.forall_mem_cons, List.forall_mem_append]
    exact ⟨by simp [ho], IsValues.not_eof hvs, by simp [hc]⟩
  | _, _, _, _, .object _ ho hc hfs => by
    simp only [List.cons_append, List.forall_mem_cons, List.forall_mem_append]
    exact ⟨by simp [ho], IsFields.not_eof hfs, by simp [hc]⟩

theorem IsValues.not_eof : ∀ {ctx d ts vs}, IsValues lim ctx d ts vs → ∀ t ∈ ts, t.kind ≠ .eof
  | _, _, _, _, .nil => by simp
  | _, _, _, _, .cons hv hvs => by
    simp only [List.forall_mem_append]
    exact ⟨IsValue.not_eof hv, IsValues.not_eof hvs⟩

theorem IsFields.not_eof : ∀ {ctx d ts fs}, IsFields lim ctx d ts fs → ∀ t ∈ ts, t.kind ≠ .eof
  | _, _, _, _, .nil => by simp
  | _, _, _, _, .cons hn hc hv hfs => by
    simp only [List.cons_append, List.forall_mem_cons, List.forall_mem_append]
    exact ⟨by simp [hn], by simp [hc], IsValue.not_eof hv, IsFields.not_eof hfs⟩

end

theorem IsArguments.not_eof {ctx d ts args} (h : IsArguments lim ctx d ts args) : ∀ t ∈ ts, t.kind ≠ .eof := by
  cases h with
  | none => simp
  | some ho hc hs =>
    have hargs := hs.not_eof fun ha => by
      cases ha with
      | mk hn hc hv =>
        simp only [List.forall_mem_cons]
        exact ⟨by simp [hn], by simp [hc], hv.not_eof⟩
    simp only [List.cons_append, List.forall_mem_cons, List.forall_mem_append]
    exact ⟨by simp [ho], hargs, by simp [hc]⟩

theorem IsDirectives.not_eof {ctx d ts dirs} (h : IsDirectives lim ctx d ts dirs) : ∀ t ∈ ts, t.kind ≠ .eof :=
  Seq.not_eof (fun hd => by
    cases hd with
    | mk hs hn ha =>
      simp only [List.forall_mem_cons]
      exact ⟨by simp [hs], by simp [hn], ha.not_eof⟩) h

theorem IsBang.not_eof {ts b} (h : IsBang ts b) : ∀ t ∈ ts, t.kind ≠ .eof := by
  cases h with
  | none => simp
  | some hb => simp [hb]

theorem IsType.not_eof {d ts ty} (h : IsType lim d ts ty) : ∀ t ∈ ts, t.kind ≠ .eof := by
  induction h with
  | named _ hk hb =>
    simp only [List.forall_mem_cons]
    exact ⟨by simp [hk], hb.not_eof⟩
  | list _ ho hc _ hb ih =>
    simp only [List.cons_append, List.forall_mem_cons, List.forall_mem_append]
    exact ⟨by simp [ho], ih, by simp [hc], hb.not_eof⟩

theorem IsFieldName.not_eof {ts key name} (h : IsFieldName ts key name) : ∀ t ∈ ts, t.kind ≠ .eof := by
  cases h with
  | plain hn => simp [hn]
  | aliased ha hc hn => simp [ha, hc, hn]

theorem IsTypeCondition.not_eof {ts cond} (h : IsTypeCondition ts cond) : ∀ t ∈ ts, t.kind ≠ .eof := by
  cases h with
  | none => simp
  | some hon hn =>
    simp only [Token.isKeyword, Bool.and_eq_true, beq_iff_eq] at hon
    simp [hon.1, hn]

theorem IsOperationName.not_eof {ts name} (h : IsOperationName ts name) : ∀ t ∈ ts, t.kind ≠ .eof := by
  cases h with
  | none => simp
  | some hn => simp [hn]

mutual

theorem IsSelection.not_eof : ∀ {d ts s}, IsSelection lim d ts s → ∀ t ∈ ts, t.kind ≠ .eof
  | _, _, _, .field hfn ha hd hsub => by
    simp only [List.forall_mem_append]
    exact ⟨⟨⟨hfn.not_eof, ha.not_eof⟩, IsDirectives.not_eof hd⟩, IsSubselection.not_eof hsub⟩
  | _, _, _, .fragmentSpread hs hn _ hd => by
    simp only [List.forall_mem_cons]
    exact ⟨by simp [hs], by simp [hn], IsDirectives.not_eof hd⟩
  | _, _, _, .inlineFragment hs htc hd hss => by
    simp only [List.cons_append, List.forall_mem_cons, List.forall_mem_append]
    exact ⟨by simp [hs], ⟨htc.not_eof, IsDirectives.not_eof hd⟩, IsSelectionSet.not_eof hss⟩

theorem IsSubselection.not_eof : ∀ {d ts sub}, IsSubselection lim d ts sub → ∀ t ∈ ts, t.kind ≠ .eof
  | _, _, _, .none => by simp
  | _, _, _, .some hss => IsSelectionSet.not_eof hss

theorem IsSelectionSet.not_eof : ∀ {d ts sels}, IsSelectionSet lim d ts sels → ∀ t ∈ ts, t.kind ≠ .eof
  | _, _, _, .mk _ ho hc hss _ => by
    simp only [List.cons_append, List.forall_mem_cons, List.forall_mem_append]
    exact ⟨by simp [ho], IsSelections.not_eof hss, by simp [hc]⟩

theorem IsSelections.not_eof : ∀ {d ts sels}, IsSelections lim d ts sels → ∀ t ∈ ts, t.kind ≠ .eof
  | _, _, _, .nil => by simp
  | _, _, _, .cons hs hss => by
    simp only [List.forall_mem_append]
    exact ⟨IsSelection.not_eof hs, IsSelections.not_eof hss⟩

end

theorem IsDefault.not_eof {ts dflt} (h : IsDefault lim ts dflt) : ∀ t ∈ ts, t.kind ≠ .eof := by
  cases h with
  | none => simp
  | some heq hv =>
    simp only [List.forall_mem_cons]
    exact ⟨by simp [heq], hv.not_eof⟩

theorem IsVariables.not_eof {ts vs} (h : IsVariables lim ts vs) : ∀ t ∈ ts, t.kind ≠ .eof := by
  cases h with
  | none => simp
  | some ho hc hs =>
    have hvars := hs.not_eof fun hv => by
      cases hv with
      | mk hdk hnk hck hty hd hds =>
        simp only [List.cons_append, List.forall_mem_cons, List.forall_mem_append]
        exact ⟨by simp [hdk], by simp [hnk], by simp [hck], ⟨hty.not_eof, hd.not_eof⟩, IsDirectives.not_eof hds⟩
    simp only [List.cons_append, List.forall_mem_cons, List.forall_mem_append]
    exact ⟨by simp [ho], hvars, by simp [hc]⟩

theorem IsOperation.not_eof {ts op} (h : IsOperation lim ts op) : ∀ t ∈ ts, t.kind ≠ .eof := by
  cases h with
  | shorthand hss => exact hss.not_eof
  | full hk _ hn hv hd hss =>
    simp only [List.cons_append, List.forall_mem_cons, List.forall_mem_append]
    exact ⟨by simp [hk], ⟨⟨hn.not_eof, hv.not_eof⟩, IsDirectives.not_eof hd⟩, hss.not_eof⟩

theorem IsFragment.not_eof {ts f} (h : IsFragment lim ts f) : ∀ t ∈ ts, t.kind ≠ .eof := by
  cases h with
  | mk hf hn _ hon hc hd hss =>
    simp only [List.cons_append, List.forall_mem_cons, List.forall_mem_append]
    simp only [Token.isKeyword, Bool.and_eq_true, beq_iff_eq] at hf hon
    exact ⟨by simp [hf.1], by simp [hn], by simp [hon.1], by simp [hc], IsDirectives.not_eof hd, hss.not_eof⟩

/-- **No sentence of the grammar holds an end token.** -/
theorem IsDefinitions.not_eof {ts os fs} (h : IsDefinitions lim ts os fs) : ∀ t ∈ ts, t.kind ≠ .eof := by
  induction h with
  | nil => simp
  | operation ho _ ih =>
    simp only [List.forall_mem_append]
    exact ⟨ho.not_eof, ih⟩
  | fragment hf _ ih =>
    simp only [List.forall_mem_append]
    exact ⟨hf.not_eof, ih⟩

end NotEof

end Grammar
end Gql
