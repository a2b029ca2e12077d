import Gql.Proofs.Descent.Sound
/-!
# Complete — the reader reads every sentence of the grammar

Every sentence of a rule of `Gql.Grammar` is read whole by the reader's rule, which gives
its node and leaves the tokens after it, provided those tokens do not start with one that
the rule would take as its own continuation: a rule that looks one token ahead to decide
whether it goes on (`accept`, `nextIs`) must find there a token that stops it.  That
condition, `NextNot`, is each rule's follow set.  Values, selection sets, operations and
fragments end with a token they take, and need none.

The proofs go by recursion on the derivation; for a rule whose parts are optional, the
follow condition of each part is met by the first token of the next part, or by the rule's
own condition when the parts after it are empty (`nextNot_append`).
-/
namespace Gql
namespace Syntax

open Grammar

theorem nextNot_append {stop : Stop} {p : Token → Bool} {pre rest : List Token}
    (hpre : ∀ t ∈ pre.head?, p t = false) (hrest : NextNot stop p rest) : NextNot stop p (pre ++ rest) := by
  cases pre with
  | nil => exact hrest
  | cons t r => exact hpre t rfl

theorem NextNot.mono {stop : Stop} {p q : Token → Bool} {ts : List Token} (h : NextNot stop p ts)
    (hqp : ∀ t, q t = true → p t = true) : NextNot stop q ts := by
  cases ts with
  | nil =>
    obtain ⟨u, hu, hp⟩ := h
    exact ⟨u, hu, Bool.eq_false_iff.2 fun hq => by simp [hqp u hq] at hp⟩
  | cons t r =>
    rw [nextNot_cons] at h ⊢
    cases hq : q t
    · rfl
    · simp [hqp t hq] at h

variable (stop : Stop) {limit : Nat}

mutual

theorem value_complete {ctx d} : ∀ {ts v}, IsValue limit ctx d ts v → ∀ rest,
    ∃ h, value stop limit ctx d (ts ++ rest) = .ok (v, ⟨rest, h⟩)
  | _, _, .variable hd hctx hk hn, rest => by
    simp only [List.cons_append, List.nil_append]
    refine ⟨by simp only [List.length_cons]; omega, ?_⟩
    rw [value]
    simp [Nat.not_le.2 hd, hk, hctx, expectName_cons hn, bind, Except.bind, pure, Except.pure]
  | _, _, .int hd hk, rest => by
    rw [List.singleton_append]
    refine ⟨by simp, ?_⟩
    rw [value]
    simp [Nat.not_le.2 hd, hk]
  | _, _, .float hd hk, rest => by
    rw [List.singleton_append]
    refine ⟨by simp, ?_⟩
    rw [value]
    simp [Nat.not_le.2 hd, hk]
  | _, _, .string hd hk, rest => by
    rw [List.singleton_append]
    refine ⟨by simp, ?_⟩
    rw [value]
    simp [Nat.not_le.2 hd, hk]
  | _, _, .blockString hd hk, rest => by
    rw [List.singleton_append]
    refine ⟨by simp, ?_⟩
    rw [value]
    simp [Nat.not_le.2 hd, hk]
  | _, _, .boolean b hd hk hv, rest => by
    rw [List.singleton_append]
    refine ⟨by simp, ?_⟩
    rw [value]
    cases b <;> simp [Nat.not_le.2 hd, hk, hv]
  | _, _, .null hd hk hv, rest => by
    rw [List.singleton_append]
    refine ⟨by simp, ?_⟩
    rw [value]
    simp [Nat.not_le.2 hd, hk, hv]
  | _, _, .enum hd hk ht hf hn, rest => by
    rw [List.singleton_append]
    refine ⟨by simp, ?_⟩
    rw [value]
    simp [Nat.not_le.2 hd, hk, ht, hf, hn]
  | _, _, @IsValue.list _ _ _ o c _ _ hd ho hc hvs, rest => by
    obtain ⟨h, hl⟩ := listItems_complete hvs o hc rest
    rw [List.append_assoc, List.singleton_append, List.cons_append]
    refine ⟨by simp; omega, ?_⟩
    rw [value]
    simp [Nat.not_le.2 hd, ho, hl, bind, Except.bind, pure, Except.pure]
  | _, _, @IsValue.object _ _ _ o c _ _ hd ho hc hfs, rest => by
    obtain ⟨h, hl⟩ := objectFields_complete hfs o hc rest
    rw [List.append_assoc, List.singleton_append, List.cons_append]
    refine ⟨by simp; omega, ?_⟩
    rw [value]
    simp [Nat.not_le.2 hd, ho, hl, bind, Except.bind, pure, Except.pure]

theorem listItems_complete {ctx d} : ∀ {ts vs}, IsValues limit ctx d ts vs → ∀ (o : Token) {c : Token},
    c.kind = .bracketR → ∀ rest, ∃ h, listItems stop limit ctx d o (ts ++ c :: rest) = .ok (vs, ⟨rest, h⟩)
  | _, _, .nil, o, c, hc, rest => by
    rw [List.nil_append]
    refine ⟨by simp, ?_⟩
    rw [listItems]
    simp [hc]
  | _, _, @IsValues.cons _ _ _ _ more _ _ hv hvs, o, c, hc, rest => by
    obtain ⟨t, r, rfl, hbr, heof⟩ := hv.first
    obtain ⟨h1, hval⟩ := value_complete hv (more ++ c :: rest)
    obtain ⟨h2, hl⟩ := listItems_complete hvs o hc rest
    rw [List.append_assoc, List.cons_append]
    refine ⟨by simp only [List.length_cons, List.length_append] at h1 h2 ⊢; omega, ?_⟩
    rw [listItems]
    simp only [hbr, heof, if_false]
    change value stop limit ctx d (t :: (r ++ (more ++ c :: rest))) = _ at hval
    rw [hval]
    simp only [bind, Except.bind, hl, pure, Except.pure]

theorem objectFields_complete {ctx d} : ∀ {ts fs}, IsFields limit ctx d ts fs → ∀ (o : Token) {c : Token},
    c.kind = .braceR → ∀ rest, ∃ h, objectFields stop limit ctx d o (ts ++ c :: rest) = .ok (fs, ⟨rest, h⟩)
  | _, _, .nil, o, c, hc, rest => by
    rw [List.nil_append]
    refine ⟨by simp, ?_⟩
    rw [objectFields]
    simp [hc]
  | _, _, @IsFields.cons _ _ _ n colon _ more _ _ hn hcolon hv hfs, o, c, hc, rest => by
    obtain ⟨h1, hval⟩ := value_complete hv (more ++ c :: rest)
    obtain ⟨h2, hl⟩ := objectFields_complete hfs o hc rest
    rw [List.append_assoc, List.cons_append, List.cons_append]
    refine ⟨by simp only [List.length_cons, List.length_append] at h1 h2 ⊢; omega, ?_⟩
    rw [objectFields]
    have hbr : n.kind ≠ .braceR := by simp [hn]
    have heof : n.kind ≠ .eof := by simp [hn]
    simp only [hbr, heof, if_false, expectName_cons hn, expect_cons hcolon, bind, Except.bind]
    rw [hval]
    simp only [hl, pure, Except.pure]

end

/-- A token that directives would go on with: another directive, or the arguments of the
last one. -/
def continuesDirectives (t : Token) : Bool := t.kind = .atSign || t.kind = .parenL

theorem typeRef_complete {d ts ty} (h : IsType limit d ts ty) (rest : List Token)
    (hrest : NextNot stop (fun t => t.kind = .bang) rest) :
    ∃ h, typeRef stop limit d (ts ++ rest) = .ok (ty, ⟨rest, h⟩) := by
  induction h generalizing rest with
  | @named d t bang nonNull hd hk hbang =>
    cases hbang with
    | none =>
      rw [List.singleton_append]
      refine ⟨by simp, ?_⟩
      rw [typeRef]
      simp [Nat.not_le.2 hd, hk, accept_of_nextNot hrest, bind, Except.bind, pure, Except.pure]
    | @some b hb =>
      simp only [List.cons_append, List.nil_append]
      refine ⟨by simp only [List.length_cons]; omega, ?_⟩
      rw [typeRef]
      simp [Nat.not_le.2 hd, hk, accept_cons_of (p := fun t => decide (t.kind = .bang)) (by simpa using hb),
        bind, Except.bind, pure, Except.pure, TypeRef.markNonNull]
  | @list d o c ts e bang nonNull hd ho hc _ hbang ih =>
    cases hbang with
    | none =>
      obtain ⟨h1, he⟩ := ih (c :: rest) (by simp [hc])
      rw [List.append_assoc, List.cons_append, List.singleton_append]
      refine ⟨by simp only [List.length_cons, List.length_append] at h1 ⊢; omega, ?_⟩
      rw [typeRef]
      simp [Nat.not_le.2 hd, ho, he, expect_cons hc, accept_of_nextNot hrest, bind, Except.bind, pure,
        Except.pure]
    | @some b hb =>
      obtain ⟨h1, he⟩ := ih (c :: b :: rest) (by simp [hc])
      rw [List.append_assoc, List.cons_append, List.cons_append, List.singleton_append]
      refine ⟨by simp only [List.length_cons, List.length_append] at h1 ⊢; omega, ?_⟩
      rw [typeRef]
      simp [Nat.not_le.2 hd, ho, he, expect_cons hc,
        accept_cons_of (p := fun t => decide (t.kind = .bang)) (by simpa using hb), bind, Except.bind, pure,
        Except.pure, TypeRef.markNonNull]

theorem argument_complete {ctx d ts a} (h : IsArgument limit ctx d ts a) (rest : List Token) :
    ∃ h, argument stop limit ctx d (ts ++ rest) = .ok (a, ⟨rest, h⟩) := by
  cases h with
  | @mk n colon tv v hn hcolon hv =>
    obtain ⟨h1, hval⟩ := value_complete stop hv rest
    rw [List.cons_append, List.cons_append]
    refine ⟨by simp only [List.length_cons] at h1 ⊢; omega, ?_⟩
    simp [argument, expectName_cons hn, expect_cons hcolon, hval, bind, Except.bind, pure, Except.pure]

theorem arguments_complete {ctx d ts args} (h : IsArguments limit ctx d ts args) (rest : List Token)
    (hrest : NextNot stop (fun t => t.kind = .parenL) rest) :
    ∃ h, arguments stop limit ctx d (ts ++ rest) = .ok (args, ⟨rest, h⟩) := by
  cases h with
  | none =>
    rw [List.nil_append]
    refine ⟨Nat.le_refl _, ?_⟩
    simp [arguments, nextIs_of_nextNot hrest, bind, Except.bind, pure, Except.pure]
  | @some o c tas args ho hc hs hne =>
    rw [List.append_assoc, List.singleton_append]
    obtain ⟨h1, hl⟩ : ∃ h, nonEmptyList stop .parenL .parenR "argument" "argument list" (argument stop limit ctx d)
        (o :: tas ++ c :: rest) = .ok (args, ⟨rest, h⟩) :=
      nonEmptyList_complete (F := fun _ => True) (fun hn _ => argument_complete stop hn _)
      (fun hn => by obtain ⟨t, r, rfl, hk⟩ := hn.first; exact ⟨t, r, rfl, by simp [hk], by simp [hk]⟩)
      (fun _ => trivial) ho hc (fun _ => trivial) hs hne rest
    refine ⟨Nat.le_of_lt h1, ?_⟩
    have hn : nextIs stop .parenL (o :: tas ++ c :: rest) = .ok true := nextIs_cons_of ho
    simp only [arguments, hn, hl, bind, Except.bind, if_true, pure, Except.pure]

theorem directives_complete {ctx d ts dirs} (h : IsDirectives limit ctx d ts dirs) (rest : List Token)
    (hrest : NextNot stop continuesDirectives rest) :
    ∃ h, directives stop limit ctx d (ts ++ rest) = .ok (dirs, ⟨rest, h⟩) := by
  induction h with
  | nil =>
    rw [List.nil_append]
    refine ⟨Nat.le_refl _, ?_⟩
    have hnone : accept stop (fun t => decide (t.kind = .atSign)) rest = .ok none :=
      accept_of_nextNot (hrest.mono fun t ht => by simp_all [continuesDirectives])
    rw [directives]
    simp [hnone, bind, Except.bind, pure, Except.pure]
  | @cons tds more dir ds hdir hds ih =>
    cases hdir with
    | @mk sign n ta args hsign hn ha =>
      obtain ⟨h1, hl⟩ := ih
      obtain ⟨h2, hargs⟩ := arguments_complete stop ha (more ++ rest)
        (nextNot_append (fun t ht => by simp [IsDirectives.lead hds t ht]) (hrest.mono fun t ht => by simp_all [continuesDirectives]))
      rw [List.append_assoc, List.cons_append, List.cons_append]
      refine ⟨by simp only [List.length_cons, List.length_append] at h1 h2 ⊢; omega, ?_⟩
      rw [directives]
      simp only [accept_cons_of (p := fun t => decide (t.kind = .atSign)) (by simpa using hsign), bind, Except.bind,
        expectName_cons hn, hargs, hl, pure, Except.pure]

/-- A token that a selection would go on with: the `:` after an alias, arguments, a
directive or a selection set. -/
def continuesSelection (t : Token) : Bool :=
  t.kind = .colon || t.kind = .parenL || t.kind = .atSign || t.kind = .braceL

theorem continuesSelection_of_kind {t : Token} (h : t.kind = .name ∨ t.kind = .spread ∨ t.kind = .braceR) :
    continuesSelection t = false := by
  rcases h with h | h | h <;> simp [continuesSelection, h]

theorem continuesSelection_of_continuesDirectives {t : Token} (h : continuesDirectives t = true) :
    continuesSelection t = true := by
  simp only [continuesDirectives, Bool.or_eq_true, decide_eq_true_eq] at h
  rcases h with h | h <;> simp [continuesSelection, h]

theorem typeCondition_complete {tc cond} (h : IsTypeCondition tc cond) (rest : List Token)
    (hrest : NextNot stop (fun t => t.isKeyword "on") rest) :
    ∃ h, typeCondition stop (tc ++ rest) = .ok (cond, ⟨rest, h⟩) := by
  cases h with
  | none =>
    rw [List.nil_append]
    exact ⟨Nat.le_refl _, by simp [typeCondition, accept_of_nextNot hrest, bind, Except.bind, pure, Except.pure]⟩
  | @some on n hon hn =>
    rw [List.cons_append, List.cons_append, List.nil_append]
    refine ⟨by simp only [List.length_cons]; omega, ?_⟩
    simp [typeCondition, accept_cons_of (p := fun t => t.isKeyword "on") hon, expectName_cons hn, bind, Except.bind,
      pure, Except.pure]

theorem fieldName_complete {first : Token} {more key name} (h : IsFieldName (first :: more) key name)
    (rest : List Token) (hrest : NextNot stop (fun t => t.kind = .colon) rest) :
    ∃ h, fieldName stop first (more ++ rest) = .ok (name, ⟨rest, h⟩) := by
  cases h with
  | plain hn =>
    rw [List.nil_append]
    exact ⟨Nat.le_refl _, by simp [fieldName, accept_of_nextNot hrest, bind, Except.bind, pure, Except.pure]⟩
  | @aliased _ colon n ha hcolon hn =>
    rw [List.cons_append, List.cons_append, List.nil_append]
    refine ⟨by simp only [List.length_cons]; omega, ?_⟩
    simp [fieldName, accept_cons_of (p := fun t => decide (t.kind = .colon)) (by simpa using hcolon),
      expectName_cons hn, bind, Except.bind, pure, Except.pure]

mutual

theorem selectionSet_complete {d} : ∀ {ts sels}, IsSelectionSet limit d ts sels → ∀ rest,
    ∃ h, selectionSet stop limit d (ts ++ rest) = .ok (sels, ⟨rest, h⟩)
  | _, _, @IsSelectionSet.mk _ _ o c tss sels hd ho hc hss hne, rest => by
    obtain ⟨h1, hl⟩ := selections_complete hss o hc rest
    -- the first token inside the braces starts a selection, so the set is not empty
    have hfirst : nonEmpty .braceR "definition" "selection set" (tss ++ c :: rest) = .ok () := by
      cases hss with
      | nil => exact absurd rfl hne
      | cons hs _ =>
        obtain ⟨t, r, rfl, hk⟩ := hs.first
        exact nonEmpty_cons (by rcases hk with hk | hk <;> simp [hk])
    rw [List.append_assoc, List.singleton_append]
    refine ⟨by simp only [List.length_cons, List.length_append] at h1 ⊢; omega, ?_⟩
    have he : expect stop .braceL (o :: tss ++ c :: rest) = .ok (o, ⟨tss ++ c :: rest, length_lt_cons _ _⟩) :=
      expect_cons ho
    rw [selectionSet]
    simp only [Nat.not_le.2 hd, dite_false, he, bind, Except.bind, hfirst, hl, pure, Except.pure]

theorem subselection_complete {d} : ∀ {ts sub}, IsSubselection limit d ts sub → ∀ rest,
    NextNot stop (fun t => t.kind = .braceL) rest → ∃ h, subselection stop limit d (ts ++ rest) = .ok (sub, ⟨rest, h⟩)
  | _, _, .none, rest, hrest => by
    rw [List.nil_append]
    refine ⟨Nat.le_refl _, ?_⟩
    rw [subselection]
    simp [nextIs_of_nextNot hrest, bind, Except.bind, pure, Except.pure]
  | _, _, @IsSubselection.some _ _ tss _ hss, rest, _ => by
    obtain ⟨h1, hset⟩ := selectionSet_complete hss rest
    refine ⟨Nat.le_of_lt h1, ?_⟩
    obtain ⟨o, r, hts, ho⟩ : ∃ o r, tss = o :: r ∧ o.kind = .braceL := by
      cases hss with
      | mk _ ho => exact ⟨_, _, rfl, ho⟩
    have hb : nextIs stop .braceL (tss ++ rest) = .ok true := by rw [hts]; exact nextIs_cons_of ho
    rw [subselection]
    simp only [hb, hset, bind, Except.bind, if_true, pure, Except.pure]

theorem selections_complete {d} : ∀ {ts sels}, IsSelections limit d ts sels → ∀ (o : Token) {c : Token},
    c.kind = .braceR → ∀ rest, ∃ h, selections stop limit d o (ts ++ c :: rest) = .ok (sels, ⟨rest, h⟩)
  | _, _, .nil, o, c, hc, rest => by
    rw [List.nil_append]
    refine ⟨by simp, ?_⟩
    rw [selections]
    simp [hc]
  | _, _, @IsSelections.cons _ _ _ more _ _ hs hss, o, c, hc, rest => by
    obtain ⟨t, r, rfl, hk⟩ := hs.first
    have hnext : NextNot stop continuesSelection (more ++ c :: rest) := by
      cases hss with
      | nil => exact continuesSelection_of_kind (.inr (.inr hc))
      | cons hs' _ =>
        obtain ⟨t', r', rfl, hk'⟩ := hs'.first
        exact continuesSelection_of_kind (hk'.imp_right .inl)
    obtain ⟨h1, hsel⟩ := selection_complete hs (more ++ c :: rest) hnext
    obtain ⟨h2, hl⟩ := selections_complete hss o hc rest
    rw [List.append_assoc, List.cons_append]
    refine ⟨by simp only [List.length_cons, List.length_append] at h1 h2 ⊢; omega, ?_⟩
    have hbr : t.kind ≠ .braceR := by rcases hk with hk | hk <;> simp [hk]
    have heof : t.kind ≠ .eof := by rcases hk with hk | hk <;> simp [hk]
    rw [selections]
    simp only [hbr, heof, if_false]
    change selection stop limit d (t :: (r ++ (more ++ c :: rest))) = _ at hsel
    rw [hsel]
    simp only [bind, Except.bind, hl, pure, Except.pure]

theorem selection_complete {d} : ∀ {ts s}, IsSelection limit d ts s → ∀ rest,
    NextNot stop continuesSelection rest → ∃ h, selection stop limit d (ts ++ rest) = .ok (s, ⟨rest, h⟩)
  | _, _, @IsSelection.field _ _ tn ta td tss key name args dirs sub hfn ha hdirs hsub, rest, hrest => by
    obtain ⟨h5, hs⟩ := subselection_complete hsub rest (hrest.mono fun t ht => by simp_all [continuesSelection])
    obtain ⟨h4, hd⟩ := directives_complete stop hdirs (tss ++ rest)
      (nextNot_append (fun t ht => by simp [continuesDirectives, hsub.lead t ht])
        (hrest.mono fun _ => continuesSelection_of_continuesDirectives))
    obtain ⟨h3, hargs⟩ := arguments_complete stop ha (td ++ (tss ++ rest))
      (nextNot_append (fun t ht => by simp [IsDirectives.lead hdirs t ht])
        (nextNot_append (fun t ht => by simp [hsub.lead t ht])
          (hrest.mono fun t ht => by simp_all [continuesSelection])))
    obtain ⟨first, more, rfl, hfk⟩ : ∃ first more, tn = first :: more ∧ first.kind = .name := by
      cases hfn <;> exact ⟨_, _, rfl, by assumption⟩
    have hkey : key = first.value := by cases hfn <;> rfl
    subst hkey
    obtain ⟨h2, hname⟩ := fieldName_complete stop hfn (ta ++ (td ++ (tss ++ rest)))
      (nextNot_append (fun t ht => by simp [ha.lead t ht])
        (nextNot_append (fun t ht => by simp [IsDirectives.lead hdirs t ht])
          (nextNot_append (fun t ht => by simp [hsub.lead t ht])
            (hrest.mono fun t ht => by simp_all [continuesSelection]))))
    rw [List.append_assoc, List.append_assoc, List.append_assoc, List.cons_append]
    refine ⟨by simp only [List.length_cons, List.length_append] at h2 h3 h4 h5 ⊢; omega, ?_⟩
    have hnone : accept stop (fun t => decide (t.kind = .spread)) (first :: (more ++ (ta ++ (td ++ (tss ++ rest))))) =
        .ok none := accept_of_nextNot (by simp [hfk])
    rw [selection]
    simp only [hnone, bind, Except.bind, expectName_cons hfk, hname, hargs, hd, hs, pure, Except.pure]
  | _, _, @IsSelection.fragmentSpread _ _ s n td dirs hs hn hon hdirs, rest, hrest => by
    obtain ⟨h1, hd⟩ := directives_complete stop hdirs rest (hrest.mono fun _ => continuesSelection_of_continuesDirectives)
    rw [List.cons_append, List.cons_append]
    refine ⟨by simp only [List.length_cons] at h1 ⊢; omega, ?_⟩
    have hspread : accept stop (fun t => decide (t.kind = .spread)) (s :: n :: (td ++ rest)) =
        .ok (some ⟨n :: (td ++ rest), length_lt_cons _ _⟩) := accept_cons_of (by simpa using hs)
    have hroute : (n.isKeyword "on" || decide (n.kind = .atSign) || decide (n.kind = .braceL)) = false := by
      simp [Token.isKeyword, hn, hon]
    rw [selection]
    simp only [hspread, bind, Except.bind, peek, hroute, Bool.false_eq_true, if_false, fragmentName_cons hn hon, hd,
      pure, Except.pure]
  | _, _, @IsSelection.inlineFragment _ _ s tc td tss cond dirs sels hs htc hdirs hss, rest, hrest => by
    obtain ⟨h4, hset⟩ := selectionSet_complete hss rest
    obtain ⟨o, r, hts, ho⟩ : ∃ o r, tss = o :: r ∧ o.kind = .braceL := by
      cases hss with
      | mk _ ho => exact ⟨_, _, rfl, ho⟩
    obtain ⟨h3, hd⟩ := directives_complete stop hdirs (tss ++ rest) (by rw [hts]; simp [continuesDirectives, ho])
    obtain ⟨h2, hcond⟩ := typeCondition_complete stop htc (td ++ (tss ++ rest))
      (nextNot_append (fun t ht => by simp [Token.isKeyword, IsDirectives.lead hdirs t ht])
        (by rw [hts]; simp [Token.isKeyword, ho]))
    obtain ⟨u, r', hX, hu⟩ : ∃ u r', tc ++ (td ++ (tss ++ rest)) = u :: r' ∧
        (u.isKeyword "on" || decide (u.kind = .atSign) || decide (u.kind = .braceL)) = true := by
      cases htc with
      | some hon => exact ⟨_, _, rfl, by simp [hon]⟩
      | none =>
        cases hdirs with
        | nil => exact ⟨o, r ++ rest, by simp [hts], by simp [ho]⟩
        | cons hdir _ =>
          cases hdir with
          | mk hsign => exact ⟨_, _, rfl, by simp [hsign]⟩
    have hp : peek stop (tc ++ (td ++ (tss ++ rest))) = .ok u := by rw [hX]; rfl
    rw [List.append_assoc, List.append_assoc, List.cons_append]
    refine ⟨by simp only [List.length_cons, List.length_append] at h2 h3 h4 ⊢; omega, ?_⟩
    have hspread : accept stop (fun t => decide (t.kind = .spread)) (s :: (tc ++ (td ++ (tss ++ rest)))) =
        .ok (some ⟨tc ++ (td ++ (tss ++ rest)), length_lt_cons _ _⟩) := accept_cons_of (by simpa using hs)
    rw [selection]
    simp only [hspread, bind, Except.bind, hp, hu, if_true, hcond, hd, hset, pure, Except.pure]

end

/-- A token that a variable definition would go on with: the `!` of its type, its default,
a directive, or a directive's arguments. -/
def continuesVariable (t : Token) : Bool :=
  t.kind = .bang || t.kind = .equals || t.kind = .atSign || t.kind = .parenL

theorem continuesVariable_of_continuesDirectives {t : Token} (h : continuesDirectives t = true) :
    continuesVariable t = true := by
  simp only [continuesDirectives, Bool.or_eq_true, decide_eq_true_eq] at h
  rcases h with h | h <;> simp [continuesVariable, h]

theorem defaultValue_complete {td dflt} (h : IsDefault limit td dflt) (rest : List Token)
    (hrest : NextNot stop (fun t => t.kind = .equals) rest) :
    ∃ h, defaultValue stop limit (td ++ rest) = .ok (dflt, ⟨rest, h⟩) := by
  cases h with
  | none =>
    rw [List.nil_append]
    exact ⟨Nat.le_refl _, by simp [defaultValue, accept_of_nextNot hrest, bind, Except.bind, pure, Except.pure]⟩
  | @some eq tv v heq hv =>
    obtain ⟨h1, hval⟩ := value_complete stop hv rest
    rw [List.cons_append]
    refine ⟨by simp only [List.length_cons] at h1 ⊢; omega, ?_⟩
    simp [defaultValue, accept_cons_of (p := fun t => decide (t.kind = .equals)) (by simpa using heq), hval, bind,
      Except.bind, pure, Except.pure]

theorem variableDefinition_complete {ts vd} (h : IsVariableDefinition limit ts vd) (rest : List Token)
    (hrest : NextNot stop continuesVariable rest) :
    ∃ h, variableDefinition stop limit (ts ++ rest) = .ok (vd, ⟨rest, h⟩) := by
  cases h with
  | @mk dollar n colon tt td tds ty dflt dirs hdollar hn hcolon hty hdflt hdirs =>
    obtain ⟨h6, hd⟩ := directives_complete stop hdirs rest (hrest.mono fun _ => continuesVariable_of_continuesDirectives)
    obtain ⟨h5, hdv⟩ := defaultValue_complete stop hdflt (tds ++ rest)
      (nextNot_append (fun t ht => by simp [IsDirectives.lead hdirs t ht])
        (hrest.mono fun t ht => by simp_all [continuesVariable]))
    obtain ⟨h4, htr⟩ := typeRef_complete stop hty (td ++ (tds ++ rest))
      (nextNot_append (fun t ht => by simp [hdflt.lead t ht])
        (nextNot_append (fun t ht => by simp [IsDirectives.lead hdirs t ht])
          (hrest.mono fun t ht => by simp_all [continuesVariable])))
    rw [List.append_assoc, List.append_assoc, List.cons_append, List.cons_append, List.cons_append]
    refine ⟨by simp only [List.length_cons, List.length_append] at h4 h5 h6 ⊢; omega, ?_⟩
    simp only [variableDefinition, expect_cons hdollar, expectName_cons hn, expect_cons hcolon, htr, hdv, hd, bind,
      Except.bind, pure, Except.pure]

theorem operationName_complete {tn name} (h : IsOperationName tn name) (rest : List Token)
    (hrest : NextNot stop (fun t => t.kind = .name) rest) :
    ∃ h, operationName stop (tn ++ rest) = .ok (name, ⟨rest, h⟩) := by
  cases h with
  | none =>
    rw [List.nil_append]
    exact ⟨Nat.le_refl _, by simp [operationName, nextIs_of_nextNot hrest, bind, Except.bind, pure, Except.pure]⟩
  | @some n hn =>
    rw [List.singleton_append]
    refine ⟨by simp, ?_⟩
    simp [operationName, nextIs_cons_of hn, expectName_cons hn, bind, Except.bind, pure, Except.pure]

theorem variableDefinitions_complete {tv vars} (h : IsVariables limit tv vars) (rest : List Token)
    (hrest : NextNot stop (fun t => t.kind = .parenL) rest) :
    ∃ h, variableDefinitions stop limit (tv ++ rest) = .ok (vars, ⟨rest, h⟩) := by
  cases h with
  | none =>
    rw [List.nil_append]
    exact ⟨Nat.le_refl _, by simp [variableDefinitions, nextIs_of_nextNot hrest, bind, Except.bind, pure, Except.pure]⟩
  | @some o c tvs vs ho hc hs hne =>
    rw [List.append_assoc, List.singleton_append]
    obtain ⟨h1, hl⟩ : ∃ h, nonEmptyList stop .parenL .parenR "variable definition" "variable definitions"
        (variableDefinition stop limit) (o :: tvs ++ c :: rest) = .ok (vars, ⟨rest, h⟩) :=
      nonEmptyList_complete (fun hn hF => variableDefinition_complete stop hn _ hF)
        (fun hn => by obtain ⟨t, r, rfl, hk⟩ := hn.first; exact ⟨t, r, rfl, by simp [hk], by simp [hk]⟩)
        (fun hn => by obtain ⟨t, r, rfl, hk⟩ := hn.first; simp [continuesVariable, hk])
        ho hc (fun _ => by simp [continuesVariable, hc]) hs hne rest
    refine ⟨Nat.le_of_lt h1, ?_⟩
    have hn : nextIs stop .parenL (o :: tvs ++ c :: rest) = .ok true := nextIs_cons_of ho
    simp only [variableDefinitions, hn, hl, bind, Except.bind, if_true, pure, Except.pure]

theorem operation_complete {ts op} (h : IsOperation limit ts op) (rest : List Token) :
    ∃ h, operation stop limit (ts ++ rest) = .ok (op, ⟨rest, h⟩) := by
  cases h with
  | shorthand hss =>
    obtain ⟨h1, hset⟩ := selectionSet_complete stop hss rest
    obtain ⟨o, r, hts, ho⟩ : ∃ o r, ts = o :: r ∧ o.kind = .braceL := by
      cases hss with
      | mk _ ho => exact ⟨_, _, rfl, ho⟩
    have hb : nextIs stop .braceL (ts ++ rest) = .ok true := by rw [hts]; exact nextIs_cons_of ho
    exact ⟨h1, by simp only [operation, hb, hset, bind, Except.bind, if_true, pure, Except.pure]⟩
  | @full kw kind tn tv td tss name vars dirs sels hkw hkind hn hv hdirs hss =>
    obtain ⟨h5, hset⟩ := selectionSet_complete stop hss rest
    obtain ⟨o, r, hts, ho⟩ : ∃ o r, tss = o :: r ∧ o.kind = .braceL := by
      cases hss with
      | mk _ ho => exact ⟨_, _, rfl, ho⟩
    have hsetNext {p : Token → Bool} (hp : p o = false) : NextNot stop p (tss ++ rest) := by
      rw [hts]
      exact hp
    obtain ⟨h4, hd⟩ := directives_complete stop hdirs (tss ++ rest) (hsetNext (by simp [continuesDirectives, ho]))
    obtain ⟨h3, hvars⟩ := variableDefinitions_complete stop hv (td ++ (tss ++ rest))
      (nextNot_append (fun t ht => by simp [IsDirectives.lead hdirs t ht]) (hsetNext (by simp [ho])))
    obtain ⟨h2, hname⟩ := operationName_complete stop hn (tv ++ (td ++ (tss ++ rest)))
      (nextNot_append (fun t ht => by simp [hv.lead t ht])
        (nextNot_append (fun t ht => by simp [IsDirectives.lead hdirs t ht]) (hsetNext (by simp [ho]))))
    rw [List.append_assoc, List.append_assoc, List.append_assoc, List.cons_append]
    refine ⟨by simp only [List.length_cons, List.length_append] at h2 h3 h4 h5 ⊢; omega, ?_⟩
    have hb : nextIs stop .braceL (kw :: (tn ++ (tv ++ (td ++ (tss ++ rest))))) = .ok false :=
      nextIs_of_nextNot (by simp [hkw])
    simp only [operation, hb, Bool.false_eq_true, if_false, bind, Except.bind, expectName_cons hkw, hkind, hname,
      hvars, hd, hset, pure, Except.pure]

theorem fragment_complete {ts f} (h : IsFragment limit ts f) (rest : List Token) :
    ∃ h, fragment stop limit (ts ++ rest) = .ok (f, ⟨rest, h⟩) := by
  cases h with
  | @mk frag n on cond td tss dirs sels hfrag hn hnv hon hcond hdirs hss =>
    obtain ⟨h2, hset⟩ := selectionSet_complete stop hss rest
    obtain ⟨h1, hd⟩ := directives_complete stop hdirs (tss ++ rest) (by
      cases hss with
      | mk _ ho => simp [continuesDirectives, ho])
    rw [List.append_assoc, List.cons_append, List.cons_append, List.cons_append, List.cons_append]
    refine ⟨by simp only [List.length_cons, List.length_append] at h1 h2 ⊢; omega, ?_⟩
    simp only [fragment, expectKeyword_cons hfrag, fragmentName_cons hn hnv, expectKeyword_cons hon,
      expectName_cons hcond, hd, hset, bind, Except.bind, pure, Except.pure]

theorem OperationKind.keyword_of_ofKeyword? {w : String} (h : OperationKind.ofKeyword? w ≠ none) :
    w = "query" ∨ w = "mutation" ∨ w = "subscription" := by
  unfold OperationKind.ofKeyword? at h
  by_cases hq : w = "query"
  · exact .inl hq
  by_cases hm : w = "mutation"
  · exact .inr (.inl hm)
  by_cases hs : w = "subscription"
  · exact .inr (.inr hs)
  simp [hq, hm, hs] at h

/-- **A sentence of definitions is read whole, to the end token**: the reader adds its
operations and its fragments to the document it started with, and reports no fault. -/
theorem definitions_complete {ts os fs} (h : IsDefinitions limit ts os fs) {u : Token} (hstop : stop = .eof u)
    (hu : u.kind = .eof) (doc : Document) :
    definitions stop limit doc ts = (⟨doc.operations ++ os, doc.fragments ++ fs⟩, none) := by
  induction h generalizing doc with
  | nil =>
    subst hstop
    rw [definitions]
    simp [peek, hu]
  | @operation ts more o os fs ho _ ih =>
    obtain ⟨h1, hop⟩ := operation_complete stop ho more
    obtain ⟨t, r, rfl, hk⟩ := ho.first
    have heof : t.kind ≠ .eof := by rcases hk with hk | ⟨hk, -⟩ <;> simp [hk]
    have hfrag : t.isKeyword "fragment" = false := by
      rcases hk with hk | ⟨hk, hkw⟩
      · simp [Token.isKeyword, hk]
      · rcases OperationKind.keyword_of_ofKeyword? hkw with hv | hv | hv <;> simp [Token.isKeyword, hk, hv]
    have hstart : (decide (t.kind = .braceL) || t.isKeyword "query" || t.isKeyword "mutation" ||
        t.isKeyword "subscription") = true := by
      rcases hk with hk | ⟨hk, hkw⟩
      · simp [hk]
      · rcases OperationKind.keyword_of_ofKeyword? hkw with hv | hv | hv <;> simp [Token.isKeyword, hk, hv]
    rw [definitions]
    simp only [List.cons_append, peek, heof, if_false, hfrag, Bool.false_eq_true, hstart, if_true]
    change operation stop limit (t :: (r ++ more)) = _ at hop
    rw [hop]
    simp [ih, Document.addOperation]
  | @fragment ts more f os fs hf _ ih =>
    obtain ⟨h1, hfr⟩ := fragment_complete stop hf more
    obtain ⟨t, r, rfl, hk⟩ := hf.first
    have heof : t.kind ≠ .eof := by simp_all [Token.isKeyword]
    rw [definitions]
    simp only [List.cons_append, peek, heof, if_false, hk, if_true]
    change fragment stop limit (t :: (r ++ more)) = _ at hfr
    rw [hfr]
    simp [ih, Document.addFragment]

end Syntax
end Gql
