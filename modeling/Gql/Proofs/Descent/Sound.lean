import Gql.Proofs.Descent.Steps
/-!
# Sound — what the reader takes is a sentence of the grammar

Every rule of the reader that succeeds took a prefix of its tokens that spells, by the
relation of `Gql.Grammar` for that rule, exactly the node it gives; a list rule also took
the closing token.  The proofs follow the recursion of the rules: the mutual rules by mutual
recursion on the tokens left, measured as their definitions are, the others by functional
induction.  No lookahead condition is needed here: whatever the reader decided by looking
at the next token, what it took is a sentence.
-/
namespace Gql
namespace Syntax

open Grammar

variable {stop : Stop} {limit : Nat}

mutual

theorem value_sound {ctx d} : ∀ {ts : List Token} {v} {r : {r : List Token // r.length < ts.length}},
    value stop limit ctx d ts = .ok (v, r) → ∃ pre, ts = pre ++ r.1 ∧ IsValue limit ctx d pre v
  | [], _, _, h => by rw [value] at h; split at h <;> cases h
  | t :: rs, v, r, h => by
    rw [value] at h
    split at h
    · cases h
    rename_i hd
    split at h
    · rename_i hk
      obtain ⟨⟨items, r1, h1⟩, hl, h⟩ := bind_eq_ok.1 h
      cases h
      obtain ⟨pre, c, hrs, hc, hv⟩ := listItems_sound hl
      exact ⟨t :: pre ++ [c], by simp [hrs], .list (by omega) hk hc hv⟩
    · rename_i hk
      obtain ⟨⟨fields, r1, h1⟩, hl, h⟩ := bind_eq_ok.1 h
      cases h
      obtain ⟨pre, c, hrs, hc, hv⟩ := objectFields_sound hl
      exact ⟨t :: pre ++ [c], by simp [hrs], .object (by omega) hk hc hv⟩
    · rename_i hk
      split at h
      · cases h
      · rename_i hctx
        obtain ⟨⟨n, r1, h1⟩, hn, h⟩ := bind_eq_ok.1 h
        cases h
        obtain ⟨hrs, hnk⟩ := expectName_ok hn
        exact ⟨[t, n], by simp [hrs], .variable (by omega) hctx hk hnk⟩
    · cases h
      exact ⟨[t], rfl, .int (by omega) (by assumption)⟩
    · cases h
      exact ⟨[t], rfl, .float (by omega) (by assumption)⟩
    · cases h
      exact ⟨[t], rfl, .string (by omega) (by assumption)⟩
    · cases h
      exact ⟨[t], rfl, .blockString (by omega) (by assumption)⟩
    · rename_i hk
      cases h
      refine ⟨[t], rfl, ?_⟩
      by_cases ht : t.value = "true"
      · rw [if_pos ht]
        exact .boolean true (by omega) hk (by simp [ht])
      rw [if_neg ht]
      by_cases hf : t.value = "false"
      · rw [if_pos hf]
        exact .boolean false (by omega) hk (by simp [hf])
      rw [if_neg hf]
      by_cases hn : t.value = "null"
      · rw [if_pos hn]
        exact .null (by omega) hk hn
      · rw [if_neg hn]
        exact .enum (by omega) hk ht hf hn
    · cases h
termination_by ts => (ts.length, 0)
decreasing_by all_goals decreasing_with omega

theorem listItems_sound {ctx d o} : ∀ {ts : List Token} {vs} {r : {r : List Token // r.length ≤ ts.length}},
    listItems stop limit ctx d o ts = .ok (vs, r) →
    ∃ pre c, ts = pre ++ c :: r.1 ∧ c.kind = .bracketR ∧ IsValues limit ctx d pre vs
  | [], _, _, h => by rw [listItems] at h; cases h
  | t :: rs, vs, r, h => by
    rw [listItems] at h
    split at h
    · cases h
      exact ⟨[], t, rfl, by assumption, .nil⟩
    split at h
    · cases h
    obtain ⟨⟨v, r1, h1⟩, hv, h⟩ := bind_eq_ok.1 h
    obtain ⟨⟨vs', r2, h2⟩, hvs, h⟩ := bind_eq_ok.1 h
    cases h
    obtain ⟨pre, hpre, hval⟩ := value_sound hv
    obtain ⟨pre', c, hr1, hc, hvals⟩ := listItems_sound hvs
    exact ⟨pre ++ pre', c, by simp [hpre, hr1], hc, .cons hval hvals⟩
termination_by ts => (ts.length, 1)
decreasing_by all_goals decreasing_with omega

theorem objectFields_sound {ctx d o} : ∀ {ts : List Token} {fs} {r : {r : List Token // r.length ≤ ts.length}},
    objectFields stop limit ctx d o ts = .ok (fs, r) →
    ∃ pre c, ts = pre ++ c :: r.1 ∧ c.kind = .braceR ∧ IsFields limit ctx d pre fs
  | [], _, _, h => by rw [objectFields] at h; cases h
  | t :: rs, fs, r, h => by
    rw [objectFields] at h
    split at h
    · cases h
      exact ⟨[], t, rfl, by assumption, .nil⟩
    split at h
    · cases h
    obtain ⟨⟨n, r1, h1⟩, hn, h⟩ := bind_eq_ok.1 h
    obtain ⟨⟨colon, r2, h2⟩, hcolon, h⟩ := bind_eq_ok.1 h
    obtain ⟨⟨v, r3, h3⟩, hv, h⟩ := bind_eq_ok.1 h
    obtain ⟨⟨fs', r4, h4⟩, hfs, h⟩ := bind_eq_ok.1 h
    cases h
    obtain ⟨hts, hnk⟩ := expectName_ok hn
    obtain ⟨hr1, hck⟩ := expect_ok hcolon
    obtain ⟨pre, hpre, hval⟩ := value_sound hv
    obtain ⟨pre', c, hr3, hc, hfields⟩ := objectFields_sound hfs
    exact ⟨n :: colon :: pre ++ pre', c, by simp [hts, hr1, hpre, hr3], hc, .cons hnk hck hval hfields⟩
termination_by ts => (ts.length, 1)
decreasing_by all_goals decreasing_with grind

end

theorem typeRef_sound {d} {ts : List Token} {ty} {r : {r : List Token // r.length < ts.length}}
    (h : typeRef stop limit d ts = .ok (ty, r)) : ∃ pre, ts = pre ++ r.1 ∧ IsType limit d pre ty := by
  fun_induction typeRef stop limit d ts generalizing ty with
  | case1 => cases h
  | case2 d ts hd bare =>
    rename_i ih
    obtain ⟨⟨ty0, r1, h1⟩, hb, h⟩ := bind_eq_ok.1 h
    obtain ⟨x, hx, h⟩ := bind_eq_ok.1 h
    have hbang : ∃ bang nonNull, r1 = bang ++ r.1 ∧ IsBang bang nonNull ∧
        ty = if nonNull then ty0.markNonNull else ty0 := by
      cases x with
      | some r2 =>
        obtain ⟨b, hr1, hbk⟩ := accept_some hx
        cases h
        exact ⟨[b], true, hr1, .some (by simpa using hbk), rfl⟩
      | none =>
        cases h
        exact ⟨[], false, rfl, .none, rfl⟩
    obtain ⟨bang, nonNull, hr1, hbang, rfl⟩ := hbang
    cases ts with
    | nil => simp only [bare] at hb; cases hb
    | cons t rs =>
      simp only [bare] at hb
      split at hb
      · cases hb
        refine ⟨t :: bang, by simp [hr1], ?_⟩
        cases nonNull <;> exact .named (by omega) (by assumption) hbang
      · obtain ⟨⟨e, r2, h2⟩, he, hb⟩ := bind_eq_ok.1 hb
        simp only at hb
        obtain ⟨⟨c, r3, h3⟩, hc, hb⟩ := bind_eq_ok.1 hb
        cases hb
        simp only at hr1
        obtain ⟨pre, hpre, hty⟩ := ih _ he
        obtain ⟨hr2, hck⟩ := expect_ok hc
        refine ⟨t :: pre ++ c :: bang, by simp [hpre, hr2, hr1], ?_⟩
        cases nonNull <;> exact .list (by omega) (by assumption) hck hty hbang
      · cases hb

theorem argument_sound {ctx d} {ts : List Token} {arg} {r : {r : List Token // r.length < ts.length}}
    (h : argument stop limit ctx d ts = .ok (arg, r)) : ∃ pre, ts = pre ++ r.1 ∧ IsArgument limit ctx d pre arg := by
  obtain ⟨⟨n, r1, h1⟩, hn, h⟩ := bind_eq_ok.1 h
  obtain ⟨⟨colon, r2, h2⟩, hcolon, h⟩ := bind_eq_ok.1 h
  obtain ⟨⟨v, r3, h3⟩, hv, h⟩ := bind_eq_ok.1 h
  cases h
  obtain ⟨hts, hnk⟩ := expectName_ok hn
  obtain ⟨hr1, hck⟩ := expect_ok hcolon
  obtain ⟨pre, hpre, hval⟩ := value_sound hv
  exact ⟨n :: colon :: pre, by simp [hts, hr1, hpre], .mk hnk hck hval⟩

theorem arguments_sound {ctx d} {ts : List Token} {args} {r : {r : List Token // r.length ≤ ts.length}}
    (h : arguments stop limit ctx d ts = .ok (args, r)) :
    ∃ pre, ts = pre ++ r.1 ∧ IsArguments limit ctx d pre args := by
  obtain ⟨b, -, h⟩ := bind_eq_ok.1 h
  split at h
  · obtain ⟨⟨args', r1, h1⟩, hl, h⟩ := bind_eq_ok.1 h
    cases h
    obtain ⟨o, pre, c, hts, ho, hc, hs, hne⟩ := nonEmptyList_sound (IsArgument limit ctx d) argument_sound hl
    exact ⟨o :: pre ++ [c], by simp [hts], .some ho hc hs hne⟩
  · cases h
    exact ⟨[], rfl, .none⟩

theorem directives_sound {ctx d} {ts : List Token} {dirs} {r : {r : List Token // r.length ≤ ts.length}}
    (h : directives stop limit ctx d ts = .ok (dirs, r)) :
    ∃ pre, ts = pre ++ r.1 ∧ IsDirectives limit ctx d pre dirs := by
  fun_induction directives stop limit ctx d ts generalizing dirs with
  | case1 ts ih =>
    obtain ⟨x, hx, h⟩ := bind_eq_ok.1 h
    cases x with
    | none =>
      cases h
      exact ⟨[], rfl, .nil⟩
    | some r1 =>
      obtain ⟨sign, hts, hsign⟩ := accept_some hx
      obtain ⟨⟨n, r2, h2⟩, hn, h⟩ := bind_eq_ok.1 h
      obtain ⟨⟨args, r3, h3⟩, hargs, h⟩ := bind_eq_ok.1 h
      obtain ⟨⟨ds, r4, h4⟩, hds, h⟩ := bind_eq_ok.1 h
      cases h
      obtain ⟨hr1, hnk⟩ := expectName_ok hn
      obtain ⟨pre, hpre, hargs⟩ := arguments_sound hargs
      obtain ⟨pre', hpre', hds⟩ := ih r1.1 r1.2 r2 h2 r3 h3 hds
      exact ⟨sign :: n :: pre ++ pre', by simp [hts, hr1, hpre, hpre'],
        .cons (.mk (by simpa using hsign) hnk hargs) hds⟩

theorem typeCondition_sound {ts : List Token} {cond} {r : {r : List Token // r.length ≤ ts.length}}
    (h : typeCondition stop ts = .ok (cond, r)) : ∃ tc, ts = tc ++ r.1 ∧ IsTypeCondition tc cond := by
  obtain ⟨y, hy, h⟩ := bind_eq_ok.1 h
  cases y with
  | some r1 =>
    obtain ⟨on, hts, hon⟩ := accept_some hy
    obtain ⟨⟨n, r2, h2⟩, hn, h⟩ := bind_eq_ok.1 h
    cases h
    obtain ⟨hr1, hnk⟩ := expectName_ok hn
    exact ⟨[on, n], by simp [hts, hr1], .some hon hnk⟩
  | none =>
    cases h
    exact ⟨[], rfl, .none⟩

theorem fieldName_sound {first : Token} {ts : List Token} {name} {r : {r : List Token // r.length ≤ ts.length}}
    (hf : first.kind = .name) (h : fieldName stop first ts = .ok (name, r)) :
    ∃ tn, first :: ts = tn ++ r.1 ∧ IsFieldName tn first.value name := by
  obtain ⟨y, hy, h⟩ := bind_eq_ok.1 h
  cases y with
  | some r1 =>
    obtain ⟨colon, hts, hcolon⟩ := accept_some hy
    obtain ⟨⟨n, r2, h2⟩, hn, h⟩ := bind_eq_ok.1 h
    cases h
    obtain ⟨hr1, hnk⟩ := expectName_ok hn
    exact ⟨[first, colon, n], by simp [hts, hr1], .aliased hf (by simpa using hcolon) hnk⟩
  | none =>
    cases h
    exact ⟨[first], rfl, .plain hf⟩

mutual

theorem selectionSet_sound {d} {ts : List Token} {sels} {r : {r : List Token // r.length < ts.length}}
    (h : selectionSet stop limit d ts = .ok (sels, r)) : ∃ pre, ts = pre ++ r.1 ∧ IsSelectionSet limit d pre sels := by
  rw [selectionSet] at h
  split at h
  · cases h
  rename_i hd
  obtain ⟨⟨o, r1, h1⟩, ho, h⟩ := bind_eq_ok.1 h
  obtain ⟨⟨⟩, hne, h⟩ := bind_eq_ok.1 h
  obtain ⟨⟨sels', r2, h2⟩, hs, h⟩ := bind_eq_ok.1 h
  cases h
  obtain ⟨hts, hok⟩ := expect_ok ho
  obtain ⟨pre, c, hr1, hc, hsels⟩ := selections_sound hs
  refine ⟨o :: pre ++ [c], by simp [hts, hr1], .mk (by omega) hok hc hsels ?_⟩
  -- an empty set would have been refused at its `}`
  rintro rfl
  cases hsels
  rw [List.nil_append] at hr1
  rw [hr1] at hne
  exact nonEmpty_ok hne hc
termination_by (ts.length, 2)
decreasing_by all_goals decreasing_with omega

theorem subselection_sound {d} {ts : List Token} {sub} {r : {r : List Token // r.length ≤ ts.length}}
    (h : subselection stop limit d ts = .ok (sub, r)) : ∃ pre, ts = pre ++ r.1 ∧ IsSubselection limit d pre sub := by
  rw [subselection] at h
  obtain ⟨b, -, h⟩ := bind_eq_ok.1 h
  split at h
  · obtain ⟨⟨sels, r1, h1⟩, hsels, h⟩ := bind_eq_ok.1 h
    cases h
    obtain ⟨pre, hpre, hss⟩ := selectionSet_sound hsels
    exact ⟨pre, hpre, .some hss⟩
  · cases h
    exact ⟨[], rfl, .none⟩
termination_by (ts.length, 3)
decreasing_by all_goals decreasing_with omega

theorem selections_sound {d o} : ∀ {ts : List Token} {sels} {r : {r : List Token // r.length ≤ ts.length}},
    selections stop limit d o ts = .ok (sels, r) →
    ∃ pre c, ts = pre ++ c :: r.1 ∧ c.kind = .braceR ∧ IsSelections limit d pre sels
  | [], _, _, h => by rw [selections] at h; cases h
  | t :: rs, sels, r, h => by
    rw [selections] at h
    split at h
    · cases h
      exact ⟨[], t, rfl, by assumption, .nil⟩
    split at h
    · cases h
    obtain ⟨⟨s, r1, h1⟩, hs, h⟩ := bind_eq_ok.1 h
    obtain ⟨⟨ss, r2, h2⟩, hss, h⟩ := bind_eq_ok.1 h
    cases h
    obtain ⟨pre, hpre, hsel⟩ := selection_sound hs
    obtain ⟨pre', c, hr1, hc, hsels⟩ := selections_sound hss
    exact ⟨pre ++ pre', c, by simp [hpre, hr1], hc, .cons hsel hsels⟩
termination_by ts => (ts.length, 1)
decreasing_by all_goals decreasing_with omega

theorem selection_sound {d} {ts : List Token} {s} {r : {r : List Token // r.length < ts.length}}
    (h : selection stop limit d ts = .ok (s, r)) : ∃ pre, ts = pre ++ r.1 ∧ IsSelection limit d pre s := by
  rw [selection] at h
  obtain ⟨x, hx, h⟩ := bind_eq_ok.1 h
  cases x with
  | some r1 =>
    obtain ⟨sp, hts, hsp⟩ := accept_some hx
    obtain ⟨u, -, h⟩ := bind_eq_ok.1 h
    split at h
    · obtain ⟨⟨cond, r2, h2⟩, hcond, h⟩ := bind_eq_ok.1 h
      obtain ⟨⟨dirs, r3, h3⟩, hdirs, h⟩ := bind_eq_ok.1 h
      obtain ⟨⟨sels, r4, h4⟩, hsels, h⟩ := bind_eq_ok.1 h
      cases h
      obtain ⟨tc, hr1, htc⟩ := typeCondition_sound hcond
      obtain ⟨pre, hpre, hd⟩ := directives_sound hdirs
      obtain ⟨pre', hpre', hss⟩ := selectionSet_sound hsels
      exact ⟨sp :: tc ++ pre ++ pre', by simp [hts, hr1, hpre, hpre'],
        .inlineFragment (by simpa using hsp) htc hd hss⟩
    · obtain ⟨⟨n, r2, h2⟩, hn, h⟩ := bind_eq_ok.1 h
      obtain ⟨⟨dirs, r3, h3⟩, hdirs, h⟩ := bind_eq_ok.1 h
      cases h
      obtain ⟨nt, hr1, hnk, hnv, rfl⟩ := fragmentName_ok hn
      obtain ⟨pre, hpre, hd⟩ := directives_sound hdirs
      exact ⟨sp :: nt :: pre, by simp [hts, hr1, hpre], .fragmentSpread (by simpa using hsp) hnk hnv hd⟩
  | none =>
    obtain ⟨⟨first, r1, h1⟩, hf, h⟩ := bind_eq_ok.1 h
    obtain ⟨⟨name, r2, h2⟩, hname, h⟩ := bind_eq_ok.1 h
    obtain ⟨⟨args, r3, h3⟩, hargs, h⟩ := bind_eq_ok.1 h
    obtain ⟨⟨dirs, r4, h4⟩, hdirs, h⟩ := bind_eq_ok.1 h
    obtain ⟨⟨sub, r5, h5⟩, hsub, h⟩ := bind_eq_ok.1 h
    cases h
    obtain ⟨hts, hfk⟩ := expectName_ok hf
    obtain ⟨tn, htn, hfn⟩ := fieldName_sound hfk hname
    obtain ⟨ta, hta, hargs⟩ := arguments_sound hargs
    obtain ⟨td, htd, hdirs⟩ := directives_sound hdirs
    obtain ⟨tss, htss, hsub⟩ := subselection_sound hsub
    exact ⟨tn ++ ta ++ td ++ tss, by simp [hts, htn, hta, htd, htss], .field hfn hargs hdirs hsub⟩
termination_by (ts.length, 0)
decreasing_by all_goals decreasing_with omega

end

theorem defaultValue_sound {ts : List Token} {dflt} {r : {r : List Token // r.length ≤ ts.length}}
    (h : defaultValue stop limit ts = .ok (dflt, r)) : ∃ pre, ts = pre ++ r.1 ∧ IsDefault limit pre dflt := by
  obtain ⟨y, hy, h⟩ := bind_eq_ok.1 h
  cases y with
  | some r1 =>
    obtain ⟨eq, hts, heq⟩ := accept_some hy
    obtain ⟨⟨v, r2, h2⟩, hv, h⟩ := bind_eq_ok.1 h
    cases h
    obtain ⟨tv, hr1, hv⟩ := value_sound hv
    exact ⟨eq :: tv, by simp [hts, hr1], .some (by simpa using heq) hv⟩
  | none =>
    cases h
    exact ⟨[], rfl, .none⟩

theorem variableDefinition_sound {ts : List Token} {vd} {r : {r : List Token // r.length < ts.length}}
    (h : variableDefinition stop limit ts = .ok (vd, r)) : ∃ pre, ts = pre ++ r.1 ∧ IsVariableDefinition limit pre vd := by
  obtain ⟨⟨dollar, r1, h1⟩, hdollar, h⟩ := bind_eq_ok.1 h
  obtain ⟨⟨n, r2, h2⟩, hn, h⟩ := bind_eq_ok.1 h
  obtain ⟨⟨colon, r3, h3⟩, hcolon, h⟩ := bind_eq_ok.1 h
  obtain ⟨⟨ty, r4, h4⟩, hty, h⟩ := bind_eq_ok.1 h
  obtain ⟨⟨dflt, r5, h5⟩, hdflt, h⟩ := bind_eq_ok.1 h
  obtain ⟨⟨dirs, r6, h6⟩, hdirs, h⟩ := bind_eq_ok.1 h
  cases h
  obtain ⟨hts, hdk⟩ := expect_ok hdollar
  obtain ⟨hr1, hnk⟩ := expectName_ok hn
  obtain ⟨hr2, hck⟩ := expect_ok hcolon
  obtain ⟨tt, hr3, hty⟩ := typeRef_sound hty
  obtain ⟨td, hr4, hd⟩ := defaultValue_sound hdflt
  obtain ⟨tds, hr5, hdirs⟩ := directives_sound hdirs
  exact ⟨dollar :: n :: colon :: tt ++ td ++ tds, by simp [hts, hr1, hr2, hr3, hr4, hr5],
    .mk hdk hnk hck hty hd hdirs⟩

theorem operationName_sound {ts : List Token} {name} {r : {r : List Token // r.length ≤ ts.length}}
    (h : operationName stop ts = .ok (name, r)) : ∃ pre, ts = pre ++ r.1 ∧ IsOperationName pre name := by
  obtain ⟨b, -, h⟩ := bind_eq_ok.1 h
  split at h
  · obtain ⟨⟨n, r1, h1⟩, hn, h⟩ := bind_eq_ok.1 h
    cases h
    obtain ⟨hts, hnk⟩ := expectName_ok hn
    exact ⟨[n], hts, .some hnk⟩
  · cases h
    exact ⟨[], rfl, .none⟩

theorem variableDefinitions_sound {ts : List Token} {vars} {r : {r : List Token // r.length ≤ ts.length}}
    (h : variableDefinitions stop limit ts = .ok (vars, r)) : ∃ pre, ts = pre ++ r.1 ∧ IsVariables limit pre vars := by
  obtain ⟨b, -, h⟩ := bind_eq_ok.1 h
  split at h
  · obtain ⟨⟨vs, r1, h1⟩, hl, h⟩ := bind_eq_ok.1 h
    cases h
    obtain ⟨o, pre, c, hts, ho, hc, hs, hne⟩ :=
      nonEmptyList_sound (IsVariableDefinition limit) variableDefinition_sound hl
    exact ⟨o :: pre ++ [c], by simp [hts], .some ho hc hs hne⟩
  · cases h
    exact ⟨[], rfl, .none⟩

theorem operation_sound {ts : List Token} {op} {r : {r : List Token // r.length < ts.length}}
    (h : operation stop limit ts = .ok (op, r)) : ∃ pre, ts = pre ++ r.1 ∧ IsOperation limit pre op := by
  obtain ⟨b, -, h⟩ := bind_eq_ok.1 h
  split at h
  · obtain ⟨⟨sels, r1⟩, hsels, h⟩ := bind_eq_ok.1 h
    cases h
    obtain ⟨pre, hpre, hss⟩ := selectionSet_sound hsels
    exact ⟨pre, hpre, .shorthand hss⟩
  obtain ⟨⟨kw, r1, h1⟩, hkw, h⟩ := bind_eq_ok.1 h
  obtain ⟨hts, hkk⟩ := expectName_ok hkw
  simp only at h
  split at h
  · rename_i kind hkind
    obtain ⟨⟨name, r2, h2⟩, hname, h⟩ := bind_eq_ok.1 h
    obtain ⟨⟨vars, r3, h3⟩, hvars, h⟩ := bind_eq_ok.1 h
    obtain ⟨⟨dirs, r4, h4⟩, hdirs, h⟩ := bind_eq_ok.1 h
    obtain ⟨⟨sels, r5, h5⟩, hsels, h⟩ := bind_eq_ok.1 h
    cases h
    obtain ⟨tn, hr1, hn⟩ := operationName_sound hname
    obtain ⟨tv, hr2, hv⟩ := variableDefinitions_sound hvars
    obtain ⟨td, hr3, hdirs⟩ := directives_sound hdirs
    obtain ⟨tss, hr4, hss⟩ := selectionSet_sound hsels
    simp only at hr1 hr2 hr3 hr4
    exact ⟨kw :: tn ++ tv ++ td ++ tss, by simp [hts, hr1, hr2, hr3, hr4], .full hkk hkind hn hv hdirs hss⟩
  · cases h

theorem fragment_sound {ts : List Token} {f} {r : {r : List Token // r.length < ts.length}}
    (h : fragment stop limit ts = .ok (f, r)) : ∃ pre, ts = pre ++ r.1 ∧ IsFragment limit pre f := by
  obtain ⟨⟨frag, r1, h1⟩, hfrag, h⟩ := bind_eq_ok.1 h
  obtain ⟨⟨n, r2, h2⟩, hn, h⟩ := bind_eq_ok.1 h
  obtain ⟨⟨on, r3, h3⟩, hon, h⟩ := bind_eq_ok.1 h
  obtain ⟨⟨cond, r4, h4⟩, hcond, h⟩ := bind_eq_ok.1 h
  obtain ⟨⟨dirs, r5, h5⟩, hdirs, h⟩ := bind_eq_ok.1 h
  obtain ⟨⟨sels, r6, h6⟩, hsels, h⟩ := bind_eq_ok.1 h
  cases h
  obtain ⟨hts, hfk⟩ := expectKeyword_ok hfrag
  obtain ⟨nt, hr1, hnk, hnv, rfl⟩ := fragmentName_ok hn
  obtain ⟨hr2, honk⟩ := expectKeyword_ok hon
  obtain ⟨hr3, hck⟩ := expectName_ok hcond
  obtain ⟨td, hr4, hdirs⟩ := directives_sound hdirs
  obtain ⟨tss, hr5, hss⟩ := selectionSet_sound hsels
  exact ⟨frag :: nt :: on :: cond :: td ++ tss, by simp [hts, hr1, hr2, hr3, hr4, hr5],
    .mk hfk hnk hnv honk hck hdirs hss⟩

/-- **A read of definitions that ends without a fault read a sentence of the grammar, to
the end**, when no token in the way is an end token; the definitions it gave are those of
the sentence, after the ones it started with. -/
theorem definitions_sound {doc doc' : Document} {ts : List Token} (hts : ∀ t ∈ ts, t.kind ≠ .eof)
    (h : definitions stop limit doc ts = (doc', none)) :
    (∃ u, stop = .eof u) ∧ ∃ os fs, IsDefinitions limit ts os fs ∧
      doc' = ⟨doc.operations ++ os, doc.fragments ++ fs⟩ := by
  fun_induction definitions stop limit doc ts with
  | case1 => cases h
  | case2 doc ts t ht hk =>
    cases h
    cases ts with
    | nil =>
      cases stop with
      | eof u => exact ⟨⟨u, rfl⟩, [], [], .nil, by simp⟩
      | fault e => cases ht
    | cons t' rs =>
      cases ht
      exact absurd hk (hts _ List.mem_cons_self)
  | case3 => cases h
  | case4 doc ts t _ _ _ f r hr hf ih =>
    obtain ⟨pre, hpre, hfr⟩ := fragment_sound hf
    obtain ⟨hstop, os, fs, hdefs, rfl⟩ :=
      ih (fun t ht => hts t (by rw [hpre]; exact List.mem_append_right _ ht)) h
    refine ⟨hstop, os, f :: fs, ?_, by simp [Document.addFragment]⟩
    rw [hpre]
    exact .fragment hfr hdefs
  | case5 => cases h
  | case6 doc ts t _ _ _ _ o r hr ho ih =>
    obtain ⟨pre, hpre, hop⟩ := operation_sound ho
    obtain ⟨hstop, os, fs, hdefs, rfl⟩ :=
      ih (fun t ht => hts t (by rw [hpre]; exact List.mem_append_right _ ht)) h
    refine ⟨hstop, o :: os, fs, ?_, by simp [Document.addOperation]⟩
    rw [hpre]
    exact .operation hop hdefs
  | case7 => cases h

end Syntax
end Gql
