import Gql.Proofs.Descent.Complete
/-!
# Lookahead — what a rule takes, it takes again whatever comes after its next token

The reader looks one token past what a rule takes, and no further.  So a rule that took
`pre` from `pre ++ r` and gave `x` takes `pre` and gives `x` again from `pre ++ r'` for any
`r'` that goes on like `r`: with the same first token, or, where `r` is empty, with no token
and the same end (`SameNext`).  It does so at any larger nesting limit as well, since a read
that stayed within a limit stays within a larger one (`Takes`).

The proofs follow the recursion of each rule, as those of `Sound` do: each step of the rule
is taken again on the new tokens, the last one by the hypothesis on `r'` and the earlier ones
by the rule's own statement for the parts after them.
-/
namespace Gql
namespace Syntax

/-- Two ways the tokens can go on that one token of lookahead cannot tell apart: both end,
at the same end, or both go on with the same token. -/
def SameNext (stop : Stop) (r : List Token) (stop' : Stop) (r' : List Token) : Prop :=
  (r = [] ∧ r' = [] ∧ stop' = stop) ∨ ∃ t u u', r = t :: u ∧ r' = t :: u'

/-- **A read that takes `pre` and gives `x` again** from `pre ++ r'`, for every `r'` that
goes on like `r`, at every limit from `L` up. -/
def Takes {α : Type} {P : Nat → Nat → Prop}
    (run : Stop → Nat → (ts : List Token) → Except Diagnostic (α × {r : List Token // P r.length ts.length}))
    (stop : Stop) (L : Nat) (pre r : List Token) (x : α) : Prop :=
  ∀ stop' L' r', L ≤ L' → SameNext stop r stop' r' → ∃ h, run stop' L' (pre ++ r') = .ok (x, ⟨r', h⟩)

variable {stop stop' : Stop} {L : Nat}

theorem SameNext.append {r r' : List Token} (p : List Token) (h : SameNext stop r stop' r') :
    SameNext stop (p ++ r) stop' (p ++ r') := by
  cases p with
  | nil => simpa using h
  | cons t p => exact .inr ⟨t, p ++ r, p ++ r', rfl, rfl⟩

/-! ### Looking at the next token -/

section Next

variable {r r' : List Token}

theorem peek_sameNext (h : SameNext stop r stop' r') : peek stop' r' = peek stop r := by
  rcases h with ⟨rfl, rfl, rfl⟩ | ⟨t, u, u', rfl, rfl⟩ <;> rfl

theorem nextIs_sameNext {k : TokenKind} (h : SameNext stop r stop' r') : nextIs stop' k r' = nextIs stop k r := by
  simp only [nextIs, peek_sameNext h]

theorem nonEmpty_sameNext {close : TokenKind} {item construct : String} (h : SameNext stop r stop' r') :
    nonEmpty close item construct r' = nonEmpty close item construct r := by
  rcases h with ⟨rfl, rfl, rfl⟩ | ⟨t, u, u', rfl, rfl⟩ <;> rfl

theorem accept_none_sameNext {p : Token → Bool} (h : accept stop p r = .ok none) (hr : SameNext stop r stop' r') :
    accept stop' p r' = .ok none := by
  rcases hr with ⟨rfl, rfl, rfl⟩ | ⟨t, u, u', rfl, rfl⟩
  · exact h
  · have hp : p t = false := by
      cases hpt : p t
      · rfl
      · simp [accept, hpt] at h
    simp [accept, hp]

theorem nextIs_of_expect {k : TokenKind} {ts : List Token} {o : Token} {r} (h : expect stop k ts = .ok (o, r)) :
    nextIs stop k ts = .ok true := by
  obtain ⟨hts, hok⟩ := expect_ok h
  rw [hts]
  exact nextIs_cons_of hok

theorem taken_cons {t : Token} {rs pre r : List Token} (h : t :: rs = pre ++ r)
    (hlt : r.length < (t :: rs).length) : ∃ p, pre = t :: p ∧ rs = p ++ r := by
  cases pre with
  | nil => rw [List.nil_append] at h; rw [← h] at hlt; omega
  | cons u p =>
    simp only [List.cons_append, List.cons.injEq] at h
    exact ⟨p, by rw [h.1], h.2⟩

end Next

/-! ### Bracketed lists -/

section Lists

variable {α : Type} {close : TokenKind} {opening : Token}
  {item : Stop → Nat → (ts : List Token) → Except Diagnostic (Taken ts α)}

theorem itemsUntil_takes
    (hitem : ∀ {stop L us x} {r : {r : List Token // r.length < us.length}}, item stop L us = .ok (x, r) →
      ∃ pre, us = pre ++ r.1 ∧ Takes item stop L pre r.1 x)
    {ts : List Token} {xs : List α} {r : {r : List Token // r.length ≤ ts.length}}
    (h : itemsUntil stop close opening (item stop L) ts = .ok (xs, r)) :
    ∃ pre, ts = pre ++ r.1 ∧ Takes (fun s l => itemsUntil s close opening (item s l)) stop L pre r.1 xs := by
  fun_induction itemsUntil stop close opening (item stop L) ts generalizing xs with
  | case1 => cases h
  | case2 t rs hc =>
    cases h
    refine ⟨[t], rfl, fun stop' L' r' _ _ => ⟨by simp, ?_⟩⟩
    simp [itemsUntil, hc]
  | case3 => cases h
  | case4 t rs hc heof ih =>
    obtain ⟨⟨x, r1, h1⟩, hx, h⟩ := bind_eq_ok.1 h
    obtain ⟨⟨xs', r2, h2⟩, hxs, h⟩ := bind_eq_ok.1 h
    cases h
    obtain ⟨pre, hpre, hx'⟩ := hitem hx
    obtain ⟨pre', hr1, hxs'⟩ := ih r1 h1 hxs
    have hlen : r1.length < (t :: rs).length := h1
    simp only at hpre hr1 hx'
    rw [hr1] at hpre hlen hx'
    obtain ⟨p, rfl, hrs⟩ := taken_cons hpre hlen
    refine ⟨t :: p ++ pre', by simp [hrs], fun stop' L' r' hL hr => ?_⟩
    obtain ⟨h2', hrest⟩ := hxs' stop' L' r' hL hr
    obtain ⟨h1', hitem'⟩ := hx' stop' L' (pre' ++ r') hL (hr.append pre')
    rw [show t :: p ++ pre' ++ r' = t :: (p ++ (pre' ++ r')) by simp]
    refine ⟨by simp only [List.length_append, List.length_cons] at h2' ⊢; omega, ?_⟩
    show itemsUntil stop' close opening (item stop' L') (t :: (p ++ (pre' ++ r'))) = _
    rw [itemsUntil]
    simp only [hc, heof, if_false]
    change item stop' L' (t :: (p ++ (pre' ++ r'))) = _ at hitem'
    rw [hitem']
    simp only [bind, Except.bind, hrest, pure, Except.pure]

theorem nonEmptyList_takes {openKind : TokenKind} {itemWord construct : String}
    (hitem : ∀ {stop L us x} {r : {r : List Token // r.length < us.length}}, item stop L us = .ok (x, r) →
      ∃ pre, us = pre ++ r.1 ∧ Takes item stop L pre r.1 x)
    {ts : List Token} {xs : List α} {r : {r : List Token // r.length < ts.length}}
    (h : nonEmptyList stop openKind close itemWord construct (item stop L) ts = .ok (xs, r)) :
    ∃ pre, ts = pre ++ r.1 ∧
      Takes (fun s l => nonEmptyList s openKind close itemWord construct (item s l)) stop L pre r.1 xs := by
  obtain ⟨⟨o, r1, h1⟩, ho, h⟩ := bind_eq_ok.1 h
  obtain ⟨⟨⟩, hne, h⟩ := bind_eq_ok.1 h
  obtain ⟨⟨xs', r2, h2⟩, hxs, h⟩ := bind_eq_ok.1 h
  cases h
  obtain ⟨hts, hok⟩ := expect_ok ho
  obtain ⟨pre, hr1, hxs'⟩ := itemsUntil_takes hitem hxs
  simp only at hr1
  rw [hr1] at hne
  refine ⟨o :: pre, by simp [hts, hr1], fun stop' L' r' hL hr => ?_⟩
  obtain ⟨h', hrest⟩ := hxs' stop' L' r' hL hr
  -- the check for an empty list looks at the first token after the opening only
  have hne' : nonEmpty close itemWord construct (pre ++ r') = .ok () := by
    rw [nonEmpty_sameNext (hr.append pre)]
    exact hne
  refine ⟨by simp only [List.length_cons, List.length_append] at h' ⊢; omega, ?_⟩
  simp only [nonEmptyList, List.cons_append, expect_cons hok, bind, Except.bind]
  rw [hne']
  simp only [hrest, pure, Except.pure]

end Lists

/-! ### Values -/

mutual

theorem value_takes {ctx d} : ∀ {ts : List Token} {v} {r : {r : List Token // r.length < ts.length}},
    value stop L ctx d ts = .ok (v, r) → ∃ pre, ts = pre ++ r.1 ∧ Takes (fun s l => value s l ctx d) stop L pre r.1 v
  | [], _, _, h => by rw [value] at h; split at h <;> cases h
  | t :: rs, v, r, h => by
    rw [value] at h
    split at h
    · cases h
    rename_i hd
    split at h
    · rename_i hk
      obtain ⟨⟨items, r1, h1⟩, hl, h⟩ := bind_eq_ok.1 h
      cases h
      obtain ⟨pre, hrs, hl'⟩ := listItems_takes hl
      refine ⟨t :: pre, by simp [hrs], fun stop' L' r' hL hr => ?_⟩
      obtain ⟨h', hl''⟩ := hl' stop' L' r' hL hr
      simp only at hl''
      refine ⟨by simp only [List.length_cons, List.length_append] at h' ⊢; omega, ?_⟩
      show value stop' L' ctx d (t :: (pre ++ r')) = _
      rw [value]
      simp [show ¬ L' ≤ d by omega, hk, hl'', bind, Except.bind, pure, Except.pure]
    · rename_i hk
      obtain ⟨⟨fields, r1, h1⟩, hl, h⟩ := bind_eq_ok.1 h
      cases h
      obtain ⟨pre, hrs, hl'⟩ := objectFields_takes hl
      refine ⟨t :: pre, by simp [hrs], fun stop' L' r' hL hr => ?_⟩
      obtain ⟨h', hl''⟩ := hl' stop' L' r' hL hr
      simp only at hl''
      refine ⟨by simp only [List.length_cons, List.length_append] at h' ⊢; omega, ?_⟩
      show value stop' L' ctx d (t :: (pre ++ r')) = _
      rw [value]
      simp [show ¬ L' ≤ d by omega, hk, hl'', bind, Except.bind, pure, Except.pure]
    · rename_i hk
      split at h
      · cases h
      · rename_i hctx
        obtain ⟨⟨n, r1, h1⟩, hn, h⟩ := bind_eq_ok.1 h
        cases h
        obtain ⟨hrs, hnk⟩ := expectName_ok hn
        refine ⟨[t, n], by simp [hrs], fun stop' L' r' hL _ => ⟨by simp only [List.cons_append, List.nil_append, List.length_cons]; omega, ?_⟩⟩
        show value stop' L' ctx d (t :: n :: r') = _
        rw [value]
        simp [show ¬ L' ≤ d by omega, hk, hctx, expectName_cons hnk, bind, Except.bind, pure, Except.pure]
    all_goals cases h
    all_goals
      rename_i hk
      refine ⟨[t], rfl, fun stop' L' r' hL _ => ⟨by simp, ?_⟩⟩
      show value stop' L' ctx d (t :: r') = _
      rw [value]
      simp [show ¬ L' ≤ d by omega, hk]
termination_by ts => (ts.length, 0)
decreasing_by all_goals decreasing_with omega

theorem listItems_takes {ctx d o} : ∀ {ts : List Token} {vs} {r : {r : List Token // r.length ≤ ts.length}},
    listItems stop L ctx d o ts = .ok (vs, r) →
    ∃ pre, ts = pre ++ r.1 ∧ Takes (fun s l => listItems s l ctx d o) stop L pre r.1 vs
  | [], _, _, h => by rw [listItems] at h; cases h
  | t :: rs, vs, r, h => by
    rw [listItems] at h
    split at h
    · rename_i hc
      cases h
      refine ⟨[t], rfl, fun stop' L' r' _ _ => ⟨by simp, ?_⟩⟩
      show listItems stop' L' ctx d o (t :: r') = _
      rw [listItems]
      simp [hc]
    split at h
    · cases h
    rename_i hc heof
    obtain ⟨⟨v, r1, h1⟩, hv, h⟩ := bind_eq_ok.1 h
    obtain ⟨⟨vs', r2, h2⟩, hvs, h⟩ := bind_eq_ok.1 h
    cases h
    obtain ⟨pre, hpre, hv'⟩ := value_takes hv
    obtain ⟨pre', hr1, hvs'⟩ := listItems_takes hvs
    have hlen : r1.length < (t :: rs).length := h1
    simp only at hpre hr1 hv'
    rw [hr1] at hpre hlen hv'
    obtain ⟨p, rfl, hrs⟩ := taken_cons hpre hlen
    refine ⟨t :: p ++ pre', by simp [hrs], fun stop' L' r' hL hr => ?_⟩
    obtain ⟨h2', hrest⟩ := hvs' stop' L' r' hL hr
    obtain ⟨h1', hval⟩ := hv' stop' L' (pre' ++ r') hL (hr.append pre')
    simp only at hrest hval
    rw [show t :: p ++ pre' ++ r' = t :: (p ++ (pre' ++ r')) by simp]
    refine ⟨by simp only [List.length_append, List.length_cons] at h2' ⊢; omega, ?_⟩
    show listItems stop' L' ctx d o (t :: (p ++ (pre' ++ r'))) = _
    rw [listItems]
    simp only [hc, heof, if_false]
    change value stop' L' ctx d (t :: (p ++ (pre' ++ r'))) = _ at hval
    rw [hval]
    simp only [bind, Except.bind, hrest, pure, Except.pure]
termination_by ts => (ts.length, 1)
decreasing_by all_goals decreasing_with omega

theorem objectFields_takes {ctx d o} : ∀ {ts : List Token} {fs} {r : {r : List Token // r.length ≤ ts.length}},
    objectFields stop L ctx d o ts = .ok (fs, r) →
    ∃ pre, ts = pre ++ r.1 ∧ Takes (fun s l => objectFields s l ctx d o) stop L pre r.1 fs
  | [], _, _, h => by rw [objectFields] at h; cases h
  | t :: rs, fs, r, h => by
    rw [objectFields] at h
    split at h
    · rename_i hc
      cases h
      refine ⟨[t], rfl, fun stop' L' r' _ _ => ⟨by simp, ?_⟩⟩
      show objectFields stop' L' ctx d o (t :: r') = _
      rw [objectFields]
      simp [hc]
    split at h
    · cases h
    rename_i hc heof
    obtain ⟨⟨n, r1, h1⟩, hn, h⟩ := bind_eq_ok.1 h
    obtain ⟨⟨colon, r2, h2⟩, hcolon, h⟩ := bind_eq_ok.1 h
    obtain ⟨⟨v, r3, h3⟩, hv, h⟩ := bind_eq_ok.1 h
    obtain ⟨⟨fs', r4, h4⟩, hfs, h⟩ := bind_eq_ok.1 h
    cases h
    obtain ⟨hts, hnk⟩ := expectName_ok hn
    obtain ⟨hr1, hck⟩ := expect_ok hcolon
    obtain ⟨pre, hr2, hv'⟩ := value_takes hv
    obtain ⟨pre', hr3, hfs'⟩ := objectFields_takes hfs
    simp only [List.cons.injEq] at hts hr1 hr2 hr3 hv'
    obtain ⟨rfl, hrs⟩ := hts
    rw [hr3] at hr2 hv'
    rw [hr2] at hr1
    refine ⟨t :: colon :: pre ++ pre', by simp [hrs, hr1], fun stop' L' r' hL hr => ?_⟩
    obtain ⟨h4', hrest⟩ := hfs' stop' L' r' hL hr
    obtain ⟨h3', hval⟩ := hv' stop' L' (pre' ++ r') hL (hr.append pre')
    simp only at hrest hval
    rw [show t :: colon :: pre ++ pre' ++ r' = t :: colon :: (pre ++ (pre' ++ r')) by simp]
    refine ⟨by simp only [List.length_append, List.length_cons] at h4' ⊢; omega, ?_⟩
    show objectFields stop' L' ctx d o (t :: colon :: (pre ++ (pre' ++ r'))) = _
    rw [objectFields]
    simp only [hc, heof, if_false, expectName_cons hnk, expect_cons hck, bind, Except.bind, hval, hrest, pure,
      Except.pure]
termination_by ts => (ts.length, 1)
decreasing_by all_goals decreasing_with grind

end

/-! ### Types, arguments and directives -/

theorem typeRef_takes {d} {ts : List Token} {ty} {r : {r : List Token // r.length < ts.length}}
    (h : typeRef stop L d ts = .ok (ty, r)) :
    ∃ pre, ts = pre ++ r.1 ∧ Takes (fun s l => typeRef s l d) stop L pre r.1 ty := by
  fun_induction typeRef stop L d ts generalizing ty with
  | case1 => cases h
  | case2 d ts hd bare =>
    rename_i ih
    obtain ⟨⟨ty0, r1, h1⟩, hb, h⟩ := bind_eq_ok.1 h
    obtain ⟨x, hx, h⟩ := bind_eq_ok.1 h
    cases ts with
    | nil => simp only [bare] at hb; cases hb
    | cons t rs =>
    simp only [bare] at hb
    split at hb
    · rename_i hk
      cases hb
      cases x with
      | some r2 =>
        obtain ⟨b, hr1, hbk⟩ := accept_some hx
        cases h
        refine ⟨[t, b], by simp [hr1], fun stop' L' r' hL _ => ⟨by simp only [List.cons_append, List.nil_append, List.length_cons]; omega, ?_⟩⟩
        show typeRef stop' L' d (t :: b :: r') = _
        rw [typeRef]
        simp [show ¬ L' ≤ d by omega, hk, accept_cons_of (p := fun t => decide (t.kind = .bang)) hbk, bind,
          Except.bind, pure, Except.pure]
      | none =>
        cases h
        refine ⟨[t], rfl, fun stop' L' r' hL hr => ⟨by simp, ?_⟩⟩
        show typeRef stop' L' d (t :: r') = _
        rw [typeRef]
        simp [show ¬ L' ≤ d by omega, hk, accept_none_sameNext hx hr, bind, Except.bind, pure, Except.pure]
    · rename_i hk
      obtain ⟨⟨e, r2, h2⟩, he, hb⟩ := bind_eq_ok.1 hb
      obtain ⟨⟨c, r3, h3⟩, hc, hb⟩ := bind_eq_ok.1 hb
      cases hb
      obtain ⟨pre, hrs, he'⟩ := ih _ he
      obtain ⟨hr2, hck⟩ := expect_ok hc
      simp only at hrs he' hr2
      rw [hr2] at hrs he'
      cases x with
      | some r4 =>
        obtain ⟨b, hr1, hbk⟩ := accept_some hx
        simp only at hr1
        cases h
        refine ⟨t :: pre ++ [c, b], by simp [hrs, hr1], fun stop' L' r' hL _ => ?_⟩
        obtain ⟨h', he''⟩ := he' stop' L' (c :: b :: r') (by omega) (.inr ⟨c, _, _, rfl, rfl⟩)
        simp only at he''
        rw [show t :: pre ++ [c, b] ++ r' = t :: (pre ++ c :: b :: r') by simp]
        refine ⟨by simp only [List.length_cons, List.length_append] at h' ⊢; omega, ?_⟩
        show typeRef stop' L' d (t :: (pre ++ c :: b :: r')) = _
        rw [typeRef]
        simp [show ¬ L' ≤ d by omega, hk, he'', expect_cons hck,
          accept_cons_of (p := fun t => decide (t.kind = .bang)) hbk, bind, Except.bind, pure, Except.pure]
      | none =>
        cases h
        refine ⟨t :: pre ++ [c], by simp [hrs], fun stop' L' r' hL hr => ?_⟩
        obtain ⟨h', he''⟩ := he' stop' L' (c :: r') (by omega) (.inr ⟨c, _, _, rfl, rfl⟩)
        simp only at he''
        rw [show t :: pre ++ [c] ++ r' = t :: (pre ++ c :: r') by simp]
        refine ⟨by simp only [List.length_cons, List.length_append] at h' ⊢; omega, ?_⟩
        show typeRef stop' L' d (t :: (pre ++ c :: r')) = _
        rw [typeRef]
        simp [show ¬ L' ≤ d by omega, hk, he'', expect_cons hck, accept_none_sameNext hx hr, bind,
          Except.bind, pure, Except.pure]
    · cases hb

theorem argument_takes {ctx d} {ts : List Token} {a} {r : {r : List Token // r.length < ts.length}}
    (h : argument stop L ctx d ts = .ok (a, r)) :
    ∃ pre, ts = pre ++ r.1 ∧ Takes (fun s l => argument s l ctx d) stop L pre r.1 a := by
  obtain ⟨⟨n, r1, h1⟩, hn, h⟩ := bind_eq_ok.1 h
  obtain ⟨⟨colon, r2, h2⟩, hcolon, h⟩ := bind_eq_ok.1 h
  obtain ⟨⟨v, r3, h3⟩, hv, h⟩ := bind_eq_ok.1 h
  cases h
  obtain ⟨hts, hnk⟩ := expectName_ok hn
  obtain ⟨hr1, hck⟩ := expect_ok hcolon
  obtain ⟨pre, hr2, hv'⟩ := value_takes hv
  refine ⟨n :: colon :: pre, by simp [hts, hr1, hr2], fun stop' L' r' hL hr => ?_⟩
  obtain ⟨h', hval⟩ := hv' stop' L' r' hL hr
  simp only at hval
  refine ⟨by simp only [List.length_cons, List.length_append] at h' ⊢; omega, ?_⟩
  simp only [argument, List.cons_append, expectName_cons hnk, expect_cons hck, hval, bind, Except.bind, pure,
    Except.pure]

theorem arguments_takes {ctx d} {ts : List Token} {args} {r : {r : List Token // r.length ≤ ts.length}}
    (h : arguments stop L ctx d ts = .ok (args, r)) :
    ∃ pre, ts = pre ++ r.1 ∧ Takes (fun s l => arguments s l ctx d) stop L pre r.1 args := by
  obtain ⟨b, hb, h⟩ := bind_eq_ok.1 h
  split at h
  · obtain ⟨⟨args', r1, h1⟩, hl, h⟩ := bind_eq_ok.1 h
    cases h
    have hitem : ∀ {stop L us a} {r : {r : List Token // r.length < us.length}},
        argument stop L ctx d us = .ok (a, r) →
        ∃ pre, us = pre ++ r.1 ∧ Takes (fun s l => argument s l ctx d) stop L pre r.1 a := argument_takes
    obtain ⟨pre, hts, hl'⟩ := nonEmptyList_takes hitem hl
    refine ⟨pre, hts, fun stop' L' r' hL hr => ?_⟩
    obtain ⟨h', hl''⟩ := hl' stop' L' r' hL hr
    simp only at hl''
    have hopen : nextIs stop' .parenL (pre ++ r') = .ok true := by
      obtain ⟨⟨o, r0, h0⟩, ho, -⟩ := bind_eq_ok.1 hl''
      exact nextIs_of_expect ho
    refine ⟨Nat.le_of_lt h', ?_⟩
    simp only [arguments, hopen, hl'', bind, Except.bind, if_true, pure, Except.pure]
  · cases h
    rename_i hno
    refine ⟨[], rfl, fun stop' L' r' _ hr => ⟨Nat.le_refl _, ?_⟩⟩
    have hnext : nextIs stop' .parenL r' = .ok false := by
      rw [nextIs_sameNext hr, hb]
      simpa using hno
    simp only [arguments, List.nil_append, hnext, bind, Except.bind, Bool.false_eq_true, if_false, pure,
      Except.pure]

theorem directives_takes {ctx d} {ts : List Token} {dirs} {r : {r : List Token // r.length ≤ ts.length}}
    (h : directives stop L ctx d ts = .ok (dirs, r)) :
    ∃ pre, ts = pre ++ r.1 ∧ Takes (fun s l => directives s l ctx d) stop L pre r.1 dirs := by
  fun_induction directives stop L ctx d ts generalizing dirs with
  | case1 ts ih =>
    obtain ⟨x, hx, h⟩ := bind_eq_ok.1 h
    cases x with
    | none =>
      cases h
      refine ⟨[], rfl, fun stop' L' r' _ hr => ⟨Nat.le_refl _, ?_⟩⟩
      show directives stop' L' ctx d r' = _
      rw [directives]
      simp [accept_none_sameNext hx hr, bind, Except.bind, pure, Except.pure]
    | some r1 =>
      obtain ⟨sign, hts, hsign⟩ := accept_some hx
      obtain ⟨⟨n, r2, h2⟩, hn, h⟩ := bind_eq_ok.1 h
      obtain ⟨⟨args, r3, h3⟩, hargs, h⟩ := bind_eq_ok.1 h
      obtain ⟨⟨ds, r4, h4⟩, hds, h⟩ := bind_eq_ok.1 h
      cases h
      obtain ⟨hr1, hnk⟩ := expectName_ok hn
      obtain ⟨pre, hr2, hargs'⟩ := arguments_takes hargs
      obtain ⟨pre', hr3, hds'⟩ := ih r1.1 r1.2 r2 h2 r3 h3 hds
      simp only at hr2 hr3 hargs' hds'
      rw [hr3] at hr2 hargs'
      refine ⟨sign :: n :: pre ++ pre', by simp [hts, hr1, hr2], fun stop' L' r' hL hr => ?_⟩
      obtain ⟨h4', hrest⟩ := hds' stop' L' r' hL hr
      obtain ⟨h3', harg⟩ := hargs' stop' L' (pre' ++ r') hL (hr.append pre')
      simp only at hrest harg
      rw [show sign :: n :: pre ++ pre' ++ r' = sign :: n :: (pre ++ (pre' ++ r')) by simp]
      refine ⟨by simp only [List.length_cons, List.length_append] at h4' h3' ⊢; omega, ?_⟩
      show directives stop' L' ctx d _ = _
      rw [directives]
      simp only [accept_cons_of (p := fun t => decide (t.kind = .atSign)) hsign, bind, Except.bind,
        expectName_cons hnk, harg, hrest, pure, Except.pure]

theorem typeCondition_takes {ts : List Token} {cond} {r : {r : List Token // r.length ≤ ts.length}}
    (h : typeCondition stop ts = .ok (cond, r)) :
    ∃ pre, ts = pre ++ r.1 ∧ Takes (fun s (_ : Nat) => typeCondition s) stop L pre r.1 cond := by
  obtain ⟨y, hy, h⟩ := bind_eq_ok.1 h
  cases y with
  | some r1 =>
    obtain ⟨on, hts, hon⟩ := accept_some hy
    obtain ⟨⟨n, r2, h2⟩, hn, h⟩ := bind_eq_ok.1 h
    cases h
    obtain ⟨hr1, hnk⟩ := expectName_ok hn
    refine ⟨[on, n], by simp [hts, hr1], fun stop' L' r' _ _ =>
      ⟨by simp only [List.cons_append, List.nil_append, List.length_cons]; omega, ?_⟩⟩
    simp [typeCondition, accept_cons_of (p := fun t => t.isKeyword "on") hon, expectName_cons hnk, bind,
      Except.bind, pure, Except.pure]
  | none =>
    cases h
    refine ⟨[], rfl, fun stop' L' r' _ hr => ⟨Nat.le_refl _, ?_⟩⟩
    simp [typeCondition, accept_none_sameNext hy hr, bind, Except.bind, pure, Except.pure]

theorem fieldName_takes {first : Token} {ts : List Token} {name} {r : {r : List Token // r.length ≤ ts.length}}
    (h : fieldName stop first ts = .ok (name, r)) :
    ∃ pre, ts = pre ++ r.1 ∧ Takes (fun s (_ : Nat) => fieldName s first) stop L pre r.1 name := by
  obtain ⟨y, hy, h⟩ := bind_eq_ok.1 h
  cases y with
  | some r1 =>
    obtain ⟨colon, hts, hcolon⟩ := accept_some hy
    obtain ⟨⟨n, r2, h2⟩, hn, h⟩ := bind_eq_ok.1 h
    cases h
    obtain ⟨hr1, hnk⟩ := expectName_ok hn
    refine ⟨[colon, n], by simp [hts, hr1], fun stop' L' r' _ _ =>
      ⟨by simp only [List.cons_append, List.nil_append, List.length_cons]; omega, ?_⟩⟩
    simp [fieldName, accept_cons_of (p := fun t => decide (t.kind = .colon)) hcolon, expectName_cons hnk, bind,
      Except.bind, pure, Except.pure]
  | none =>
    cases h
    refine ⟨[], rfl, fun stop' L' r' _ hr => ⟨Nat.le_refl _, ?_⟩⟩
    simp [fieldName, accept_none_sameNext hy hr, bind, Except.bind, pure, Except.pure]

/-! ### Selections -/

mutual

theorem selectionSet_takes {d} {ts : List Token} {sels} {r : {r : List Token // r.length < ts.length}}
    (h : selectionSet stop L d ts = .ok (sels, r)) :
    ∃ pre, ts = pre ++ r.1 ∧ Takes (fun s l => selectionSet s l d) stop L pre r.1 sels := by
  rw [selectionSet] at h
  split at h
  · cases h
  rename_i hd
  obtain ⟨⟨o, r1, h1⟩, ho, h⟩ := bind_eq_ok.1 h
  obtain ⟨⟨⟩, hne, h⟩ := bind_eq_ok.1 h
  obtain ⟨⟨sels', r2, h2⟩, hs, h⟩ := bind_eq_ok.1 h
  cases h
  obtain ⟨hts, hok⟩ := expect_ok ho
  obtain ⟨pre, hr1, hs'⟩ := selections_takes hs
  simp only at hr1 hs' hne
  rw [hr1] at hne
  refine ⟨o :: pre, by simp [hts, hr1], fun stop' L' r' hL hr => ?_⟩
  obtain ⟨h', hrest⟩ := hs' stop' L' r' hL hr
  simp only at hrest
  have hne' : nonEmpty .braceR "definition" "selection set" (pre ++ r') = .ok () := by
    rw [nonEmpty_sameNext (hr.append pre)]
    exact hne
  refine ⟨by simp only [List.length_cons, List.length_append] at h' ⊢; omega, ?_⟩
  show selectionSet stop' L' d (o :: (pre ++ r')) = _
  rw [selectionSet]
  simp only [show ¬ L' ≤ d by omega, dite_false, expect_cons hok, bind, Except.bind, hne', hrest, pure,
    Except.pure]
termination_by (ts.length, 2)
decreasing_by all_goals decreasing_with omega

theorem subselection_takes {d} {ts : List Token} {sub} {r : {r : List Token // r.length ≤ ts.length}}
    (h : subselection stop L d ts = .ok (sub, r)) :
    ∃ pre, ts = pre ++ r.1 ∧ Takes (fun s l => subselection s l d) stop L pre r.1 sub := by
  rw [subselection] at h
  obtain ⟨b, hb, h⟩ := bind_eq_ok.1 h
  split at h
  · obtain ⟨⟨sels, r1, h1⟩, hsels, h⟩ := bind_eq_ok.1 h
    cases h
    obtain ⟨pre, hts, hs'⟩ := selectionSet_takes hsels
    refine ⟨pre, hts, fun stop' L' r' hL hr => ?_⟩
    obtain ⟨h', hset⟩ := hs' stop' L' r' hL hr
    simp only at hset
    have hopen : nextIs stop' .braceL (pre ++ r') = .ok true := by
      have hset' := hset
      rw [selectionSet] at hset'
      split at hset'
      · cases hset'
      obtain ⟨⟨o, r0, h0⟩, ho, -⟩ := bind_eq_ok.1 hset'
      exact nextIs_of_expect ho
    refine ⟨Nat.le_of_lt h', ?_⟩
    show subselection stop' L' d (pre ++ r') = _
    rw [subselection]
    simp only [hopen, hset, bind, Except.bind, if_true, pure, Except.pure]
  · cases h
    rename_i hno
    refine ⟨[], rfl, fun stop' L' r' _ hr => ⟨Nat.le_refl _, ?_⟩⟩
    have hnext : nextIs stop' .braceL r' = .ok false := by
      rw [nextIs_sameNext hr, hb]
      simpa using hno
    show subselection stop' L' d r' = _
    rw [subselection]
    simp only [hnext, bind, Except.bind, Bool.false_eq_true, if_false, pure, Except.pure]
termination_by (ts.length, 3)
decreasing_by all_goals decreasing_with omega

theorem selections_takes {d o} : ∀ {ts : List Token} {sels} {r : {r : List Token // r.length ≤ ts.length}},
    selections stop L d o ts = .ok (sels, r) →
    ∃ pre, ts = pre ++ r.1 ∧ Takes (fun s l => selections s l d o) stop L pre r.1 sels
  | [], _, _, h => by rw [selections] at h; cases h
  | t :: rs, sels, r, h => by
    rw [selections] at h
    split at h
    · rename_i hc
      cases h
      refine ⟨[t], rfl, fun stop' L' r' _ _ => ⟨by simp, ?_⟩⟩
      show selections stop' L' d o (t :: r') = _
      rw [selections]
      simp [hc]
    split at h
    · cases h
    rename_i hc heof
    obtain ⟨⟨s, r1, h1⟩, hs, h⟩ := bind_eq_ok.1 h
    obtain ⟨⟨ss, r2, h2⟩, hss, h⟩ := bind_eq_ok.1 h
    cases h
    obtain ⟨pre, hpre, hs'⟩ := selection_takes hs
    obtain ⟨pre', hr1, hss'⟩ := selections_takes hss
    have hlen : r1.length < (t :: rs).length := h1
    simp only at hpre hr1 hs'
    rw [hr1] at hpre hlen hs'
    obtain ⟨p, rfl, hrs⟩ := taken_cons hpre hlen
    refine ⟨t :: p ++ pre', by simp [hrs], fun stop' L' r' hL hr => ?_⟩
    obtain ⟨h2', hrest⟩ := hss' stop' L' r' hL hr
    obtain ⟨h1', hsel⟩ := hs' stop' L' (pre' ++ r') hL (hr.append pre')
    simp only at hrest hsel
    rw [show t :: p ++ pre' ++ r' = t :: (p ++ (pre' ++ r')) by simp]
    refine ⟨by simp only [List.length_append, List.length_cons] at h2' ⊢; omega, ?_⟩
    show selections stop' L' d o (t :: (p ++ (pre' ++ r'))) = _
    rw [selections]
    simp only [hc, heof, if_false]
    change selection stop' L' d (t :: (p ++ (pre' ++ r'))) = _ at hsel
    rw [hsel]
    simp only [bind, Except.bind, hrest, pure, Except.pure]
termination_by ts => (ts.length, 1)
decreasing_by all_goals decreasing_with omega

theorem selection_takes {d} {ts : List Token} {s} {r : {r : List Token // r.length < ts.length}}
    (h : selection stop L d ts = .ok (s, r)) :
    ∃ pre, ts = pre ++ r.1 ∧ Takes (fun s l => selection s l d) stop L pre r.1 s := by
  rw [selection] at h
  obtain ⟨x, hx, h⟩ := bind_eq_ok.1 h
  cases x with
  | some r1 =>
    obtain ⟨sp, hts, hsp⟩ := accept_some hx
    obtain ⟨u, hu, h⟩ := bind_eq_ok.1 h
    have hspread : ∀ stop' (us : List Token), accept stop' (fun t => decide (t.kind = .spread)) (sp :: us) =
        .ok (some ⟨us, length_lt_cons _ _⟩) := fun _ _ => accept_cons_of hsp
    split at h
    · rename_i hroute
      obtain ⟨⟨cond, r2, h2⟩, hcond, h⟩ := bind_eq_ok.1 h
      obtain ⟨⟨dirs, r3, h3⟩, hdirs, h⟩ := bind_eq_ok.1 h
      obtain ⟨⟨sels, r4, h4⟩, hsels, h⟩ := bind_eq_ok.1 h
      cases h
      obtain ⟨tc, hr1, hcond'⟩ := typeCondition_takes (L := L) hcond
      obtain ⟨td, hr2, hdirs'⟩ := directives_takes hdirs
      obtain ⟨tss, hr3, hsels'⟩ := selectionSet_takes hsels
      simp only at hr1 hr2 hr3 hcond' hdirs'
      rw [hr3] at hr2 hdirs'
      rw [hr2] at hr1 hcond'
      rw [hr1] at hu
      refine ⟨sp :: tc ++ td ++ tss, by simp [hts, hr1], fun stop' L' r' hL hr => ?_⟩
      obtain ⟨h4', hset⟩ := hsels' stop' L' r' hL hr
      obtain ⟨h3', hd⟩ := hdirs' stop' L' (tss ++ r') hL (hr.append tss)
      obtain ⟨h2', hc⟩ := hcond' stop' L' (td ++ (tss ++ r')) hL ((hr.append tss).append td)
      simp only at hset hd hc
      have hpeek : peek stop' (tc ++ (td ++ (tss ++ r'))) = .ok u := by
        rw [← hu, ← List.append_assoc, ← List.append_assoc, ← List.append_assoc, ← List.append_assoc]
        exact peek_sameNext (hr.append _)
      rw [show sp :: tc ++ td ++ tss ++ r' = sp :: (tc ++ (td ++ (tss ++ r'))) by simp]
      refine ⟨by simp only [List.length_cons, List.length_append] at h2' h3' h4' ⊢; omega, ?_⟩
      show selection stop' L' d _ = _
      rw [selection]
      simp only [hspread, bind, Except.bind, hpeek, hroute, if_true, hc, hd, hset, pure, Except.pure]
    · rename_i hroute
      obtain ⟨⟨n, r2, h2⟩, hn, h⟩ := bind_eq_ok.1 h
      obtain ⟨⟨dirs, r3, h3⟩, hdirs, h⟩ := bind_eq_ok.1 h
      cases h
      obtain ⟨nt, hr1, hnk, hnv, rfl⟩ := fragmentName_ok hn
      obtain ⟨td, hr2, hdirs'⟩ := directives_takes hdirs
      simp only at hr1 hr2 hdirs'
      rw [hr2] at hr1
      rw [hr1] at hu
      simp only [peek, Except.ok.injEq] at hu
      subst hu
      refine ⟨sp :: nt :: td, by simp [hts, hr1], fun stop' L' r' hL hr => ?_⟩
      obtain ⟨h3', hd⟩ := hdirs' stop' L' r' hL hr
      simp only at hd
      refine ⟨by simp only [List.length_cons, List.length_append] at h3' ⊢; omega, ?_⟩
      show selection stop' L' d (sp :: nt :: (td ++ r')) = _
      rw [selection]
      simp only [hspread, bind, Except.bind, peek, hroute, Bool.false_eq_true, if_false, fragmentName_cons hnk hnv,
        hd, pure, Except.pure]
  | none =>
    obtain ⟨⟨first, r1, h1⟩, hf, h⟩ := bind_eq_ok.1 h
    obtain ⟨⟨name, r2, h2⟩, hname, h⟩ := bind_eq_ok.1 h
    obtain ⟨⟨args, r3, h3⟩, hargs, h⟩ := bind_eq_ok.1 h
    obtain ⟨⟨dirs, r4, h4⟩, hdirs, h⟩ := bind_eq_ok.1 h
    obtain ⟨⟨sub, r5, h5⟩, hsub, h⟩ := bind_eq_ok.1 h
    cases h
    obtain ⟨hts, hfk⟩ := expectName_ok hf
    obtain ⟨tn, hr1, hname'⟩ := fieldName_takes (L := L) hname
    obtain ⟨ta, hr2, hargs'⟩ := arguments_takes hargs
    obtain ⟨td, hr3, hdirs'⟩ := directives_takes hdirs
    obtain ⟨tss, hr4, hsub'⟩ := subselection_takes hsub
    simp only at hts hr1 hr2 hr3 hr4 hname' hargs' hdirs'
    rw [hr4] at hr3 hdirs'
    rw [hr3] at hr2 hargs'
    rw [hr2] at hr1 hname'
    rw [hr1] at hts
    subst hts
    refine ⟨first :: tn ++ ta ++ td ++ tss, by simp, fun stop' L' r' hL hr => ?_⟩
    obtain ⟨h5', hs⟩ := hsub' stop' L' r' hL hr
    obtain ⟨h4', hd⟩ := hdirs' stop' L' (tss ++ r') hL (hr.append tss)
    obtain ⟨h3', ha⟩ := hargs' stop' L' (td ++ (tss ++ r')) hL ((hr.append tss).append td)
    obtain ⟨h2', hn⟩ := hname' stop' L' (ta ++ (td ++ (tss ++ r'))) hL (((hr.append tss).append td).append ta)
    simp only at hs hd ha hn
    have hnone : accept stop' (fun t => decide (t.kind = .spread)) (first :: (tn ++ (ta ++ (td ++ (tss ++ r'))))) =
        .ok none := accept_none_sameNext hx (.inr ⟨first, _, _, rfl, rfl⟩)
    rw [show first :: tn ++ ta ++ td ++ tss ++ r' = first :: (tn ++ (ta ++ (td ++ (tss ++ r')))) by simp]
    refine ⟨by simp only [List.length_cons, List.length_append] at h2' h3' h4' h5' ⊢; omega, ?_⟩
    show selection stop' L' d _ = _
    rw [selection]
    simp only [hnone, bind, Except.bind, expectName_cons hfk, hn, ha, hd, hs, pure, Except.pure]
termination_by (ts.length, 0)
decreasing_by all_goals decreasing_with omega

end

/-! ### Variables, operations and fragments -/

theorem defaultValue_takes {ts : List Token} {dflt} {r : {r : List Token // r.length ≤ ts.length}}
    (h : defaultValue stop L ts = .ok (dflt, r)) :
    ∃ pre, ts = pre ++ r.1 ∧ Takes defaultValue stop L pre r.1 dflt := by
  obtain ⟨y, hy, h⟩ := bind_eq_ok.1 h
  cases y with
  | some r1 =>
    obtain ⟨eq, hts, heq⟩ := accept_some hy
    obtain ⟨⟨v, r2, h2⟩, hv, h⟩ := bind_eq_ok.1 h
    cases h
    obtain ⟨tv, hr1, hv'⟩ := value_takes hv
    refine ⟨eq :: tv, by simp [hts, hr1], fun stop' L' r' hL hr => ?_⟩
    obtain ⟨h', hval⟩ := hv' stop' L' r' hL hr
    simp only at hval
    refine ⟨by simp only [List.length_cons, List.length_append] at h' ⊢; omega, ?_⟩
    simp only [defaultValue, List.cons_append, accept_cons_of (p := fun t => decide (t.kind = .equals)) heq, bind,
      Except.bind, hval, pure, Except.pure]
  | none =>
    cases h
    refine ⟨[], rfl, fun stop' L' r' _ hr => ⟨Nat.le_refl _, ?_⟩⟩
    simp [defaultValue, accept_none_sameNext hy hr, bind, Except.bind, pure, Except.pure]

theorem variableDefinition_takes {ts : List Token} {vd} {r : {r : List Token // r.length < ts.length}}
    (h : variableDefinition stop L ts = .ok (vd, r)) :
    ∃ pre, ts = pre ++ r.1 ∧ Takes variableDefinition stop L pre r.1 vd := by
  obtain ⟨⟨dollar, r1, h1⟩, hdollar, h⟩ := bind_eq_ok.1 h
  obtain ⟨⟨n, r2, h2⟩, hn, h⟩ := bind_eq_ok.1 h
  obtain ⟨⟨colon, r3, h3⟩, hcolon, h⟩ := bind_eq_ok.1 h
  obtain ⟨⟨ty, r4, h4⟩, hty, h⟩ := bind_eq_ok.1 h
  obtain ⟨⟨dflt, r5, h5⟩, hdflt, h⟩ := bind_eq_ok.1 h
  obtain ⟨⟨dirs, r6, h6⟩, hdirs, h⟩ := bind_eq_ok.1 h
  cases h
  obtain ⟨hts, hdk⟩ := expect_ok hdollar
  obtain ⟨hr1, hnk⟩ := expectName_ok hn
  obtain ⟨hr2, hck⟩ := expect_ok hcolon
  obtain ⟨tt, hr3, hty'⟩ := typeRef_takes hty
  obtain ⟨td, hr4, hd'⟩ := defaultValue_takes hdflt
  obtain ⟨tds, hr5, hdirs'⟩ := directives_takes hdirs
  simp only at hr1 hr2 hr3 hr4 hr5 hty' hd'
  rw [hr5] at hr4 hd'
  rw [hr4] at hr3 hty'
  refine ⟨dollar :: n :: colon :: tt ++ td ++ tds, by simp [hts, hr1, hr2, hr3], fun stop' L' r' hL hr => ?_⟩
  obtain ⟨h6', hds⟩ := hdirs' stop' L' r' hL hr
  obtain ⟨h5', hdf⟩ := hd' stop' L' (tds ++ r') hL (hr.append tds)
  obtain ⟨h4', ht⟩ := hty' stop' L' (td ++ (tds ++ r')) hL ((hr.append tds).append td)
  simp only at hds hdf ht
  rw [show dollar :: n :: colon :: tt ++ td ++ tds ++ r' = dollar :: n :: colon :: (tt ++ (td ++ (tds ++ r'))) by
    simp]
  refine ⟨by simp only [List.length_cons, List.length_append] at h4' h5' h6' ⊢; omega, ?_⟩
  simp only [variableDefinition, expect_cons hdk, expectName_cons hnk, expect_cons hck, ht, hdf, hds, bind,
    Except.bind, pure, Except.pure]

theorem operationName_takes {ts : List Token} {name} {r : {r : List Token // r.length ≤ ts.length}}
    (h : operationName stop ts = .ok (name, r)) :
    ∃ pre, ts = pre ++ r.1 ∧ Takes (fun s (_ : Nat) => operationName s) stop L pre r.1 name := by
  obtain ⟨b, hb, h⟩ := bind_eq_ok.1 h
  split at h
  · obtain ⟨⟨n, r1, h1⟩, hn, h⟩ := bind_eq_ok.1 h
    cases h
    obtain ⟨hts, hnk⟩ := expectName_ok hn
    refine ⟨[n], hts, fun stop' L' r' _ _ => ⟨by simp, ?_⟩⟩
    simp [operationName, nextIs_cons_of hnk, expectName_cons hnk, bind, Except.bind, pure, Except.pure]
  · cases h
    rename_i hno
    refine ⟨[], rfl, fun stop' L' r' _ hr => ⟨Nat.le_refl _, ?_⟩⟩
    have hnext : nextIs stop' .name r' = .ok false := by
      rw [nextIs_sameNext hr, hb]
      simpa using hno
    simp only [operationName, List.nil_append, hnext, bind, Except.bind, Bool.false_eq_true, if_false, pure,
      Except.pure]

theorem variableDefinitions_takes {ts : List Token} {vars} {r : {r : List Token // r.length ≤ ts.length}}
    (h : variableDefinitions stop L ts = .ok (vars, r)) :
    ∃ pre, ts = pre ++ r.1 ∧ Takes variableDefinitions stop L pre r.1 vars := by
  obtain ⟨b, hb, h⟩ := bind_eq_ok.1 h
  split at h
  · obtain ⟨⟨vs, r1, h1⟩, hl, h⟩ := bind_eq_ok.1 h
    cases h
    have hitem : ∀ {stop L us v} {r : {r : List Token // r.length < us.length}},
        variableDefinition stop L us = .ok (v, r) →
        ∃ pre, us = pre ++ r.1 ∧ Takes variableDefinition stop L pre r.1 v := variableDefinition_takes
    obtain ⟨pre, hts, hl'⟩ := nonEmptyList_takes hitem hl
    refine ⟨pre, hts, fun stop' L' r' hL hr => ?_⟩
    obtain ⟨h', hl''⟩ := hl' stop' L' r' hL hr
    simp only at hl''
    have hopen : nextIs stop' .parenL (pre ++ r') = .ok true := by
      obtain ⟨⟨o, r0, h0⟩, ho, -⟩ := bind_eq_ok.1 hl''
      exact nextIs_of_expect ho
    refine ⟨Nat.le_of_lt h', ?_⟩
    simp only [variableDefinitions, hopen, hl'', bind, Except.bind, if_true, pure, Except.pure]
  · cases h
    rename_i hno
    refine ⟨[], rfl, fun stop' L' r' _ hr => ⟨Nat.le_refl _, ?_⟩⟩
    have hnext : nextIs stop' .parenL r' = .ok false := by
      rw [nextIs_sameNext hr, hb]
      simpa using hno
    simp only [variableDefinitions, List.nil_append, hnext, bind, Except.bind, Bool.false_eq_true, if_false, pure,
      Except.pure]

theorem operation_takes {ts : List Token} {op} {r : {r : List Token // r.length < ts.length}}
    (h : operation stop L ts = .ok (op, r)) :
    ∃ pre, ts = pre ++ r.1 ∧ Takes operation stop L pre r.1 op := by
  obtain ⟨b, hb, h⟩ := bind_eq_ok.1 h
  split at h
  · obtain ⟨⟨sels, r1⟩, hsels, h⟩ := bind_eq_ok.1 h
    cases h
    obtain ⟨pre, hpre, hs'⟩ := selectionSet_takes hsels
    refine ⟨pre, hpre, fun stop' L' r' hL hr => ?_⟩
    obtain ⟨h', hset⟩ := hs' stop' L' r' hL hr
    simp only at hset
    have hopen : nextIs stop' .braceL (pre ++ r') = .ok true := by
      have hset' := hset
      rw [selectionSet] at hset'
      split at hset'
      · cases hset'
      obtain ⟨⟨o, r0, h0⟩, ho, -⟩ := bind_eq_ok.1 hset'
      exact nextIs_of_expect ho
    refine ⟨h', ?_⟩
    simp only [operation, hopen, hset, bind, Except.bind, if_true, pure, Except.pure]
  rename_i hno
  obtain ⟨⟨kw, r1, h1⟩, hkw, h⟩ := bind_eq_ok.1 h
  obtain ⟨hts, hkk⟩ := expectName_ok hkw
  simp only at h hts
  split at h
  · rename_i kind hkind
    obtain ⟨⟨name, r2, h2⟩, hname, h⟩ := bind_eq_ok.1 h
    obtain ⟨⟨vars, r3, h3⟩, hvars, h⟩ := bind_eq_ok.1 h
    obtain ⟨⟨dirs, r4, h4⟩, hdirs, h⟩ := bind_eq_ok.1 h
    obtain ⟨⟨sels, r5, h5⟩, hsels, h⟩ := bind_eq_ok.1 h
    cases h
    obtain ⟨tn, hr1, hn'⟩ := operationName_takes (L := L) hname
    obtain ⟨tv, hr2, hv'⟩ := variableDefinitions_takes hvars
    obtain ⟨td, hr3, hd'⟩ := directives_takes hdirs
    obtain ⟨tss, hr4, hs'⟩ := selectionSet_takes hsels
    simp only at hr1 hr2 hr3 hr4 hn' hv' hd'
    rw [hr4] at hr3 hd'
    rw [hr3] at hr2 hv'
    rw [hr2] at hr1 hn'
    rw [hr1] at hts
    subst hts
    refine ⟨kw :: tn ++ tv ++ td ++ tss, by simp, fun stop' L' r' hL hr => ?_⟩
    obtain ⟨h5', hs⟩ := hs' stop' L' r' hL hr
    obtain ⟨h4', hd⟩ := hd' stop' L' (tss ++ r') hL (hr.append tss)
    obtain ⟨h3', hv⟩ := hv' stop' L' (td ++ (tss ++ r')) hL ((hr.append tss).append td)
    obtain ⟨h2', hn⟩ := hn' stop' L' (tv ++ (td ++ (tss ++ r'))) hL (((hr.append tss).append td).append tv)
    simp only at hs hd hv hn
    have hnext : nextIs stop' .braceL (kw :: (tn ++ (tv ++ (td ++ (tss ++ r'))))) = .ok false := by
      rw [nextIs_sameNext (.inr ⟨kw, _, _, rfl, rfl⟩), hb]
      simpa using hno
    rw [show kw :: tn ++ tv ++ td ++ tss ++ r' = kw :: (tn ++ (tv ++ (td ++ (tss ++ r')))) by simp]
    refine ⟨by simp only [List.length_cons, List.length_append] at h2' h3' h4' h5' ⊢; omega, ?_⟩
    simp only [operation, hnext, bind, Except.bind, Bool.false_eq_true, if_false, expectName_cons hkk, hkind, hn, hv,
      hd, hs, pure, Except.pure]
  · cases h

theorem fragment_takes {ts : List Token} {f} {r : {r : List Token // r.length < ts.length}}
    (h : fragment stop L ts = .ok (f, r)) :
    ∃ pre, ts = pre ++ r.1 ∧ Takes fragment stop L pre r.1 f := by
  obtain ⟨⟨frag, r1, h1⟩, hfrag, h⟩ := bind_eq_ok.1 h
  obtain ⟨⟨n, r2, h2⟩, hn, h⟩ := bind_eq_ok.1 h
  obtain ⟨⟨on, r3, h3⟩, hon, h⟩ := bind_eq_ok.1 h
  obtain ⟨⟨cond, r4, h4⟩, hcond, h⟩ := bind_eq_ok.1 h
  obtain ⟨⟨dirs, r5, h5⟩, hdirs, h⟩ := bind_eq_ok.1 h
  obtain ⟨⟨sels, r6, h6⟩, hsels, h⟩ := bind_eq_ok.1 h
  cases h
  obtain ⟨hts, hfk⟩ := expectKeyword_ok hfrag
  obtain ⟨nt, hr1, hnk, hnv, rfl⟩ := fragmentName_ok hn
  obtain ⟨hr2, honk⟩ := expectKeyword_ok hon
  obtain ⟨hr3, hck⟩ := expectName_ok hcond
  obtain ⟨td, hr4, hd'⟩ := directives_takes hdirs
  obtain ⟨tss, hr5, hs'⟩ := selectionSet_takes hsels
  simp only at hr1 hr2 hr3 hr4 hr5 hd'
  rw [hr5] at hr4 hd'
  refine ⟨frag :: nt :: on :: cond :: td ++ tss, by simp [hts, hr1, hr2, hr3, hr4], fun stop' L' r' hL hr => ?_⟩
  obtain ⟨h6', hs⟩ := hs' stop' L' r' hL hr
  obtain ⟨h5', hd⟩ := hd' stop' L' (tss ++ r') hL (hr.append tss)
  simp only at hs hd
  rw [show frag :: nt :: on :: cond :: td ++ tss ++ r' = frag :: nt :: on :: cond :: (td ++ (tss ++ r')) by simp]
  refine ⟨by simp only [List.length_cons, List.length_append] at h5' h6' ⊢; omega, ?_⟩
  simp only [fragment, expectKeyword_cons hfk, fragmentName_cons hnk hnv, expectKeyword_cons honk,
    expectName_cons hck, hd, hs, bind, Except.bind, pure, Except.pure]

end Syntax
end Gql
