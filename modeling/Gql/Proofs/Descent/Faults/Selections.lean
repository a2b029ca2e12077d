import Gql.Proofs.Descent.Faults.Values
/-!
# Faults of selection sets

The rules of a selection set call one another, and their faults are proved together, on the
measure their readings use in `Lookahead`: the tokens left, then the rule. A selection that
starts with a spread is an inline fragment or a fragment spread, decided on the token after
the spread; each has its lemma, as does a field, and `selection_faults` only routes.
-/
namespace Gql

namespace Grammar

theorem IsSelections.ne_nil_of_tokens {lim d : Nat} {ts : List Token} {sels : List Selection}
    (h : IsSelections lim d ts sels) (hts : ts ≠ []) : sels ≠ [] := by
  cases h with
  | nil => exact absurd rfl hts
  | cons => exact List.cons_ne_nil _ _

end Grammar

namespace Syntax

open Grammar

variable {stop : Stop} {L : Nat}

theorem selectionSet_end (f : LexError) (L' d : Nat) : selectionSet (.fault f) L' d [] = .error (.ofLex f) := by
  rw [selectionSet]
  split
  · rfl
  · simp [bind, Except.bind, expect, atEnd]

/-- An opening brace opens a selection set at every limit past its depth: one filler field
and the closing brace complete it. -/
theorem opens_brace {d : Nat} {o : Token} (ho : o.kind = .braceL) : Opens (fun lim => IsSelectionSet lim d) [o] := by
  refine ⟨d + 2, fun lim hlim => ?_⟩
  obtain ⟨c, s, hs⟩ : ∃ c s, IsSelection lim (d + 1) c s := IsSelection.exists_filler
  exact ⟨c ++ [Token.filler .braceR "\x7d"], [s], by
    simpa using IsSelectionSet.mk (by omega) ho (Token.filler_kind _ _) (IsSelections.cons hs .nil)
      (List.cons_ne_nil _ _)⟩

theorem opens_spread {d : Nat} {sp : Token} (hsp : sp.kind = .spread) : Opens (fun lim => IsSelection lim d) [sp] :=
  ⟨0, fun _ _ => ⟨[Token.filler .name "f"], _,
    .fragmentSpread hsp (Token.filler_kind _ _) (by simp [Token.filler]) .nil⟩⟩

theorem fragmentSpread_faults (hstop : stop.Ends) {d : Nat} {sp u : Token} {r1 : List Token} {e : Diagnostic}
    (hsp : sp.kind = .spread) (hu : peek stop r1 = .ok u)
    (hroute : (u.isKeyword "on" || decide (u.kind = .atSign) || decide (u.kind = .braceL)) = false)
    (h : selection stop L d (sp :: r1) = .error e) :
    ∃ pre r, sp :: r1 = pre ++ r ∧ Faults (fun s l => selection s l d) stop L pre r e ∧
      Opens (fun lim => IsSelection lim d) pre := by
  have hspread : ∀ stop' (us : List Token), accept stop' (fun t => decide (t.kind = .spread)) (sp :: us) =
      .ok (some ⟨us, length_lt_cons _ _⟩) := fun _ _ => accept_cons_of (by simpa using hsp)
  have hpeek : ∀ {stop' r'}, SameNext stop r1 stop' r' → peek stop' r' = .ok u := fun hr => by
    rw [peek_sameNext hr, hu]
  rw [selection, hspread] at h
  obtain ⟨x, hx, h⟩ := bind_eq_error.1 h |>.resolve_left (by simp)
  cases hx
  obtain ⟨u', hu', h⟩ := bind_eq_error.1 h |>.resolve_left (by simp [hu])
  rw [hu] at hu'
  cases hu'
  rw [hroute] at h
  rcases bind_eq_error.1 h with hn | ⟨⟨n, r2, h2⟩, hn, h⟩
  · obtain ⟨hat, hagain⟩ := fragmentName_faults hstop hn
    refine ⟨[sp], r1, rfl, ⟨hat, fun _ stop' L' r' _ hr => ?_⟩, opens_spread hsp⟩
    rw [List.singleton_append, selection]
    simp only [hspread, bind, Except.bind, hpeek hr, hroute, Bool.false_eq_true, if_false, hagain stop' r' hr]
  obtain ⟨nt, hr1, hnk, hnv, rfl⟩ := fragmentName_ok hn
  rcases bind_eq_error.1 h with hd | ⟨_, -, h⟩
  · obtain ⟨pre, r, hr2, hf, ho⟩ := directives_faults hstop hd
    refine ⟨sp :: nt :: pre, r, by simp [hr1, hr2], ⟨hf.atNext, fun hdeep stop' L' r' hL hr => ?_⟩,
      ho.wrap 0 fun lim c dirs _ hd => ⟨c, _, by simpa using IsSelection.fragmentSpread hsp hnk hnv hd⟩⟩
    rw [List.cons_append, List.cons_append, selection]
    simp only [hspread, bind, Except.bind, hpeek (.inr ⟨nt, _, _, hr1, rfl⟩), hroute, Bool.false_eq_true, if_false,
      fragmentName_cons hnk hnv, hf.again hdeep stop' L' r' hL hr]
  · cases h

theorem opens_selections {d : Nat} : Opens (fun lim => IsSelections lim d) [] :=
  opens_nil ⟨0, fun _ _ => ⟨[], [], .nil⟩⟩

mutual

theorem selectionSet_faults (hstop : stop.Ends) {d : Nat} {ts : List Token} {e : Diagnostic}
    (h : selectionSet stop L d ts = .error e) :
    ∃ pre r, ts = pre ++ r ∧ Faults (fun s l => selectionSet s l d) stop L pre r e ∧
      Opens (fun lim => IsSelectionSet lim d) pre := by
  have hnil : Opens (fun lim => IsSelectionSet lim d) [] :=
    opens_nil ⟨d + 1, fun _ hlim => IsSelectionSet.exists_of_lt (by omega)⟩
  rw [selectionSet] at h
  split at h
  · cases h
    exact ⟨[], ts, rfl, tooDeepAt_faults (selectionSet_end · · d) ts, hnil⟩
  rename_i hd
  rcases bind_eq_error.1 h with ho | ⟨⟨o, r1, h1⟩, ho, h⟩
  · obtain ⟨hat, hagain⟩ := expect_faults hstop ho
    refine ⟨[], ts, rfl, ⟨hat, fun _ stop' L' r' _ hr => ?_⟩, hnil⟩
    rw [List.nil_append, selectionSet]
    simp only [show ¬ L' ≤ d by omega, dite_false, hagain stop' r' hr, bind, Except.bind]
  obtain ⟨hts, hok⟩ := expect_ok ho
  rcases bind_eq_error.1 h with hne | ⟨⟨⟩, hne, h⟩
  · obtain ⟨hat, hagain⟩ := nonEmpty_faults (show TokenKind.braceR ≠ .eof by decide) hne
    refine ⟨[o], r1, hts, ⟨hat, fun _ stop' L' r' _ hr => ?_⟩, opens_brace hok⟩
    rw [List.singleton_append, selectionSet]
    simp only [show ¬ L' ≤ d by omega, dite_false, expect_cons hok, hagain stop' r' hr, bind, Except.bind]
  rcases bind_eq_error.1 h with hs | ⟨_, -, h⟩
  · obtain ⟨pre, r, hr1, hf, ho⟩ := selections_faults hstop hs
    refine ⟨o :: pre, r, by simp [hts, hr1], ⟨hf.atNext, fun hdeep stop' L' r' hL hr => ?_⟩, ?_⟩
    · have hne' : nonEmpty .braceR "definition" "selection set" (pre ++ r') = .ok () := by
        rw [nonEmpty_sameNext (hr.append pre), ← hr1]
        exact hne
      rw [List.cons_append, selectionSet]
      simp only [show ¬ L' ≤ d by omega, dite_false, expect_cons hok, hne', hf.again hdeep stop' L' r' hL hr, bind,
        Except.bind]
    · -- a set whose first selection is not begun is completed by a filler one
      by_cases hpre : pre = []
      · subst hpre
        exact opens_brace hok
      · exact ho.wrap (d + 1) fun lim c sels hlim hs => ⟨c ++ [Token.filler .braceR "\x7d"], sels, by
          simpa using IsSelectionSet.mk (by omega) hok (Token.filler_kind _ _) hs
            (hs.ne_nil_of_tokens (by simp [hpre]))⟩
  · cases h
termination_by (ts.length, 3)
decreasing_by all_goals decreasing_with omega

theorem subselection_faults (hstop : stop.Ends) {d : Nat} {ts : List Token} {e : Diagnostic}
    (h : subselection stop L d ts = .error e) :
    ∃ pre r, ts = pre ++ r ∧ Faults (fun s l => subselection s l d) stop L pre r e ∧
      Opens (fun lim => IsSubselection lim d) pre := by
  rw [subselection] at h
  rcases bind_eq_error.1 h with hb | ⟨b, hb, h⟩
  · obtain ⟨hat, hagain⟩ := nextIs_faults hb
    refine ⟨[], ts, rfl, ⟨hat, fun _ stop' L' r' _ hr => ?_⟩, opens_nil ⟨0, fun _ _ => ⟨[], _, .none⟩⟩⟩
    rw [List.nil_append, subselection]
    simp only [hagain stop' r' hr, bind, Except.bind]
  split at h
  · rename_i hopen
    rcases bind_eq_error.1 h with hs | ⟨_, -, h⟩
    · obtain ⟨pre, r, hts, hf, ho⟩ := selectionSet_faults hstop hs
      refine ⟨pre, r, hts, ⟨hf.atNext, fun hdeep stop' L' r' hL hr => ?_⟩,
        ho.wrap 0 fun lim c sels _ hs => ⟨c, _, .some hs⟩⟩
      have hnext : nextIs stop' .braceL (pre ++ r') = .ok true := by
        rw [nextIs_sameNext (hr.append pre), ← hts, hb, hopen]
      rw [subselection]
      simp only [hnext, hf.again hdeep stop' L' r' hL hr, bind, Except.bind, if_true]
    · cases h
  · cases h
termination_by (ts.length, 4)
decreasing_by all_goals decreasing_with omega

theorem selections_faults (hstop : stop.Ends) {d : Nat} {o : Token} : ∀ {ts : List Token} {e : Diagnostic},
    selections stop L d o ts = .error e →
    ∃ pre r, ts = pre ++ r ∧ Faults (fun s l => selections s l d o) stop L pre r e ∧
      Opens (fun lim => IsSelections lim d) pre
  | [], e, h => by
    rw [selections] at h
    cases h
    refine ⟨[], [], rfl, ⟨atNext_unclosedAtEnd hstop _ _, fun _ stop' L' r' _ hr => ?_⟩, opens_selections⟩
    obtain ⟨rfl, rfl⟩ := hr.nil_left
    rw [List.nil_append, selections]
  | t :: rs, e, h => by
    rw [selections] at h
    split at h
    · cases h
    split at h
    · rename_i hc heof
      cases h
      refine ⟨[], t :: rs, rfl, ⟨Diagnostic.unclosed_standsAt _ _ heof, fun _ stop' L' r' _ hr => ?_⟩,
        opens_selections⟩
      obtain ⟨u', rfl⟩ := hr.cons_left
      rw [List.nil_append, selections, if_neg hc, if_pos heof]
    rename_i hc heof
    rcases bind_eq_error.1 h with hs | ⟨⟨s, r1, h1⟩, hs, h⟩
    · obtain ⟨pre, r, hsplit, hf, ho⟩ := selection_faults hstop hs
      refine ⟨pre, r, hsplit, ⟨hf.atNext, fun hdeep stop' L' r' hL hr => ?_⟩,
        ho.wrap 0 fun lim c s _ hs => ⟨c, [s], by simpa using IsSelections.cons hs .nil⟩⟩
      obtain ⟨w, hw⟩ := hr.head_append hsplit
      have hagain := hf.again hdeep stop' L' r' hL hr
      rw [hw] at hagain ⊢
      rw [selections, if_neg hc, if_neg heof]
      simp only [hagain, bind, Except.bind]
    rcases bind_eq_error.1 h with hss | ⟨_, -, h⟩
    · obtain ⟨pre, hpre, hs', hsel⟩ := takes_sound (selection_takes hs) (selection_sound hs)
      obtain ⟨pre', r, hr1, hf, ho⟩ := selections_faults hstop hss
      have hlen : r1.length < (t :: rs).length := h1
      simp only at hpre hs'
      obtain ⟨p, rfl, hrs⟩ := taken_cons hpre hlen
      rw [hr1] at hs'
      refine ⟨t :: p ++ pre', r, by simp [hrs, hr1], ⟨hf.atNext, fun hdeep stop' L' r' hL hr => ?_⟩,
        ho.wrap L fun lim c ss hlim hss => ⟨c, _, by simpa using IsSelections.cons (hsel.mono hlim) hss⟩⟩
      obtain ⟨h1', hsel'⟩ := hs' stop' L' (pre' ++ r') hL (hr.append pre')
      rw [show t :: p ++ pre' ++ r' = t :: (p ++ (pre' ++ r')) by simp, selections, if_neg hc, if_neg heof]
      change selection stop' L' d (t :: (p ++ (pre' ++ r'))) = _ at hsel'
      simp only [hsel', bind, Except.bind, hf.again hdeep stop' L' r' hL hr]
    · cases h
termination_by ts => (ts.length, 2)
decreasing_by all_goals decreasing_with omega

theorem inlineFragment_faults (hstop : stop.Ends) {d : Nat} {ts : List Token} {sp u : Token} {r1 : List Token}
    {e : Diagnostic} (hts : ts = sp :: r1) (hsp : sp.kind = .spread) (hu : peek stop r1 = .ok u)
    (hroute : (u.isKeyword "on" || decide (u.kind = .atSign) || decide (u.kind = .braceL)) = true)
    (h : selection stop L d ts = .error e) :
    ∃ pre r, ts = pre ++ r ∧ Faults (fun s l => selection s l d) stop L pre r e ∧
      Opens (fun lim => IsSelection lim d) pre := by
  subst hts
  have hspread : ∀ stop' (us : List Token), accept stop' (fun t => decide (t.kind = .spread)) (sp :: us) =
      .ok (some ⟨us, length_lt_cons _ _⟩) := fun _ _ => accept_cons_of (by simpa using hsp)
  have hpeek : ∀ {stop' r'}, SameNext stop r1 stop' r' → peek stop' r' = .ok u := fun hr => by
    rw [peek_sameNext hr, hu]
  rw [selection, hspread] at h
  obtain ⟨x, hx, h⟩ := bind_eq_error.1 h |>.resolve_left (by simp)
  cases hx
  obtain ⟨u', hu', h⟩ := bind_eq_error.1 h |>.resolve_left (by simp [hu])
  rw [hu] at hu'
  cases hu'
  rw [if_pos hroute] at h
  rcases bind_eq_error.1 h with hc | ⟨⟨cond, r2, h2⟩, hc, h⟩
  · obtain ⟨pre, r, hr1, hf, ho⟩ := typeCondition_faults (L := L) hstop hc
    refine ⟨sp :: pre, r, by simp [hr1], ⟨hf.atNext, fun hdeep stop' L' r' hL hr => ?_⟩,
      ho.wrap (d + 1) fun lim c cond hlim hc => ?_⟩
    · rw [List.cons_append, selection]
      simp only [hspread, bind, Except.bind, hpeek (by rw [hr1]; exact hr.append pre), hroute, if_true,
        hf.again hdeep stop' L' r' hL hr]
    · obtain ⟨cs, sels, hss⟩ := IsSelectionSet.exists_of_lt (show d < lim by omega)
      exact ⟨c ++ cs, _, by simpa using IsSelection.inlineFragment hsp hc .nil hss⟩
  obtain ⟨tc, hr1, hc', hcond⟩ := takes_sound (typeCondition_takes (L := L) hc) (typeCondition_sound hc)
  simp only at hr1 hc'
  rcases bind_eq_error.1 h with hd | ⟨⟨dirs, r3, h3⟩, hd, h⟩
  · obtain ⟨pre, r, hr2, hf, ho⟩ := directives_faults hstop hd
    rw [hr2] at hr1 hc'
    refine ⟨sp :: tc ++ pre, r, by simp [hr1], ⟨hf.atNext, fun hdeep stop' L' r' hL hr => ?_⟩,
      ho.wrap (d + 1) fun lim c dirs hlim hd => ?_⟩
    · obtain ⟨h2', hcr⟩ := hc' stop' L' (pre ++ r') hL (hr.append pre)
      rw [show sp :: tc ++ pre ++ r' = sp :: (tc ++ (pre ++ r')) by simp, selection]
      simp only [hspread, bind, Except.bind, hpeek (by rw [hr1]; exact (hr.append pre).append tc), hroute, if_true,
        hcr, hf.again hdeep stop' L' r' hL hr]
    · obtain ⟨cs, sels, hss⟩ := IsSelectionSet.exists_of_lt (show d < lim by omega)
      exact ⟨c ++ cs, _, by simpa using IsSelection.inlineFragment hsp hcond hd hss⟩
  obtain ⟨td, hr2, hd', hdirs⟩ := takes_sound (directives_takes hd) (directives_sound hd)
  simp only at hr2 hd'
  rcases bind_eq_error.1 h with hs | ⟨_, -, h⟩
  · obtain ⟨pre, r, hr3, hf, ho⟩ := selectionSet_faults hstop hs
    rw [hr3] at hr2 hd'
    rw [hr2] at hr1 hc'
    refine ⟨sp :: tc ++ td ++ pre, r, by simp [hr1], ⟨hf.atNext, fun hdeep stop' L' r' hL hr => ?_⟩,
      ho.wrap L fun lim c sels hlim hs => ⟨c, _, by
        simpa using IsSelection.inlineFragment hsp hcond (hdirs.mono hlim) hs⟩⟩
    obtain ⟨h3', hdr⟩ := hd' stop' L' (pre ++ r') hL (hr.append pre)
    obtain ⟨h2', hcr⟩ := hc' stop' L' (td ++ (pre ++ r')) hL ((hr.append pre).append td)
    rw [show sp :: tc ++ td ++ pre ++ r' = sp :: (tc ++ (td ++ (pre ++ r'))) by simp, selection]
    simp only [hspread, bind, Except.bind, hpeek (by rw [hr1]; exact ((hr.append pre).append td).append tc),
      hroute, if_true, hcr, hdr, hf.again hdeep stop' L' r' hL hr]
  · cases h
termination_by (ts.length, 0)
decreasing_by all_goals decreasing_with grind

theorem field_faults (hstop : stop.Ends) {d : Nat} {ts : List Token} {e : Diagnostic}
    (hx : accept stop (fun t => decide (t.kind = .spread)) ts = .ok none)
    (h : selection stop L d ts = .error e) :
    ∃ pre r, ts = pre ++ r ∧ Faults (fun s l => selection s l d) stop L pre r e ∧
      Opens (fun lim => IsSelection lim d) pre := by
  rw [selection, hx] at h
  obtain ⟨x, hx', h⟩ := bind_eq_error.1 h |>.resolve_left (by simp)
  cases hx'
  rcases bind_eq_error.1 h with hf | ⟨⟨first, r1, h1⟩, hf, h⟩
  · obtain ⟨hat, hagain⟩ := expectName_faults hstop hf
    refine ⟨[], ts, rfl, ⟨hat, fun _ stop' L' r' _ hr => ?_⟩, opens_nil ⟨0, fun _ _ => IsSelection.exists_filler⟩⟩
    rw [List.nil_append, selection]
    simp only [accept_none_sameNext hx hr, hagain stop' r' hr, bind, Except.bind]
  obtain ⟨hts, hfk⟩ := expectName_ok hf
  simp only at hts
  subst hts
  -- after the first name, every reading takes the branch of a field
  have hnone : ∀ stop' (w : List Token), accept stop' (fun t => decide (t.kind = .spread)) (first :: w) = .ok none :=
    fun _ _ => accept_none_sameNext hx (.inr ⟨first, _, _, rfl, rfl⟩)
  rcases bind_eq_error.1 h with hn | ⟨⟨name, r2, h2⟩, hn, h⟩
  · obtain ⟨pre, r, hr1, hf, ho⟩ := fieldName_faults (L := L) hstop hfk hn
    refine ⟨first :: pre, r, by simp [hr1], ⟨hf.atNext, fun hdeep stop' L' r' hL hr => ?_⟩,
      ho.wrap 0 fun lim c name _ hn => ⟨c, _, by simpa using IsSelection.field hn .none .nil .none⟩⟩
    rw [List.cons_append, selection]
    simp only [hnone, bind, Except.bind, expectName_cons hfk, hf.again hdeep stop' L' r' hL hr]
  obtain ⟨tn, hr1, hn'⟩ := fieldName_takes (L := L) hn
  obtain ⟨tn', hr1', hname⟩ := fieldName_sound hfk hn
  simp only at hr1 hr1' hn'
  have htn : tn' = first :: tn := List.append_cancel_right (hr1'.symm.trans (by rw [hr1]; rfl))
  subst htn
  rcases bind_eq_error.1 h with ha | ⟨⟨args, r3, h3⟩, ha, h⟩
  · obtain ⟨pre, r, hr2, hf, ho⟩ := arguments_faults hstop ha
    rw [hr2] at hr1 hn'
    refine ⟨first :: tn ++ pre, r, by simp [hr1], ⟨hf.atNext, fun hdeep stop' L' r' hL hr => ?_⟩,
      ho.wrap 0 fun lim c args _ ha => ⟨c, _, by simpa using IsSelection.field hname ha .nil .none⟩⟩
    obtain ⟨h2', hnr⟩ := hn' stop' L' (pre ++ r') hL (hr.append pre)
    rw [show first :: tn ++ pre ++ r' = first :: (tn ++ (pre ++ r')) by simp, selection]
    simp only [hnone, bind, Except.bind, expectName_cons hfk, hnr, hf.again hdeep stop' L' r' hL hr]
  obtain ⟨ta, hr2, ha', hargs⟩ := takes_sound (arguments_takes ha) (arguments_sound ha)
  simp only at hr2 ha'
  rcases bind_eq_error.1 h with hd | ⟨⟨dirs, r4, h4⟩, hd, h⟩
  · obtain ⟨pre, r, hr3, hf, ho⟩ := directives_faults hstop hd
    rw [hr3] at hr2 ha'
    rw [hr2] at hr1 hn'
    refine ⟨first :: tn ++ ta ++ pre, r, by simp [hr1], ⟨hf.atNext, fun hdeep stop' L' r' hL hr => ?_⟩,
      ho.wrap L fun lim c dirs hlim hd => ⟨c, _, by
        simpa using IsSelection.field hname (hargs.mono hlim) hd .none⟩⟩
    obtain ⟨h3', har⟩ := ha' stop' L' (pre ++ r') hL (hr.append pre)
    obtain ⟨h2', hnr⟩ := hn' stop' L' (ta ++ (pre ++ r')) hL ((hr.append pre).append ta)
    rw [show first :: tn ++ ta ++ pre ++ r' = first :: (tn ++ (ta ++ (pre ++ r'))) by simp, selection]
    simp only [hnone, bind, Except.bind, expectName_cons hfk, hnr, har, hf.again hdeep stop' L' r' hL hr]
  obtain ⟨td, hr3, hd', hdirs⟩ := takes_sound (directives_takes hd) (directives_sound hd)
  simp only at hr3 hd'
  rcases bind_eq_error.1 h with hs | ⟨_, -, h⟩
  · obtain ⟨pre, r, hr4, hf, ho⟩ := subselection_faults hstop hs
    rw [hr4] at hr3 hd'
    rw [hr3] at hr2 ha'
    rw [hr2] at hr1 hn'
    refine ⟨first :: tn ++ ta ++ td ++ pre, r, by simp [hr1], ⟨hf.atNext, fun hdeep stop' L' r' hL hr => ?_⟩,
      ho.wrap L fun lim c sub hlim hs => ⟨c, _, by
        simpa using IsSelection.field hname (hargs.mono hlim) (hdirs.mono hlim) hs⟩⟩
    obtain ⟨h4', hdr⟩ := hd' stop' L' (pre ++ r') hL (hr.append pre)
    obtain ⟨h3', har⟩ := ha' stop' L' (td ++ (pre ++ r')) hL ((hr.append pre).append td)
    obtain ⟨h2', hnr⟩ := hn' stop' L' (ta ++ (td ++ (pre ++ r'))) hL (((hr.append pre).append td).append ta)
    rw [show first :: tn ++ ta ++ td ++ pre ++ r' = first :: (tn ++ (ta ++ (td ++ (pre ++ r')))) by simp, selection]
    simp only [hnone, bind, Except.bind, expectName_cons hfk, hnr, har, hdr, hf.again hdeep stop' L' r' hL hr]
  · cases h
termination_by (ts.length, 0)
decreasing_by all_goals decreasing_with omega

theorem selection_faults (hstop : stop.Ends) {d : Nat} {ts : List Token} {e : Diagnostic}
    (h : selection stop L d ts = .error e) :
    ∃ pre r, ts = pre ++ r ∧ Faults (fun s l => selection s l d) stop L pre r e ∧
      Opens (fun lim => IsSelection lim d) pre := by
  have h0 := h
  rw [selection] at h0
  rcases bind_eq_error.1 h0 with hx | ⟨x, hx, h0⟩
  · obtain ⟨hat, hagain⟩ := accept_faults hx
    refine ⟨[], ts, rfl, ⟨hat, fun _ stop' L' r' _ hr => ?_⟩, opens_nil ⟨0, fun _ _ => IsSelection.exists_filler⟩⟩
    rw [List.nil_append, selection]
    simp only [hagain stop' r' hr, bind, Except.bind]
  cases x with
  | none => exact field_faults hstop hx h
  | some r1 =>
    obtain ⟨sp, hts, hsp⟩ := accept_some hx
    have hsp : sp.kind = .spread := by simpa using hsp
    rcases bind_eq_error.1 h0 with hp | ⟨u, hu, -⟩
    · refine ⟨[sp], r1.1, hts, ⟨atNext_of_peek hp, fun _ stop' L' r' _ hr => ?_⟩, opens_spread hsp⟩
      obtain ⟨hr1, -⟩ := peek_eq_error hp
      rw [hr1] at hr hp
      obtain ⟨rfl, rfl⟩ := hr.nil_left
      rw [List.singleton_append, selection]
      simp only [accept_cons_of (p := fun t => decide (t.kind = .spread)) (by simpa using hsp), bind, Except.bind,
        hp]
    · cases hroute : (u.isKeyword "on" || decide (u.kind = .atSign) || decide (u.kind = .braceL))
      · rw [hts] at h ⊢
        exact fragmentSpread_faults hstop hsp hu hroute h
      · exact inlineFragment_faults hstop hts hsp hu hroute h
termination_by (ts.length, 1)
decreasing_by all_goals decreasing_with omega

end

end Syntax
end Gql
