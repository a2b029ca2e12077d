import Gql.Proofs.Descent.Faults.Selections
/-!
# Faults of operations, fragments and documents

An operation or a fragment faults like the rules it is made of. A read of definitions keeps
the definitions it completed and stops at the first one that faults (`definitions_faults`):
the tokens up to the fault open a sentence of definitions, the fault stands at the token
after them, and a read of any tokens that go on alike after those faults the same way, at
every limit from the reader's on.
-/
namespace Gql

@[simp] theorem Token.filler_isKeyword (w : String) : (Token.filler .name w).isKeyword w = true := by
  simp [Token.isKeyword, Token.filler]

namespace Grammar

variable {lim : Nat}

theorem IsFragment.exists_of_head {frag n on cond : Token} (hfrag : frag.isKeyword "fragment" = true)
    (hn : n.kind = .name) (hnv : n.value ≠ "on") (hon : on.isKeyword "on" = true) (hcond : cond.kind = .name)
    (h : 0 < lim) : ∃ c f, IsFragment lim (frag :: n :: on :: cond :: c) f := by
  obtain ⟨c, sels, hs⟩ := IsSelectionSet.exists_of_lt h
  exact ⟨c, _, by simpa using IsFragment.mk hfrag hn hnv hon hcond .nil hs⟩

end Grammar

namespace Syntax

open Grammar

variable {stop : Stop} {L : Nat}

theorem operation_faults (hstop : stop.Ends) {ts : List Token} {e : Diagnostic}
    (h : operation stop L ts = .error e) :
    ∃ pre r, ts = pre ++ r ∧ Faults operation stop L pre r e ∧ Opens IsOperation pre := by
  have hnil : Opens IsOperation [] := opens_nil ⟨1, fun _ hlim => IsOperation.exists_of_pos (by omega)⟩
  rcases bind_eq_error.1 h with hb | ⟨b, hb, h⟩
  · obtain ⟨hat, hagain⟩ := nextIs_faults hb
    refine ⟨[], ts, rfl, ⟨hat, fun _ stop' L' r' _ hr => ?_⟩, hnil⟩
    simp only [operation, List.nil_append, hagain stop' r' hr, bind, Except.bind]
  split at h
  · rename_i hopen
    rcases bind_eq_error.1 h with hs | ⟨_, -, h⟩
    · obtain ⟨pre, r, hts, hf, ho⟩ := selectionSet_faults hstop hs
      refine ⟨pre, r, hts, ⟨hf.atNext, fun hdeep stop' L' r' hL hr => ?_⟩,
        ho.wrap 0 fun lim c sels _ hs => ⟨c, _, .shorthand hs⟩⟩
      have hnext : nextIs stop' .braceL (pre ++ r') = .ok true := by
        rw [nextIs_sameNext (hr.append pre), ← hts, hb, hopen]
      simp only [operation, hnext, hf.again hdeep stop' L' r' hL hr, bind, Except.bind, if_true]
    · cases h
  rename_i hno
  have hnext : ∀ {stop' r'}, SameNext stop ts stop' r' → nextIs stop' .braceL r' = .ok false := fun hr => by
    rw [nextIs_sameNext hr, hb]
    simpa using hno
  rcases bind_eq_error.1 h with hk | ⟨⟨kw, r1, h1⟩, hk, h⟩
  · obtain ⟨hat, hagain⟩ := expectName_faults hstop hk
    refine ⟨[], ts, rfl, ⟨hat, fun _ stop' L' r' _ hr => ?_⟩, hnil⟩
    simp only [operation, List.nil_append, hnext hr, hagain stop' r' hr, bind, Except.bind, Bool.false_eq_true,
      if_false]
  obtain ⟨hts, hkk⟩ := expectName_ok hk
  simp only at h hts
  have hkw : ∀ {stop' w}, nextIs stop' .braceL (kw :: w) = .ok false := fun {_ w} =>
    hnext (.inr ⟨kw, r1, w, hts, rfl⟩)
  split at h
  case h_2 hkind =>
    cases h
    refine ⟨[], ts, rfl, ⟨by rw [hts]; exact Diagnostic.unexpected_standsAt _ _, fun _ stop' L' r' _ hr => ?_⟩,
      hnil⟩
    rw [hts] at hr
    obtain ⟨u', rfl⟩ := hr.cons_left
    simp only [operation, List.nil_append, hkw, expectName_cons hkk, bind, Except.bind, Bool.false_eq_true,
      if_false]
  rename_i kind hkind
  rcases bind_eq_error.1 h with hn | ⟨⟨name, r2, h2⟩, hn, h⟩
  · obtain ⟨pre, r, hr1, hf, ho⟩ := operationName_faults (L := L) hstop hn
    refine ⟨kw :: pre, r, by simp [hts, hr1], ⟨hf.atNext, fun hdeep stop' L' r' hL hr => ?_⟩,
      ho.wrap 1 fun lim c name hlim hn => ?_⟩
    · rw [List.cons_append]
      simp only [operation, hkw, expectName_cons hkk, hkind, hf.again hdeep stop' L' r' hL hr, bind, Except.bind,
        Bool.false_eq_true, if_false]
    · obtain ⟨cs, sels, hs⟩ := IsSelectionSet.exists_of_lt (show 0 < lim by omega)
      exact ⟨c ++ cs, _, by simpa using IsOperation.full hkk hkind hn .none .nil hs⟩
  obtain ⟨tn, hr1, hn', hname⟩ := takes_sound (operationName_takes (L := L) hn) (operationName_sound hn)
  simp only at hr1 hn'
  rcases bind_eq_error.1 h with hv | ⟨⟨vars, r3, h3⟩, hv, h⟩
  · obtain ⟨pre, r, hr2, hf, ho⟩ := variableDefinitions_faults hstop hv
    rw [show r2 = pre ++ r from hr2] at hr1 hn'
    refine ⟨kw :: tn ++ pre, r, by simp [hts, hr1], ⟨hf.atNext, fun hdeep stop' L' r' hL hr => ?_⟩,
      ho.wrap 1 fun lim c vars hlim hv => ?_⟩
    · obtain ⟨h2', hnr⟩ := hn' stop' L' (pre ++ r') hL (hr.append pre)
      rw [show kw :: tn ++ pre ++ r' = kw :: (tn ++ (pre ++ r')) by simp]
      simp only [operation, hkw, expectName_cons hkk, hkind, hnr, hf.again hdeep stop' L' r' hL hr, bind,
        Except.bind, Bool.false_eq_true, if_false]
    · obtain ⟨cs, sels, hs⟩ := IsSelectionSet.exists_of_lt (show 0 < lim by omega)
      exact ⟨c ++ cs, _, by simpa using IsOperation.full hkk hkind hname hv .nil hs⟩
  obtain ⟨tv, hr2, hv', hvars⟩ := takes_sound (variableDefinitions_takes hv) (variableDefinitions_sound hv)
  simp only at hr2 hv'
  rcases bind_eq_error.1 h with hd | ⟨⟨dirs, r4, h4⟩, hd, h⟩
  · obtain ⟨pre, r, hr3, hf, ho⟩ := directives_faults hstop hd
    rw [show r3 = pre ++ r from hr3] at hr2 hv'
    rw [hr2] at hr1 hn'
    refine ⟨kw :: tn ++ tv ++ pre, r, by simp [hts, hr1], ⟨hf.atNext, fun hdeep stop' L' r' hL hr => ?_⟩,
      ho.wrap (L + 1) fun lim c dirs hlim hd => ?_⟩
    · obtain ⟨h3', hvr⟩ := hv' stop' L' (pre ++ r') hL (hr.append pre)
      obtain ⟨h2', hnr⟩ := hn' stop' L' (tv ++ (pre ++ r')) hL ((hr.append pre).append tv)
      rw [show kw :: tn ++ tv ++ pre ++ r' = kw :: (tn ++ (tv ++ (pre ++ r'))) by simp]
      simp only [operation, hkw, expectName_cons hkk, hkind, hnr, hvr, hf.again hdeep stop' L' r' hL hr, bind,
        Except.bind, Bool.false_eq_true, if_false]
    · obtain ⟨cs, sels, hs⟩ := IsSelectionSet.exists_of_lt (show 0 < lim by omega)
      exact ⟨c ++ cs, _, by simpa using IsOperation.full hkk hkind hname (hvars.mono (by omega)) hd hs⟩
  obtain ⟨td, hr3, hd', hdirs⟩ := takes_sound (directives_takes hd) (directives_sound hd)
  simp only at hr3 hd'
  rcases bind_eq_error.1 h with hs | ⟨_, -, h⟩
  · obtain ⟨pre, r, hr4, hf, ho⟩ := selectionSet_faults hstop hs
    rw [show r4 = pre ++ r from hr4] at hr3 hd'
    rw [hr3] at hr2 hv'
    rw [hr2] at hr1 hn'
    refine ⟨kw :: tn ++ tv ++ td ++ pre, r, by simp [hts, hr1], ⟨hf.atNext, fun hdeep stop' L' r' hL hr => ?_⟩,
      ho.wrap L fun lim c sels hlim hs => ⟨c, _, by
        simpa using IsOperation.full hkk hkind hname (hvars.mono hlim) (hdirs.mono hlim) hs⟩⟩
    obtain ⟨h4', hdr⟩ := hd' stop' L' (pre ++ r') hL (hr.append pre)
    obtain ⟨h3', hvr⟩ := hv' stop' L' (td ++ (pre ++ r')) hL ((hr.append pre).append td)
    obtain ⟨h2', hnr⟩ := hn' stop' L' (tv ++ (td ++ (pre ++ r'))) hL (((hr.append pre).append td).append tv)
    rw [show kw :: tn ++ tv ++ td ++ pre ++ r' = kw :: (tn ++ (tv ++ (td ++ (pre ++ r')))) by simp]
    simp only [operation, hkw, expectName_cons hkk, hkind, hnr, hvr, hdr, hf.again hdeep stop' L' r' hL hr, bind,
      Except.bind, Bool.false_eq_true, if_false]
  · cases h

theorem opens_fragment_head {frag n on cond : Token} {p : List Token} (hp : p <+: [frag, n, on, cond])
    (hfrag : frag.isKeyword "fragment" = true) (hn : n.kind = .name) (hnv : n.value ≠ "on")
    (hon : on.isKeyword "on" = true) (hcond : cond.kind = .name) : Opens IsFragment p := by
  obtain ⟨t, ht⟩ := hp
  refine ⟨1, fun lim hlim => ?_⟩
  obtain ⟨c, f, hf⟩ := IsFragment.exists_of_head hfrag hn hnv hon hcond (show 0 < lim by omega)
  exact ⟨t ++ c, f, by rw [← List.append_assoc, ht]; simpa using hf⟩

theorem fragment_faults (hstop : stop.Ends) {ts : List Token} {e : Diagnostic}
    (h : fragment stop L ts = .error e) :
    ∃ pre r, ts = pre ++ r ∧ Faults fragment stop L pre r e ∧ Opens IsFragment pre := by
  have hF : (Token.filler .name "F").value ≠ "on" := by simp [Token.filler]
  rcases bind_eq_error.1 h with hk | ⟨⟨frag, r1, h1⟩, hk, h⟩
  · obtain ⟨hat, hagain⟩ := expectKeyword_faults hstop hk
    refine ⟨[], ts, rfl, ⟨hat, fun _ stop' L' r' _ hr => ?_⟩,
      opens_fragment_head List.nil_prefix (Token.filler_isKeyword "fragment") (Token.filler_kind .name "F") hF
        (Token.filler_isKeyword "on") (Token.filler_kind .name "T")⟩
    simp only [fragment, List.nil_append, hagain stop' r' hr, bind, Except.bind]
  obtain ⟨hts, hfk⟩ := expectKeyword_ok hk
  rcases bind_eq_error.1 h with hn | ⟨⟨n, r2, h2⟩, hn, h⟩
  · obtain ⟨hat, hagain⟩ := fragmentName_faults hstop hn
    refine ⟨[frag], r1, hts, ⟨hat, fun _ stop' L' r' _ hr => ?_⟩,
      opens_fragment_head ⟨[Token.filler .name "F", Token.filler .name "on", Token.filler .name "T"], rfl⟩ hfk
        (Token.filler_kind .name "F") hF (Token.filler_isKeyword "on") (Token.filler_kind .name "T")⟩
    simp only [fragment, List.singleton_append, expectKeyword_cons hfk, hagain stop' r' hr, bind, Except.bind]
  obtain ⟨nt, hr1, hnk, hnv, rfl⟩ := fragmentName_ok hn
  rcases bind_eq_error.1 h with ho | ⟨⟨on, r3, h3⟩, ho, h⟩
  · obtain ⟨hat, hagain⟩ := expectKeyword_faults hstop ho
    refine ⟨[frag, nt], r2, by simp [hts, hr1], ⟨hat, fun _ stop' L' r' _ hr => ?_⟩,
      opens_fragment_head ⟨[Token.filler .name "on", Token.filler .name "T"], rfl⟩ hfk hnk hnv
        (Token.filler_isKeyword "on") (Token.filler_kind .name "T")⟩
    simp only [fragment, List.cons_append, List.nil_append, expectKeyword_cons hfk, fragmentName_cons hnk hnv,
      hagain stop' r' hr, bind, Except.bind]
  obtain ⟨hr2, honk⟩ := expectKeyword_ok ho
  rcases bind_eq_error.1 h with hc | ⟨⟨cond, r4, h4⟩, hc, h⟩
  · obtain ⟨hat, hagain⟩ := expectName_faults hstop hc
    refine ⟨[frag, nt, on], r3, by simp [hts, hr1, hr2], ⟨hat, fun _ stop' L' r' _ hr => ?_⟩,
      opens_fragment_head ⟨[Token.filler .name "T"], rfl⟩ hfk hnk hnv honk (Token.filler_kind .name "T")⟩
    simp only [fragment, List.cons_append, List.nil_append, expectKeyword_cons hfk, fragmentName_cons hnk hnv,
      expectKeyword_cons honk, hagain stop' r' hr, bind, Except.bind]
  obtain ⟨hr3, hck⟩ := expectName_ok hc
  rcases bind_eq_error.1 h with hd | ⟨⟨dirs, r5, h5⟩, hd, h⟩
  · obtain ⟨pre, r, hr4, hf, ho⟩ := directives_faults hstop hd
    refine ⟨frag :: nt :: on :: cond :: pre, r, by simp [hts, hr1, hr2, hr3, hr4],
      ⟨hf.atNext, fun hdeep stop' L' r' hL hr => ?_⟩, ho.wrap 1 fun lim c dirs hlim hd => ?_⟩
    · simp only [fragment, List.cons_append, expectKeyword_cons hfk, fragmentName_cons hnk hnv,
        expectKeyword_cons honk, expectName_cons hck, hf.again hdeep stop' L' r' hL hr, bind, Except.bind]
    · obtain ⟨cs, sels, hs⟩ := IsSelectionSet.exists_of_lt (show 0 < lim by omega)
      exact ⟨c ++ cs, _, by simpa using IsFragment.mk hfk hnk hnv honk hck hd hs⟩
  obtain ⟨td, hr4, hd', hdirs⟩ := takes_sound (directives_takes hd) (directives_sound hd)
  simp only at hr4 hd'
  rcases bind_eq_error.1 h with hs | ⟨_, -, h⟩
  · obtain ⟨pre, r, hr5, hf, ho⟩ := selectionSet_faults hstop hs
    rw [hr5] at hr4 hd'
    refine ⟨frag :: nt :: on :: cond :: td ++ pre, r, by simp [hts, hr1, hr2, hr3, hr4],
      ⟨hf.atNext, fun hdeep stop' L' r' hL hr => ?_⟩,
      ho.wrap L fun lim c sels hlim hs => ⟨c, _, by
        simpa using IsFragment.mk hfk hnk hnv honk hck (hdirs.mono hlim) hs⟩⟩
    obtain ⟨h5', hdr⟩ := hd' stop' L' (pre ++ r') hL (hr.append pre)
    rw [show frag :: nt :: on :: cond :: td ++ pre ++ r' = frag :: nt :: on :: cond :: (td ++ (pre ++ r')) by simp]
    simp only [fragment, expectKeyword_cons hfk, fragmentName_cons hnk hnv, expectKeyword_cons honk,
      expectName_cons hck, hdr, hf.again hdeep stop' L' r' hL hr, bind, Except.bind]
  · cases h

theorem opens_definitions : Opens (fun lim ts (x : List Operation × List Fragment) => IsDefinitions lim ts x.1 x.2) [] :=
  opens_nil ⟨0, fun _ _ => ⟨[], ([], []), .nil⟩⟩

/-- **A read of definitions stops at its first fault**: the tokens read before the fault,
`pre`, open a sentence of definitions; the fault stands at the token after them; and, unless
it is one of depth, a read of `pre` followed by any tokens that go on like the rest faults
the same way, at every limit from the reader's on and from any document. -/
theorem definitions_faults (hstop : stop.Ends) {doc doc' : Document} {ts : List Token} {e : Diagnostic}
    (h : definitions stop L doc ts = (doc', some e)) :
    ∃ pre r, ts = pre ++ r ∧ AtNext stop r e ∧
      (e.isDeep = false → ∀ stop' L' r', L ≤ L' → SameNext stop r stop' r' →
        ∀ doc₀, (definitions stop' L' doc₀ (pre ++ r')).2 = some e) ∧
      Opens (fun lim ts (x : List Operation × List Fragment) => IsDefinitions lim ts x.1 x.2) pre := by
  fun_induction definitions stop L doc ts with
  | case1 doc ts e' hp =>
    cases h
    refine ⟨[], ts, rfl, atNext_of_peek hp, fun _ stop' L' r' _ hr doc₀ => ?_, opens_definitions⟩
    rw [List.nil_append, definitions, peek_sameNext hr, hp]
  | case2 => cases h
  | case3 doc ts t hp hk hkw e' hf =>
    cases h
    obtain ⟨pre, r, hts, hF, ho⟩ := fragment_faults hstop hf
    refine ⟨pre, r, hts, hF.atNext, fun hdeep stop' L' r' hL hr doc₀ => ?_,
      ho.wrap 0 fun lim c f _ hf => ⟨c, ([], [f]), by simpa using IsDefinitions.fragment hf .nil⟩⟩
    have hpeek : peek stop' (pre ++ r') = .ok t := by rw [peek_sameNext (hr.append pre), ← hts, hp]
    rw [definitions, hpeek]
    simp only [hk, hkw, if_false, if_true, hF.again hdeep stop' L' r' hL hr]
  | case4 doc ts t hp hk hkw f r hr hf ih =>
    obtain ⟨pre, r', hsplit, hat, hagain, ho⟩ := ih h
    obtain ⟨pf, hpf, hf', hfrag⟩ := takes_sound (fragment_takes hf) (fragment_sound hf)
    simp only at hpf hf'
    rw [hsplit] at hpf hf'
    refine ⟨pf ++ pre, r', by simp [hpf], hat, fun hdeep stop' L' r'' hL hr' doc₀ => ?_,
      ho.wrap L fun lim c x hlim hx => ⟨c, (x.1, f :: x.2), by
        simpa using IsDefinitions.fragment (hfrag.mono hlim) hx⟩⟩
    obtain ⟨h', hfr⟩ := hf' stop' L' (pre ++ r'') hL (hr'.append pre)
    have hpeek : peek stop' (pf ++ (pre ++ r'')) = .ok t := by
      rw [peek_sameNext ((hr'.append pre).append pf), ← hpf, hp]
    rw [List.append_assoc, definitions, hpeek]
    simp only [hk, hkw, if_false, if_true, hfr]
    exact hagain hdeep stop' L' r'' hL hr' _
  | case5 doc ts t hp hk hkw hop e' ho =>
    cases h
    obtain ⟨pre, r, hts, hF, ho'⟩ := operation_faults hstop ho
    refine ⟨pre, r, hts, hF.atNext, fun hdeep stop' L' r' hL hr doc₀ => ?_,
      ho'.wrap 0 fun lim c o _ ho => ⟨c, ([o], []), by simpa using IsDefinitions.operation ho .nil⟩⟩
    have hpeek : peek stop' (pre ++ r') = .ok t := by rw [peek_sameNext (hr.append pre), ← hts, hp]
    rw [definitions, hpeek]
    simp only [hk, hkw, hop, Bool.false_eq_true, if_false, if_true, hF.again hdeep stop' L' r' hL hr]
  | case6 doc ts t hp hk hkw hop o r hr ho ih =>
    obtain ⟨pre, r', hsplit, hat, hagain, ho'⟩ := ih h
    obtain ⟨po, hpo, ho'', hop'⟩ := takes_sound (operation_takes ho) (operation_sound ho)
    simp only at hpo ho''
    rw [hsplit] at hpo ho''
    refine ⟨po ++ pre, r', by simp [hpo], hat, fun hdeep stop' L' r'' hL hr' doc₀ => ?_,
      ho'.wrap L fun lim c x hlim hx => ⟨c, (o :: x.1, x.2), by
        simpa using IsDefinitions.operation (hop'.mono hlim) hx⟩⟩
    obtain ⟨h', hor⟩ := ho'' stop' L' (pre ++ r'') hL (hr'.append pre)
    have hpeek : peek stop' (po ++ (pre ++ r'')) = .ok t := by
      rw [peek_sameNext ((hr'.append pre).append po), ← hpo, hp]
    rw [List.append_assoc, definitions, hpeek]
    simp only [hk, hkw, hop, Bool.false_eq_true, if_false, if_true, hor]
    exact hagain hdeep stop' L' r'' hL hr' _
  | case7 doc ts t hp hk hkw hop =>
    cases h
    obtain ⟨rest, rfl⟩ : ∃ rest, ts = t :: rest := by
      cases ts with
      | cons t' rest =>
        simp only [peek, Except.ok.injEq] at hp
        exact ⟨rest, by rw [hp]⟩
      | nil =>
        cases stop with
        | eof u =>
          simp only [peek, Except.ok.injEq] at hp
          exact absurd (hp ▸ hstop) hk
        | fault f => cases hp
    refine ⟨[], t :: rest, rfl, Diagnostic.notDefinition_standsAt hk, fun _ stop' L' r' _ hr doc₀ => ?_,
      opens_definitions⟩
    obtain ⟨u', rfl⟩ := hr.cons_left
    rw [List.nil_append, definitions]
    simp [peek, hk, hkw, hop]

end Syntax
end Gql
