import Gql.Proofs.Descent.Faults.Basic
import Gql.Proofs.Descent.Sentences
/-!
# Faults of values, types, arguments and directives

Each rule that reads a value, a type, arguments, directives or a variable definition faults on
the next token after what it took, faults so again whatever comes after that token, and what it
took opens a sentence of its rule (`Faults`, `Opens`).

The proofs follow the rules as those of `Lookahead` do: the steps before the fault are taken
again by their `Takes` and spell sentences by soundness; the step that faults brings its own
`Faults` and `Opens`; the steps after it are completed by sentences at every limit.
-/
namespace Gql

@[simp] theorem Token.filler_kind (k : TokenKind) (v : String) : (Token.filler k v).kind = k := rfl

namespace Syntax

open Grammar

variable {stop : Stop} {L : Nat}

theorem opens_nil {α : Type} {R : Nat → List Token → α → Prop} (h : ∃ B, ∀ lim, B ≤ lim → ∃ c x, R lim c x) :
    Opens R [] := by
  obtain ⟨B, hB⟩ := h
  exact ⟨B, fun lim hlim => by simpa using hB lim hlim⟩

/-- What opens a sentence of one rule opens one of another, when every completed sentence of
the first, from some limit on, extends to one of the second. -/
theorem Opens.wrap {α β : Type} {R : Nat → List Token → α → Prop} {R' : Nat → List Token → β → Prop}
    {pre pre' : List Token} (h : Opens R pre) (B' : Nat)
    (hw : ∀ lim c x, B' ≤ lim → R lim (pre ++ c) x → ∃ c' y, R' lim (pre' ++ c') y) : Opens R' pre' := by
  obtain ⟨B, hB⟩ := h
  refine ⟨max B B', fun lim hlim => ?_⟩
  obtain ⟨c, x, hx⟩ := hB lim (by omega)
  exact hw lim c x (by omega) hx

/-- A read that checks its depth first faults on the next token when too deep; the fault is one
of depth, or the lexical fault at the end, which the read meets again at every limit. -/
theorem tooDeepAt_faults {α : Type} {P : Nat → Nat → Prop}
    {run : Stop → Nat → (ts : List Token) → Except Diagnostic (α × {r : List Token // P r.length ts.length})}
    (hend : ∀ f L', run (.fault f) L' [] = .error (.ofLex f)) (ts : List Token) :
    Faults run stop L [] ts (tooDeepAt stop L ts) := by
  refine ⟨atNext_tooDeepAt L ts, fun hdeep stop' L' r' _ hr => ?_⟩
  cases ts with
  | cons t u => simp [tooDeepAt, peek, Diagnostic.tooDeep, Diagnostic.isDeep] at hdeep
  | nil =>
    cases stop with
    | eof u => simp [tooDeepAt, peek, Diagnostic.tooDeep, Diagnostic.isDeep] at hdeep
    | fault f =>
      obtain ⟨rfl, rfl⟩ := hr.nil_left
      exact hend f L'

/-! ### Values -/

section Values

theorem value_end {ctx : ValueContext} {d : Nat} (f : LexError) (L' : Nat) : value (.fault f) L' ctx d [] = .error (.ofLex f) := by
  rw [value]
  split <;> rfl

theorem opens_value {ctx : ValueContext} {d : Nat} : Opens (fun lim => IsValue lim ctx d) [] :=
  opens_nil ⟨d + 1, fun _ hlim => IsValue.exists_of_lt (by omega)⟩

mutual

theorem value_faults (hstop : stop.Ends) {ctx : ValueContext} {d : Nat} : ∀ {ts : List Token} {e : Diagnostic},
    value stop L ctx d ts = .error e →
    ∃ pre r, ts = pre ++ r ∧ Faults (fun s l => value s l ctx d) stop L pre r e ∧
      Opens (fun lim => IsValue lim ctx d) pre
  | [], e, h => by
    rw [value] at h
    split at h
    · cases h
      exact ⟨[], [], rfl, tooDeepAt_faults (value_end · ·) [], opens_value⟩
    · rename_i hd
      cases h
      refine ⟨[], [], rfl, ⟨atNext_atEnd hstop _, fun _ stop' L' r' hL hr => ?_⟩, opens_value⟩
      obtain ⟨rfl, rfl⟩ := hr.nil_left
      rw [List.nil_append, value, dif_neg (by omega)]
  | t :: rs, e, h => by
    rw [value] at h
    split at h
    · cases h
      exact ⟨[], t :: rs, rfl, tooDeepAt_faults (value_end · ·) _, opens_value⟩
    rename_i hd
    split at h
    · rename_i hk
      rcases bind_eq_error.1 h with hl | ⟨_, -, h⟩
      · obtain ⟨pre, r, hrs, hf, ho⟩ := listItems_faults hstop hl
        refine ⟨t :: pre, r, by rw [hrs]; rfl, ⟨hf.atNext, fun hdeep stop' L' r' hL hr => ?_⟩, ?_⟩
        · rw [List.cons_append, value]
          simp only [show ¬ L' ≤ d by omega, dite_false, hk, hf.again hdeep stop' L' r' hL hr, bind,
            Except.bind]
        · obtain ⟨B, hB⟩ := ho
          refine ⟨max B (d + 1), fun lim hlim => ?_⟩
          obtain ⟨c, vs, hvs⟩ := hB lim (by omega)
          exact ⟨c ++ [Token.filler .bracketR "]"], .list vs, by
            simpa only [List.cons_append, List.append_assoc] using
              IsValue.list (by omega) hk (Token.filler_kind _ _) hvs⟩
      · cases h
    · rename_i hk
      rcases bind_eq_error.1 h with hl | ⟨_, -, h⟩
      · obtain ⟨pre, r, hrs, hf, ho⟩ := objectFields_faults hstop hl
        refine ⟨t :: pre, r, by rw [hrs]; rfl, ⟨hf.atNext, fun hdeep stop' L' r' hL hr => ?_⟩, ?_⟩
        · rw [List.cons_append, value]
          simp only [show ¬ L' ≤ d by omega, dite_false, hk, hf.again hdeep stop' L' r' hL hr, bind,
            Except.bind]
        · obtain ⟨B, hB⟩ := ho
          refine ⟨max B (d + 1), fun lim hlim => ?_⟩
          obtain ⟨c, fs, hfs⟩ := hB lim (by omega)
          exact ⟨c ++ [Token.filler .braceR "\x7d"], .object fs, by
            simpa only [List.cons_append, List.append_assoc] using
              IsValue.object (by omega) hk (Token.filler_kind _ _) hfs⟩
      · cases h
    · rename_i hk
      split at h
      · rename_i place hctx
        cases h
        refine ⟨[], t :: rs, rfl, ⟨Diagnostic.variableForbidden_standsAt place (by simp [hk]),
          fun _ stop' L' r' hL hr => ?_⟩, opens_value⟩
        obtain ⟨u', rfl⟩ := hr.cons_left
        rw [List.nil_append, value]
        simp only [show ¬ L' ≤ d by omega, dite_false, hk, hctx]
      · rename_i hctx
        rcases bind_eq_error.1 h with hn | ⟨_, -, h⟩
        · obtain ⟨hat, hagain⟩ := expectName_faults hstop hn
          refine ⟨[t], rs, rfl, ⟨hat, fun _ stop' L' r' hL hr => ?_⟩,
            ⟨d + 1, fun lim hlim => ⟨[Token.filler .name "v"], _, .variable (by omega) hctx hk rfl⟩⟩⟩
          rw [List.singleton_append, value]
          simp only [show ¬ L' ≤ d by omega, dite_false, hk, hctx, hagain stop' r' hr, bind, Except.bind]
        · cases h
    all_goals try cases h
    refine ⟨[], t :: rs, rfl, ⟨Diagnostic.unexpected_standsAt t _, fun _ stop' L' r' hL hr => ?_⟩,
      opens_value⟩
    obtain ⟨u', rfl⟩ := hr.cons_left
    rw [List.nil_append, value]
    simp only [show ¬ L' ≤ d by omega, dite_false]
termination_by ts => (ts.length, 0)
decreasing_by all_goals decreasing_with omega

theorem listItems_faults (hstop : stop.Ends) {ctx : ValueContext} {d : Nat} {o : Token} : ∀ {ts : List Token} {e : Diagnostic},
    listItems stop L ctx d o ts = .error e →
    ∃ pre r, ts = pre ++ r ∧ Faults (fun s l => listItems s l ctx d o) stop L pre r e ∧
      Opens (fun lim => IsValues lim ctx d) pre
  | [], e, h => by
    rw [listItems] at h
    cases h
    refine ⟨[], [], rfl, ⟨atNext_unclosedAtEnd hstop _ _, fun _ stop' L' r' _ hr => ?_⟩,
      ⟨0, fun _ _ => ⟨[], [], .nil⟩⟩⟩
    obtain ⟨rfl, rfl⟩ := hr.nil_left
    rw [List.nil_append, listItems]
  | t :: rs, e, h => by
    rw [listItems] at h
    split at h
    · cases h
    split at h
    · rename_i hc heof
      cases h
      refine ⟨[], t :: rs, rfl, ⟨Diagnostic.unclosed_standsAt _ _ heof, fun _ stop' L' r' _ hr => ?_⟩,
        ⟨0, fun _ _ => ⟨[], [], .nil⟩⟩⟩
      obtain ⟨u', rfl⟩ := hr.cons_left
      rw [List.nil_append, listItems, if_neg hc, if_pos heof]
    rename_i hc heof
    rcases bind_eq_error.1 h with hv | ⟨⟨v, r1, h1⟩, hv, h⟩
    · obtain ⟨pre, r, hsplit, hf, ho⟩ := value_faults hstop hv
      refine ⟨pre, r, hsplit, ⟨hf.atNext, fun hd stop' L' r' hL hr => ?_⟩, ?_⟩
      · obtain ⟨w, hw⟩ := hr.head_append hsplit
        have hagain := hf.again hd stop' L' r' hL hr
        rw [hw] at hagain ⊢
        rw [listItems, if_neg hc, if_neg heof]
        simp only [hagain, bind, Except.bind]
      · obtain ⟨B, hB⟩ := ho
        refine ⟨B, fun lim hlim => ?_⟩
        obtain ⟨c, v, hv⟩ := hB lim hlim
        exact ⟨c, [v], by simpa using IsValues.cons hv .nil⟩
    rcases bind_eq_error.1 h with hvs | ⟨_, -, h⟩
    · obtain ⟨pre, hpre, hv', hval⟩ := takes_sound (value_takes hv) (value_sound hv)
      obtain ⟨pre', r, hr1, hf, ho⟩ := listItems_faults hstop hvs
      have hlen : r1.length < (t :: rs).length := h1
      simp only at hpre hv'
      obtain ⟨p, rfl, hrs⟩ := taken_cons hpre hlen
      rw [hr1] at hv'
      refine ⟨t :: p ++ pre', r, by simp [hrs, hr1], ⟨hf.atNext, fun hd stop' L' r' hL hr => ?_⟩, ?_⟩
      · have hrest := hf.again hd stop' L' r' hL hr
        obtain ⟨h1', hval'⟩ := hv' stop' L' (pre' ++ r') hL (hr.append pre')
        rw [show t :: p ++ pre' ++ r' = t :: (p ++ (pre' ++ r')) by simp, listItems, if_neg hc, if_neg heof]
        change value stop' L' ctx d (t :: (p ++ (pre' ++ r'))) = _ at hval'
        simp only [hval', bind, Except.bind, hrest]
      · obtain ⟨B, hB⟩ := ho
        refine ⟨max B L, fun lim hlim => ?_⟩
        obtain ⟨c, vs, hvs⟩ := hB lim (by omega)
        exact ⟨c, _, by
          rw [List.append_assoc]
          exact .cons (hval.mono (by omega)) hvs⟩
    · cases h
termination_by ts => (ts.length, 1)
decreasing_by all_goals decreasing_with omega

theorem objectFields_faults (hstop : stop.Ends) {ctx : ValueContext} {d : Nat} {o : Token} : ∀ {ts : List Token} {e : Diagnostic},
    objectFields stop L ctx d o ts = .error e →
    ∃ pre r, ts = pre ++ r ∧ Faults (fun s l => objectFields s l ctx d o) stop L pre r e ∧
      Opens (fun lim => IsFields lim ctx d) pre
  | [], e, h => by
    rw [objectFields] at h
    cases h
    refine ⟨[], [], rfl, ⟨atNext_unclosedAtEnd hstop _ _, fun _ stop' L' r' _ hr => ?_⟩,
      ⟨0, fun _ _ => ⟨[], [], .nil⟩⟩⟩
    obtain ⟨rfl, rfl⟩ := hr.nil_left
    rw [List.nil_append, objectFields]
  | t :: rs, e, h => by
    rw [objectFields] at h
    split at h
    · cases h
    split at h
    · rename_i hc heof
      cases h
      refine ⟨[], t :: rs, rfl, ⟨Diagnostic.unclosed_standsAt _ _ heof, fun _ stop' L' r' _ hr => ?_⟩,
        ⟨0, fun _ _ => ⟨[], [], .nil⟩⟩⟩
      obtain ⟨u', rfl⟩ := hr.cons_left
      rw [List.nil_append, objectFields, if_neg hc, if_pos heof]
    rename_i hc heof
    rcases bind_eq_error.1 h with hn | ⟨⟨n, r1, h1⟩, hn, h⟩
    · obtain ⟨hat, hagain⟩ := expectName_faults hstop hn
      refine ⟨[], t :: rs, rfl, ⟨hat, fun _ stop' L' r' _ hr => ?_⟩, ⟨0, fun _ _ => ⟨[], [], .nil⟩⟩⟩
      obtain ⟨u', rfl⟩ := hr.cons_left
      rw [List.nil_append, objectFields, if_neg hc, if_neg heof]
      simp only [hagain stop' (t :: u') (.inr ⟨t, _, _, rfl, rfl⟩), bind, Except.bind]
    obtain ⟨hts, hnk⟩ := expectName_ok hn
    simp only [List.cons.injEq] at hts
    obtain ⟨rfl, hrs⟩ := hts
    rcases bind_eq_error.1 h with hcolon | ⟨⟨colon, r2, h2⟩, hcolon, h⟩
    · obtain ⟨hat, hagain⟩ := expect_faults hstop hcolon
      refine ⟨[t], r1, by rw [hrs]; rfl, ⟨hat, fun _ stop' L' r' _ hr => ?_⟩,
        ⟨d + 1, fun lim hlim => ?_⟩⟩
      · rw [List.singleton_append, objectFields, if_neg hc, if_neg heof]
        simp only [expectName_cons hnk, hagain stop' r' hr, bind, Except.bind]
      · obtain ⟨c, v, hv⟩ : ∃ c v, IsValue lim ctx d c v := IsValue.exists_of_lt (by omega)
        exact ⟨Token.filler .colon ":" :: c, _, by
          simpa using IsFields.cons hnk (Token.filler_kind _ _) hv .nil⟩
    obtain ⟨hr1, hck⟩ := expect_ok hcolon
    simp only at hr1
    rcases bind_eq_error.1 h with hv | ⟨⟨v, r3, h3⟩, hv, h⟩
    · obtain ⟨pre, r, hr2, hf, ho⟩ := value_faults hstop hv
      refine ⟨t :: colon :: pre, r, by rw [hrs, hr1, hr2]; rfl, ⟨hf.atNext, fun hd stop' L' r' hL hr => ?_⟩, ?_⟩
      · rw [List.cons_append, List.cons_append, objectFields, if_neg hc, if_neg heof]
        simp only [expectName_cons hnk, expect_cons hck, hf.again hd stop' L' r' hL hr, bind, Except.bind]
      · obtain ⟨B, hB⟩ := ho
        refine ⟨B, fun lim hlim => ?_⟩
        obtain ⟨c, v, hv⟩ := hB lim hlim
        exact ⟨c, _, by simpa using IsFields.cons hnk hck hv .nil⟩
    rcases bind_eq_error.1 h with hfs | ⟨_, -, h⟩
    · obtain ⟨pre, hr2, hv', hval⟩ := takes_sound (value_takes hv) (value_sound hv)
      obtain ⟨pre', r, hr3, hf, ho⟩ := objectFields_faults hstop hfs
      simp only at hr2 hv' hr3
      rw [hr3] at hv'
      refine ⟨t :: colon :: pre ++ pre', r, by simp [hrs, hr1, hr2, hr3], ⟨hf.atNext, fun hd stop' L' r' hL hr => ?_⟩,
        ?_⟩
      · have hrest := hf.again hd stop' L' r' hL hr
        obtain ⟨h1', hval'⟩ := hv' stop' L' (pre' ++ r') hL (hr.append pre')
        rw [show t :: colon :: pre ++ pre' ++ r' = t :: colon :: (pre ++ (pre' ++ r')) by simp, objectFields,
          if_neg hc, if_neg heof]
        simp only at hrest hval'
        simp only [expectName_cons hnk, expect_cons hck, hval', bind, Except.bind, hrest]
      · obtain ⟨B, hB⟩ := ho
        refine ⟨max B L, fun lim hlim => ?_⟩
        obtain ⟨c, fs, hfs⟩ := hB lim (by omega)
        exact ⟨c, _, by
          simpa only [List.cons_append, List.append_assoc] using
            IsFields.cons hnk hck (hval.mono (by omega)) hfs⟩
    · cases h
termination_by ts => (ts.length, 1)
decreasing_by all_goals decreasing_with grind

end

end Values

/-! ### Types -/

theorem typeRef_end (f : LexError) (L' d : Nat) : typeRef (.fault f) L' d [] = .error (.ofLex f) := by
  rw [typeRef]
  split
  · rfl
  · simp [bind, Except.bind, atEnd]

theorem opens_type {d : Nat} : Opens (fun lim => IsType lim d) [] :=
  opens_nil ⟨d + 1, fun _ hlim => IsType.exists_of_lt (by omega)⟩

theorem typeRef_faults (hstop : stop.Ends) {d : Nat} {ts : List Token} {e : Diagnostic}
    (h : typeRef stop L d ts = .error e) :
    ∃ pre r, ts = pre ++ r ∧ Faults (fun s l => typeRef s l d) stop L pre r e ∧
      Opens (fun lim => IsType lim d) pre := by
  fun_induction typeRef stop L d ts with
  | case1 d ts hd =>
    cases h
    exact ⟨[], ts, rfl, tooDeepAt_faults (typeRef_end · · d) ts, opens_type⟩
  | case2 d ts hd bare =>
    rename_i ih
    rcases bind_eq_error.1 h with hb | ⟨⟨ty0, r1, h1⟩, hb, h⟩
    · cases ts with
      | nil =>
        simp only [bare] at hb
        cases hb
        refine ⟨[], [], rfl, ⟨atNext_atEnd hstop _, fun _ stop' L' r' _ hr => ?_⟩, opens_type⟩
        obtain ⟨rfl, rfl⟩ := hr.nil_left
        rw [List.nil_append, typeRef]
        simp [show ¬ L' ≤ d by omega, bind, Except.bind]
      | cons t rs =>
        simp only [bare] at hb
        split at hb
        · cases hb
        · rename_i hk
          rcases bind_eq_error.1 hb with he | ⟨⟨e0, r2, h2⟩, he, hb⟩
          · obtain ⟨pre, r, hrs, hf, ho⟩ := ih _ he
            refine ⟨t :: pre, r, by rw [hrs]; rfl, ⟨hf.atNext, fun hdeep stop' L' r' hL hr => ?_⟩,
              ho.wrap (d + 1) fun lim c ty hlim hty => ⟨c ++ [Token.filler .bracketR "]"], _, by
                simpa using IsType.list (by omega) hk (Token.filler_kind _ _) hty .none⟩⟩
            rw [List.cons_append, typeRef]
            simp [show ¬ L' ≤ d by omega, hk, hf.again hdeep stop' L' r' hL hr, bind, Except.bind]
          rcases bind_eq_error.1 hb with hc | ⟨_, -, hb⟩
          · obtain ⟨pre, hpre, he', hty⟩ := takes_sound (typeRef_takes he) (typeRef_sound he)
            obtain ⟨hat, hagain⟩ := expect_faults hstop hc
            simp only at hpre he'
            refine ⟨t :: pre, r2, by rw [hpre]; rfl, ⟨hat, fun _ stop' L' r' hL hr => ?_⟩,
              ⟨max L (d + 1), fun lim hlim => ⟨[Token.filler .bracketR "]"], _, by
                simpa using IsType.list (by omega) hk (Token.filler_kind _ _) (hty.mono (by omega)) .none⟩⟩⟩
            obtain ⟨h2', hinner⟩ := he' stop' L' r' hL hr
            rw [List.cons_append, typeRef]
            simp [show ¬ L' ≤ d by omega, hk, hinner, hagain stop' r' hr, bind, Except.bind]
          · cases hb
        · cases hb
          refine ⟨[], t :: rs, rfl, ⟨Diagnostic.unexpected_standsAt t _, fun _ stop' L' r' _ hr => ?_⟩,
            opens_type⟩
          obtain ⟨u', rfl⟩ := hr.cons_left
          rw [List.nil_append, typeRef]
          simp only [show ¬ L' ≤ d by omega, dite_false]
          rfl
    · rcases bind_eq_error.1 h with hx | ⟨x, -, h⟩
      · obtain ⟨hat, -⟩ := accept_faults hx
        obtain ⟨hr1, -⟩ := peek_eq_error (show peek stop r1 = .error e by
          cases r1 with
          | cons u us => cases hx
          | nil => cases stop with
            | eof u => cases hx
            | fault f => cases hx; rfl)
        subst hr1
        cases ts with
        | nil => simp only [bare] at hb; cases hb
        | cons t rs =>
          simp only [bare] at hb
          split at hb
          · rename_i hk
            cases hb
            refine ⟨[t], [], by simp, ⟨hat, fun _ stop' L' r' hL hr => ?_⟩,
              ⟨L, fun lim hlim => ⟨[], _, by simpa using IsType.named (by omega) hk .none⟩⟩⟩
            obtain ⟨rfl, rfl⟩ := hr.nil_left
            rw [List.singleton_append, typeRef]
            simp [show ¬ L' ≤ d by omega, hk, hx, bind, Except.bind]
          · rename_i hk
            obtain ⟨⟨e0, r2, h2⟩, he, hb⟩ := bind_eq_ok.1 hb
            obtain ⟨⟨c, r3, h3⟩, hc, hb⟩ := bind_eq_ok.1 hb
            cases hb
            obtain ⟨pre, hpre, he', hty⟩ := takes_sound (typeRef_takes he) (typeRef_sound he)
            obtain ⟨hr2, hck⟩ := expect_ok hc
            simp only at hpre he' hr2
            rw [hr2] at hpre he'
            refine ⟨t :: pre ++ [c], [], by simp [hpre], ⟨hat, fun _ stop' L' r' hL hr => ?_⟩,
              ⟨L, fun lim hlim => ⟨[], _, by
                simpa using IsType.list (by omega) hk hck (hty.mono hlim) .none⟩⟩⟩
            obtain ⟨rfl, rfl⟩ := hr.nil_left
            obtain ⟨h2', hinner⟩ := he' stop' L' [c] hL (.inr ⟨c, [], [], rfl, rfl⟩)
            rw [show t :: pre ++ [c] ++ [] = t :: (pre ++ [c]) by simp, typeRef]
            simp [show ¬ L' ≤ d by omega, hk, hinner, expect_cons hck, hx, pure, Except.pure, bind,
              Except.bind]
          · cases hb
      · cases x <;> cases h


/-! ### Arguments and directives -/

theorem opens_argument {ctx : ValueContext} {d : Nat} : Opens (fun lim => IsArgument lim ctx d) [] :=
  opens_nil ⟨d + 1, fun _ hlim => IsArgument.exists_of_lt (by omega)⟩

theorem argument_faults (hstop : stop.Ends) {ctx : ValueContext} {d : Nat} {ts : List Token} {e : Diagnostic}
    (h : argument stop L ctx d ts = .error e) :
    ∃ pre r, ts = pre ++ r ∧ Faults (fun s l => argument s l ctx d) stop L pre r e ∧
      Opens (fun lim => IsArgument lim ctx d) pre := by
  rcases bind_eq_error.1 h with hn | ⟨⟨n, r1, h1⟩, hn, h⟩
  · obtain ⟨hat, hagain⟩ := expectName_faults hstop hn
    refine ⟨[], ts, rfl, ⟨hat, fun _ stop' L' r' _ hr => ?_⟩, opens_argument⟩
    simp only [argument, List.nil_append, hagain stop' r' hr, bind, Except.bind]
  obtain ⟨hts, hnk⟩ := expectName_ok hn
  rcases bind_eq_error.1 h with hc | ⟨⟨colon, r2, h2⟩, hc, h⟩
  · obtain ⟨hat, hagain⟩ := expect_faults hstop hc
    refine ⟨[n], r1, hts, ⟨hat, fun _ stop' L' r' _ hr => ?_⟩, ⟨d + 1, fun lim hlim => ?_⟩⟩
    · simp only [argument, List.singleton_append, expectName_cons hnk, hagain stop' r' hr, bind, Except.bind]
    · obtain ⟨c, v, hv⟩ : ∃ c v, IsValue lim ctx d c v := IsValue.exists_of_lt (by omega)
      exact ⟨Token.filler .colon ":" :: c, _, .mk hnk (Token.filler_kind _ _) hv⟩
  obtain ⟨hr1, hck⟩ := expect_ok hc
  rcases bind_eq_error.1 h with hv | ⟨_, -, h⟩
  · obtain ⟨pre, r, hr2, hf, ho⟩ := value_faults hstop hv
    refine ⟨n :: colon :: pre, r, by simp [hts, hr1, hr2], ⟨hf.atNext, fun hdeep stop' L' r' hL hr => ?_⟩,
      ho.wrap 0 fun lim c v _ hv => ⟨c, _, by simpa using IsArgument.mk hnk hck hv⟩⟩
    simp only [argument, List.cons_append, expectName_cons hnk, expect_cons hck, hf.again hdeep stop' L' r' hL hr,
      bind, Except.bind]
  · cases h

theorem opens_arguments {ctx : ValueContext} {d : Nat} : Opens (fun lim => IsArguments lim ctx d) [] :=
  opens_nil ⟨0, fun _ _ => ⟨[], [], .none⟩⟩

theorem arguments_faults (hstop : stop.Ends) {ctx : ValueContext} {d : Nat} {ts : List Token} {e : Diagnostic}
    (h : arguments stop L ctx d ts = .error e) :
    ∃ pre r, ts = pre ++ r ∧ Faults (fun s l => arguments s l ctx d) stop L pre r e ∧
      Opens (fun lim => IsArguments lim ctx d) pre := by
  rcases bind_eq_error.1 h with hb | ⟨b, hb, h⟩
  · obtain ⟨hat, hagain⟩ := nextIs_faults hb
    refine ⟨[], ts, rfl, ⟨hat, fun _ stop' L' r' _ hr => ?_⟩, opens_arguments⟩
    simp only [arguments, List.nil_append, hagain stop' r' hr, bind, Except.bind]
  split at h
  · rename_i hopen
    rcases bind_eq_error.1 h with hl | ⟨_, -, h⟩
    · have htakes : ∀ {us a} {r : {r : List Token // r.length < us.length}}, argument stop L ctx d us = .ok (a, r) →
          ∃ pre, us = pre ++ r.1 ∧ Takes (fun s l => argument s l ctx d) stop L pre r.1 a ∧
            IsArgument L ctx d pre a :=
        fun hx => takes_sound (argument_takes hx) (argument_sound hx)
      obtain ⟨pre, r, hts, hf, hpre⟩ := nonEmptyList_faults hstop (by decide) htakes
        (fun hx => argument_faults hstop hx) (fun hle h => h.mono hle)
        ⟨d + 1, fun lim hlim => IsArgument.exists_of_lt (show d < lim by omega)⟩ hl
      refine ⟨pre, r, hts, ⟨hf.atNext, fun hdeep stop' L' r' hL hr => ?_⟩, ?_⟩
      · have hnext : nextIs stop' .parenL (pre ++ r') = .ok true := by
          rw [nextIs_sameNext (hr.append pre), ← hts, hb, hopen]
        simp only [arguments, hnext, hf.again hdeep stop' L' r' hL hr, bind, Except.bind, if_true]
      · rcases hpre with rfl | ⟨o, p, rfl, hok, ho⟩
        · exact opens_arguments
        · exact ho.wrap 0 fun lim c args _ hx => ⟨c ++ [Token.filler .parenR ")"], args, by
            simpa using IsArguments.some hok (Token.filler_kind _ _) hx.2 hx.1⟩
    · cases h
  · cases h

theorem directives_faults (hstop : stop.Ends) {ctx : ValueContext} {d : Nat} {ts : List Token} {e : Diagnostic}
    (h : directives stop L ctx d ts = .error e) :
    ∃ pre r, ts = pre ++ r ∧ Faults (fun s l => directives s l ctx d) stop L pre r e ∧
      Opens (fun lim => IsDirectives lim ctx d) pre := by
  fun_induction directives stop L ctx d ts with
  | case1 ts ih =>
    rcases bind_eq_error.1 h with hx | ⟨x, hx, h⟩
    · obtain ⟨hat, hagain⟩ := accept_faults hx
      refine ⟨[], ts, rfl, ⟨hat, fun _ stop' L' r' _ hr => ?_⟩, opens_nil ⟨0, fun _ _ => ⟨[], [], .nil⟩⟩⟩
      rw [List.nil_append, directives]
      simp only [hagain stop' r' hr, bind, Except.bind]
    cases x with
    | none => cases h
    | some r1 =>
      obtain ⟨sign, hts, hsign⟩ := accept_some hx
      have hsk : sign.kind = .atSign := by simpa using hsign
      rcases bind_eq_error.1 h with hn | ⟨⟨n, r2, h2⟩, hn, h⟩
      · obtain ⟨hat, hagain⟩ := expectName_faults hstop hn
        refine ⟨[sign], r1.1, hts, ⟨hat, fun _ stop' L' r' _ hr => ?_⟩,
          ⟨0, fun _ _ => ⟨[Token.filler .name "d"], _, by
            simpa using Seq.cons (IsDirective.mk hsk (Token.filler_kind .name "d") IsArguments.none) Seq.nil⟩⟩⟩
        rw [List.singleton_append, directives]
        simp only [accept_cons_of (p := fun t => decide (t.kind = .atSign)) hsign, hagain stop' r' hr, bind,
          Except.bind]
      obtain ⟨hr1, hnk⟩ := expectName_ok hn
      rcases bind_eq_error.1 h with ha | ⟨⟨args, r3, h3⟩, ha, h⟩
      · obtain ⟨pre, r, hr2, hf, ho⟩ := arguments_faults hstop ha
        refine ⟨sign :: n :: pre, r, by simp [hts, hr1, hr2], ⟨hf.atNext, fun hdeep stop' L' r' hL hr => ?_⟩,
          ho.wrap 0 fun lim c args _ ha => ⟨c, _, by simpa using Seq.cons (IsDirective.mk hsk hnk ha) .nil⟩⟩
        rw [List.cons_append, directives]
        simp only [accept_cons_of (p := fun t => decide (t.kind = .atSign)) hsign, List.cons_append,
          expectName_cons hnk, hf.again hdeep stop' L' r' hL hr, bind, Except.bind]
      rcases bind_eq_error.1 h with hds | ⟨_, -, h⟩
      · obtain ⟨pre, r, hr3, hf, ho⟩ := ih r1.1 r1.2 r2 h2 r3 h3 hds
        obtain ⟨pa, hpa, ha', hargs⟩ := takes_sound (arguments_takes ha) (arguments_sound ha)
        simp only at hpa ha'
        rw [hr3] at hpa ha'
        refine ⟨sign :: n :: pa ++ pre, r, by simp [hts, hr1, hpa], ⟨hf.atNext, fun hdeep stop' L' r' hL hr => ?_⟩,
          ho.wrap L fun lim c ds hlim hds => ⟨c, _, by
            simpa using Seq.cons (IsDirective.mk hsk hnk (hargs.mono hlim)) hds⟩⟩
        obtain ⟨h3', harg⟩ := ha' stop' L' (pre ++ r') hL (hr.append pre)
        rw [show sign :: n :: pa ++ pre ++ r' = sign :: n :: (pa ++ (pre ++ r')) by simp, directives]
        simp only [accept_cons_of (p := fun t => decide (t.kind = .atSign)) hsign, expectName_cons hnk, harg,
          hf.again hdeep stop' L' r' hL hr, bind, Except.bind]
      · cases h


/-! ### Names of fields and conditions of fragments -/

theorem typeCondition_faults (hstop : stop.Ends) {ts : List Token} {e : Diagnostic}
    (h : typeCondition stop ts = .error e) :
    ∃ pre r, ts = pre ++ r ∧ Faults (fun s (_ : Nat) => typeCondition s) stop L pre r e ∧
      Opens (fun _ => IsTypeCondition) pre := by
  rcases bind_eq_error.1 h with hy | ⟨y, hy, h⟩
  · obtain ⟨hat, hagain⟩ := accept_faults hy
    refine ⟨[], ts, rfl, ⟨hat, fun _ stop' L' r' _ hr => ?_⟩, opens_nil ⟨0, fun _ _ => ⟨[], _, .none⟩⟩⟩
    simp only [typeCondition, List.nil_append, hagain stop' r' hr, bind, Except.bind]
  cases y with
  | none => cases h
  | some r1 =>
    obtain ⟨on, hts, hon⟩ := accept_some hy
    rcases bind_eq_error.1 h with hn | ⟨_, -, h⟩
    · obtain ⟨hat, hagain⟩ := expectName_faults hstop hn
      refine ⟨[on], r1.1, hts, ⟨hat, fun _ stop' L' r' _ hr => ?_⟩,
        ⟨0, fun _ _ => ⟨[Token.filler .name "T"], _, .some hon (Token.filler_kind _ _)⟩⟩⟩
      simp only [typeCondition, List.singleton_append, accept_cons_of (p := fun t => t.isKeyword "on") hon,
        hagain stop' r' hr, bind, Except.bind]
    · cases h

theorem fieldName_faults (hstop : stop.Ends) {first : Token} (hfirst : first.kind = .name) {ts : List Token}
    {e : Diagnostic} (h : fieldName stop first ts = .error e) :
    ∃ pre r, ts = pre ++ r ∧ Faults (fun s (_ : Nat) => fieldName s first) stop L pre r e ∧
      Opens (fun _ ts name => IsFieldName (first :: ts) first.value name) pre := by
  rcases bind_eq_error.1 h with hy | ⟨y, hy, h⟩
  · obtain ⟨hat, hagain⟩ := accept_faults hy
    refine ⟨[], ts, rfl, ⟨hat, fun _ stop' L' r' _ hr => ?_⟩, opens_nil ⟨0, fun _ _ => ⟨[], _, .plain hfirst⟩⟩⟩
    simp only [fieldName, List.nil_append, hagain stop' r' hr, bind, Except.bind]
  cases y with
  | none => cases h
  | some r1 =>
    obtain ⟨colon, hts, hcolon⟩ := accept_some hy
    rcases bind_eq_error.1 h with hn | ⟨_, -, h⟩
    · obtain ⟨hat, hagain⟩ := expectName_faults hstop hn
      refine ⟨[colon], r1.1, hts, ⟨hat, fun _ stop' L' r' _ hr => ?_⟩,
        ⟨0, fun _ _ => ⟨[Token.filler .name "f"], _, .aliased hfirst (by simpa using hcolon) (Token.filler_kind _ _)⟩⟩⟩
      simp only [fieldName, List.singleton_append, accept_cons_of (p := fun t => decide (t.kind = .colon)) hcolon,
        hagain stop' r' hr, bind, Except.bind]
    · cases h

/-! ### Variable definitions -/

theorem defaultValue_faults (hstop : stop.Ends) {ts : List Token} {e : Diagnostic}
    (h : defaultValue stop L ts = .error e) :
    ∃ pre r, ts = pre ++ r ∧ Faults defaultValue stop L pre r e ∧ Opens IsDefault pre := by
  rcases bind_eq_error.1 h with hy | ⟨y, hy, h⟩
  · obtain ⟨hat, hagain⟩ := accept_faults hy
    refine ⟨[], ts, rfl, ⟨hat, fun _ stop' L' r' _ hr => ?_⟩, opens_nil ⟨0, fun _ _ => ⟨[], _, .none⟩⟩⟩
    simp only [defaultValue, List.nil_append, hagain stop' r' hr, bind, Except.bind]
  cases y with
  | none => cases h
  | some r1 =>
    obtain ⟨eq, hts, heq⟩ := accept_some hy
    rcases bind_eq_error.1 h with hv | ⟨_, -, h⟩
    · obtain ⟨pre, r, hr1, hf, ho⟩ := value_faults hstop hv
      refine ⟨eq :: pre, r, by simp [hts, hr1], ⟨hf.atNext, fun hdeep stop' L' r' hL hr => ?_⟩,
        ho.wrap 0 fun lim c v _ hv => ⟨c, _, by simpa using IsDefault.some (by simpa using heq) hv⟩⟩
      simp only [defaultValue, List.cons_append, accept_cons_of (p := fun t => decide (t.kind = .equals)) heq,
        hf.again hdeep stop' L' r' hL hr, bind, Except.bind]
    · cases h

theorem variableDefinition_faults (hstop : stop.Ends) {ts : List Token} {e : Diagnostic}
    (h : variableDefinition stop L ts = .error e) :
    ∃ pre r, ts = pre ++ r ∧ Faults variableDefinition stop L pre r e ∧ Opens IsVariableDefinition pre := by
  have htype : ∀ lim, 0 < lim → ∃ c ty, IsType lim 0 c ty := fun _ hlim => IsType.exists_of_lt hlim
  rcases bind_eq_error.1 h with hd | ⟨⟨dollar, r1, h1⟩, hd, h⟩
  · obtain ⟨hat, hagain⟩ := expect_faults hstop hd
    refine ⟨[], ts, rfl, ⟨hat, fun _ stop' L' r' _ hr => ?_⟩,
      opens_nil ⟨1, fun _ hlim => IsVariableDefinition.exists_of_pos (by omega)⟩⟩
    simp only [variableDefinition, List.nil_append, hagain stop' r' hr, bind, Except.bind]
  obtain ⟨hts, hdk⟩ := expect_ok hd
  rcases bind_eq_error.1 h with hn | ⟨⟨n, r2, h2⟩, hn, h⟩
  · obtain ⟨hat, hagain⟩ := expectName_faults hstop hn
    refine ⟨[dollar], r1, hts, ⟨hat, fun _ stop' L' r' _ hr => ?_⟩, ⟨1, fun lim hlim => ?_⟩⟩
    · simp only [variableDefinition, List.singleton_append, expect_cons hdk, hagain stop' r' hr, bind, Except.bind]
    · obtain ⟨c, ty, hty⟩ := htype lim (by omega)
      exact ⟨Token.filler .name "v" :: Token.filler .colon ":" :: c, _, by
        simpa using IsVariableDefinition.mk hdk (Token.filler_kind _ _) (Token.filler_kind _ _) hty .none .nil⟩
  obtain ⟨hr1, hnk⟩ := expectName_ok hn
  rcases bind_eq_error.1 h with hc | ⟨⟨colon, r3, h3⟩, hc, h⟩
  · obtain ⟨hat, hagain⟩ := expect_faults hstop hc
    refine ⟨[dollar, n], r2, by simp [hts, hr1], ⟨hat, fun _ stop' L' r' _ hr => ?_⟩, ⟨1, fun lim hlim => ?_⟩⟩
    · simp only [variableDefinition, List.cons_append, List.nil_append, expect_cons hdk, expectName_cons hnk,
        hagain stop' r' hr, bind, Except.bind]
    · obtain ⟨c, ty, hty⟩ := htype lim (by omega)
      exact ⟨Token.filler .colon ":" :: c, _, by
        simpa using IsVariableDefinition.mk hdk hnk (Token.filler_kind _ _) hty .none .nil⟩
  obtain ⟨hr2, hck⟩ := expect_ok hc
  rcases bind_eq_error.1 h with ht | ⟨⟨ty, r4, h4⟩, ht, h⟩
  · obtain ⟨pre, r, hr3, hf, ho⟩ := typeRef_faults hstop ht
    refine ⟨dollar :: n :: colon :: pre, r, by simp [hts, hr1, hr2, hr3],
      ⟨hf.atNext, fun hdeep stop' L' r' hL hr => ?_⟩,
      ho.wrap 0 fun lim c ty _ hty => ⟨c, _, by simpa using IsVariableDefinition.mk hdk hnk hck hty .none .nil⟩⟩
    simp only [variableDefinition, List.cons_append, expect_cons hdk, expectName_cons hnk, expect_cons hck,
      hf.again hdeep stop' L' r' hL hr, bind, Except.bind]
  obtain ⟨tt, hr3, ht', hty⟩ := takes_sound (typeRef_takes ht) (typeRef_sound ht)
  simp only at hr3 ht'
  rcases bind_eq_error.1 h with hdf | ⟨⟨dflt, r5, h5⟩, hdf, h⟩
  · obtain ⟨pre, r, hr4, hf, ho⟩ := defaultValue_faults hstop hdf
    rw [hr4] at hr3 ht'
    refine ⟨dollar :: n :: colon :: tt ++ pre, r, by simp [hts, hr1, hr2, hr3],
      ⟨hf.atNext, fun hdeep stop' L' r' hL hr => ?_⟩,
      ho.wrap L fun lim c dv hlim hdv => ⟨c, _, by
        simpa using IsVariableDefinition.mk hdk hnk hck (hty.mono hlim) hdv .nil⟩⟩
    obtain ⟨h4', htr⟩ := ht' stop' L' (pre ++ r') hL (hr.append pre)
    rw [show dollar :: n :: colon :: tt ++ pre ++ r' = dollar :: n :: colon :: (tt ++ (pre ++ r')) by simp]
    simp only [variableDefinition, expect_cons hdk, expectName_cons hnk, expect_cons hck, htr,
      hf.again hdeep stop' L' r' hL hr, bind, Except.bind]
  obtain ⟨td, hr4, hdf', hdv⟩ := takes_sound (defaultValue_takes hdf) (defaultValue_sound hdf)
  simp only at hr4 hdf'
  rcases bind_eq_error.1 h with hds | ⟨_, -, h⟩
  · obtain ⟨pre, r, hr5, hf, ho⟩ := directives_faults hstop hds
    rw [hr5] at hr4 hdf'
    rw [hr4] at hr3 ht'
    refine ⟨dollar :: n :: colon :: tt ++ td ++ pre, r, by simp [hts, hr1, hr2, hr3],
      ⟨hf.atNext, fun hdeep stop' L' r' hL hr => ?_⟩,
      ho.wrap L fun lim c ds hlim hds => ⟨c, _, by
        simpa using IsVariableDefinition.mk hdk hnk hck (hty.mono hlim) (hdv.mono hlim) hds⟩⟩
    obtain ⟨h5', hdfr⟩ := hdf' stop' L' (pre ++ r') hL (hr.append pre)
    obtain ⟨h4', htr⟩ := ht' stop' L' (td ++ (pre ++ r')) hL ((hr.append pre).append td)
    rw [show dollar :: n :: colon :: tt ++ td ++ pre ++ r' = dollar :: n :: colon :: (tt ++ (td ++ (pre ++ r'))) by
      simp]
    simp only [variableDefinition, expect_cons hdk, expectName_cons hnk, expect_cons hck, htr, hdfr,
      hf.again hdeep stop' L' r' hL hr, bind, Except.bind]
  · cases h

theorem operationName_faults (hstop : stop.Ends) {ts : List Token} {e : Diagnostic}
    (h : operationName stop ts = .error e) :
    ∃ pre r, ts = pre ++ r ∧ Faults (fun s (_ : Nat) => operationName s) stop L pre r e ∧
      Opens (fun _ => IsOperationName) pre := by
  refine ⟨[], ts, rfl, ?_, opens_nil ⟨0, fun _ _ => ⟨[], _, .none⟩⟩⟩
  rcases bind_eq_error.1 h with hb | ⟨b, hb, h⟩
  · obtain ⟨hat, hagain⟩ := nextIs_faults hb
    refine ⟨hat, fun _ stop' L' r' _ hr => ?_⟩
    simp only [operationName, List.nil_append, hagain stop' r' hr, bind, Except.bind]
  split at h
  · rename_i hname
    rcases bind_eq_error.1 h with hn | ⟨_, -, h⟩
    · -- the next token is a name, so this does not happen, but the step faults the same way
      obtain ⟨hat, hagain⟩ := expectName_faults hstop hn
      refine ⟨hat, fun _ stop' L' r' _ hr => ?_⟩
      have hnext : nextIs stop' .name r' = .ok true := by rw [nextIs_sameNext hr, hb, hname]
      simp only [operationName, List.nil_append, hnext, hagain stop' r' hr, bind, Except.bind, if_true]
    · cases h
  · cases h

theorem variableDefinitions_faults (hstop : stop.Ends) {ts : List Token} {e : Diagnostic}
    (h : variableDefinitions stop L ts = .error e) :
    ∃ pre r, ts = pre ++ r ∧ Faults variableDefinitions stop L pre r e ∧ Opens IsVariables pre := by
  have hnone : Opens IsVariables [] := opens_nil ⟨0, fun _ _ => ⟨[], [], .none⟩⟩
  rcases bind_eq_error.1 h with hb | ⟨b, hb, h⟩
  · obtain ⟨hat, hagain⟩ := nextIs_faults hb
    refine ⟨[], ts, rfl, ⟨hat, fun _ stop' L' r' _ hr => ?_⟩, hnone⟩
    simp only [variableDefinitions, List.nil_append, hagain stop' r' hr, bind, Except.bind]
  split at h
  · rename_i hopen
    rcases bind_eq_error.1 h with hl | ⟨_, -, h⟩
    · have htakes : ∀ {us vd} {r : {r : List Token // r.length < us.length}}, variableDefinition stop L us = .ok (vd, r) →
          ∃ pre, us = pre ++ r.1 ∧ Takes variableDefinition stop L pre r.1 vd ∧ IsVariableDefinition L pre vd :=
        fun hx => takes_sound (variableDefinition_takes hx) (variableDefinition_sound hx)
      obtain ⟨pre, r, hts, hf, hpre⟩ := nonEmptyList_faults hstop (by decide) htakes
        (fun hx => variableDefinition_faults hstop hx) (fun hle h => h.mono hle)
        ⟨1, fun lim hlim => IsVariableDefinition.exists_of_pos (show 0 < lim by omega)⟩ hl
      refine ⟨pre, r, hts, ⟨hf.atNext, fun hdeep stop' L' r' hL hr => ?_⟩, ?_⟩
      · have hnext : nextIs stop' .parenL (pre ++ r') = .ok true := by
          rw [nextIs_sameNext (hr.append pre), ← hts, hb, hopen]
        simp only [variableDefinitions, hnext, hf.again hdeep stop' L' r' hL hr, bind, Except.bind, if_true]
      · rcases hpre with rfl | ⟨o, p, rfl, hok, ho⟩
        · exact hnone
        · exact ho.wrap 0 fun lim c vs _ hx => ⟨c ++ [Token.filler .parenR ")"], vs, by
            simpa using IsVariables.some hok (Token.filler_kind _ _) hx.2 hx.1⟩
    · cases h
  · cases h

end Syntax
end Gql
