import Gql.Proofs.Descent.Lookahead
/-!
# Faults — where a read stops, and that it could have gone on until there

A read that faults has taken some tokens `pre` and faults on the next one: the first of the
tokens `r` it left, or the end when it left none (`AtNext`).  There the fault stands on that
token: at its span, an unexpected end exactly on the end token (`Diagnostic.StandsAt`), or it
is the lexical fault the tokens ended on.  Like a read that succeeds (`Takes`), a read that
faults looks no further: it faults alike from `pre ++ r'` for every `r'` that goes on like
`r`, at every larger limit, unless its fault is one of depth (`Faults`).  And what it took
opens a sentence of its rule: some tokens after it complete one, at every large enough limit
(`Opens`).

This module holds the notions, the one-token steps and the bracketed lists; the rules follow
in `Faults.Values` and `Faults.Selections`.
-/
namespace Gql

def Stop.Ends : Stop → Prop
  | .eof u => u.kind = .eof
  | .fault _ => True

namespace Diagnostic

def isDeep (d : Diagnostic) : Bool :=
  match d.fault with
  | .nestingTooDeep _ => true
  | _ => false

/-- **A fault of the grammar that stands on the token `t`**: at its span; an unexpected end
only on the end token, a fault of depth on any token, every other fault on a token that is
not the end; a lexical fault on none. -/
def StandsAt (e : Diagnostic) (t : Token) : Prop :=
  e.span = t.span ∧
    match e.fault with
    | .lexical _ => False
    | .unexpectedEnd _ => t.kind = .eof
    | .nestingTooDeep _ => True
    | _ => t.kind ≠ .eof

variable {t : Token}

theorem unexpected_standsAt (t : Token) (expected : List String) : (unexpected t expected).StandsAt t := by
  refine ⟨rfl, ?_⟩
  by_cases h : t.kind = .eof
  · simp only [unexpected, h, if_true]
  · simp only [unexpected, h, if_false]
    exact h

theorem tooDeep_standsAt (lim : Nat) (t : Token) : (tooDeep lim t).StandsAt t := ⟨rfl, trivial⟩

theorem unclosed_standsAt (opening : Token) (close : TokenKind) (h : t.kind = .eof) :
    (unclosed opening close t).StandsAt t := ⟨rfl, h⟩

theorem empty_standsAt (item construct : String) (h : t.kind ≠ .eof) : (empty item construct t).StandsAt t :=
  ⟨rfl, h⟩

theorem reservedOn_standsAt (h : t.kind ≠ .eof) : (reservedOn t).StandsAt t := ⟨rfl, h⟩

theorem variableForbidden_standsAt (place : String) (h : t.kind ≠ .eof) :
    (variableForbidden t place).StandsAt t := ⟨rfl, h⟩

theorem notDefinition_standsAt (h : t.kind ≠ .eof) : (notDefinition t).StandsAt t := ⟨rfl, h⟩

end Diagnostic

/-- A token of kind `k` spelled `v`.  The grammar reads tokens at their kinds and values only,
so the tokens that complete a prefix may stand anywhere. -/
def Token.filler (k : TokenKind) (v : String) : Token := ⟨k, v, ⟨0, 0, 0, 0⟩⟩

/-! ### Sentences at every limit

Each rule has sentences at every limit above the depth it is read at; they complete the
prefixes a faulting read leaves. -/

namespace Grammar

variable {lim d : Nat} {ctx : ValueContext}

theorem IsValue.exists_of_lt (h : d < lim) : ∃ c v, IsValue lim ctx d c v :=
  ⟨_, _, .int h (rfl : (Token.filler .int "0").kind = .int)⟩

theorem IsArgument.exists_of_lt (h : d < lim) : ∃ c a, IsArgument lim ctx d c a :=
  ⟨_, _, .mk (rfl : (Token.filler .name "a").kind = .name) (rfl : (Token.filler .colon ":").kind = .colon)
    (IsValue.exists_of_lt h).choose_spec.choose_spec⟩

theorem IsType.exists_of_lt (h : d < lim) : ∃ c ty, IsType lim d c ty :=
  ⟨_, _, .named h (rfl : (Token.filler .name "T").kind = .name) .none⟩

theorem IsVariableDefinition.exists_of_pos (h : 0 < lim) : ∃ c vd, IsVariableDefinition lim c vd :=
  ⟨_, _, .mk (rfl : (Token.filler .dollar "$").kind = .dollar) (rfl : (Token.filler .name "v").kind = .name)
    (rfl : (Token.filler .colon ":").kind = .colon) (IsType.exists_of_lt h).choose_spec.choose_spec .none .nil⟩

theorem IsSelection.exists_filler : ∃ c s, IsSelection lim d c s :=
  ⟨_, _, .field (.plain (rfl : (Token.filler .name "a").kind = .name)) .none .nil .none⟩

theorem IsSelectionSet.exists_of_lt (h : d < lim) : ∃ c sels, IsSelectionSet lim d c sels := by
  obtain ⟨c, s, hs⟩ : ∃ c s, IsSelection lim (d + 1) c s := IsSelection.exists_filler
  exact ⟨_, _, .mk h (rfl : (Token.filler .braceL "\x7b").kind = .braceL)
    (rfl : (Token.filler .braceR "\x7d").kind = .braceR) (.cons hs .nil) (List.cons_ne_nil _ _)⟩

theorem IsOperation.exists_of_pos (h : 0 < lim) : ∃ c o, IsOperation lim c o := by
  obtain ⟨c, sels, hs⟩ := IsSelectionSet.exists_of_lt h
  exact ⟨_, _, .shorthand hs⟩

end Grammar

namespace Syntax

open Grammar

/-- A read that succeeded took tokens that its rule spells, and takes them again from tokens
that go on alike. -/
theorem takes_sound {P Q : List Token → Prop} {us r : List Token} (h1 : ∃ pre, us = pre ++ r ∧ P pre)
    (h2 : ∃ pre, us = pre ++ r ∧ Q pre) : ∃ pre, us = pre ++ r ∧ P pre ∧ Q pre := by
  obtain ⟨pre, hus, hp⟩ := h1
  obtain ⟨pre', hus', hq⟩ := h2
  have hpre : pre' = pre := List.append_cancel_right (hus'.symm.trans hus)
  exact ⟨pre, hus, hp, hpre ▸ hq⟩

/-- **A fault on the next token of `r`**: it stands on the first token of `r`, or on the end
token when `r` is empty; when `r` is empty and the tokens ended on a lexical fault, it is
that fault. -/
def AtNext (stop : Stop) (r : List Token) (e : Diagnostic) : Prop :=
  match peek stop r with
  | .ok t => e.StandsAt t
  | .error e' => e = e'

/-- **A read that took `pre` and faults on the next token of `r`**, and faults so again from
`pre ++ r'` for every `r'` that goes on like `r`, at every limit from `L` up, unless its
fault is one of depth. -/
structure Faults {α : Type} {P : Nat → Nat → Prop}
    (run : Stop → Nat → (ts : List Token) → Except Diagnostic (α × {r : List Token // P r.length ts.length}))
    (stop : Stop) (L : Nat) (pre r : List Token) (e : Diagnostic) : Prop where
  atNext : AtNext stop r e
  again : e.isDeep = false → ∀ stop' L' r', L ≤ L' → SameNext stop r stop' r' →
    run stop' L' (pre ++ r') = .error e

/-- **Tokens that open a sentence of `R`**: some tokens after them complete one, at every
large enough limit. -/
def Opens {α : Type} (R : Nat → List Token → α → Prop) (pre : List Token) : Prop :=
  ∃ B, ∀ lim, B ≤ lim → ∃ c x, R lim (pre ++ c) x

theorem bind_eq_error {ε α β : Type} {x : Except ε α} {f : α → Except ε β} {e : ε} :
    x >>= f = .error e ↔ x = .error e ∨ ∃ a, x = .ok a ∧ f a = .error e := by
  cases x <;> simp [bind, Except.bind]

variable {stop stop' : Stop}

theorem SameNext.nil_left {r' : List Token} (h : SameNext stop [] stop' r') : r' = [] ∧ stop' = stop := by
  rcases h with ⟨-, h1, h2⟩ | ⟨_, _, _, h, -⟩
  · exact ⟨h1, h2⟩
  · cases h

theorem SameNext.cons_left {t : Token} {u r' : List Token} (h : SameNext stop (t :: u) stop' r') :
    ∃ u', r' = t :: u' := by
  rcases h with ⟨h, -, -⟩ | ⟨_, _, u', h, rfl⟩
  · cases h
  · cases h
    exact ⟨u', rfl⟩

section Next

variable {ts : List Token} {e : Diagnostic}

@[simp] theorem atNext_cons {t : Token} {r : List Token} : AtNext stop (t :: r) e ↔ e.StandsAt t := Iff.rfl

theorem atNext_of_peek (h : peek stop ts = .error e) : AtNext stop ts e := by
  simp only [AtNext, h]

theorem atNext_atEnd (hstop : stop.Ends) (expected : List String) : AtNext stop [] (atEnd stop expected) := by
  cases stop with
  | eof u => exact Diagnostic.unexpected_standsAt u expected
  | fault f => rfl

theorem atNext_unclosedAtEnd (hstop : stop.Ends) (opening : Token) (close : TokenKind) :
    AtNext stop [] (unclosedAtEnd stop opening close) := by
  cases stop with
  | eof u => exact Diagnostic.unclosed_standsAt opening close hstop
  | fault f => rfl

theorem atNext_tooDeepAt (lim : Nat) (ts : List Token) : AtNext stop ts (tooDeepAt stop lim ts) := by
  unfold AtNext tooDeepAt
  cases peek stop ts with
  | ok t => exact Diagnostic.tooDeep_standsAt lim t
  | error e' => rfl

theorem peek_eq_error (h : peek stop ts = .error e) : ts = [] ∧ ∃ f, stop = .fault f ∧ e = .ofLex f := by
  cases ts with
  | cons t r => cases h
  | nil =>
    cases stop with
    | eof u => cases h
    | fault f => cases h; exact ⟨rfl, f, rfl, rfl⟩

end Next

/-! ### One-token steps

Each step faults on the first token, or at the end; and it faults again on every tokens that
go on like these. -/

section Steps

variable {ts : List Token} {e : Diagnostic}

theorem expect_faults (hstop : stop.Ends) {k : TokenKind} (h : expect stop k ts = .error e) :
    AtNext stop ts e ∧ ∀ stop' r', SameNext stop ts stop' r' → expect stop' k r' = .error e := by
  cases ts with
  | nil =>
    cases h
    refine ⟨atNext_atEnd hstop _, fun stop' r' hr => ?_⟩
    obtain ⟨rfl, rfl⟩ := hr.nil_left
    rfl
  | cons t r =>
    simp only [expect] at h
    split at h
    · cases h
    · rename_i hk
      cases h
      refine ⟨Diagnostic.unexpected_standsAt t _, fun stop' r' hr => ?_⟩
      obtain ⟨u', rfl⟩ := hr.cons_left
      simp [expect, hk]

theorem expectName_faults (hstop : stop.Ends) (h : expectName stop ts = .error e) :
    AtNext stop ts e ∧ ∀ stop' r', SameNext stop ts stop' r' → expectName stop' r' = .error e := by
  cases ts with
  | nil =>
    cases h
    refine ⟨atNext_atEnd hstop _, fun stop' r' hr => ?_⟩
    obtain ⟨rfl, rfl⟩ := hr.nil_left
    rfl
  | cons t r =>
    simp only [expectName] at h
    split at h
    · cases h
    · rename_i hk
      cases h
      refine ⟨Diagnostic.unexpected_standsAt t _, fun stop' r' hr => ?_⟩
      obtain ⟨u', rfl⟩ := hr.cons_left
      simp [expectName, hk]

theorem expectKeyword_faults (hstop : stop.Ends) {w : String} (h : expectKeyword stop w ts = .error e) :
    AtNext stop ts e ∧ ∀ stop' r', SameNext stop ts stop' r' → expectKeyword stop' w r' = .error e := by
  cases ts with
  | nil =>
    cases h
    refine ⟨atNext_atEnd hstop _, fun stop' r' hr => ?_⟩
    obtain ⟨rfl, rfl⟩ := hr.nil_left
    rfl
  | cons t r =>
    simp only [expectKeyword] at h
    split at h
    · cases h
    · rename_i hk
      cases h
      refine ⟨Diagnostic.unexpected_standsAt t _, fun stop' r' hr => ?_⟩
      obtain ⟨u', rfl⟩ := hr.cons_left
      simp [expectKeyword, hk]

theorem fragmentName_faults (hstop : stop.Ends) (h : fragmentName stop ts = .error e) :
    AtNext stop ts e ∧ ∀ stop' r', SameNext stop ts stop' r' → fragmentName stop' r' = .error e := by
  rcases bind_eq_error.1 h with hn | ⟨⟨t, r1, h1⟩, hn, h⟩
  · obtain ⟨hat, hagain⟩ := expectName_faults hstop hn
    refine ⟨hat, fun stop' r' hr => ?_⟩
    simp only [fragmentName, hagain stop' r' hr, bind, Except.bind]
  · obtain ⟨hts, hk⟩ := expectName_ok hn
    simp only at h hts
    rw [hts]
    split at h
    · rename_i hon
      cases h
      refine ⟨Diagnostic.reservedOn_standsAt (by simp [hk]), fun stop' r' hr => ?_⟩
      obtain ⟨u', rfl⟩ := hr.cons_left
      simp [fragmentName, expectName_cons hk, hon, bind, Except.bind]
    · cases h

theorem accept_faults {p : Token → Bool} (h : accept stop p ts = .error e) :
    AtNext stop ts e ∧ ∀ stop' r', SameNext stop ts stop' r' → accept stop' p r' = .error e := by
  cases ts with
  | cons t r => cases h
  | nil =>
    cases stop with
    | eof u => cases h
    | fault f =>
      cases h
      refine ⟨rfl, fun stop' r' hr => ?_⟩
      obtain ⟨rfl, rfl⟩ := hr.nil_left
      rfl

theorem nextIs_faults {k : TokenKind} (h : nextIs stop k ts = .error e) :
    AtNext stop ts e ∧ ∀ stop' r', SameNext stop ts stop' r' → nextIs stop' k r' = .error e := by
  have hp : peek stop ts = .error e := by
    simp only [nextIs] at h
    cases hpk : peek stop ts <;> simp_all [Except.map]
  refine ⟨atNext_of_peek hp, fun stop' r' hr => ?_⟩
  rw [nextIs_sameNext hr, h]

theorem nonEmpty_faults {close : TokenKind} (hclose : close ≠ .eof) {item construct : String}
    (h : nonEmpty close item construct ts = .error e) :
    AtNext stop ts e ∧ ∀ stop' r', SameNext stop ts stop' r' → nonEmpty close item construct r' = .error e := by
  cases ts with
  | nil => cases h
  | cons t r =>
    simp only [nonEmpty] at h
    split at h
    · rename_i hk
      cases h
      refine ⟨Diagnostic.empty_standsAt item construct (by rw [hk]; exact hclose), fun stop' r' hr => ?_⟩
      obtain ⟨u', rfl⟩ := hr.cons_left
      simp [nonEmpty, hk]
    · cases h

end Steps

/-! ### Bracketed lists -/

section Lists

variable {α : Type} {close : TokenKind} {opening : Token}
  {item : Stop → Nat → (ts : List Token) → Except Diagnostic (Taken ts α)} {N : Nat → List Token → α → Prop}
  {L : Nat}

theorem SameNext.head_append {t : Token} {rs pre r r' : List Token} (hs : t :: rs = pre ++ r)
    (hr : SameNext stop r stop' r') : ∃ w, pre ++ r' = t :: w := by
  cases pre with
  | nil =>
    rw [List.nil_append] at hs
    subst hs
    obtain ⟨u', rfl⟩ := hr.cons_left
    exact ⟨u', rfl⟩
  | cons u p =>
    rw [List.cons_append, List.cons.injEq] at hs
    rw [hs.1]
    exact ⟨p ++ r', rfl⟩

theorem opens_items (hsome : ∃ B, ∀ lim, B ≤ lim → ∃ c x, N lim c x) :
    Opens (fun lim ts xs => xs ≠ [] ∧ Seq (N lim) ts xs) [] := by
  obtain ⟨B, hB⟩ := hsome
  refine ⟨B, fun lim hlim => ?_⟩
  obtain ⟨c, x, hx⟩ := hB lim hlim
  exact ⟨c, [x], List.cons_ne_nil _ _, by simpa using Seq.cons hx .nil⟩

theorem itemsUntil_faults (hstop : stop.Ends)
    (htakes : ∀ {us x} {r : {r : List Token // r.length < us.length}}, item stop L us = .ok (x, r) →
      ∃ pre, us = pre ++ r.1 ∧ Takes item stop L pre r.1 x ∧ N L pre x)
    (hfaults : ∀ {us e}, item stop L us = .error e →
      ∃ pre r, us = pre ++ r ∧ Faults item stop L pre r e ∧ Opens N pre)
    (hmono : ∀ {lim lim' us x}, lim ≤ lim' → N lim us x → N lim' us x)
    (hsome : ∃ B, ∀ lim, B ≤ lim → ∃ c x, N lim c x) {ts : List Token} {e : Diagnostic}
    (h : itemsUntil stop close opening (item stop L) ts = .error e) :
    ∃ pre r, ts = pre ++ r ∧ Faults (fun s l => itemsUntil s close opening (item s l)) stop L pre r e ∧
      Opens (fun lim ts xs => xs ≠ [] ∧ Seq (N lim) ts xs) pre := by
  fun_induction itemsUntil stop close opening (item stop L) ts with
  | case1 =>
    cases h
    refine ⟨[], [], rfl, ⟨atNext_unclosedAtEnd hstop _ _, fun _ stop' L' r' _ hr => ?_⟩, opens_items hsome⟩
    obtain ⟨rfl, rfl⟩ := hr.nil_left
    simp [itemsUntil]
  | case2 => cases h
  | case3 t rs hc heof =>
    cases h
    refine ⟨[], t :: rs, rfl, ⟨Diagnostic.unclosed_standsAt _ _ heof, fun _ stop' L' r' _ hr => ?_⟩,
      opens_items hsome⟩
    obtain ⟨u', rfl⟩ := hr.cons_left
    rw [List.nil_append, itemsUntil, if_neg hc, if_pos heof]
  | case4 t rs hc heof ih =>
    rcases bind_eq_error.1 h with hx | ⟨⟨x, r1, h1⟩, hx, h⟩
    · obtain ⟨pre, r, hsplit, hf, ho⟩ := hfaults hx
      refine ⟨pre, r, hsplit, ⟨hf.atNext, fun hd stop' L' r' hL hr => ?_⟩, ?_⟩
      · obtain ⟨w, hw⟩ := hr.head_append hsplit
        have hagain := hf.again hd stop' L' r' hL hr
        rw [hw] at hagain ⊢
        rw [itemsUntil]
        simp only [hc, heof, if_false]
        change item stop' L' (t :: w) = _ at hagain
        rw [hagain]
        rfl
      · obtain ⟨B, hB⟩ := ho
        refine ⟨B, fun lim hlim => ?_⟩
        obtain ⟨c, x, hx⟩ := hB lim hlim
        exact ⟨c, [x], List.cons_ne_nil _ _, by simpa using Seq.cons hx .nil⟩
    · rcases bind_eq_error.1 h with hxs | ⟨⟨xs, r2, h2⟩, -, h⟩
      · obtain ⟨pre, hpre, hx', hN⟩ := htakes hx
        obtain ⟨pre', r, hr1, hf, ho⟩ := ih r1 h1 hxs
        have hlen : r1.length < (t :: rs).length := h1
        simp only at hpre hx'
        obtain ⟨p, rfl, hrs⟩ := taken_cons hpre hlen
        rw [hr1] at hx'
        refine ⟨t :: p ++ pre', r, by simp [hrs, hr1], ⟨hf.atNext, fun hd stop' L' r' hL hr => ?_⟩, ?_⟩
        · have hrest := hf.again hd stop' L' r' hL hr
          obtain ⟨h1', hitem⟩ := hx' stop' L' (pre' ++ r') hL (hr.append pre')
          rw [show t :: p ++ pre' ++ r' = t :: (p ++ (pre' ++ r')) by simp]
          rw [itemsUntil]
          simp only [hc, heof, if_false]
          change item stop' L' (t :: (p ++ (pre' ++ r'))) = _ at hitem
          rw [hitem]
          simp only [bind, Except.bind, hrest]
        · obtain ⟨B, hB⟩ := ho
          refine ⟨max B L, fun lim hlim => ?_⟩
          obtain ⟨c, xs, -, hs⟩ := hB lim (by omega)
          exact ⟨c, x :: xs, List.cons_ne_nil _ _, by
            rw [List.append_assoc]
            exact .cons (hmono (by omega) hN) hs⟩
      · cases h

theorem nonEmptyList_faults (hstop : stop.Ends) {openKind : TokenKind} (hclose : close ≠ .eof)
    {itemWord construct : String}
    (htakes : ∀ {us x} {r : {r : List Token // r.length < us.length}}, item stop L us = .ok (x, r) →
      ∃ pre, us = pre ++ r.1 ∧ Takes item stop L pre r.1 x ∧ N L pre x)
    (hfaults : ∀ {us e}, item stop L us = .error e →
      ∃ pre r, us = pre ++ r ∧ Faults item stop L pre r e ∧ Opens N pre)
    (hmono : ∀ {lim lim' us x}, lim ≤ lim' → N lim us x → N lim' us x)
    (hsome : ∃ B, ∀ lim, B ≤ lim → ∃ c x, N lim c x) {ts : List Token} {e : Diagnostic}
    (h : nonEmptyList stop openKind close itemWord construct (item stop L) ts = .error e) :
    ∃ pre r, ts = pre ++ r ∧
      Faults (fun s l => nonEmptyList s openKind close itemWord construct (item s l)) stop L pre r e ∧
      (pre = [] ∨ ∃ o p, pre = o :: p ∧ o.kind = openKind ∧ Opens (fun lim ts xs => xs ≠ [] ∧ Seq (N lim) ts xs) p) := by
  rcases bind_eq_error.1 h with ho | ⟨⟨o, r1, h1⟩, ho, h⟩
  · obtain ⟨hat, hagain⟩ := expect_faults hstop ho
    refine ⟨[], ts, rfl, ⟨hat, fun _ stop' L' r' _ hr => ?_⟩, .inl rfl⟩
    simp only [nonEmptyList, List.nil_append, hagain stop' r' hr, bind, Except.bind]
  obtain ⟨hts, hok⟩ := expect_ok ho
  simp only at hts
  rcases bind_eq_error.1 h with hne | ⟨⟨⟩, hne, h⟩
  · obtain ⟨hat, hagain⟩ := nonEmpty_faults hclose hne
    refine ⟨[o], r1, hts, ⟨hat, fun _ stop' L' r' _ hr => ?_⟩, .inr ⟨o, [], rfl, hok, opens_items hsome⟩⟩
    simp only [nonEmptyList, List.cons_append, List.nil_append, expect_cons hok, hagain stop' r' hr, bind,
      Except.bind]
  rcases bind_eq_error.1 h with hxs | ⟨⟨xs, r2, h2⟩, -, h⟩
  · obtain ⟨pre, r, hr1, hf, hop⟩ := itemsUntil_faults hstop htakes hfaults hmono hsome hxs
    refine ⟨o :: pre, r, by rw [hts, hr1]; rfl, ⟨hf.atNext, fun hd stop' L' r' hL hr => ?_⟩,
      .inr ⟨o, pre, rfl, hok, hop⟩⟩
    -- the check for an empty list looks at the first token after the opening only
    have hne' : nonEmpty close itemWord construct (pre ++ r') = .ok () := by
      rw [nonEmpty_sameNext (hr.append pre), ← hr1]
      exact hne
    simp only [nonEmptyList, List.cons_append, expect_cons hok, bind, Except.bind]
    rw [hne']
    simp only [hf.again hd stop' L' r' hL hr]
  · cases h

end Lists

end Syntax

end Gql
