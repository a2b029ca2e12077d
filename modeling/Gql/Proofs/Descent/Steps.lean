import Gql.Document.Grammar
/-!
# Steps — what the reader's one-token steps take and leave

The rules of `Gql.Syntax` are built from a few steps that look at one token: `peek`,
`expect`, `expectName`, `expectKeyword`, `fragmentName`, `accept`, `nextIs` and `nonEmpty`,
and from the loop `itemsUntil` with its wrapper `nonEmptyList`.  Each gets here what a
successful run of it took (used by the soundness proofs) and what it does on a token of a
given kind (used by the completeness proofs), so that no proof about a rule unfolds them.

`NextNot stop p ts` is the lookahead condition of completeness: the token that comes next,
the first of `ts` or the end token, is not one that `p` picks.
-/
namespace Gql
namespace Syntax

open Grammar

theorem bind_eq_ok {ε α β : Type} {x : Except ε α} {f : α → Except ε β} {b : β} :
    x >>= f = .ok b ↔ ∃ a, x = .ok a ∧ f a = .ok b := by
  cases x <;> simp [bind, Except.bind]

/-- **The token after `ts` is not one that `p` picks**: the first of `ts`, or the end token
of `stop` when `ts` is empty; a fault at the end is no token. -/
def NextNot (stop : Stop) (p : Token → Bool) : List Token → Prop
  | t :: _ => p t = false
  | [] => ∃ u, stop = .eof u ∧ p u = false

@[simp] theorem nextNot_cons {stop : Stop} {p : Token → Bool} {t : Token} {r : List Token} :
    NextNot stop p (t :: r) ↔ p t = false := Iff.rfl

variable {stop : Stop}

section Take

variable {ts : List Token} {t : Token}

theorem expect_ok {k : TokenKind} {r} (h : expect stop k ts = .ok (t, r)) : ts = t :: r.1 ∧ t.kind = k := by
  cases ts with
  | nil => cases h
  | cons u us =>
    simp only [expect] at h
    split at h
    · cases h
      exact ⟨rfl, by assumption⟩
    · cases h

theorem expectName_ok {r} (h : expectName stop ts = .ok (t, r)) : ts = t :: r.1 ∧ t.kind = .name := by
  cases ts with
  | nil => cases h
  | cons u us =>
    simp only [expectName] at h
    split at h
    · cases h
      exact ⟨rfl, by assumption⟩
    · cases h

theorem expectKeyword_ok {w : String} {r} (h : expectKeyword stop w ts = .ok (t, r)) :
    ts = t :: r.1 ∧ t.isKeyword w = true := by
  cases ts with
  | nil => cases h
  | cons u us =>
    simp only [expectKeyword] at h
    split at h
    · cases h
      exact ⟨rfl, by assumption⟩
    · cases h

theorem fragmentName_ok {n : String} {r} (h : fragmentName stop ts = .ok (n, r)) :
    ∃ t, ts = t :: r.1 ∧ t.kind = .name ∧ t.value ≠ "on" ∧ n = t.value := by
  obtain ⟨⟨t, r1, h1⟩, hn, h⟩ := bind_eq_ok.1 h
  obtain ⟨hts, hk⟩ := expectName_ok hn
  simp only at h
  split at h
  · cases h
  · rename_i hon
    cases h
    refine ⟨t, hts, hk, fun hv => hon ?_, rfl⟩
    simp [Token.isKeyword, hk, hv]

theorem accept_some {p : Token → Bool} {r} (h : accept stop p ts = .ok (some r)) :
    ∃ t, ts = t :: r.1 ∧ p t = true := by
  cases ts with
  | nil =>
    simp only [accept] at h
    split at h <;> cases h
  | cons u us =>
    simp only [accept] at h
    split at h
    · cases h
      exact ⟨u, rfl, by assumption⟩
    · cases h

theorem nonEmpty_ok {close : TokenKind} {item construct : String} {r : List Token}
    (h : nonEmpty close item construct (t :: r) = .ok ()) : t.kind ≠ close := by
  simp only [nonEmpty] at h
  split at h
  · cases h
  · assumption

end Take

section Give

variable {t : Token} {r : List Token}

theorem expect_cons {k : TokenKind} (h : t.kind = k) :
    expect stop k (t :: r) = .ok (t, ⟨r, length_lt_cons t r⟩) := by
  simp [expect, h]

theorem expectName_cons (h : t.kind = .name) :
    expectName stop (t :: r) = .ok (t, ⟨r, length_lt_cons t r⟩) := by
  simp [expectName, h]

theorem expectKeyword_cons {w : String} (h : t.isKeyword w = true) :
    expectKeyword stop w (t :: r) = .ok (t, ⟨r, length_lt_cons t r⟩) := by
  simp [expectKeyword, h]

theorem fragmentName_cons (hk : t.kind = .name) (hv : t.value ≠ "on") :
    fragmentName stop (t :: r) = .ok (t.value, ⟨r, length_lt_cons t r⟩) := by
  have hon : t.isKeyword "on" = false := by simp [Token.isKeyword, hv]
  simp [fragmentName, expectName_cons hk, hon, bind, Except.bind, pure, Except.pure]

theorem accept_cons_of {p : Token → Bool} (h : p t = true) :
    accept stop p (t :: r) = .ok (some ⟨r, length_lt_cons t r⟩) := by
  simp [accept, h]

theorem accept_of_nextNot {p : Token → Bool} {ts : List Token} (h : NextNot stop p ts) :
    accept stop p ts = .ok none := by
  cases ts with
  | nil =>
    obtain ⟨u, rfl, -⟩ := h
    rfl
  | cons t r => simp [accept, (nextNot_cons.1 h)]

theorem nextIs_of_nextNot {k : TokenKind} {ts : List Token} (h : NextNot stop (fun t => t.kind = k) ts) :
    nextIs stop k ts = .ok false := by
  cases ts with
  | nil =>
    obtain ⟨u, rfl, hu⟩ := h
    simpa [nextIs, peek, Except.map] using hu
  | cons t r => simpa [nextIs, peek, Except.map] using h

theorem nextIs_cons_of {k : TokenKind} (h : t.kind = k) : nextIs stop k (t :: r) = .ok true := by
  simp [nextIs, peek, Except.map, h]

theorem nonEmpty_cons {close : TokenKind} {item construct : String} (h : t.kind ≠ close) :
    nonEmpty close item construct (t :: r) = .ok () := by
  simp [nonEmpty, h]

end Give

section Lists

/-! The loop of a bracketed list: what it took is the items' tokens and the close, and a list of
items each followed by what `F` allows is read whole. -/

theorem itemsUntil_sound {α : Type} {close : TokenKind} {opening : Token}
    {item : (ts : List Token) → Except Diagnostic (Taken ts α)} {N : List Token → α → Prop}
    (hitem : ∀ {us a} {r : {r : List Token // r.length < us.length}}, item us = .ok (a, r) →
      ∃ pre, us = pre ++ r.1 ∧ N pre a)
    {ts : List Token} {xs : List α} {r : {r : List Token // r.length ≤ ts.length}}
    (h : itemsUntil stop close opening item ts = .ok (xs, r)) :
    ∃ pre c, ts = pre ++ c :: r.1 ∧ c.kind = close ∧ Seq N pre xs := by
  fun_induction itemsUntil stop close opening item ts generalizing xs with
  | case1 => cases h
  | case2 t rs hc =>
    cases h
    exact ⟨[], t, rfl, hc, .nil⟩
  | case3 => cases h
  | case4 t rs _ _ ih =>
    obtain ⟨⟨x, r1, h1⟩, hx, h⟩ := bind_eq_ok.1 h
    obtain ⟨⟨xs', r2, h2⟩, hxs, h⟩ := bind_eq_ok.1 h
    cases h
    obtain ⟨pre, hpre, hn⟩ := hitem hx
    obtain ⟨pre', c, hr1, hc, hs⟩ := ih r1 h1 hxs
    exact ⟨pre ++ pre', c, by simp [hpre, hr1], hc, .cons hn hs⟩

theorem seq_follow {α} {N : List Token → α → Prop} {F : List Token → Prop} {c : Token}
    (hfollow : ∀ {us a rest}, N us a → F (us ++ rest)) (hcF : ∀ rest, F (c :: rest))
    {ws xs} (hs : Seq N ws xs) (rest : List Token) : F (ws ++ c :: rest) := by
  cases hs with
  | nil => exact hcF rest
  | cons hn _ => rw [List.append_assoc]; exact hfollow hn

theorem itemsUntil_complete (stop : Stop) {α : Type} {close : TokenKind} (opening : Token)
    {item : (ts : List Token) → Except Diagnostic (Taken ts α)} {N : List Token → α → Prop} {F : List Token → Prop}
    (hitem : ∀ {us a rest}, N us a → F rest → ∃ h, item (us ++ rest) = .ok (a, ⟨rest, h⟩))
    (hstart : ∀ {us a}, N us a → ∃ t r, us = t :: r ∧ t.kind ≠ close ∧ t.kind ≠ .eof)
    (hfollow : ∀ {us a rest}, N us a → F (us ++ rest))
    {c : Token} (hc : c.kind = close) (hcF : ∀ rest, F (c :: rest))
    {pre xs} (hs : Seq N pre xs) (rest : List Token) :
    ∃ h, itemsUntil stop close opening item (pre ++ c :: rest) = .ok (xs, ⟨rest, h⟩) := by
  induction hs with
  | nil => exact ⟨by simp, by simp [itemsUntil, hc]⟩
  | @cons us ws a as hn hs ih =>
    obtain ⟨t, r, rfl, hclose, heof⟩ := hstart hn
    obtain ⟨h1, hi⟩ := hitem hn (seq_follow hfollow hcF hs rest)
    obtain ⟨h2, hrest⟩ := ih
    rw [show t :: r ++ ws ++ c :: rest = t :: (r ++ (ws ++ c :: rest)) by simp]
    refine ⟨by simp only [List.length_append, List.length_cons]; omega, ?_⟩
    rw [itemsUntil]
    simp only [hclose, heof, if_false]
    change item (t :: (r ++ (ws ++ c :: rest))) = _ at hi
    rw [hi]
    simp only [bind, Except.bind, hrest, pure, Except.pure]

theorem nonEmptyList_sound {α : Type} {openKind close : TokenKind} {itemWord construct : String}
    {read : (ts : List Token) → Except Diagnostic (Taken ts α)} (N : List Token → α → Prop)
    (hread : ∀ {us a} {r : {r : List Token // r.length < us.length}}, read us = .ok (a, r) →
      ∃ pre, us = pre ++ r.1 ∧ N pre a)
    {ts : List Token} {xs : List α} {r : {r : List Token // r.length < ts.length}}
    (h : nonEmptyList stop openKind close itemWord construct read ts = .ok (xs, r)) :
    ∃ o pre c, ts = o :: pre ++ c :: r.1 ∧ o.kind = openKind ∧ c.kind = close ∧ Seq N pre xs ∧ xs ≠ [] := by
  obtain ⟨⟨o, r1, h1⟩, ho, h⟩ := bind_eq_ok.1 h
  obtain ⟨⟨⟩, hne, h⟩ := bind_eq_ok.1 h
  obtain ⟨⟨xs', r2, h2⟩, hxs, h⟩ := bind_eq_ok.1 h
  cases h
  obtain ⟨hts, hok⟩ := expect_ok ho
  obtain ⟨pre, c, hr1, hc, hs⟩ := itemsUntil_sound hread hxs
  refine ⟨o, pre, c, by simp [hts, hr1], hok, hc, hs, ?_⟩
  rintro rfl
  cases hs
  simp only [List.nil_append] at hr1
  simp only [hr1] at hne
  exact nonEmpty_ok hne hc

theorem nonEmptyList_complete {α : Type} {openKind close : TokenKind} {itemWord construct : String}
    {read : (ts : List Token) → Except Diagnostic (Taken ts α)} {N : List Token → α → Prop} {F : List Token → Prop}
    (hread : ∀ {us a rest}, N us a → F rest → ∃ h, read (us ++ rest) = .ok (a, ⟨rest, h⟩))
    (hstart : ∀ {us a}, N us a → ∃ t r, us = t :: r ∧ t.kind ≠ close ∧ t.kind ≠ .eof)
    (hfollow : ∀ {us a rest}, N us a → F (us ++ rest))
    {o c : Token} (ho : o.kind = openKind) (hc : c.kind = close) (hcF : ∀ rest, F (c :: rest))
    {pre xs} (hs : Seq N pre xs) (hne : xs ≠ []) (rest : List Token) :
    ∃ h, nonEmptyList stop openKind close itemWord construct read (o :: pre ++ c :: rest) = .ok (xs, ⟨rest, h⟩) := by
  obtain ⟨h1, hi⟩ := itemsUntil_complete stop o hread hstart hfollow hc hcF hs rest
  have hfirst : nonEmpty close itemWord construct (pre ++ c :: rest) = .ok () := by
    cases hs with
    | nil => exact absurd rfl hne
    | cons hn _ =>
      obtain ⟨t, r, rfl, hclose, -⟩ := hstart hn
      exact nonEmpty_cons hclose
  refine ⟨by simp only [List.length_cons, List.length_append] at h1 ⊢; omega, ?_⟩
  simp only [nonEmptyList, List.cons_append, expect_cons ho, bind, Except.bind]
  rw [hfirst]
  simp only [hi, pure, Except.pure]

end Lists

end Syntax
end Gql
