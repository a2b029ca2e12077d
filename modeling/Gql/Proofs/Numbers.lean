import Gql.Proofs.Horizon
/-!
# Numbers — the number scanner reads the longest number lexeme

Where a token starts with `-` or a digit, the scanner gives a token exactly when the text
starts with a number lexeme

```text
-? (0 | [1-9][0-9]*) (. [0-9]+)? ([eE] [+-]? [0-9]+)?
```

that is the longest such prefix and is followed by a character that ends it (`NumberEnds`):
no digit, no `.` when the lexeme has neither a fraction nor an exponent, and no `e` or `E`
when it has no exponent.  The token is then that lexeme, and a float exactly when it holds a
`.`, an `e` or an `E`.  Otherwise the fault is a digit after a leading zero when the number
starts so, and a missing digit in every other case (`Lexer.scanNumber_longest_lexeme`).

The scanner does not simply take the longest lexeme: a `.` or an exponent mark commits it to
the digits after it, so `1.` and `1e` are faults and not the token `1`.  The condition on the
next character says so.

Two facts carry the proof.  Each part the scanner reads is a part of the lexeme, and leaves a
next character that ends that part (`Lexer.integerEnd_spec` and its siblings).  And a lexeme
that is scanned whole is the longest one, since a scan looks one character past its token
(`scanNumber_follows`): a longer lexeme at the same place would be scanned as the shorter.
-/
namespace Gql

def IsNumberLexeme (t : List Char) : Prop :=
  ∃ sign n f e, t = sign ++ n ++ f ++ e ∧ (sign = [] ∨ sign = ['-']) ∧ IsNatural n ∧ IsFraction f ∧
    IsExponent e

def IsLongestNumber (cs t : List Char) : Prop :=
  t <+: cs ∧ IsNumberLexeme t ∧ ∀ t', t' <+: cs → IsNumberLexeme t' → t'.length ≤ t.length

/-- What may follow the number lexeme `t` where it ends: no digit, no `.` when `t` has
neither a fraction nor an exponent, and no `e` or `E` when it has no exponent. -/
def NumberEnds (t : List Char) (x : Char) : Prop :=
  x.isDigit = false ∧ ('.' ∉ t → 'e' ∉ t → 'E' ∉ t → x ≠ '.') ∧ ('e' ∉ t → 'E' ∉ t → x ≠ 'e' ∧ x ≠ 'E')

/-- The number at the front of `cs` has the integer part `0`, after its sign if it has one,
and the digit `d` right after it. -/
def ZeroThenDigit (cs : List Char) (d : Char) : Prop :=
  ∃ sign r, (sign = [] ∨ sign = ['-']) ∧ cs = sign ++ '0' :: d :: r ∧ d.isDigit = true

namespace Lexer

/-! ### The characters of a lexeme -/

theorem ne_marks_of_isDigit {x : Char} (h : x.isDigit = true) :
    x ≠ '.' ∧ x ≠ 'e' ∧ x ≠ 'E' ∧ x ≠ '-' ∧ x ≠ '+' := by
  have := toNat_of_isDigit h
  refine ⟨?_, ?_, ?_, ?_, ?_⟩ <;> rintro rfl <;> revert this <;> decide

theorem isDigit_of_isNatural {n : List Char} (h : IsNatural n) : ∀ x ∈ n, x.isDigit = true := by
  rcases h with rfl | ⟨d, ds, rfl, hd, -, hds⟩
  · simp
  · exact List.forall_mem_cons.2 ⟨hd, hds⟩

theorem marks_of_parts {sign n f e : List Char} (hs : sign = [] ∨ sign = ['-']) (hn : IsNatural n)
    (hf : IsFraction f) (he : IsExponent e) :
    ('.' ∈ sign ++ n ++ f ++ e ↔ f ≠ []) ∧ ('e' ∈ sign ++ n ++ f ++ e ∨ 'E' ∈ sign ++ n ++ f ++ e ↔ e ≠ []) := by
  have hsn : ∀ x ∈ sign ++ n, x ≠ '.' ∧ x ≠ 'e' ∧ x ≠ 'E' := by
    intro x hx
    rcases List.mem_append.1 hx with hx | hx
    · rcases hs with rfl | rfl
      · simp at hx
      · rw [List.mem_singleton.1 hx]; decide
    · obtain ⟨h1, h2, h3, -⟩ := ne_marks_of_isDigit (isDigit_of_isNatural hn x hx)
      exact ⟨h1, h2, h3⟩
  have hf' : ('.' ∈ f ↔ f ≠ []) ∧ 'e' ∉ f ∧ 'E' ∉ f := by
    rcases hf with rfl | ⟨ds, rfl, -, hds⟩
    · simp
    · refine ⟨by simp, ?_, ?_⟩ <;> simp only [List.mem_cons, not_or]
      · exact ⟨by decide, fun h => (ne_marks_of_isDigit (hds _ h)).2.1 rfl⟩
      · exact ⟨by decide, fun h => (ne_marks_of_isDigit (hds _ h)).2.2.1 rfl⟩
  have he' : '.' ∉ e ∧ ('e' ∈ e ∨ 'E' ∈ e ↔ e ≠ []) := by
    rcases he with rfl | ⟨m, sg, ds, rfl, hm, hsg, -, hds⟩
    · simp
    · have hsg' : '.' ∉ sg := by rcases hsg with rfl | rfl | rfl <;> simp
      refine ⟨?_, ⟨fun _ => by simp, fun _ => ?_⟩⟩
      · simp only [List.cons_append, List.mem_cons, List.mem_append, not_or]
        refine ⟨by rcases hm with rfl | rfl <;> decide, hsg', fun h => (ne_marks_of_isDigit (hds _ h)).1 rfl⟩
      · rcases hm with rfl | rfl <;> simp
  have hdot : '.' ∉ sign ++ n := fun h => (hsn _ h).1 rfl
  have he1 : 'e' ∉ sign ++ n := fun h => (hsn _ h).2.1 rfl
  have hE1 : 'E' ∉ sign ++ n := fun h => (hsn _ h).2.2 rfl
  rw [List.append_assoc (sign ++ n) f e]
  generalize sign ++ n = sn at hdot he1 hE1 ⊢
  constructor
  · simpa only [List.mem_append, hdot, he'.1, false_or, or_false] using hf'.1
  · simpa only [List.mem_append, he1, hE1, hf'.2.1, hf'.2.2, false_or] using he'.2

theorem numberEnds_iff {sign n f e : List Char} (hs : sign = [] ∨ sign = ['-']) (hn : IsNatural n)
    (hf : IsFraction f) (he : IsExponent e) (x : Char) :
    NumberEnds (sign ++ n ++ f ++ e) x ↔ NumberStops f e x := by
  obtain ⟨hdot, hexp⟩ := marks_of_parts hs hn hf he
  have hdot' : '.' ∉ sign ++ n ++ f ++ e ↔ f = [] := by rw [hdot]; simp
  have hexp' : ('e' ∉ sign ++ n ++ f ++ e ∧ 'E' ∉ sign ++ n ++ f ++ e) ↔ e = [] := by
    rw [← not_or, hexp]; simp
  unfold NumberEnds NumberStops
  constructor
  · rintro ⟨h1, h2, h3⟩
    exact ⟨h1, fun hf0 he0 => h2 (hdot'.2 hf0) (hexp'.2 he0).1 (hexp'.2 he0).2,
      fun he0 => h3 (hexp'.2 he0).1 (hexp'.2 he0).2⟩
  · rintro ⟨h1, h2, h3⟩
    exact ⟨h1, fun a b c => h2 (hdot'.1 a) (hexp'.1 ⟨b, c⟩), fun b c => h3 (hexp'.1 ⟨b, c⟩)⟩

/-- A lexeme is a float exactly when it holds a `.`, an `e` or an `E`. -/
theorem kind_of_parts {sign n f e : List Char} (hs : sign = [] ∨ sign = ['-']) (hn : IsNatural n)
    (hf : IsFraction f) (he : IsExponent e) :
    (if (!f.isEmpty || !e.isEmpty) = true then TokenKind.float else .int) =
      if '.' ∈ sign ++ n ++ f ++ e ∨ 'e' ∈ sign ++ n ++ f ++ e ∨ 'E' ∈ sign ++ n ++ f ++ e then .float
      else .int := by
  obtain ⟨hdot, hexp⟩ := marks_of_parts hs hn hf he
  have hc : ((!f.isEmpty || !e.isEmpty) = true) ↔
      ('.' ∈ sign ++ n ++ f ++ e ∨ 'e' ∈ sign ++ n ++ f ++ e ∨ 'E' ∈ sign ++ n ++ f ++ e) := by
    rw [hdot, hexp]; simp
  by_cases h : (!f.isEmpty || !e.isEmpty) = true
  · rw [if_pos h, if_pos (hc.1 h)]
  · rw [if_neg h, if_neg (mt hc.2 h)]

/-! ### What each part of the scanner reads -/

section Parts

variable {start : Cursor} {cs : List Char} {i : Nat}

theorem drop_digitsAt (cs : List Char) (i : Nat) :
    cs.drop (i + digitsAt cs i) = (cs.drop i).dropWhile Char.isDigit := by
  have hsplit := List.takeWhile_append_dropWhile (p := Char.isDigit) (l := cs.drop i)
  have hdrop : ((cs.drop i).takeWhile Char.isDigit ++ (cs.drop i).dropWhile Char.isDigit).drop
      ((cs.drop i).takeWhile Char.isDigit).length = (cs.drop i).dropWhile Char.isDigit := List.drop_left
  rw [hsplit] at hdrop
  rw [← List.drop_drop, digitsAt, hdrop]

theorem needDigits_spec {j : Nat} (h : needDigits start cs i = .ok j) :
    ∃ ds, cs.drop i = ds ++ cs.drop j ∧ IsDigits ds ∧ ∀ x ∈ (cs.drop j).head?, x.isDigit = false := by
  unfold needDigits at h
  split at h
  · cases h
  · rename_i h0
    cases h
    refine ⟨(cs.drop i).takeWhile Char.isDigit, ?_, ⟨?_, fun x hx => List.all_eq_true.1 List.all_takeWhile x hx⟩, ?_⟩
    · rw [drop_digitsAt, List.takeWhile_append_dropWhile]
    · intro hnil
      exact h0 (by rw [digitsAt, hnil]; rfl)
    · rw [drop_digitsAt]
      exact Text.head?_dropWhile

/-- The integer part at index `i`: a natural number, up to a character that is no digit. -/
theorem integerEnd_spec {j : Nat} (h : integerEnd start cs i = .ok j) :
    ∃ n, cs.drop i = n ++ cs.drop j ∧ IsNatural n ∧ ∀ x ∈ (cs.drop j).head?, x.isDigit = false := by
  unfold integerEnd at h
  split at h
  · rename_i d tail heq
    split at h
    · cases h
    · rename_i hd
      cases h
      have hj : cs.drop (i + 1) = d :: tail := drop_succ_of_drop heq
      refine ⟨['0'], by rw [heq, hj]; rfl, .inl rfl, ?_⟩
      rw [hj]
      simpa using hd
  · rename_i heq
    cases h
    refine ⟨['0'], by rw [heq, drop_succ_of_drop heq]; rfl, .inl rfl, ?_⟩
    rw [drop_succ_of_drop heq]
    simp
  · rename_i hnot0 hnot1
    obtain ⟨ds, hds, ⟨hne, hdig⟩, hnext⟩ := needDigits_spec h
    refine ⟨ds, hds, .inr ?_, hnext⟩
    obtain ⟨d, ds', rfl⟩ := List.exists_cons_of_ne_nil hne
    refine ⟨d, ds', rfl, hdig d (by simp), ?_, fun x hx => hdig x (by simp [hx])⟩
    -- a `0` in front would have been read as the integer part `0`
    rintro rfl
    cases hrest : ds' ++ cs.drop j with
    | nil => exact hnot1 (by rw [hds, List.cons_append, hrest])
    | cons y tail => exact hnot0 y tail (by rw [hds, List.cons_append, hrest])

theorem integerEnd_no_zero_digit {j : Nat} (h : integerEnd start cs i = .ok j) :
    ∀ d r, cs.drop i = '0' :: d :: r → d.isDigit = false := by
  intro d r hd
  obtain ⟨n, hn, hnat, hnext⟩ := integerEnd_spec h
  rcases hnat with rfl | ⟨d0, ds, rfl, -, h0, hds⟩
  · rw [hn, List.singleton_append, List.cons.injEq] at hd
    exact hnext d (by rw [hd.2]; rfl)
  · rw [hn, List.cons_append, List.cons.injEq] at hd
    exact absurd hd.1 h0

/-- The fraction at index `i`, if any: `.` and digits, up to a character that is no digit;
without one, no `.` stands there. -/
theorem fractionEnd_spec {j : Nat} {b : Bool} (h : fractionEnd start cs i = .ok (j, b)) :
    ∃ f, cs.drop i = f ++ cs.drop j ∧ IsFraction f ∧ b = !f.isEmpty ∧
      ∀ x ∈ (cs.drop j).head?, (f ≠ [] → x.isDigit = false) ∧ (f = [] → x ≠ '.') := by
  unfold fractionEnd at h
  split at h
  · rename_i tail heq
    cases hd : needDigits start cs (i + 1) with
    | error s => simp [hd, Except.map] at h
    | ok k =>
      simp only [hd, Except.map, Except.ok.injEq, Prod.mk.injEq] at h
      obtain ⟨rfl, rfl⟩ := h
      obtain ⟨ds, hds, hdig, hnext⟩ := needDigits_spec hd
      refine ⟨'.' :: ds, ?_, .inr ⟨ds, rfl, hdig⟩, rfl, fun x hx => ⟨fun _ => hnext x hx, by simp⟩⟩
      rw [heq, ← drop_succ_of_drop heq, hds]
      rfl
  · rename_i hnot
    cases h
    refine ⟨[], rfl, .inl rfl, rfl, fun x hx => ⟨fun h => absurd rfl h, fun _ => ?_⟩⟩
    rintro rfl
    obtain ⟨tail, ht⟩ := List.head?_eq_some_iff.1 hx
    exact hnot tail ht

theorem exponent_marked {m : Char} {sg rest : List Char} {k j : Nat} {b : Bool}
    (hm : m = 'e' ∨ m = 'E') (hsg : sg = [] ∨ sg = ['+'] ∨ sg = ['-']) (hk : k = i + 1 + sg.length)
    (hd : cs.drop i = m :: sg ++ rest) (h : (needDigits start cs k).map (·, true) = .ok (j, b)) :
    ∃ e, cs.drop i = e ++ cs.drop j ∧ IsExponent e ∧ b = !e.isEmpty ∧
      ∀ x ∈ (cs.drop j).head?, (e ≠ [] → x.isDigit = false) ∧ (e = [] → x ≠ 'e' ∧ x ≠ 'E') := by
  cases hn : needDigits start cs k with
  | error s => simp [hn, Except.map] at h
  | ok j' =>
    simp only [hn, Except.map, Except.ok.injEq, Prod.mk.injEq] at h
    obtain ⟨rfl, rfl⟩ := h
    obtain ⟨ds, hds, hdig, hnext⟩ := needDigits_spec hn
    have hrest : cs.drop k = rest := by
      rw [hk, Nat.add_assoc, ← List.drop_drop, hd]
      exact List.drop_left' (by simp [Nat.add_comm])
    refine ⟨m :: sg ++ ds, ?_, .inr ⟨m, sg, ds, rfl, hm, hsg, hdig⟩, rfl,
      fun x hx => ⟨fun _ => hnext x hx, by simp⟩⟩
    rw [hd, ← hrest, hds]
    simp

/-- The exponent at index `i`, if any: a mark, an optional sign and digits, up to a
character that is no digit; without one, no mark stands there. -/
theorem exponentEnd_spec {j : Nat} {b : Bool} (h : exponentEnd start cs i = .ok (j, b)) :
    ∃ e, cs.drop i = e ++ cs.drop j ∧ IsExponent e ∧ b = !e.isEmpty ∧
      ∀ x ∈ (cs.drop j).head?, (e ≠ [] → x.isDigit = false) ∧ (e = [] → x ≠ 'e' ∧ x ≠ 'E') := by
  unfold exponentEnd at h
  split at h
  · exact exponent_marked (.inl rfl) (.inr (.inl rfl)) rfl (by assumption) h
  · exact exponent_marked (.inl rfl) (.inr (.inr rfl)) rfl (by assumption) h
  · exact exponent_marked (.inr rfl) (.inr (.inl rfl)) rfl (by assumption) h
  · exact exponent_marked (.inr rfl) (.inr (.inr rfl)) rfl (by assumption) h
  · exact exponent_marked (.inl rfl) (.inl rfl) rfl (by assumption) h
  · exact exponent_marked (.inr rfl) (.inl rfl) rfl (by assumption) h
  · rename_i hne hnE
    cases h
    refine ⟨[], rfl, .inl rfl, rfl, fun x hx => ⟨fun h => absurd rfl h, fun _ => ?_⟩⟩
    obtain ⟨tail, ht⟩ := List.head?_eq_some_iff.1 hx
    exact ⟨by rintro rfl; exact hne tail ht, by rintro rfl; exact hnE tail ht⟩

end Parts

/-! ### The faults of each part -/

section Faults

variable {start : Cursor} {cs : List Char} {i : Nat} {s : Scanned}

theorem needDigits_error_kind (h : needDigits start cs i = .error s) :
    ∃ err, s.1 = .error err ∧ ∃ found, err.fault = .expectedDigit found := by
  unfold needDigits at h
  split at h
  · cases h
    exact ⟨_, rfl, _, rfl⟩
  · cases h

theorem needDigits_map_error_kind (h : (needDigits start cs i).map (·, true) = .error s) :
    ∃ err, s.1 = .error err ∧ ∃ found, err.fault = .expectedDigit found := by
  cases hd : needDigits start cs i with
  | error s' =>
    simp only [hd, Except.map, Except.error.injEq] at h
    subst h
    exact needDigits_error_kind hd
  | ok j => simp [hd, Except.map] at h

theorem integerEnd_error_kind (h : integerEnd start cs i = .error s) :
    ∃ err, s.1 = .error err ∧
      ((∃ d r, cs.drop i = '0' :: d :: r ∧ d.isDigit = true ∧ err.fault = .digitAfterZero d) ∨
        ((∀ d r, cs.drop i = '0' :: d :: r → d.isDigit = false) ∧ ∃ found, err.fault = .expectedDigit found)) := by
  unfold integerEnd at h
  split at h
  · rename_i d tail heq
    split at h
    · rename_i hd
      cases h
      exact ⟨_, rfl, .inl ⟨d, tail, heq, hd, rfl⟩⟩
    · cases h
  · cases h
  · rename_i hnot0 _
    obtain ⟨err, hs, found, hf⟩ := needDigits_error_kind h
    exact ⟨err, hs, .inr ⟨fun d r hdr => absurd hdr (hnot0 d r), found, hf⟩⟩

theorem fractionEnd_error_kind (h : fractionEnd start cs i = .error s) :
    ∃ err, s.1 = .error err ∧ ∃ found, err.fault = .expectedDigit found := by
  unfold fractionEnd at h
  split at h
  · exact needDigits_map_error_kind h
  · cases h

theorem exponentEnd_error_kind (h : exponentEnd start cs i = .error s) :
    ∃ err, s.1 = .error err ∧ ∃ found, err.fault = .expectedDigit found := by
  unfold exponentEnd at h
  split at h <;> first | exact needDigits_map_error_kind h | cases h

end Faults

/-! ### The whole number -/

section Whole

variable {start : Cursor} {cs : List Char}

theorem take_sign (cs : List Char) :
    cs.take (if cs.head? = some '-' then 1 else 0) = [] ∨ cs.take (if cs.head? = some '-' then 1 else 0) = ['-'] := by
  split
  · rename_i h
    obtain ⟨tail, rfl⟩ := List.head?_eq_some_iff.1 h
    exact .inr rfl
  · exact .inl rfl

theorem zeroThenDigit_iff (cs : List Char) (d : Char) :
    ZeroThenDigit cs d ↔
      ∃ r, cs.drop (if cs.head? = some '-' then 1 else 0) = '0' :: d :: r ∧ d.isDigit = true := by
  constructor
  · rintro ⟨sign, r, hs, rfl, hd⟩
    rcases hs with rfl | rfl
    · exact ⟨r, by simp, hd⟩
    · exact ⟨r, by simp, hd⟩
  · rintro ⟨r, hr, hd⟩
    split at hr
    · rename_i h
      obtain ⟨tail, rfl⟩ := List.head?_eq_some_iff.1 h
      exact ⟨['-'], r, .inr rfl, by simpa using hr, hd⟩
    · exact ⟨[], r, .inl rfl, by simpa using hr, hd⟩

/-- **A number token is a number lexeme** that the character after it ends; it is a float
when the lexeme has a fraction or an exponent. -/
theorem scanNumber_sound {t : Token} {n : Nat} (h : scanNumber start cs = (.ok t, n)) :
    ∃ sign nn f e, cs.take n = sign ++ nn ++ f ++ e ∧ (sign = [] ∨ sign = ['-']) ∧ IsNatural nn ∧
      IsFraction f ∧ IsExponent e ∧ (∀ x ∈ (cs.drop n).head?, NumberStops f e x) ∧
      t = ⟨if (!f.isEmpty || !e.isEmpty) = true then .float else .int, String.ofList (cs.take n),
        start.spanOf cs 0 n⟩ := by
  obtain ⟨i, j, bf, be, hi, hfr, he, rfl⟩ := scanNumber_ok h
  have hsign := take_sign cs
  generalize hsg : (if cs.head? = some '-' then 1 else 0) = sg at hi hsign
  obtain ⟨nn, hnn, hnat, hni⟩ := integerEnd_spec hi
  obtain ⟨f, hf, hfrac, rfl, hfj⟩ := fractionEnd_spec hfr
  obtain ⟨e, he', hexp, rfl, hen⟩ := exponentEnd_spec he
  have hcs : (cs.take sg ++ nn ++ f ++ e) ++ cs.drop n = cs.take n ++ cs.drop n := by
    rw [List.take_append_drop]
    conv_rhs => rw [← List.take_append_drop sg cs, hnn, hf, he']
    simp
  refine ⟨cs.take sg, nn, f, e, (List.append_cancel_right hcs).symm, hsign, hnat, hfrac, hexp,
    fun x hx => ⟨?_, fun hf0 he0 => ?_, fun he0 => (hen x hx).2 he0⟩, rfl⟩
  · by_cases he0 : e = []
    · subst he0
      rw [List.nil_append] at he'
      rw [← he'] at hx
      by_cases hf0 : f = []
      · subst hf0
        rw [List.nil_append] at hf
        rw [← hf] at hx
        exact hni x hx
      · exact (hfj x hx).1 hf0
    · exact (hen x hx).1 he0
  · subst he0
    rw [List.nil_append] at he'
    rw [← he'] at hx
    exact (hfj x hx).2 hf0

/-- **A number the scanner reads whole is the longest number lexeme there**: a longer one
agrees with the text one character past the token, so it would be read as the same token. -/
theorem scanNumber_longest {t : Token} {n : Nat} (h : scanNumber start cs = (.ok t, n)) {t' : List Char}
    (hp : t' <+: cs) (ht' : IsNumberLexeme t') : t'.length ≤ n := by
  obtain ⟨sign, nn, f, e, rfl, hs, hn, hf, he⟩ := ht'
  obtain ⟨u, hu⟩ := hp
  refine Nat.le_of_not_lt fun hlt => ?_
  have hwhole : scanNumber start (sign ++ nn ++ f ++ e ++ []) = _ := scanNumber_parts rfl hs hn hf he (by simp)
  rw [List.append_nil] at hwhole
  generalize sign ++ nn ++ f ++ e = t' at hu hlt hwhole
  have hfol : Follows (fun _ => false) n cs t' := by
    refine ⟨by rw [← hu, List.take_append_of_le_length (by omega)], fun x hx => .inl ?_⟩
    have hne : t'.drop n ≠ [] := by simp; omega
    obtain ⟨y, ys, hy⟩ := List.exists_cons_of_ne_nil hne
    rw [← hu, List.drop_append_of_le_length (by omega), hy]
    rw [hy] at hx
    exact hx
  have hagain := scanNumber_follows (fun x hx => absurd hx (by simp)) h hfol
  rw [hwhole] at hagain
  simp only [Scanned.token, Prod.mk.injEq] at hagain
  omega

/-- The scanner fails on a digit after a leading `0`, or for want of a digit elsewhere. -/
theorem scanNumber_fault {err : LexError} (h : (scanNumber start cs).1 = .error err) :
    (∃ d, ZeroThenDigit cs d ∧ err.fault = .digitAfterZero d) ∨
      ((∀ d, ¬ ZeroThenDigit cs d) ∧ ∃ found, err.fault = .expectedDigit found) := by
  have hz := zeroThenDigit_iff cs
  unfold scanNumber at h
  generalize (if cs.head? = some '-' then 1 else 0) = sg at h hz
  cases hi : integerEnd start cs sg with
  | error e =>
    simp only [hi, bind, Except.bind] at h
    obtain ⟨err', hs, hk⟩ := integerEnd_error_kind hi
    rw [hs, Except.error.injEq] at h
    subst h
    rcases hk with ⟨d, r, hr, hd, hf⟩ | ⟨hno, found, hf⟩
    · exact .inl ⟨d, (hz d).2 ⟨r, hr, hd⟩, hf⟩
    · refine .inr ⟨fun d hzd => ?_, found, hf⟩
      obtain ⟨r, hr, hd⟩ := (hz d).1 hzd
      simp [hno d r hr] at hd
  | ok i =>
    -- past the integer part, only a missing digit is left to fail on
    have hno : ∀ d, ¬ ZeroThenDigit cs d := fun d hzd => by
      obtain ⟨r, hr, hd⟩ := (hz d).1 hzd
      simp [integerEnd_no_zero_digit hi d r hr] at hd
    cases hf : fractionEnd start cs i with
    | error e =>
      simp only [hi, hf, bind, Except.bind] at h
      obtain ⟨err', hs, found, hfe⟩ := fractionEnd_error_kind hf
      rw [hs, Except.error.injEq] at h
      subst h
      exact .inr ⟨hno, found, hfe⟩
    | ok p =>
      cases he : exponentEnd start cs p.1 with
      | error e =>
        simp only [hi, hf, he, bind, Except.bind] at h
        obtain ⟨err', hs, found, hee⟩ := exponentEnd_error_kind he
        rw [hs, Except.error.injEq] at h
        subst h
        exact .inr ⟨hno, found, hee⟩
      | ok q => simp [hi, hf, he, bind, Except.bind, pure, Except.pure, Scanned.token] at h

/-- **Number lexing follows the number grammar.**  The scanner gives a token exactly when
the longest number lexeme `t` in front of the text is followed by a character that ends it;
the token is then `t`, spanning `t`, and a float exactly when `t` holds `.`, `e` or `E`.  It
fails on a digit after a leading zero when the number starts so, and for want of a digit
otherwise.  Reading calls this scanner where a token starts with `-` or a digit
(`scanToken_of_numberStart`). -/
theorem scanNumber_longest_lexeme (start : Cursor) (cs : List Char) :
    ((∃ tok, (scanNumber start cs).1 = .ok tok) ↔
      ∃ t, IsLongestNumber cs t ∧ ∀ x ∈ (cs.drop t.length).head?, NumberEnds t x) ∧
    (∀ t, IsLongestNumber cs t → (∀ x ∈ (cs.drop t.length).head?, NumberEnds t x) →
      scanNumber start cs = Scanned.token start cs
        (if '.' ∈ t ∨ 'e' ∈ t ∨ 'E' ∈ t then .float else .int) (String.ofList t) t.length) ∧
    (∀ err, (scanNumber start cs).1 = .error err →
      (∃ d, ZeroThenDigit cs d ∧ err.fault = .digitAfterZero d) ∨
        ((∀ d, ¬ ZeroThenDigit cs d) ∧ ∃ found, err.fault = .expectedDigit found)) := by
  have hread : ∀ t, IsLongestNumber cs t → (∀ x ∈ (cs.drop t.length).head?, NumberEnds t x) →
      scanNumber start cs = Scanned.token start cs
        (if '.' ∈ t ∨ 'e' ∈ t ∨ 'E' ∈ t then .float else .int) (String.ofList t) t.length := by
    rintro t ⟨⟨u, rfl⟩, ⟨sign, nn, f, e, rfl, hs, hn, hf, he⟩, -⟩ hend
    have hstops : ∀ x ∈ u.head?, NumberStops f e x := fun x hx =>
      (numberEnds_iff hs hn hf he x).1 (hend x (by simpa using hx))
    rw [scanNumber_parts rfl hs hn hf he hstops, kind_of_parts hs hn hf he]
  refine ⟨⟨?_, ?_⟩, hread, fun err h => scanNumber_fault h⟩
  · rintro ⟨tok, htok⟩
    rcases hscan : scanNumber start cs with ⟨res, n⟩
    rw [hscan] at htok
    subst htok
    obtain ⟨sign, nn, f, e, htake, hs, hn, hf, he, hstops, -⟩ := scanNumber_sound hscan
    have hlen : (cs.take n).length = n := List.length_take_of_le (scanNumber_le hscan)
    refine ⟨cs.take n, ⟨List.take_prefix n cs, ⟨sign, nn, f, e, htake, hs, hn, hf, he⟩,
      fun t' hp ht' => by rw [hlen]; exact scanNumber_longest hscan hp ht'⟩, fun x hx => ?_⟩
    rw [hlen] at hx
    rw [htake]
    exact (numberEnds_iff hs hn hf he x).2 (hstops x hx)
  · rintro ⟨t, hl, hend⟩
    exact ⟨_, by rw [hread t hl hend]; rfl⟩

end Whole

end Lexer

end Gql
