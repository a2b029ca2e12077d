import Gql.Token.Lexer
/-!
# Every read moves on

A scan takes at least as many characters as it had already taken when it reached its last
step, so a scan that starts on a character takes at least that one.  Hence a read that
gives anything but the end token leaves less text behind: reading a text over and over
reaches the end token after at most as many reads as the text has characters
(`Lexer.read_rest_lt`).

A scan that starts on a character gives neither the end token nor an error token: faults
are reported as faults, and the end token stands only where no text is left
(`scanToken_kind`).
-/
namespace Gql

theorem stringBody_ge (start : Cursor) (cs r : List Char) (i : Nat) (acc : List Char) :
    i ≤ (stringBody start cs r i acc).2 := by
  fun_induction stringBody start cs r i acc <;>
    (try simp_all [Scanned.fault, Scanned.token, badUnicodeEscape, loneSurrogate]) <;> omega

theorem blockBody_ge (start : Cursor) (cs r : List Char) (i : Nat) (acc : List Char) :
    i ≤ (blockBody start cs r i acc).2 := by
  fun_induction blockBody start cs r i acc <;>
    (try simp_all [Scanned.fault, Scanned.token]) <;> omega

theorem needDigits_ok {start : Cursor} {cs : List Char} {i j : Nat}
    (h : needDigits start cs i = .ok j) : i < j := by
  unfold needDigits at h
  split at h
  · cases h
  · cases h
    omega

theorem needDigits_error {start : Cursor} {cs : List Char} {i : Nat} {s : Scanned}
    (h : needDigits start cs i = .error s) : s.2 = i ∧ digitsAt cs i = 0 := by
  unfold needDigits at h
  split at h
  · rename_i h0
    cases h
    exact ⟨rfl, h0⟩
  · cases h

theorem integerEnd_ok {start : Cursor} {cs : List Char} {i j : Nat}
    (h : integerEnd start cs i = .ok j) : i < j := by
  unfold integerEnd at h
  split at h
  · split at h
    · cases h
    · cases h
      omega
  · cases h
    omega
  · exact needDigits_ok h

theorem integerEnd_error {start : Cursor} {cs : List Char} {i : Nat} {s : Scanned}
    (h : integerEnd start cs i = .error s) : s.2 = i + 2 ∨ (s.2 = i ∧ digitsAt cs i = 0) := by
  unfold integerEnd at h
  split at h
  · split at h
    · cases h
      exact .inl rfl
    · cases h
  · cases h
  · exact Or.inr (needDigits_error h)

theorem needDigits_map_ok {start : Cursor} {cs : List Char} {k j : Nat} {b : Bool}
    (h : (needDigits start cs k).map (fun x => (x, true)) = .ok (j, b)) : k < j := by
  cases hd : needDigits start cs k <;> simp_all [Except.map]
  have := needDigits_ok hd; omega

theorem needDigits_map_error {start : Cursor} {cs : List Char} {k : Nat} {s : Scanned}
    (h : (needDigits start cs k).map (fun x => (x, true)) = .error s) : s.2 = k := by
  cases hd : needDigits start cs k <;> simp_all [Except.map]
  subst h; exact (needDigits_error hd).1

theorem fractionEnd_ok {start : Cursor} {cs : List Char} {i j : Nat} {b : Bool}
    (h : fractionEnd start cs i = .ok (j, b)) : i ≤ j := by
  unfold fractionEnd at h
  split at h
  · have := needDigits_map_ok h; omega
  · simp_all

theorem fractionEnd_error {start : Cursor} {cs : List Char} {i : Nat} {s : Scanned}
    (h : fractionEnd start cs i = .error s) : s.2 = i + 1 := by
  unfold fractionEnd at h
  split at h
  · exact needDigits_map_error h
  · simp at h

theorem exponentEnd_ok {start : Cursor} {cs : List Char} {i j : Nat} {b : Bool}
    (h : exponentEnd start cs i = .ok (j, b)) : i ≤ j := by
  unfold exponentEnd at h
  split at h <;> first
    | exact Nat.le_of_lt (Nat.lt_of_le_of_lt (Nat.le_add_right _ _) (needDigits_map_ok h))
    | (simp at h; omega)

theorem exponentEnd_error {start : Cursor} {cs : List Char} {i : Nat} {s : Scanned}
    (h : exponentEnd start cs i = .error s) : i < s.2 := by
  unfold exponentEnd at h
  split at h <;> first | (rw [needDigits_map_error h]; omega) | simp at h

theorem digitsAt_zero_pos {c : Char} {r : List Char} (h : c.isDigit = true) :
    0 < digitsAt (c :: r) 0 := by
  simp [digitsAt, h]

theorem scanNumber_pos (start : Cursor) (c : Char) (r : List Char)
    (h : c = '-' ∨ c.isDigit = true) : 1 ≤ (scanNumber start (c :: r)).2 := by
  unfold scanNumber
  generalize hs : (if (c :: r).head? = some '-' then 1 else 0) = sgn
  have hsgn : sgn = 0 → 0 < digitsAt (c :: r) 0 := by
    intro h0; subst h0
    rcases h with rfl | hd
    · simp at hs
    · exact digitsAt_zero_pos hd
  cases hi : integerEnd start (c :: r) sgn with
  | error e =>
    simp only [bind, Except.bind, hi]
    rcases integerEnd_error hi with h1 | ⟨h1, h2⟩
    · omega
    · rcases Nat.eq_zero_or_pos sgn with h0 | h0
      · subst h0; have := hsgn rfl; omega
      · omega
  | ok i =>
    have hi1 := integerEnd_ok hi
    cases hf : fractionEnd start (c :: r) i with
    | error e =>
      simp only [bind, Except.bind, hi, hf]
      have := fractionEnd_error hf; omega
    | ok p =>
      obtain ⟨j, bf⟩ := p
      have hj := fractionEnd_ok hf
      cases he : exponentEnd start (c :: r) j with
      | error e =>
        simp only [bind, Except.bind, hi, hf, he]
        have := exponentEnd_error he; omega
      | ok q =>
        obtain ⟨k, be⟩ := q
        have hk := exponentEnd_ok he
        simp only [bind, Except.bind, hi, hf, he, pure, Except.pure, Scanned.token]
        omega

theorem scanToken_pos (start : Cursor) (c : Char) (r : List Char) :
    1 ≤ (scanToken start (c :: r)).2 := by
  simp only [scanToken]
  split
  · simp [Scanned.token]
  · split
    · simp [scanComment, Scanned.token]
    split
    · simp only [scanSpread]; split <;> simp [Scanned.token, Scanned.fault]
    split
    · split
      · exact Nat.le_trans (by decide) (blockBody_ge _ _ _ _ _)
      · exact stringBody_ge _ _ _ _ _
    split
    · simp [Scanned.fault]
    split
    · simp [scanName, Scanned.token]
    split
    · apply scanNumber_pos
      simp_all
    · simp [Scanned.fault]

theorem needDigits_fault {start : Cursor} {cs : List Char} {i : Nat} {s : Scanned}
    (h : needDigits start cs i = .error s) : ∀ t, s.1 ≠ .ok t := by
  unfold needDigits at h
  split at h
  · cases h
    simp [Scanned.fault]
  · cases h

theorem integerEnd_fault {start : Cursor} {cs : List Char} {i : Nat} {s : Scanned}
    (h : integerEnd start cs i = .error s) : ∀ t, s.1 ≠ .ok t := by
  unfold integerEnd at h
  split at h
  · split at h
    · cases h
      simp [Scanned.fault]
    · cases h
  · cases h
  · exact needDigits_fault h

theorem needDigits_map_fault {start : Cursor} {cs : List Char} {k : Nat} {s : Scanned}
    (h : (needDigits start cs k).map (fun x => (x, true)) = .error s) : ∀ t, s.1 ≠ .ok t := by
  cases hd : needDigits start cs k <;> simp_all [Except.map]
  subst h; exact needDigits_fault hd

theorem fractionEnd_fault {start : Cursor} {cs : List Char} {i : Nat} {s : Scanned}
    (h : fractionEnd start cs i = .error s) : ∀ t, s.1 ≠ .ok t := by
  unfold fractionEnd at h
  split at h
  · exact needDigits_map_fault h
  · simp at h

theorem exponentEnd_fault {start : Cursor} {cs : List Char} {i : Nat} {s : Scanned}
    (h : exponentEnd start cs i = .error s) : ∀ t, s.1 ≠ .ok t := by
  unfold exponentEnd at h
  split at h <;> first | exact needDigits_map_fault h | simp at h

theorem stringBody_kind (start : Cursor) (cs r : List Char) (i : Nat) (acc : List Char) (t : Token)
    (h : (stringBody start cs r i acc).1 = .ok t) : t.kind = .string := by
  fun_induction stringBody start cs r i acc
  case case4 =>
    simp only [Scanned.token, Except.ok.injEq] at h
    subst h
    rfl
  all_goals simp_all [Scanned.fault, badUnicodeEscape, loneSurrogate]

theorem blockBody_kind (start : Cursor) (cs r : List Char) (i : Nat) (acc : List Char) (t : Token)
    (h : (blockBody start cs r i acc).1 = .ok t) : t.kind = .blockString := by
  fun_induction blockBody start cs r i acc
  case case2 =>
    simp only [Scanned.token, Except.ok.injEq] at h
    subst h
    rfl
  all_goals simp_all [Scanned.fault]

/-- What a number scan gives is the token of some first characters, or the fault of one of its
parts: so a property of scans holds of a number scan once it holds of those. -/
theorem scanNumber_of_parts {start : Cursor} {cs : List Char} (P : Scanned → Prop)
    (hint : ∀ i s, integerEnd start cs i = .error s → P s)
    (hfrac : ∀ i s, fractionEnd start cs i = .error s → P s)
    (hexp : ∀ i s, exponentEnd start cs i = .error s → P s)
    (htok : ∀ kind k, kind = .int ∨ kind = .float →
      P (Scanned.token start cs kind (String.ofList (cs.take k)) k)) :
    P (scanNumber start cs) := by
  unfold scanNumber
  generalize (if cs.head? = some '-' then 1 else 0) = sgn
  cases hi : integerEnd start cs sgn with
  | error e => simp only [bind, Except.bind, hi]; exact hint _ _ hi
  | ok i =>
    cases hf : fractionEnd start cs i with
    | error e => simp only [bind, Except.bind, hi, hf]; exact hfrac _ _ hf
    | ok p =>
      cases he : exponentEnd start cs p.1 with
      | error e => simp only [bind, Except.bind, hi, hf, he]; exact hexp _ _ he
      | ok q =>
        simp only [bind, Except.bind, hi, hf, he, pure, Except.pure]
        exact htok _ _ (by split <;> simp)

theorem scanNumber_kind (start : Cursor) (cs : List Char) (t : Token)
    (h : (scanNumber start cs).1 = .ok t) : t.kind = .int ∨ t.kind = .float := by
  revert h
  apply scanNumber_of_parts (fun s => s.1 = .ok t → t.kind = .int ∨ t.kind = .float)
  · exact fun i s hi h => absurd h (integerEnd_fault hi t)
  · exact fun i s hf h => absurd h (fractionEnd_fault hf t)
  · exact fun i s he h => absurd h (exponentEnd_fault he t)
  · intro kind k hk h
    simp only [Scanned.token, Except.ok.injEq] at h
    subst h
    exact hk

theorem symbolKind_closes {c : Char} {k : TokenKind} (h : TokenKind.ofSymbolChar? c = some k) :
    k.closes = false := by
  have hall : ∀ p ∈ TokenKind.singleCharSymbols, p.2.closes = false := by decide
  obtain ⟨p, hp, rfl⟩ := Option.map_eq_some_iff.mp h
  exact hall p (List.mem_of_find?_eq_some hp)

theorem scanToken_kind (start : Cursor) (c : Char) (r : List Char) (t : Token)
    (h : (scanToken start (c :: r)).1 = .ok t) : t.kind.closes = false := by
  simp only [scanToken] at h
  split at h
  · rename_i k hk
    simp only [Scanned.token] at h
    cases h
    exact symbolKind_closes hk
  split at h
  · simp only [scanComment, Scanned.token] at h; cases h; rfl
  split at h
  · simp only [scanSpread] at h; split at h <;> simp [Scanned.token, Scanned.fault] at h; cases h; rfl
  split at h
  · split at h
    · rw [blockBody_kind _ _ _ _ _ _ h]; rfl
    · rw [stringBody_kind _ _ _ _ _ _ h]; rfl
  split at h
  · simp [Scanned.fault] at h
  split at h
  · simp only [scanName, Scanned.token] at h; cases h; rfl
  split at h
  · rcases scanNumber_kind _ _ _ h with h1 | h1 <;> rw [h1] <;> rfl
  · simp [Scanned.fault] at h

namespace Lexer

/-- **A read that gives no end token takes at least one character.** -/
theorem read_rest_lt {lx : Lexer} (h : ∀ t, lx.read.1 = .ok t → t.kind ≠ .eof) :
    lx.read.2.rest.length < lx.rest.length := by
  simp only [read] at h ⊢
  generalize hcs : lx.rest.dropWhile isIgnored = cs at h
  have hle : cs.length ≤ lx.rest.length := by
    rw [← hcs]; exact (List.dropWhile_suffix _).length_le
  cases cs with
  | nil => exact absurd rfl (h _ rfl)
  | cons c r =>
    have := scanToken_pos (lx.pos.advance (lx.rest.takeWhile isIgnored)) c r
    simp only [List.length_drop]
    simp only [List.length_cons] at hle ⊢
    omega

end Lexer

end Gql
