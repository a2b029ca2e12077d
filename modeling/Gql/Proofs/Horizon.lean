import Gql.Proofs.Tiling
/-!
# Horizon — what a scan depends on

A scan that gives a token looks at the characters it takes and at most at one more, the
next.  So the token comes again from any text that agrees on the characters taken and goes
on with the same next character, or ends there.  After any token but a comment, the next
character may as well be an ignored character or `#`: neither goes on with a name or a
number, and a quoted string has ended before it.  After a comment it may be any line break.

`Follows q k cs cs'` says this of `cs'`: it agrees with `cs` on the first `k` characters,
and then ends, goes on with the character that comes next in `cs`, or with one that `q`
allows.  Each scanner keeps its token along `Follows`, for the `q` its last look allows
(`scanToken_follows`).

The cursor a scan starts from only places what it gives: the lexeme or fault it gives and
the characters it takes are the same from any cursor (`scanToken_gist`).
-/
namespace Gql

/-- `cs'` agrees with `cs` on the first `k` characters, and then ends, or goes on with the
character that comes next in `cs` or with one that `q` allows. -/
def Follows (q : Char → Bool) (k : Nat) (cs cs' : List Char) : Prop :=
  cs'.take k = cs.take k ∧ ∀ x ∈ (cs'.drop k).head?, (cs.drop k).head? = some x ∨ q x = true

namespace Follows

variable {q : Char → Bool} {k : Nat} {cs cs' : List Char}

theorem drop (h : Follows q k cs cs') {i : Nat} (hi : i ≤ k) : Follows q (k - i) (cs.drop i) (cs'.drop i) := by
  obtain ⟨ht, hn⟩ := h
  refine ⟨?_, ?_⟩
  · rw [← List.drop_take, ← List.drop_take, ht]
  · rwa [List.drop_drop, List.drop_drop, Nat.add_sub_cancel' hi]

theorem cons {c c' : Char} {r r' : List Char} (h : Follows q (k + 1) (c :: r) (c' :: r')) :
    c' = c ∧ Follows q k r r' := by
  obtain ⟨ht, hn⟩ := h
  simp only [List.take_succ_cons, List.cons.injEq] at ht
  exact ⟨ht.1, ht.2, by simpa using hn⟩

theorem head (h : Follows q k cs cs') (hk : 0 < k) : cs'.head? = cs.head? := by
  have := congrArg List.head? h.1
  rwa [List.head?_take, List.head?_take, if_neg (by omega), if_neg (by omega)] at this

theorem zero (h : Follows q 0 cs cs') : ∀ x ∈ cs'.head?, cs.head? = some x ∨ q x = true := by
  simpa using h.2

theorem succ_cons {c : Char} {r : List Char} (h : Follows q (k + 1) (c :: r) cs') :
    ∃ r', cs' = c :: r' ∧ Follows q k r r' := by
  cases cs' with
  | nil => simp [Follows] at h
  | cons c' r' =>
    obtain ⟨rfl, h'⟩ := h.cons
    exact ⟨r', rfl, h'⟩

/-- A property of the next character of `cs` that every allowed character has holds of the
next character of `cs'`. -/
theorem head_of {P : Char → Prop} (h : Follows q k cs cs') (hc : ∀ x ∈ cs.head?, P x)
    (hq : ∀ x, q x = true → P x) : ∀ x ∈ cs'.head?, P x := by
  intro x hx
  cases k with
  | zero =>
    rcases h.zero x hx with h' | h'
    · exact hc x h'
    · exact hq x h'
  | succ k =>
    rw [h.head (Nat.succ_pos k)] at hx
    exact hc x hx

end Follows

theorem take_agree_append {p rest r' : List Char} {k : Nat} (hk : p.length ≤ k)
    (h : r'.take k = (p ++ rest).take k) :
    ∃ r'', r' = p ++ r'' ∧ r''.take (k - p.length) = rest.take (k - p.length) := by
  have hp : r'.take p.length = p := by
    have := congrArg (List.take p.length) h
    rwa [List.take_take, List.take_take, Nat.min_eq_left hk, List.take_left' rfl] at this
  refine ⟨r'.drop p.length, (List.take_append_drop p.length r').symm.trans (by rw [hp]), ?_⟩
  have := congrArg (List.drop p.length) h
  rwa [List.drop_take, List.drop_take, List.drop_left' rfl] at this

/-- A test that the allowed characters fail reads the same run in two texts that follow each
other past it. -/
theorem takeWhile_follows {p q : Char → Bool} (hq : ∀ x, q x = true → p x = false) :
    ∀ {l l' : List Char} {k : Nat}, (l.takeWhile p).length ≤ k → Follows q k l l' →
      l'.takeWhile p = l.takeWhile p
  | [], l', k, _, h => by
    cases l' with
    | nil => rfl
    | cons x r' =>
      cases k with
      | zero =>
        rcases h.zero x rfl with hx | hx
        · cases hx
        · simp [hq x hx]
      | succ k => simp [Follows] at h
  | c :: r, l', k, hk, h => by
    by_cases hc : p c = true
    · rw [List.takeWhile_cons_of_pos hc] at hk ⊢
      obtain ⟨k, rfl⟩ : ∃ m, k = m + 1 := ⟨k - 1, by simp at hk; omega⟩
      cases l' with
      | nil => simp [Follows] at h
      | cons c' r' =>
        obtain ⟨rfl, h'⟩ := h.cons
        rw [List.takeWhile_cons_of_pos hc, takeWhile_follows hq (by simpa using hk) h']
    · rw [List.takeWhile_cons_of_neg hc]
      cases l' with
      | nil => rfl
      | cons x r' =>
        have hx : p x = false := by
          cases k with
          | zero =>
            rcases h.zero x rfl with hx | hx
            · simp only [List.head?_cons, Option.some.injEq] at hx
              subst hx
              simpa using hc
            · exact hq x hx
          | succ k =>
            obtain ⟨rfl, -⟩ := h.cons
            simpa using hc
        simp [hx]

theorem spanOf_congr {start : Cursor} {cs cs' : List Char} {n : Nat} (h : cs'.take n = cs.take n) :
    start.spanOf cs' 0 n = start.spanOf cs 0 n := by
  simp [Cursor.spanOf, h]

/-! ### Names, comments, spreads -/

section Short

variable {start : Cursor} {cs cs' : List Char} {q : Char → Bool} {t : Token} {n : Nat}

theorem scanName_follows (hq : ∀ x, q x = true → isNameContinue x = false)
    (h : scanName start cs = (.ok t, n)) (hf : Follows q n cs cs') : scanName start cs' = (.ok t, n) := by
  simp only [scanName, Scanned.token, Prod.mk.injEq, Except.ok.injEq] at h ⊢
  obtain ⟨rfl, rfl⟩ := h
  have hrun := takeWhile_follows hq (by omega) (hf.drop (i := 1) (by omega))
  rw [hrun, hf.1, spanOf_congr hf.1]
  exact ⟨rfl, rfl⟩

theorem scanComment_follows (hq : ∀ x, q x = true → isLineBreak x = true)
    (h : scanComment start cs = (.ok t, n)) (hf : Follows q n cs cs') : scanComment start cs' = (.ok t, n) := by
  simp only [scanComment, Scanned.token, Prod.mk.injEq, Except.ok.injEq] at h ⊢
  obtain ⟨rfl, rfl⟩ := h
  have hrun := takeWhile_follows (p := fun c => !isLineBreak c) (fun x hx => by simp [hq x hx]) (by omega)
    (hf.drop (i := 1) (by omega))
  rw [hrun, spanOf_congr hf.1]
  exact ⟨rfl, rfl⟩

theorem scanSpread_follows (h : scanSpread start cs = (.ok t, n)) (hf : Follows q n cs cs') :
    scanSpread start cs' = (.ok t, n) := by
  unfold scanSpread at h
  split at h
  · rename_i tail
    simp only [Scanned.token, Prod.mk.injEq, Except.ok.injEq] at h
    obtain ⟨rfl, rfl⟩ := h
    obtain ⟨r', rfl, -⟩ := take_agree_append (p := ['.', '.', '.']) (Nat.le_refl 3) hf.1
    have hspan : start.spanOf (['.', '.', '.'] ++ r') 0 3 = start.spanOf ('.' :: '.' :: '.' :: tail) 0 3 :=
      spanOf_congr hf.1
    simp only [List.cons_append, List.nil_append] at hspan ⊢
    simp [scanSpread, Scanned.token, hspan]
  all_goals simp [Scanned.fault] at h

end Short

/-! ### Numbers

The number scanner looks at its digits, at the marks of a fraction and of an exponent, and
at the one character after all of them: an allowed character must be no digit, no `.`, no
`e` and no `E`. -/

section NumberParts

variable {start : Cursor} {cs : List Char}

/-- A number token comes from an integer part, a fraction and an exponent that each end in
turn, the last where the token does. -/
theorem scanNumber_ok {t : Token} {n : Nat} (h : scanNumber start cs = (.ok t, n)) :
    ∃ i j bf be, integerEnd start cs (if cs.head? = some '-' then 1 else 0) = .ok i ∧
      fractionEnd start cs i = .ok (j, bf) ∧ exponentEnd start cs j = .ok (n, be) ∧
      t = ⟨if (bf || be) = true then .float else .int, String.ofList (cs.take n), start.spanOf cs 0 n⟩ := by
  unfold scanNumber at h
  generalize (if cs.head? = some '-' then 1 else 0) = sgn at h ⊢
  cases hi : integerEnd start cs sgn with
  | error e =>
    simp only [hi, bind, Except.bind] at h
    exact absurd (congrArg Prod.fst h) (integerEnd_fault hi t)
  | ok i =>
    cases hfr : fractionEnd start cs i with
    | error e =>
      simp only [hi, hfr, bind, Except.bind] at h
      exact absurd (congrArg Prod.fst h) (fractionEnd_fault hfr t)
    | ok p =>
      obtain ⟨j, bf⟩ := p
      cases he : exponentEnd start cs j with
      | error e =>
        simp only [hi, hfr, he, bind, Except.bind] at h
        exact absurd (congrArg Prod.fst h) (exponentEnd_fault he t)
      | ok p' =>
        obtain ⟨m, be⟩ := p'
        simp only [hi, hfr, he, bind, Except.bind, pure, Except.pure, Scanned.token, Prod.mk.injEq] at h
        obtain ⟨ht, rfl⟩ := h
        exact ⟨i, j, bf, be, rfl, hfr, he, (Except.ok.inj ht).symm⟩

theorem needDigits_le {i j : Nat} (h : needDigits start cs i = .ok j) : j ≤ cs.length := by
  unfold needDigits at h
  split at h
  · cases h
  · rename_i h0
    cases h
    have hlen := (List.takeWhile_prefix (p := Char.isDigit) (l := cs.drop i)).length_le
    have hi : i < cs.length := by
      by_contra hge
      simp [digitsAt, List.drop_eq_nil_of_le (Nat.le_of_not_lt hge)] at h0
    simp only [digitsAt, List.length_drop] at hlen ⊢
    omega

theorem needDigits_map_le {i j : Nat} {b : Bool} (h : (needDigits start cs i).map (·, true) = .ok (j, b)) :
    j ≤ cs.length := by
  cases hd : needDigits start cs i with
  | error e => simp [hd, Except.map] at h
  | ok j' =>
    simp only [hd, Except.map, Except.ok.injEq, Prod.mk.injEq] at h
    obtain ⟨rfl, -⟩ := h
    exact needDigits_le hd

theorem integerEnd_le {i j : Nat} (h : integerEnd start cs i = .ok j) : j ≤ cs.length := by
  unfold integerEnd at h
  split at h
  · rename_i d tail heq
    have hlen := congrArg List.length heq
    split at h <;> cases h
    simp only [List.length_drop, List.length_cons] at hlen
    omega
  · rename_i heq
    have hlen := congrArg List.length heq
    cases h
    simp only [List.length_drop, List.length_cons, List.length_nil] at hlen
    omega
  · exact needDigits_le h

theorem fractionEnd_le {i j : Nat} {b : Bool} (hi : i ≤ cs.length) (h : fractionEnd start cs i = .ok (j, b)) :
    j ≤ cs.length := by
  unfold fractionEnd at h
  split at h
  · exact needDigits_map_le h
  · cases h
    exact hi

theorem exponentEnd_le {i j : Nat} {b : Bool} (hi : i ≤ cs.length) (h : exponentEnd start cs i = .ok (j, b)) :
    j ≤ cs.length := by
  unfold exponentEnd at h
  split at h
  case h_7 =>
    cases h
    exact hi
  all_goals exact needDigits_map_le h

theorem scanNumber_le {t : Token} {n : Nat} (h : scanNumber start cs = (.ok t, n)) : n ≤ cs.length := by
  obtain ⟨i, j, bf, be, hi, hfr, he, -⟩ := scanNumber_ok h
  exact exponentEnd_le (fractionEnd_le (integerEnd_le hi) hfr) he

end NumberParts

section Numbers

variable {start : Cursor} {cs cs' : List Char} {q : Char → Bool} {k : Nat}
  (hq : ∀ x, q x = true → x.isDigit = false ∧ x ≠ '.' ∧ x ≠ 'e' ∧ x ≠ 'E')
include hq

theorem digitsAt_follows {i : Nat} (hk : i + digitsAt cs i ≤ k) (hf : Follows q k cs cs') :
    digitsAt cs' i = digitsAt cs i := by
  unfold digitsAt at hk ⊢
  rw [takeWhile_follows (fun x hx => (hq x hx).1) (by omega) (hf.drop (i := i) (by omega))]

theorem needDigits_follows {i j : Nat} (h : needDigits start cs i = .ok j) (hj : j ≤ k)
    (hf : Follows q k cs cs') : needDigits start cs' i = .ok j := by
  unfold needDigits at h ⊢
  split at h
  · cases h
  · rename_i h0
    cases h
    rw [digitsAt_follows hq hj hf, if_neg h0]

theorem integerEnd_follows {i j : Nat} (h : integerEnd start cs i = .ok j) (hj : j ≤ k)
    (hf : Follows q k cs cs') : integerEnd start cs' i = .ok j := by
  have hij := integerEnd_ok h
  obtain ⟨m, hm⟩ : ∃ m, k - i = m + 1 := ⟨k - i - 1, by omega⟩
  have hd := hf.drop (i := i) (by omega)
  rw [hm] at hd
  unfold integerEnd at h ⊢
  split at h
  · rename_i d tail heq
    rw [heq] at hd
    obtain ⟨r', hr', hd'⟩ := hd.succ_cons
    have hdig : d.isDigit = false := by
      cases hd : d.isDigit
      · rfl
      · simp [hd] at h
    rw [if_neg (by simp [hdig])] at h
    cases h
    rw [hr']
    cases r' with
    | nil => rfl
    | cons y r'' =>
      have hy : y.isDigit = false :=
        hd'.head_of (P := fun x => x.isDigit = false) (by simpa using hdig) (fun x hx => (hq x hx).1) y rfl
      simp [hy]
  · rename_i heq
    rw [heq] at hd
    obtain ⟨r', hr', hd'⟩ := hd.succ_cons
    cases h
    rw [hr']
    cases r' with
    | nil => rfl
    | cons y r'' =>
      have hy : y.isDigit = false :=
        hd'.head_of (P := fun x => x.isDigit = false) (by simp) (fun x hx => (hq x hx).1) y rfl
      simp [hy]
  · rename_i h1 h2
    have hne : cs.drop i ≠ [] := by
      intro he
      simp [needDigits, digitsAt, he] at h
    obtain ⟨c, rest, hc⟩ := List.exists_cons_of_ne_nil hne
    rw [hc] at hd
    obtain ⟨r', hr', -⟩ := hd.succ_cons
    have hc0 : c ≠ '0' := by
      rintro rfl
      cases rest with
      | nil => exact h2 hc
      | cons d tail => exact h1 d tail hc
    rw [hr']
    split
    · rename_i heq
      simp only [List.cons.injEq] at heq
      exact absurd heq.1 hc0
    · rename_i heq
      simp only [List.cons.injEq] at heq
      exact absurd heq.1 hc0
    · exact needDigits_follows hq h hj hf

theorem needDigits_map_follows {i j : Nat} {b : Bool} (h : (needDigits start cs i).map (·, true) = .ok (j, b))
    (hj : j ≤ k) (hf : Follows q k cs cs') : (needDigits start cs' i).map (·, true) = .ok (j, b) := by
  cases hn : needDigits start cs i with
  | error e => simp [hn, Except.map] at h
  | ok j' =>
    simp only [hn, Except.map, Except.ok.injEq, Prod.mk.injEq] at h
    obtain ⟨rfl, rfl⟩ := h
    simp [needDigits_follows hq hn hj hf, Except.map]

theorem fractionEnd_follows {i j : Nat} {b : Bool} (h : fractionEnd start cs i = .ok (j, b)) (hj : j ≤ k)
    (hf : Follows q k cs cs') : fractionEnd start cs' i = .ok (j, b) := by
  have hij := fractionEnd_ok h
  have hd := hf.drop (i := i) (by omega)
  unfold fractionEnd at h ⊢
  split at h
  · rename_i tail heq
    have hj' := needDigits_map_ok h
    obtain ⟨m, hm⟩ : ∃ m, k - i = m + 1 := ⟨k - i - 1, by omega⟩
    rw [hm, heq] at hd
    obtain ⟨r', hr', -⟩ := hd.succ_cons
    rw [hr']
    exact needDigits_map_follows hq h hj hf
  · rename_i hnot
    cases h
    have hy : ∀ y ∈ (cs'.drop i).head?, y ≠ '.' := by
      refine hd.head_of (P := fun y => y ≠ '.') (fun y hy => ?_) (fun x hx => (hq x hx).2.1)
      rintro rfl
      obtain ⟨tail, ht⟩ := List.head?_eq_some_iff.1 hy
      exact hnot tail ht
    split
    · rename_i tail heq
      simp [heq] at hy
    · rfl

theorem exponentEnd_follows {i j : Nat} {b : Bool} (h : exponentEnd start cs i = .ok (j, b)) (hj : j ≤ k)
    (hf : Follows q k cs cs') : exponentEnd start cs' i = .ok (j, b) := by
  have hij := exponentEnd_ok h
  have hd := hf.drop (i := i) (by omega)
  unfold exponentEnd at h ⊢
  split at h
  case h_1 | h_2 | h_3 | h_4 =>
    rename_i tail heq
    have hj' := needDigits_map_ok h
    have hpre := hd.1
    rw [heq] at hpre
    obtain ⟨r', hr', -⟩ := take_agree_append (p := [_, _]) (by simp; omega) hpre
    rw [hr']
    exact needDigits_map_follows hq h hj hf
  case h_5 | h_6 =>
    rename_i _ tail hp hm heq
    have hj' := needDigits_map_ok h
    obtain ⟨c2, tail', rfl⟩ : ∃ c2 tail', tail = c2 :: tail' := by
      cases tail with
      | nil =>
        have hdrop : cs.drop (i + 1) = [] := by rw [← List.drop_drop, heq]; rfl
        simp [needDigits, digitsAt, hdrop, Except.map] at h
      | cons c2 tail' => exact ⟨c2, tail', rfl⟩
    have hpre := hd.1
    rw [heq] at hpre
    obtain ⟨r', hr', -⟩ := take_agree_append (p := [_, _]) (by simp; omega) hpre
    rw [hr']
    split <;> simp_all [needDigits_map_follows hq h hj hf]
  case h_7 =>
    rename_i h1 h2 h3 h4 h5 h6
    cases h
    have hy : ∀ y ∈ (cs'.drop i).head?, y ≠ 'e' ∧ y ≠ 'E' := by
      refine hd.head_of (P := fun y => y ≠ 'e' ∧ y ≠ 'E') (fun y hy => ?_) (fun x hx => (hq x hx).2.2)
      obtain ⟨tail, ht⟩ := List.head?_eq_some_iff.1 hy
      exact ⟨by rintro rfl; exact h5 tail ht, by rintro rfl; exact h6 tail ht⟩
    split <;> simp_all

/-- **A number is read again** from a text that follows its text past it. -/
theorem scanNumber_follows {t : Token} {n : Nat} (h : scanNumber start cs = (.ok t, n))
    (hf : Follows q n cs cs') : scanNumber start cs' = (.ok t, n) := by
  obtain ⟨i, j, bf, be, hi, hfr, he, rfl⟩ := scanNumber_ok h
  have h1 := integerEnd_ok hi
  have h2 := fractionEnd_ok hfr
  have h3 := exponentEnd_ok he
  have hsign : (if cs'.head? = some '-' then 1 else 0) = (if cs.head? = some '-' then 1 else 0) := by
    rw [hf.head (by omega)]
  unfold scanNumber
  dsimp only
  rw [hsign, integerEnd_follows hq hi (by omega) hf]
  simp only [bind, Except.bind]
  rw [fractionEnd_follows hq hfr (by omega) hf]
  simp only
  rw [exponentEnd_follows hq he (Nat.le_refl _) hf]
  simp only [pure, Except.pure, Scanned.token, hf.1, spanOf_congr hf.1]

end Numbers

/-! ### Quoted strings

A quoted string ends on a character it takes, its closing quote, so it looks at no character
past itself: any text that agrees on the characters it takes gives it again. -/

section Strings

variable {start : Cursor} {cs : List Char} {t : Token} {n : Nat}

theorem stringBody_lt {r : List Char} {i : Nat} {acc : List Char}
    (h : stringBody start cs r i acc = (.ok t, n)) : i < n := by
  revert h
  fun_induction stringBody start cs r i acc <;> intro h <;>
    simp_all [Scanned.fault, Scanned.token, badUnicodeEscape, loneSurrogate] <;> omega

theorem stringBody_prefix {r : List Char} {i : Nat} {acc : List Char} :
    stringBody start cs r i acc = (.ok t, n) → ∀ {cs' r' : List Char}, cs'.take n = cs.take n →
      r'.take (n - i) = r.take (n - i) → stringBody start cs' r' i acc = (.ok t, n) := by
  fun_induction stringBody start cs r i acc
  all_goals intro h cs' r' hcs hr
  case case4 rest i acc =>
    simp only [Scanned.token, Prod.mk.injEq, Except.ok.injEq] at h
    obtain ⟨rfl, rfl⟩ := h
    rw [Nat.add_sub_cancel_left] at hr
    obtain ⟨r'', rfl, -⟩ := take_agree_append (p := ['"']) (by simp) hr
    simp [stringBody, Scanned.token, spanOf_congr hcs]
  case case9 a b c d i acc hi hab hhi e f g k r lo hef hlo ih =>
    have hlt := stringBody_lt h
    obtain ⟨r'', rfl, hr''⟩ := take_agree_append (p := ['\\', 'u', a, b, c, d, '\\', 'u', e, f, g, k])
      (by simp; omega) hr
    simp only [List.cons_append, List.nil_append, stringBody, hab, hhi, hef, hlo, if_true]
    exact ih h hcs (by simpa [Nat.sub_sub] using hr'')
  case case14 a b c d r i acc hi hab hhi hlo ih =>
    have hlt := stringBody_lt h
    obtain ⟨r'', rfl, hr''⟩ := take_agree_append (p := ['\\', 'u', a, b, c, d]) (by simp; omega) hr
    simp only [List.cons_append, List.nil_append, stringBody, hab, hhi, hlo]
    exact ih h hcs (by simpa [Nat.sub_sub] using hr'')
  case case16 e r i acc hn hr' hu hu' d hd ih =>
    have hlt := stringBody_lt h
    obtain ⟨r'', rfl, hr''⟩ := take_agree_append (p := ['\\', e]) (by simp; omega) hr
    simp only [List.cons_append, List.nil_append]
    rw [stringBody]
    · simp only [hd]
      exact ih h hcs (by simpa [Nat.sub_sub] using hr'')
    all_goals intros; simp_all
  case case19 c r i acc hn hr' hq h1 h2 h3 h4 h5 h6 hf ih =>
    have hlt := stringBody_lt h
    have hcb : c ≠ '\\' := by
      rintro rfl
      cases r with
      | nil => exact h1 rfl rfl
      | cons e r1 => exact h6 e r1 rfl rfl
    obtain ⟨r'', rfl, hr''⟩ := take_agree_append (p := [c]) (by simp; omega) hr
    simp only [List.cons_append, List.nil_append]
    rw [stringBody]
    · simp only [hf]
      exact ih h hcs (by simpa [Nat.sub_sub] using hr'')
    all_goals intros; simp_all
  all_goals simp [Scanned.fault, badUnicodeEscape, loneSurrogate] at h

theorem blockBody_ok_le {r : List Char} {i : Nat} {acc : List Char}
    (h : blockBody start cs r i acc = (.ok t, n)) : i + 3 ≤ n := by
  revert h
  fun_induction blockBody start cs r i acc <;> intro h <;>
    simp_all [Scanned.fault, Scanned.token] <;> omega

theorem blockBody_prefix {r : List Char} {i : Nat} {acc : List Char} :
    blockBody start cs r i acc = (.ok t, n) → ∀ {cs' r' : List Char}, cs'.take n = cs.take n →
      r'.take (n - i) = r.take (n - i) → blockBody start cs' r' i acc = (.ok t, n) := by
  fun_induction blockBody start cs r i acc
  all_goals intro h cs' r' hcs hr
  case case2 rest i acc =>
    simp only [Scanned.token, Prod.mk.injEq, Except.ok.injEq] at h
    obtain ⟨rfl, rfl⟩ := h
    rw [Nat.add_sub_cancel_left] at hr
    obtain ⟨r'', rfl, -⟩ := take_agree_append (p := ['"', '"', '"']) (by simp) hr
    simp [blockBody, Scanned.token, spanOf_congr hcs]
  case case3 r i acc ih =>
    have hlt := blockBody_ok_le h
    obtain ⟨r'', rfl, hr''⟩ := take_agree_append (p := ['\\', '"', '"', '"']) (by simp; omega) hr
    simp only [List.cons_append, List.nil_append, blockBody]
    exact ih h hcs (by simpa [Nat.sub_sub] using hr'')
  case case4 r i acc ih =>
    have hlt := blockBody_ok_le h
    obtain ⟨r'', rfl, hr''⟩ := take_agree_append (p := ['\r', '\n']) (by simp; omega) hr
    simp only [List.cons_append, List.nil_append, blockBody]
    exact ih h hcs (by simpa [Nat.sub_sub] using hr'')
  case case5 r i acc hr1 ih =>
    have hlt := blockBody_ok_le h
    obtain ⟨r'', rfl, hr''⟩ := take_agree_append (p := ['\r']) (by simp; omega) hr
    simp only [List.cons_append, List.nil_append]
    rw [blockBody]
    · exact ih h hcs (by simpa [Nat.sub_sub] using hr'')
    -- the character after the carriage return is no line feed in the other text either
    intro r1 he
    subst he
    obtain ⟨r3, rfl, -⟩ := take_agree_append (p := ['\n']) (by simp; omega) hr''.symm
    exact hr1 r3 rfl
  case case7 c r i acc h1 h2 h3 h4 hf ih =>
    have hlt := blockBody_ok_le h
    obtain ⟨r'', rfl, hr''⟩ := take_agree_append (p := [c]) (by simp; omega) hr
    simp only [List.cons_append, List.nil_append]
    rw [blockBody]
    · simp only [hf]
      exact ih h hcs (by simpa [Nat.sub_sub] using hr'')
    -- the closing quotes lie at least three characters on, so the other text shares the
    · rintro r1 rfl rfl
      obtain ⟨r3, rfl, -⟩ := take_agree_append (p := ['"', '"']) (by simp; omega) hr''.symm
      exact h1 r3 rfl rfl
    · rintro r1 rfl rfl
      obtain ⟨r3, rfl, -⟩ := take_agree_append (p := ['"', '"', '"']) (by simp; omega) hr''.symm
      exact h2 r3 rfl rfl
    · exact fun _ hc => absurd hc h4
    · exact h4
  all_goals simp [Scanned.fault] at h

end Strings

/-- **A token takes no more characters than the text has.** -/
theorem scanToken_le_length {start : Cursor} {cs : List Char} {t : Token} {n : Nat}
    (h : scanToken start cs = (.ok t, n)) : n ≤ cs.length := by
  cases cs with
  | nil =>
    simp only [scanToken, Scanned.token, Prod.mk.injEq] at h
    omega
  | cons c r =>
  simp only [scanToken] at h
  split at h
  · simp only [Scanned.token, Prod.mk.injEq] at h
    simp
    omega
  split at h
  · simp only [scanComment, Scanned.token, Prod.mk.injEq] at h
    have := (List.takeWhile_prefix (p := fun c => !isLineBreak c) (l := r)).length_le
    simp [← h.2]
    omega
  split at h
  · unfold scanSpread at h
    split at h
    · rename_i tail heq
      simp only [Scanned.token, Prod.mk.injEq] at h
      simp only [List.cons.injEq] at heq
      obtain ⟨-, rfl⟩ := heq
      simp [← h.2]
    all_goals simp [Scanned.fault] at h
  split at h
  · split at h
    · obtain ⟨-, -, j, -, rfl, hd⟩ := blockBody_token h rfl
      have := congrArg List.length hd
      simp only [List.length_drop, List.length_cons] at this ⊢
      omega
    · obtain ⟨-, -, j, -, rfl, hd⟩ := stringBody_token h rfl
      have := congrArg List.length hd
      simp only [List.length_drop, List.length_cons] at this ⊢
      omega
  split at h
  · simp [Scanned.fault] at h
  split at h
  · simp only [scanName, Scanned.token, Prod.mk.injEq] at h
    have := (List.takeWhile_prefix (p := isNameContinue) (l := r)).length_le
    simp [← h.2]
    omega
  split at h
  · exact scanNumber_le h
  · simp [Scanned.fault] at h

/-! ### Any token -/

/-- The characters that may stand after a token of kind `k` in place of the one that came
after it: after a comment a line break, after any other token an ignored character or `#`. -/
def TokenKind.stops (k : TokenKind) (x : Char) : Bool :=
  if k = .comment then isLineBreak x else isIgnored x || x == '#'

theorem TokenKind.stops_facts {k : TokenKind} (hk : k ≠ .comment) {x : Char} (h : k.stops x = true) :
    isNameContinue x = false ∧ x.isDigit = false ∧ x ≠ '.' ∧ x ≠ 'e' ∧ x ≠ 'E' ∧ x ≠ '"' := by
  simp only [stops, hk, if_false, Bool.or_eq_true, beq_iff_eq] at h
  rcases h with hi | rfl
  · have hmem := Lexer.mem_of_isIgnored hi
    simp only [List.mem_cons, List.not_mem_nil, or_false] at hmem
    rcases hmem with rfl | rfl | rfl | rfl | rfl | rfl <;> decide
  · decide

section Scan

variable {start : Cursor} {c : Char} {r r' : List Char} {t : Token} {m : Nat}

/-- Past a quote that does not open a block string, a text that follows it opens none
either: the string scan has taken the second quote, if there is one, and nothing that may
follow a string is a quote. -/
theorem Follows.not_block (hk : t.kind ≠ .comment) (h : ∀ tail, r ≠ '"' :: '"' :: tail) (hm : 0 < m)
    (hf : Follows t.kind.stops m r r') : ∀ tail, r' ≠ '"' :: '"' :: tail := by
  rintro tail rfl
  obtain ⟨m, rfl⟩ : ∃ m', m = m' + 1 := ⟨m - 1, by omega⟩
  cases r with
  | nil => simp [Follows] at hf
  | cons a r1 =>
    obtain ⟨rfl, hf1⟩ := hf.cons
    have hnext := hf1.head_of (P := fun y => y ≠ '"') (fun y hy hq => ?_)
      (fun x hx => (TokenKind.stops_facts hk hx).2.2.2.2.2) '"' rfl
    · exact hnext rfl
    · subst hq
      obtain ⟨tail1, rfl⟩ := List.head?_eq_some_iff.1 hy
      exact h tail1 rfl

/-- **A token is read again** from a text that agrees on the characters its scan took and
goes on with the same character or one that may stand after the token. -/
theorem scanToken_follows {cs cs' : List Char} {n : Nat} (h : scanToken start cs = (.ok t, n))
    (hk : t.kind ≠ .eof) (hf : Follows t.kind.stops n cs cs') : scanToken start cs' = (.ok t, n) := by
  cases cs with
  | nil =>
    simp only [scanToken, Scanned.token, Prod.mk.injEq, Except.ok.injEq] at h
    exact absurd (by rw [← h.1]) hk
  | cons c r =>
  have hpos := scanToken_pos start c r
  rw [h] at hpos
  obtain ⟨m, rfl⟩ : ∃ m', n = m' + 1 := ⟨n - 1, by omega⟩
  obtain ⟨r', rfl, hr⟩ := hf.succ_cons
  simp only [scanToken] at h ⊢
  split at h
  · simp only [Scanned.token, Prod.mk.injEq, Except.ok.injEq] at h ⊢
    obtain ⟨rfl, hm⟩ := h
    exact ⟨by simp [Cursor.spanOf], hm⟩
  split at h
  · rename_i hc
    subst hc
    rw [if_pos rfl]
    have hkind : t.kind = .comment := by
      simp only [scanComment, Scanned.token, Prod.mk.injEq, Except.ok.injEq] at h
      rw [← h.1]
    exact scanComment_follows (fun x hx => by simpa [TokenKind.stops, hkind] using hx) h hf
  rename_i hc1
  rw [if_neg hc1]
  split at h
  · rename_i hc
    subst hc
    rw [if_pos rfl]
    exact scanSpread_follows h hf
  rename_i hc2
  rw [if_neg hc2]
  split at h
  · rename_i hc
    subst hc
    rw [if_pos rfl]
    split at h
    · -- a block string: it takes at least six characters, so both texts open it
      rename_i rest
      have hlen := blockBody_ok_le h
      obtain ⟨r'', rfl, -⟩ := take_agree_append (p := ['"', '"']) (by simp; omega) hr.1
      simp only [List.cons_append, List.nil_append]
      exact blockBody_prefix h hf.1 (hf.drop (i := 3) (by omega)).1
    · rename_i hnb
      have hkind := (stringBody_token h rfl).1
      have hlen := stringBody_lt h
      split
      · rename_i tail
        exact absurd rfl (hr.not_block (by rw [hkind]; decide) (fun tail he => hnb tail he) (by omega) tail)
      · exact stringBody_prefix h hf.1 (hf.drop (i := 1) (by omega)).1
  rename_i hc3
  rw [if_neg hc3]
  split at h
  · simp [Scanned.fault] at h
  rename_i hc4
  rw [if_neg hc4]
  split at h
  · rename_i hc
    rw [if_pos hc]
    have hkind : t.kind = .name := by
      simp only [scanName, Scanned.token, Prod.mk.injEq, Except.ok.injEq] at h
      rw [← h.1]
    exact scanName_follows (fun x hx => (TokenKind.stops_facts (by rw [hkind]; decide) hx).1) h hf
  rename_i hc5
  rw [if_neg hc5]
  split at h
  · rename_i hc
    rw [if_pos hc]
    have hkc : t.kind ≠ .comment := by
      rcases (scanNumber_token h).2 with hkind | hkind <;> rw [hkind] <;> decide
    refine scanNumber_follows (fun x hx => ?_) h hf
    obtain ⟨-, hd, hdot, he, hE, -⟩ := TokenKind.stops_facts hkc hx
    exact ⟨hd, hdot, he, hE⟩
  · simp [Scanned.fault] at h

end Scan

/-! ### Where a scan starts

The cursor a scan starts from only places its token or fault: what it reads, what it
faults on and how much it takes are the same from every cursor.  The parts of a number
give their errors as whole scans, so they are compared with their errors mapped. -/

theorem eq_ok_of_mapError {ε γ α : Type} {x : Except ε α} {g : ε → γ} {a : α}
    (h : x.mapError g = (Except.ok a : Except ε α).mapError g) : x = .ok a := by
  cases x <;> simp_all [Except.mapError]

theorem eq_error_of_mapError {ε γ α : Type} {x : Except ε α} {g : ε → γ} {e : ε}
    (h : x.mapError g = (Except.error e : Except ε α).mapError g) : ∃ e', x = .error e' ∧ g e' = g e := by
  cases x <;> simp_all [Except.mapError]

theorem mapError_map {ε γ α β : Type} (x : Except ε α) (g : ε → γ) (f : α → β) :
    (x.map f).mapError g = (x.mapError g).map f := by
  cases x <;> rfl

section Gist

/-- What a scan says, places aside: the lexeme of its token or its fault, and how much it
takes. -/
def Scanned.gist (s : Scanned) : Except LexFault (TokenKind × String) × Nat :=
  ((s.1.map Token.lexeme).mapError LexError.fault, s.2)

@[simp] theorem Scanned.gist_token (start : Cursor) (cs : List Char) (k : TokenKind) (v : String) (n : Nat) :
    (Scanned.token start cs k v n).gist = (.ok (k, v), n) := rfl

@[simp] theorem Scanned.gist_fault (start : Cursor) (cs : List Char) (f : LexFault) (i j : Nat) (notes : List Note) (n : Nat) :
    (Scanned.fault start cs f i j notes n).gist = (.error f, n) := rfl

variable {start : Cursor} {cs : List Char}

theorem stringBody_gist (start' : Cursor) {r : List Char} {i : Nat} {acc : List Char} :
    (stringBody start' cs r i acc).gist = (stringBody start cs r i acc).gist := by
  fun_induction stringBody start cs r i acc
  all_goals rw [stringBody]
  all_goals simp_all [badUnicodeEscape, loneSurrogate]

theorem blockBody_gist (start' : Cursor) {r : List Char} {i : Nat} {acc : List Char} :
    (blockBody start' cs r i acc).gist = (blockBody start cs r i acc).gist := by
  fun_induction blockBody start cs r i acc
  all_goals rw [blockBody]
  all_goals simp_all

theorem needDigits_gist (start' : Cursor) (i : Nat) :
    (needDigits start' cs i).mapError Scanned.gist = (needDigits start cs i).mapError Scanned.gist := by
  unfold needDigits
  split <;> rfl

theorem integerEnd_gist (start' : Cursor) (i : Nat) :
    (integerEnd start' cs i).mapError Scanned.gist = (integerEnd start cs i).mapError Scanned.gist := by
  unfold integerEnd
  split
  · split <;> rfl
  · rfl
  · exact needDigits_gist start' i

theorem fractionEnd_gist (start' : Cursor) (i : Nat) :
    (fractionEnd start' cs i).mapError Scanned.gist = (fractionEnd start cs i).mapError Scanned.gist := by
  unfold fractionEnd
  split
  · rw [mapError_map, mapError_map, needDigits_gist]
  · rfl

theorem exponentEnd_gist (start' : Cursor) (i : Nat) :
    (exponentEnd start' cs i).mapError Scanned.gist = (exponentEnd start cs i).mapError Scanned.gist := by
  unfold exponentEnd
  split
  case h_7 => rfl
  all_goals rw [mapError_map, mapError_map, needDigits_gist]

theorem scanNumber_gist (start' : Cursor) : (scanNumber start' cs).gist = (scanNumber start cs).gist := by
  unfold scanNumber
  dsimp only
  generalize (if cs.head? = some '-' then 1 else 0) = sgn
  have h1 : (integerEnd start' cs sgn).mapError Scanned.gist = (integerEnd start cs sgn).mapError Scanned.gist :=
    integerEnd_gist start' sgn
  cases hi : integerEnd start cs sgn with
  | error e =>
    rw [hi] at h1
    obtain ⟨e', hi', he⟩ := eq_error_of_mapError h1
    simp only [hi', bind, Except.bind]
    exact he
  | ok i =>
    rw [hi] at h1
    rw [eq_ok_of_mapError h1]
    simp only [bind, Except.bind]
    have h2 : (fractionEnd start' cs i).mapError Scanned.gist = (fractionEnd start cs i).mapError Scanned.gist :=
      fractionEnd_gist start' i
    cases hf : fractionEnd start cs i with
    | error e =>
      rw [hf] at h2
      obtain ⟨e', hf', he⟩ := eq_error_of_mapError h2
      simp only [hf']
      exact he
    | ok p =>
      rw [hf] at h2
      rw [eq_ok_of_mapError h2]
      simp only
      have h3 : (exponentEnd start' cs p.1).mapError Scanned.gist =
          (exponentEnd start cs p.1).mapError Scanned.gist :=
        exponentEnd_gist start' p.1
      cases he : exponentEnd start cs p.1 with
      | error e =>
        rw [he] at h3
        obtain ⟨e', he', hee⟩ := eq_error_of_mapError h3
        simp only [he']
        exact hee
      | ok p' =>
        rw [he] at h3
        rw [eq_ok_of_mapError h3]
        rfl

theorem scanToken_gist (start' : Cursor) : (scanToken start' cs).gist = (scanToken start cs).gist := by
  unfold scanToken
  split
  · rfl
  · split
    · rfl
    · split
      · simp only [scanComment, Scanned.gist_token]
      split
      · simp only [scanSpread]; split <;> rfl
      split
      · split
        · exact blockBody_gist start'
        · exact stringBody_gist start'
      split
      · rfl
      split
      · simp only [scanName, Scanned.gist_token]
      split
      · exact scanNumber_gist start'
      · rfl


end Gist

end Gql
