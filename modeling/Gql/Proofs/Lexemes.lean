import Gql.Proofs.Acceptance
/-!
# Lexemes — texts that read as given tokens

`Lexer.Lexes follow cs ks` says that the characters `cs`, before any text that `follow`
admits, read as tokens whose kinds and values are `ks`, and that the reading then goes on
with that text as if it stood alone.  Pieces compose (`Lexes.append`) when what follows
the first piece is admitted by its condition.  Names and numbers need `Boundary`: the
next character is ignored or a one-character punctuator, so that they end there.

Here are the lexemes of ignored characters, punctuators, the spread, names and numbers;
the string literals are in `Literals`.
-/
namespace Gql

def Token.lexeme (t : Token) : TokenKind × String := (t.kind, t.value)

/-- A name of GraphQL: a name-start character, then name characters. -/
def isName (s : String) : Bool :=
  match s.toList with
  | c :: r => isNameStart c && r.all isNameContinue
  | [] => false

/-! ### Number lexemes -/

def IsDigits (ds : List Char) : Prop := ds ≠ [] ∧ ∀ x ∈ ds, x.isDigit = true

/-- The integer part of a number without its sign: `0`, or a digit other than `0` and
more digits. -/
def IsNatural (cs : List Char) : Prop :=
  cs = ['0'] ∨ ∃ d ds, cs = d :: ds ∧ d.isDigit = true ∧ d ≠ '0' ∧ ∀ x ∈ ds, x.isDigit = true

/-- An integer lexeme, `-? (0 | [1-9][0-9]*)`. -/
def IsIntLexeme (cs : List Char) : Prop :=
  ∃ sign n, cs = sign ++ n ∧ (sign = [] ∨ sign = ['-']) ∧ IsNatural n

/-- A fraction `. [0-9]+`, or nothing. -/
def IsFraction (cs : List Char) : Prop := cs = [] ∨ ∃ ds, cs = '.' :: ds ∧ IsDigits ds

/-- An exponent `[eE] [+-]? [0-9]+`, or nothing. -/
def IsExponent (cs : List Char) : Prop :=
  cs = [] ∨ ∃ e s ds, cs = e :: s ++ ds ∧ (e = 'e' ∨ e = 'E') ∧ (s = [] ∨ s = ['+'] ∨ s = ['-']) ∧
    IsDigits ds

def IsFloatLexeme (cs : List Char) : Prop :=
  ∃ i f e, cs = i ++ f ++ e ∧ IsIntLexeme i ∧ IsFraction f ∧ IsExponent e ∧ (f ≠ [] ∨ e ≠ [])

namespace Lexer

/-- A text at whose start no name or number goes on and no string delimiter stands: it is
empty, or starts with an ignored character or a one-character punctuator. -/
def Boundary (cs : List Char) : Prop :=
  ∀ c ∈ cs.head?, isIgnored c = true ∨ (TokenKind.ofSymbolChar? c).isSome = true

/-- `cs` reads as tokens with the kinds and values `ks`, from any cursor and before any text
that `follow` admits, and the reading then goes on with that text. -/
def Lexes (follow : List Char → Prop) (cs : List Char) (ks : List (TokenKind × String)) : Prop :=
  ∀ (pos : Cursor) rest, follow rest → ∃ ts pos', ts.map Token.lexeme = ks ∧
    significant ⟨cs ++ rest, pos⟩ = (ts ++ (significant ⟨rest, pos'⟩).1, (significant ⟨rest, pos'⟩).2)

/-! ### Boundaries -/

@[simp] theorem boundary_nil : Boundary [] := by simp [Boundary]

@[simp] theorem boundary_cons (c : Char) (r : List Char) :
    Boundary (c :: r) ↔ isIgnored c = true ∨ (TokenKind.ofSymbolChar? c).isSome = true := by
  simp [Boundary]

theorem Boundary.append {a b : List Char} (ha : Boundary a) (hb : Boundary b) : Boundary (a ++ b) := by
  cases a with
  | nil => exact hb
  | cons c r => exact (boundary_cons c r).2 ((boundary_cons c r).1 ha)

theorem ofSymbolChar?_mem {c : Char} {k : TokenKind} (h : TokenKind.ofSymbolChar? c = some k) :
    (c, k) ∈ TokenKind.singleCharSymbols := by
  unfold TokenKind.ofSymbolChar? at h
  obtain ⟨p, hp, rfl⟩ := Option.map_eq_some_iff.1 h
  have hc : p.1 = c := by simpa using List.find?_some hp
  rw [← hc]
  exact List.mem_of_find?_eq_some hp

theorem symbol_facts : ∀ p ∈ TokenKind.singleCharSymbols,
    isIgnored p.1 = false ∧ isNameContinue p.1 = false ∧ p.1.isDigit = false ∧ p.1 ≠ '.' ∧
      p.1 ≠ 'e' ∧ p.1 ≠ 'E' ∧ p.1 ≠ '"' ∧ p.1 ≠ '-' ∧ p.2 ≠ .eof ∧ p.2 ≠ .comment := by
  decide

theorem mem_of_isIgnored {c : Char} (h : isIgnored c = true) :
    c ∈ [' ', '\t', ',', '\n', '\r', '\uFEFF'] := by
  simp only [isIgnored, Bool.or_eq_true, beq_iff_eq, or_assoc] at h
  simp only [List.mem_cons, List.not_mem_nil, or_false]
  exact h

theorem Boundary.stops {cs : List Char} (h : Boundary cs) :
    ∀ c ∈ cs.head?, isNameContinue c = false ∧ c.isDigit = false ∧ c ≠ '.' ∧ c ≠ 'e' ∧ c ≠ 'E' ∧
      c ≠ '"' := by
  intro c hc
  rcases h c hc with hi | hs
  · have hmem := mem_of_isIgnored hi
    simp only [List.mem_cons, List.not_mem_nil, or_false] at hmem
    rcases hmem with rfl | rfl | rfl | rfl | rfl | rfl <;> decide
  · obtain ⟨k, hk⟩ := Option.isSome_iff_exists.1 hs
    obtain ⟨-, h1, h2, h3, h4, h5, h6, -⟩ := symbol_facts _ (ofSymbolChar?_mem hk)
    exact ⟨h1, h2, h3, h4, h5, h6⟩

/-! ### Reading pieces of text -/

theorem significant_congr {lx lx' : Lexer} (h : lx.read = lx'.read) :
    lx.significant = lx'.significant := by
  rcases hr : lx'.read with ⟨r, next⟩
  cases r with
  | error e =>
    rw [significant_of_fault (e := e) (by rw [h, hr]), significant_of_fault (e := e) (by rw [hr])]
  | ok t =>
    have h1 : lx.read.1 = .ok t := by rw [h, hr]
    have h2 : lx'.read.1 = .ok t := by rw [hr]
    by_cases ht : t.kind = .eof
    · rw [significant_of_eof h1 ht, significant_of_eof h2 ht]
    · rw [significant_of_token h1 ht, significant_of_token h2 ht, h]

theorem read_ignored {ws : List Char} (hw : ∀ c ∈ ws, isIgnored c = true) (rest : List Char)
    (pos : Cursor) : (⟨ws ++ rest, pos⟩ : Lexer).read = (⟨rest, pos.advance ws⟩ : Lexer).read := by
  simp only [read, List.takeWhile_append_of_pos hw, List.dropWhile_append_of_pos hw,
    Cursor.advance_append]

theorem significant_empty (pos : Cursor) :
    significant ⟨[], pos⟩ = ([], .eof ⟨.eof, "", pos.spanTo pos⟩) :=
  significant_of_eof (by rw [read_empty]) rfl

theorem Lexes.mono {P Q : List Char → Prop} {cs ks} (h : Lexes P cs ks) (hPQ : ∀ r, Q r → P r) :
    Lexes Q cs ks :=
  fun pos rest hq => h pos rest (hPQ rest hq)

/-- **Pieces of text read one after the other**, when what follows the first piece is
admitted by its condition. -/
theorem Lexes.append {P Q : List Char → Prop} {a b ks ls} (ha : Lexes P a ks) (hb : Lexes Q b ls)
    (hf : ∀ r, Q r → P (b ++ r)) : Lexes Q (a ++ b) (ks ++ ls) := by
  intro pos rest hq
  obtain ⟨ts, pos1, hts, ha'⟩ := ha pos (b ++ rest) (hf rest hq)
  obtain ⟨us, pos2, hus, hb'⟩ := hb pos1 rest hq
  refine ⟨ts ++ us, pos2, by rw [List.map_append, hts, hus], ?_⟩
  rw [List.append_assoc, ha', hb', List.append_assoc]

theorem lexes_nil (P : List Char → Prop) : Lexes P [] [] :=
  fun pos _ _ => ⟨[], pos, rfl, rfl⟩

theorem lexes_ignored (P : List Char → Prop) {ws : List Char} (hw : ∀ c ∈ ws, isIgnored c = true) :
    Lexes P ws [] := by
  intro pos rest _
  refine ⟨[], pos.advance ws, rfl, ?_⟩
  rw [significant_congr (read_ignored hw rest pos), List.nil_append]

/-- A token whose scan takes exactly its characters `c :: r`, whatever `follow` admits after
them, reads as that token. -/
theorem lexes_token {P : List Char → Prop} {c : Char} {r : List Char} {k : TokenKind} {v : String}
    (hk : k ≠ .eof) (hc : k ≠ .comment) (hi : isIgnored c = false)
    (hscan : ∀ start rest, P rest →
      scanToken start (c :: r ++ rest) = Scanned.token start (c :: r ++ rest) k v (r.length + 1)) :
    Lexes P (c :: r) [(k, v)] := by
  intro pos rest hp
  have hread : (⟨c :: r ++ rest, pos⟩ : Lexer).read =
      (.ok ⟨k, v, pos.spanOf (c :: r ++ rest) 0 (r.length + 1)⟩, ⟨rest, pos.advance (c :: r)⟩) := by
    have htw : (c :: r ++ rest).takeWhile isIgnored = [] := List.takeWhile_cons_of_neg (by simp [hi])
    have hdw : (c :: r ++ rest).dropWhile isIgnored = c :: r ++ rest :=
      List.dropWhile_cons_of_neg (by simp [hi])
    simp only [read, htw, hdw, Cursor.advance_nil, hscan pos rest hp, Scanned.token]
    simp
  refine ⟨[⟨k, v, pos.spanOf (c :: r ++ rest) 0 (r.length + 1)⟩], pos.advance (c :: r), rfl, ?_⟩
  rw [significant_of_token (by rw [hread]) hk, hread]
  simp [hc]

/-! ### Punctuators and names -/

theorem scanToken_symbol {c : Char} {k : TokenKind} (h : TokenKind.ofSymbolChar? c = some k)
    (start : Cursor) (r : List Char) :
    scanToken start (c :: r) = Scanned.token start (c :: r) k (k.symbol?.getD "") 1 := by
  simp [scanToken, h]

theorem lexes_symbol (P : List Char → Prop) {c : Char} {k : TokenKind}
    (h : TokenKind.ofSymbolChar? c = some k) : Lexes P [c] [(k, k.symbol?.getD "")] := by
  obtain ⟨hi, -, -, -, -, -, -, -, hk, hc⟩ := symbol_facts _ (ofSymbolChar?_mem h)
  exact lexes_token hk hc hi (fun start rest _ => scanToken_symbol h start rest)

theorem lexes_spread (P : List Char → Prop) : Lexes P ['.', '.', '.'] [(.spread, "...")] := by
  refine lexes_token (by decide) (by decide) (by decide) (fun start rest _ => ?_)
  simp [scanToken, scanSpread, TokenKind.ofSymbolChar?, TokenKind.singleCharSymbols]

theorem scanToken_of_nameStart {c : Char} (hs : isNameStart c = true) (start : Cursor) (r : List Char) :
    scanToken start (c :: r) = scanName start (c :: r) := by
  have hsym : TokenKind.ofSymbolChar? c = none := by
    cases h : TokenKind.ofSymbolChar? c with
    | none => rfl
    | some k =>
      have hn : isNameContinue c = true := by
        simp only [isNameStart, isNameContinue, Bool.or_eq_true, beq_iff_eq, Char.isAlphanum] at hs ⊢
        rcases hs with hs | hs
        · exact .inl hs
        · exact .inr (by simp [hs])
      exact absurd hn (by simp [(symbol_facts _ (ofSymbolChar?_mem h)).2.1])
  have h1 : c ≠ '#' := by rintro rfl; exact absurd hs (by decide)
  have h2 : c ≠ '.' := by rintro rfl; exact absurd hs (by decide)
  have h3 : c ≠ '"' := by rintro rfl; exact absurd hs (by decide)
  have h4 : c ≠ '\'' := by rintro rfl; exact absurd hs (by decide)
  simp [scanToken, hsym, h1, h2, h3, h4, hs]

theorem lexes_name {s : String} (h : isName s = true) : Lexes Boundary s.toList [(.name, s)] := by
  unfold isName at h
  split at h
  · rename_i c r hs
    simp only [Bool.and_eq_true, List.all_eq_true] at h
    rw [hs]
    refine lexes_token (by decide) (by decide) ?_ (fun start rest hb => ?_)
    · rcases h with ⟨hc, -⟩
      simp only [isNameStart, Bool.or_eq_true, beq_iff_eq] at hc
      simp only [isIgnored, Bool.or_eq_false_iff, beq_eq_false_iff_ne, ne_eq]
      rcases hc with rfl | hc
      · decide
      · refine ⟨⟨⟨⟨⟨?_, ?_⟩, ?_⟩, ?_⟩, ?_⟩, ?_⟩ <;> rintro rfl <;> exact absurd hc (by decide)
    · have htake : (r ++ rest).takeWhile isNameContinue = r := by
        rw [List.takeWhile_append_of_pos h.2]
        cases rest with
        | nil => simp
        | cons x xs =>
          rw [List.takeWhile_cons_of_neg (by simp [(Boundary.stops hb x rfl).1]), List.append_nil]
      rw [List.cons_append, scanToken_of_nameStart h.1, scanName]
      simp only [List.drop_succ_cons, List.drop_zero, htake]
      rw [Nat.add_comm, List.take_succ_cons, List.take_left' rfl, ← hs, String.ofList_toList]
  · exact absurd h (by decide)

/-! ### Numbers

The number scanner reads by index; each part of a lexeme is read where the text from that
index on is the part followed by what comes after it. -/

section Numbers

variable {start : Cursor} {cs : List Char} {i : Nat}

theorem digitsAt_of_drop {ds post : List Char} (h : cs.drop i = ds ++ post)
    (hd : ∀ x ∈ ds, x.isDigit = true) (hp : ∀ x ∈ post.head?, x.isDigit = false) :
    digitsAt cs i = ds.length := by
  rw [digitsAt, h, List.takeWhile_append_of_pos hd]
  cases post with
  | nil => simp
  | cons x xs => rw [List.takeWhile_cons_of_neg (by simp [hp x rfl]), List.append_nil]

theorem needDigits_of_drop {ds post : List Char} (h : cs.drop i = ds ++ post) (hd : IsDigits ds)
    (hp : ∀ x ∈ post.head?, x.isDigit = false) : needDigits start cs i = .ok (i + ds.length) := by
  have hn := digitsAt_of_drop h hd.2 hp
  have hne : ds.length ≠ 0 := by simpa using hd.1
  simp [needDigits, hn, hne]

theorem drop_succ_of_drop {c : Char} {r : List Char} (h : cs.drop i = c :: r) : cs.drop (i + 1) = r := by
  rw [← List.drop_drop, h, List.drop_one, List.tail_cons]

theorem integerEnd_of_drop {n post : List Char} (h : cs.drop i = n ++ post) (hn : IsNatural n)
    (hp : ∀ x ∈ post.head?, x.isDigit = false) : integerEnd start cs i = .ok (i + n.length) := by
  rcases hn with rfl | ⟨d, ds, rfl, hd, h0, hds⟩
  · rw [integerEnd, h]
    cases post with
    | nil => rfl
    | cons x xs => simp [hp x rfl]
  · have hnd : needDigits start cs i = .ok (i + (d :: ds).length) :=
      needDigits_of_drop h ⟨by simp, List.forall_mem_cons.2 ⟨hd, hds⟩⟩ hp
    rw [integerEnd, h]
    split
    · rename_i heq; simp only [List.cons_append, List.cons.injEq] at heq; exact absurd heq.1 h0
    · rename_i heq; simp only [List.cons_append, List.cons.injEq] at heq; exact absurd heq.1 h0
    · exact hnd

theorem fractionEnd_of_drop {f post : List Char} (h : cs.drop i = f ++ post) (hf : IsFraction f)
    (hp : ∀ x ∈ post.head?, x.isDigit = false ∧ (f = [] → x ≠ '.')) :
    fractionEnd start cs i = .ok (i + f.length, !f.isEmpty) := by
  rcases hf with rfl | ⟨ds, rfl, hds⟩
  · rw [fractionEnd, h]
    cases post with
    | nil => rfl
    | cons x xs => simp [(hp x rfl).2 rfl]
  · have hd : cs.drop (i + 1) = ds ++ post := drop_succ_of_drop (by rw [h]; rfl)
    rw [fractionEnd, h, List.cons_append, needDigits_of_drop hd hds (fun x hx => (hp x hx).1)]
    simp [Except.map, Nat.add_assoc, Nat.add_comm 1]

theorem exponentEnd_of_drop {e post : List Char} (h : cs.drop i = e ++ post) (he : IsExponent e)
    (hp : ∀ x ∈ post.head?, x.isDigit = false ∧ (e = [] → x ≠ 'e' ∧ x ≠ 'E')) :
    exponentEnd start cs i = .ok (i + e.length, !e.isEmpty) := by
  rcases he with rfl | ⟨m, sg, ds, rfl, hm, hsg, hds⟩
  · rw [exponentEnd, h]
    cases post with
    | nil => rfl
    | cons x xs =>
      obtain ⟨hxe, hxE⟩ := (hp x rfl).2 rfl
      simp only [List.nil_append]
      split <;> simp_all
  · obtain ⟨d, ds', rfl⟩ := List.exists_cons_of_ne_nil hds.1
    have hdig : d.isDigit = true := hds.2 d (by simp)
    have hpd : ∀ x ∈ post.head?, x.isDigit = false := fun x hx => (hp x hx).1
    rcases hsg with rfl | rfl | rfl
    · have hd : cs.drop (i + 1) = (d :: ds') ++ post := drop_succ_of_drop (by rw [h]; rfl)
      have hnd : needDigits start cs (i + 1) = .ok (i + 1 + (d :: ds').length) :=
        needDigits_of_drop hd hds hpd
      have hd' : d ≠ '+' ∧ d ≠ '-' := by
        constructor <;> rintro rfl <;> exact absurd hdig (by decide)
      rw [exponentEnd, h]
      rcases hm with rfl | rfl <;> simp [hd'.1, hd'.2, hnd, Except.map, Nat.add_assoc, Nat.add_comm 1]
    all_goals
      have hd : cs.drop (i + 2) = (d :: ds') ++ post := by
        rw [← List.drop_drop, drop_succ_of_drop (by rw [h]; rfl)]; rfl
      have hnd : needDigits start cs (i + 2) = .ok (i + 2 + (d :: ds').length) :=
        needDigits_of_drop hd hds hpd
      rw [exponentEnd, h]
      rcases hm with rfl | rfl <;> simp [hnd, Except.map] <;> omega

theorem toNat_of_isDigit {c : Char} (h : c.isDigit = true) : 48 ≤ c.toNat ∧ c.toNat ≤ 57 := by
  simp only [Char.isDigit, Bool.and_eq_true, decide_eq_true_eq, ge_iff_le, UInt32.le_iff_toNat_le] at h
  exact h

theorem toNat_of_isNameStart {c : Char} (h : isNameStart c = true) :
    c.toNat = 95 ∨ (65 ≤ c.toNat ∧ c.toNat ≤ 90) ∨ (97 ≤ c.toNat ∧ c.toNat ≤ 122) := by
  -- the letter tests read through their definitions, without unfolding them by name
  have h' : (c == '_' || (decide (c.val ≥ 'A'.val ∧ c.val ≤ 'Z'.val) ||
      (decide (c.val ≥ 'a'.val) && decide (c.val ≤ 'z'.val)))) = true := h
  simp only [Bool.or_eq_true, Bool.and_eq_true, beq_iff_eq, decide_eq_true_eq, ge_iff_le,
    UInt32.le_iff_toNat_le] at h'
  rcases h' with rfl | h | h
  · exact .inl rfl
  · exact .inr (.inl h)
  · exact .inr (.inr h)

theorem scanToken_of_numberStart {c : Char} (hs : c = '-' ∨ c.isDigit = true) (r : List Char) :
    scanToken start (c :: r) = scanNumber start (c :: r) := by
  have hsym : TokenKind.ofSymbolChar? c = none := by
    cases h : TokenKind.ofSymbolChar? c with
    | none => rfl
    | some k =>
      obtain ⟨-, -, hd, -, -, -, -, hm, -⟩ := symbol_facts _ (ofSymbolChar?_mem h)
      rcases hs with hs | hs
      · exact absurd hs hm
      · simp [hs] at hd
  have hn : isNameStart c = false := by
    rcases hs with rfl | hs
    · decide
    · have hd := toNat_of_isDigit hs
      cases hc : isNameStart c
      · rfl
      · have := toNat_of_isNameStart hc
        omega
  have hne : c ≠ '#' ∧ c ≠ '.' ∧ c ≠ '"' ∧ c ≠ '\'' := by
    rcases hs with rfl | hs
    · decide
    · have hd := toNat_of_isDigit hs
      refine ⟨?_, ?_, ?_, ?_⟩ <;> rintro rfl <;> revert hd <;> decide
  have hnum : (decide (c = '-') || c.isDigit) = true := by
    rcases hs with hs | hs <;> simp [hs]
  simp [scanToken, hsym, hn, hnum, hne.1, hne.2.1, hne.2.2.1, hne.2.2.2]

/-- What may stand right after a number lexeme with fraction `f` and exponent `e` for the
scanner to stop there: no digit, no `.` after a number with neither part, and no `e` or `E`
after a number without an exponent. -/
def NumberStops (f e : List Char) (x : Char) : Prop :=
  x.isDigit = false ∧ (f = [] → e = [] → x ≠ '.') ∧ (e = [] → x ≠ 'e' ∧ x ≠ 'E')

theorem Boundary.numberStops {rest : List Char} (hr : Boundary rest) (f e : List Char) :
    ∀ x ∈ rest.head?, NumberStops f e x := by
  intro x hx
  obtain ⟨-, hd, hdot, he1, he2, -⟩ := hr.stops x hx
  exact ⟨hd, fun _ _ => hdot, fun _ => ⟨he1, he2⟩⟩

theorem IsExponent.head {f e rest : List Char} (he : IsExponent e) (hr : ∀ x ∈ rest.head?, NumberStops f e x) :
    ∀ x ∈ (e ++ rest).head?, x.isDigit = false ∧ (f = [] → x ≠ '.') := by
  rcases he with rfl | ⟨m, sg, ds, rfl, hm, -, -⟩
  · intro x hx
    obtain ⟨hd, hdot, -⟩ := hr x hx
    exact ⟨hd, fun hf => hdot hf rfl⟩
  · intro x hx
    simp only [List.cons_append, List.head?_cons, Option.mem_def, Option.some.injEq] at hx
    subst hx
    rcases hm with rfl | rfl <;> exact ⟨by decide, fun _ => by decide⟩

theorem IsFraction.head {f e rest : List Char} (hf : IsFraction f) (he : IsExponent e)
    (hr : ∀ x ∈ rest.head?, NumberStops f e x) : ∀ x ∈ (f ++ (e ++ rest)).head?, x.isDigit = false := by
  rcases hf with rfl | ⟨ds, rfl, -⟩
  · exact fun x hx => (IsExponent.head he hr x hx).1
  · intro x hx
    simp only [List.cons_append, List.head?_cons, Option.mem_def, Option.some.injEq] at hx
    subst hx
    decide

/-- A number lexeme, its sign, integer part, fraction and exponent, is scanned whole when
what follows it stops it; it is a float when it has a fraction or an exponent. -/
theorem scanNumber_parts {lex sign n f e rest : List Char} (hlex : lex = sign ++ n ++ f ++ e)
    (hs : sign = [] ∨ sign = ['-']) (hn : IsNatural n) (hf : IsFraction f) (he : IsExponent e)
    (hr : ∀ x ∈ rest.head?, NumberStops f e x) :
    scanNumber start (lex ++ rest) = Scanned.token start (lex ++ rest)
      (if (!f.isEmpty || !e.isEmpty) = true then .float else .int) (String.ofList lex) lex.length := by
  have hL : lex ++ rest = sign ++ (n ++ (f ++ (e ++ rest))) := by simp [hlex]
  have hn0 : n ≠ [] := by rcases hn with rfl | ⟨d, ds, rfl, -⟩ <;> simp
  have hsign : (if (lex ++ rest).head? = some '-' then 1 else 0) = sign.length := by
    rcases hs with rfl | rfl
    · obtain ⟨d, ds, rfl⟩ := List.exists_cons_of_ne_nil hn0
      have hd : d ≠ '-' := by
        rcases hn with h | ⟨d', ds', h, hd', -⟩
        · simp only [List.cons.injEq] at h; rw [h.1]; decide
        · simp only [List.cons.injEq] at h
          rw [h.1]; rintro rfl; exact absurd hd' (by decide)
      simp [hL, hd]
    · simp [hL]
  have hint : integerEnd start (lex ++ rest) sign.length = .ok (sign.length + n.length) :=
    integerEnd_of_drop (by rw [hL, List.drop_left]) hn (IsFraction.head hf he hr)
  have hfrac : fractionEnd start (lex ++ rest) (sign.length + n.length) =
      .ok (sign.length + n.length + f.length, !f.isEmpty) :=
    fractionEnd_of_drop (by rw [hL, ← List.append_assoc, List.drop_left' (by simp)]) hf (IsExponent.head he hr)
  have hexp : exponentEnd start (lex ++ rest) (sign.length + n.length + f.length) =
      .ok (sign.length + n.length + f.length + e.length, !e.isEmpty) := by
    have hdrop : (lex ++ rest).drop (sign.length + n.length + f.length) = e ++ rest := by
      rw [hL, ← List.append_assoc, ← List.append_assoc, List.drop_left' (by simp [Nat.add_assoc])]
    exact exponentEnd_of_drop hdrop he (fun x hx => ⟨(hr x hx).1, (hr x hx).2.2⟩)
  have hk : sign.length + n.length + f.length + e.length = lex.length := by simp [hlex, Nat.add_assoc]
  have htake : (lex ++ rest).take lex.length = lex := List.take_left' rfl
  simp only [scanNumber, hsign, hint, hfrac, hexp, bind, Except.bind, pure, Except.pure, hk, htake]

theorem lexes_number {s : String} {sign n f e : List Char} (hsn : s.toList = sign ++ n ++ f ++ e)
    (hs : sign = [] ∨ sign = ['-']) (hn : IsNatural n) (hf : IsFraction f) (he : IsExponent e) :
    Lexes Boundary s.toList [(if (!f.isEmpty || !e.isEmpty) = true then .float else .int, s)] := by
  obtain ⟨c, r, hcr, hc⟩ : ∃ c r, s.toList = c :: r ∧ (c = '-' ∨ c.isDigit = true) := by
    rcases hs with rfl | rfl
    · rcases hn with rfl | ⟨d, ds, rfl, hd, -⟩
      · exact ⟨_, _, hsn, .inr (by decide)⟩
      · exact ⟨_, _, hsn, .inr hd⟩
    · exact ⟨_, _, hsn, .inl rfl⟩
  have hi : isIgnored c = false := by
    rcases hc with rfl | hc
    · decide
    · have := toNat_of_isDigit hc
      cases hi : isIgnored c
      · rfl
      · have hm := mem_of_isIgnored hi
        simp only [List.mem_cons, List.not_mem_nil, or_false] at hm
        rcases hm with rfl | rfl | rfl | rfl | rfl | rfl <;> revert this <;> decide
  rw [hcr]
  refine lexes_token (by split <;> decide) (by split <;> decide) hi (fun start rest hr => ?_)
  rw [List.cons_append, scanToken_of_numberStart hc, ← List.cons_append, ← hcr,
    scanNumber_parts hsn hs hn hf he (hr.numberStops f e), String.ofList_toList, hcr]
  rfl

/-- **An integer lexeme reads as an integer token** when a boundary follows it. -/
theorem lexes_int {s : String} (h : IsIntLexeme s.toList) : Lexes Boundary s.toList [(.int, s)] := by
  obtain ⟨sign, n, hsn, hs, hn⟩ := h
  simpa using lexes_number (f := []) (e := []) (by simp [hsn]) hs hn (.inl rfl) (.inl rfl)

/-- **A float lexeme reads as a float token** when a boundary follows it. -/
theorem lexes_float {s : String} (h : IsFloatLexeme s.toList) : Lexes Boundary s.toList [(.float, s)] := by
  obtain ⟨i, f, e, hife, ⟨sign, n, rfl, hs, hn⟩, hf, he, hfe⟩ := h
  have hkind : (!f.isEmpty || !e.isEmpty) = true := by
    rcases hfe with hfe | hfe <;> simp [hfe]
  simpa [hkind] using lexes_number hife hs hn hf he

end Numbers

end Lexer

end Gql
