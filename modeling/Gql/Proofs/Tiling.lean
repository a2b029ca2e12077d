import Gql.Proofs.Positions
import Gql.Proofs.Literals
/-!
# Tiling — the tokens of a text cover it in order, with only ignored characters between

Reading a text to its end token without a fault cuts it into stretches.  Before the first
token, between two tokens and before the end token stand only ignored characters (`Blank`);
every token but the end covers a non-empty stretch of bytes, the stretches come one after
another, and the end token sits at the end of the text.  What a token's stretch holds is what
its kind says (`Token.Spelled`): a name is its own value and is not followed by a name
character, a punctuator is its symbol, a comment is `#` and its value up to a line break or
the end, and a string literal keeps its delimiters.

The proof reads one token at a time.  Each scan says which characters it took and what comes
after them (`scanToken_spelled`); a read places those characters in the text after the ones
already read (`Lexer.read_tiles`); and the run over the listing builds `Tiles` from the end
token back (`Lexer.tiles_listing`).
-/
namespace Gql

/-! ### Stretches of text -/

namespace Text

/-- The character that starts at byte offset `k` of `text`; none at the end, past it, or
inside a character. -/
def charAt (text : String) (k : Nat) : Option Char :=
  (dropBytes k text.toList).bind List.head?

theorem dropBytes_utf8Length (pre suf : List Char) :
    dropBytes (utf8Length pre) (pre ++ suf) = some suf := by
  induction pre with
  | nil => simp [dropBytes]
  | cons c r ih =>
    have hc := c.utf8Size_pos
    obtain ⟨m, hm⟩ : ∃ m, utf8Length (c :: r) = m + 1 := ⟨utf8Length (c :: r) - 1, by simp; omega⟩
    have hr : m + 1 - c.utf8Size = utf8Length r := by simp at hm; omega
    rw [hm, List.cons_append, dropBytes, if_pos (by simp at hm; omega), hr, ih]

theorem sliceBytes_middle (pre mid post : List Char) :
    sliceBytes (pre ++ mid ++ post) (utf8Length pre) (utf8Length pre + utf8Length mid) = some mid := by
  rw [sliceBytes, if_pos (Nat.le_add_right _ _), List.append_assoc, dropBytes_utf8Length,
    Option.bind_some, Nat.add_sub_cancel_left, takeBytes_utf8Length]

theorem charAt_utf8Length {text : String} {pre suf : List Char} (h : text.toList = pre ++ suf) :
    charAt text (utf8Length pre) = suf.head? := by
  simp [charAt, h, dropBytes_utf8Length]

end Text

theorem Span.text_middle {text : String} {pre mid post : List Char} (h : text.toList = pre ++ mid ++ post)
    {s : Span} (hs : s.start = Text.utf8Length pre)
    (he : s.stop = Text.utf8Length pre + Text.utf8Length mid) : s.text text = String.ofList mid := by
  rw [Span.text, hs, he, h, Text.sliceBytes_middle]
  rfl

/-- Between the byte offsets `a` and `b` of `text` stand only ignored characters. -/
def Blank (text : String) (a b : Nat) : Prop :=
  ∃ gap, Text.sliceBytes text.toList a b = some gap ∧ ∀ c ∈ gap, isIgnored c = true

theorem blank_middle {text : String} {pre ws post : List Char} (h : text.toList = pre ++ ws ++ post)
    (hw : ∀ c ∈ ws, isIgnored c = true) :
    Blank text (Text.utf8Length pre) (Text.utf8Length pre + Text.utf8Length ws) :=
  ⟨ws, by rw [h, Text.sliceBytes_middle], hw⟩

theorem Blank.le {text : String} {a b : Nat} (h : Blank text a b) : a ≤ b := by
  obtain ⟨gap, hs, -⟩ := h
  unfold Text.sliceBytes at hs
  split at hs
  · assumption
  · cases hs

/-! ### What a token's stretch holds -/

/-- What a token says of the stretch `lexeme` of text it covers and of the character `next`
after it (none at the end of the text). -/
structure Token.Spelled (t : Token) (lexeme : String) (next : Option Char) : Prop where
  name : t.kind = .name → t.value = lexeme ∧ isName lexeme = true ∧ ∀ c ∈ next, isNameContinue c = false
  punctuator : ∀ sym, t.kind.symbol? = some sym → t.value = sym ∧ lexeme = sym
  comment : t.kind = .comment →
    lexeme = "#" ++ t.value ∧ (∀ c ∈ t.value.toList, isLineBreak c = false) ∧ ∀ c ∈ next, isLineBreak c = true
  string : t.kind = .string → ∃ body, lexeme.toList = '"' :: body ++ ['"']
  blockString : t.kind = .blockString → ∃ body, lexeme.toList = ['"', '"', '"'] ++ body ++ ['"', '"', '"']

namespace Token.Spelled

variable {t : Token} {lexeme : String} {next : Option Char}

theorem of_plain (hs : t.kind.symbol? = none) (hn : t.kind ≠ .name) (hc : t.kind ≠ .comment)
    (hq : t.kind ≠ .string) (hb : t.kind ≠ .blockString) : t.Spelled lexeme next :=
  ⟨fun h => absurd h hn, fun _ h => (by rw [hs] at h; cases h), fun h => absurd h hc,
    fun h => absurd h hq, fun h => absurd h hb⟩

theorem of_symbol {sym : String} (hs : t.kind.symbol? = some sym) (hv : t.value = sym) (hl : lexeme = sym) :
    t.Spelled lexeme next := by
  have hk : t.kind ≠ .name ∧ t.kind ≠ .comment ∧ t.kind ≠ .string ∧ t.kind ≠ .blockString := by
    refine ⟨?_, ?_, ?_, ?_⟩ <;> intro h <;> rw [h] at hs <;> cases hs
  refine ⟨fun h => absurd h hk.1, fun sym' h => ?_, fun h => absurd h hk.2.1, fun h => absurd h hk.2.2.1,
    fun h => absurd h hk.2.2.2⟩
  rw [hs] at h
  cases h
  exact ⟨hv, hl⟩

theorem of_name (hk : t.kind = .name) (hv : t.value = lexeme) (hn : isName lexeme = true)
    (hx : ∀ c ∈ next, isNameContinue c = false) : t.Spelled lexeme next :=
  ⟨fun _ => ⟨hv, hn, hx⟩, fun _ h => (by rw [hk] at h; cases h), fun h => absurd (hk.symm.trans h) (by decide),
    fun h => absurd (hk.symm.trans h) (by decide), fun h => absurd (hk.symm.trans h) (by decide)⟩

theorem of_comment (hk : t.kind = .comment) (hl : lexeme = "#" ++ t.value)
    (hv : ∀ c ∈ t.value.toList, isLineBreak c = false) (hx : ∀ c ∈ next, isLineBreak c = true) :
    t.Spelled lexeme next :=
  ⟨fun h => absurd (hk.symm.trans h) (by decide), fun _ h => (by rw [hk] at h; cases h), fun _ => ⟨hl, hv, hx⟩,
    fun h => absurd (hk.symm.trans h) (by decide), fun h => absurd (hk.symm.trans h) (by decide)⟩

theorem of_string (hk : t.kind = .string) (hl : ∃ body, lexeme.toList = '"' :: body ++ ['"']) :
    t.Spelled lexeme next :=
  ⟨fun h => absurd (hk.symm.trans h) (by decide), fun _ h => (by rw [hk] at h; cases h),
    fun h => absurd (hk.symm.trans h) (by decide), fun _ => hl, fun h => absurd (hk.symm.trans h) (by decide)⟩

theorem of_blockString (hk : t.kind = .blockString)
    (hl : ∃ body, lexeme.toList = ['"', '"', '"'] ++ body ++ ['"', '"', '"']) : t.Spelled lexeme next :=
  ⟨fun h => absurd (hk.symm.trans h) (by decide), fun _ h => (by rw [hk] at h; cases h),
    fun h => absurd (hk.symm.trans h) (by decide), fun h => absurd (hk.symm.trans h) (by decide), fun _ => hl⟩

end Token.Spelled

/-! ### What one scan takes -/

section Scans

variable {start : Cursor} {cs : List Char} {t : Token} {n : Nat}

theorem take_add_of_drop {cs p rest : List Char} {i : Nat} (h : cs.drop i = p ++ rest) :
    cs.take (i + p.length) = cs.take i ++ p := by
  rw [List.take_add, h]
  simp

theorem stringBody_token {r : List Char} {i : Nat} {acc : List Char} :
    stringBody start cs r i acc = (.ok t, n) → cs.drop i = r →
      t.kind = .string ∧ t.span = start.spanOf cs 0 n ∧ ∃ j, i ≤ j ∧ n = j + 1 ∧ cs.drop j = '"' :: cs.drop (j + 1) := by
  fun_induction stringBody start cs r i acc
  all_goals intro h hr
  case case4 rest i acc =>
    simp only [Scanned.token, Prod.mk.injEq, Except.ok.injEq] at h
    obtain ⟨rfl, rfl⟩ := h
    exact ⟨rfl, rfl, i, Nat.le_refl _, rfl, by rw [← List.drop_drop, hr]; rfl⟩
  case case9 | case14 | case16 | case19 =>
    rename_i ih
    obtain ⟨hk, hs, j, hj, hn, hd⟩ := ih h (by rw [← List.drop_drop, hr]; rfl)
    exact ⟨hk, hs, j, by omega, hn, hd⟩
  all_goals simp [Scanned.fault, badUnicodeEscape, loneSurrogate] at h

theorem blockBody_token {r : List Char} {i : Nat} {acc : List Char} :
    blockBody start cs r i acc = (.ok t, n) → cs.drop i = r →
      t.kind = .blockString ∧ t.span = start.spanOf cs 0 n ∧
        ∃ j, i ≤ j ∧ n = j + 3 ∧ cs.drop j = '"' :: '"' :: '"' :: cs.drop (j + 3) := by
  fun_induction blockBody start cs r i acc
  all_goals intro h hr
  case case2 rest i acc =>
    simp only [Scanned.token, Prod.mk.injEq, Except.ok.injEq] at h
    obtain ⟨rfl, rfl⟩ := h
    exact ⟨rfl, rfl, i, Nat.le_refl _, rfl, by rw [← List.drop_drop, hr]; rfl⟩
  case case3 | case4 | case5 | case7 =>
    rename_i ih
    obtain ⟨hk, hs, j, hj, hn, hd⟩ := ih h (by rw [← List.drop_drop, hr]; rfl)
    exact ⟨hk, hs, j, by omega, hn, hd⟩
  all_goals simp [Scanned.fault] at h

theorem scanNumber_token (h : scanNumber start cs = (.ok t, n)) :
    t.span = start.spanOf cs 0 n ∧ (t.kind = .int ∨ t.kind = .float) := by
  revert h
  apply scanNumber_of_parts (fun s => s = (.ok t, n) → t.span = start.spanOf cs 0 n ∧ (t.kind = .int ∨ t.kind = .float))
  · exact fun i s hi h => absurd (congrArg Prod.fst h) (integerEnd_fault hi t)
  · exact fun i s hf h => absurd (congrArg Prod.fst h) (fractionEnd_fault hf t)
  · exact fun i s he h => absurd (congrArg Prod.fst h) (exponentEnd_fault he t)
  · intro kind k hk h
    simp only [Scanned.token, Prod.mk.injEq, Except.ok.injEq] at h
    obtain ⟨rfl, rfl⟩ := h
    exact ⟨rfl, hk⟩

theorem symbol_lexemes : ∀ p ∈ TokenKind.singleCharSymbols, p.2.symbol? = some (String.ofList [p.1]) := by
  decide

theorem take_drop_takeWhile (p : Char → Bool) (c : Char) (r : List Char) :
    (c :: r).take (1 + (r.takeWhile p).length) = c :: r.takeWhile p ∧
      (c :: r).drop (1 + (r.takeWhile p).length) = r.dropWhile p := by
  have h := List.takeWhile_append_dropWhile (p := p) (l := r)
  have htake : r.take (r.takeWhile p).length = r.takeWhile p :=
    calc r.take (r.takeWhile p).length = (r.takeWhile p ++ r.dropWhile p).take (r.takeWhile p).length := by rw [h]
      _ = r.takeWhile p := List.take_left ..
  rw [Nat.add_comm, List.take_succ_cons, List.drop_succ_cons, htake, Text.drop_length_takeWhile]
  exact ⟨rfl, rfl⟩

/-- **What a scan takes is what its token spells**: the token of a scan that starts on a
character spans exactly the characters the scan took, and those characters and the one after
them are what the token's kind says. -/
theorem scanToken_spelled {c : Char} {r : List Char} (h : scanToken start (c :: r) = (.ok t, n)) :
    t.span = start.spanOf (c :: r) 0 n ∧
      t.Spelled (String.ofList ((c :: r).take n)) ((c :: r).drop n).head? := by
  simp only [scanToken] at h
  split at h
  · rename_i k hk
    simp only [Scanned.token, Prod.mk.injEq, Except.ok.injEq] at h
    obtain ⟨rfl, rfl⟩ := h
    have hsym := symbol_lexemes _ (Lexer.ofSymbolChar?_mem hk)
    exact ⟨rfl, Token.Spelled.of_symbol hsym (by simp [hsym]) (by simp)⟩
  split at h
  · rename_i hc
    subst hc
    simp only [scanComment, Scanned.token, Prod.mk.injEq, Except.ok.injEq, List.drop_succ_cons, List.drop_zero] at h
    obtain ⟨rfl, rfl⟩ := h
    obtain ⟨htake, hdrop⟩ := take_drop_takeWhile (fun c => !isLineBreak c) '#' r
    refine ⟨rfl, Token.Spelled.of_comment rfl ?_ ?_ ?_⟩
    · rw [htake, ← String.toList_inj]
      simp
    · intro x hx
      simpa using List.all_eq_true.1 (List.all_takeWhile (p := fun c => !isLineBreak c) (l := r)) x
        (by simpa using hx)
    · intro x hx
      rw [hdrop] at hx
      simpa using Text.head?_dropWhile x hx
  split at h
  · rename_i hc
    subst hc
    simp only [scanSpread] at h
    split at h
    · rename_i rest heq
      simp only [List.cons.injEq, true_and] at heq
      subst heq
      simp only [Scanned.token, Prod.mk.injEq, Except.ok.injEq] at h
      obtain ⟨rfl, rfl⟩ := h
      exact ⟨rfl, Token.Spelled.of_symbol rfl rfl (by simp only [List.take_succ_cons, List.take_zero])⟩
    all_goals simp [Scanned.fault] at h
  split at h
  · rename_i hc
    subst hc
    split at h
    · rename_i rest
      obtain ⟨hk, hs, j, hj, rfl, hd⟩ := blockBody_token h rfl
      refine ⟨hs, Token.Spelled.of_blockString hk ⟨(rest.take (j - 3)), ?_⟩⟩
      obtain ⟨j, rfl⟩ : ∃ j', j = j' + 3 := ⟨j - 3, by omega⟩
      rw [String.toList_ofList, show j + 3 + 3 = j + 3 + ['"', '"', '"'].length from rfl, take_add_of_drop hd]
      simp
    · obtain ⟨hk, hs, j, hj, rfl, hd⟩ := stringBody_token h rfl
      refine ⟨hs, Token.Spelled.of_string hk ⟨r.take (j - 1), ?_⟩⟩
      obtain ⟨j, rfl⟩ : ∃ j', j = j' + 1 := ⟨j - 1, by omega⟩
      rw [String.toList_ofList, show j + 1 + 1 = j + 1 + ['"'].length from rfl, take_add_of_drop hd]
      simp
  split at h
  · simp [Scanned.fault] at h
  split at h
  · rename_i hs
    simp only [scanName, Scanned.token, Prod.mk.injEq, Except.ok.injEq, List.drop_succ_cons, List.drop_zero] at h
    obtain ⟨rfl, rfl⟩ := h
    obtain ⟨htake, hdrop⟩ := take_drop_takeWhile isNameContinue c r
    refine ⟨rfl, Token.Spelled.of_name rfl rfl ?_ ?_⟩
    · rw [htake]
      simp only [isName, String.toList_ofList, hs, Bool.true_and, List.all_eq_true]
      exact List.all_eq_true.1 List.all_takeWhile
    · rw [hdrop]
      exact Text.head?_dropWhile
  split at h
  · obtain ⟨hs, hk⟩ := scanNumber_token h
    refine ⟨hs, Token.Spelled.of_plain ?_ ?_ ?_ ?_ ?_⟩ <;> rcases hk with hk | hk <;> simp [hk, TokenKind.symbol?]
  · simp [Scanned.fault] at h

end Scans

/-! ### The tokens of a text, one after another -/

/-- The tokens `ts` tile `text` from byte `k` on: up to each token stand only ignored
characters; each token but the last covers a non-empty stretch that it spells, and the tokens
after it tile the text from its end; the last is the end token, at the end of the text. -/
inductive Tiles (text : String) : Nat → List Token → Prop
  | last {k : Nat} {t : Token} : Blank text k t.span.start → t.kind = .eof →
      t.span.start = text.utf8ByteSize → t.span.stop = text.utf8ByteSize → Tiles text k [t]
  | cons {k : Nat} {t : Token} {rest : List Token} : Blank text k t.span.start → t.kind ≠ .eof →
      t.span.start < t.span.stop → t.Spelled (t.span.text text) (Text.charAt text t.span.stop) →
      Tiles text t.span.stop rest → Tiles text k (t :: rest)

namespace Tiles

variable {text : String} {k : Nat} {ts : List Token}

theorem start_le (h : Tiles text k ts) : ∀ t ∈ ts, k ≤ t.span.start := by
  induction h with
  | last hb => simpa using hb.le
  | cons hb _ hlt _ _ ih =>
    intro t ht
    rcases List.mem_cons.1 ht with rfl | ht
    · exact hb.le
    · exact Nat.le_trans (Nat.le_trans hb.le (Nat.le_of_lt hlt)) (ih t ht)

/-- Each token ends before the next ones start. -/
theorem pairwise (h : Tiles text k ts) : ts.Pairwise (fun a b => a.span.stop ≤ b.span.start) := by
  induction h with
  | last => exact List.pairwise_singleton _ _
  | cons _ _ _ _ hrest ih => exact List.pairwise_cons.2 ⟨hrest.start_le, ih⟩

/-- Before each token, from where the one before it ends, stand only ignored characters. -/
theorem gaps (h : Tiles text k ts) :
    ∀ p ∈ (k :: ts.map (·.span.stop)).zip (ts.map (·.span.start)), Blank text p.1 p.2 := by
  induction h with
  | last hb => simpa using hb
  | cons hb _ _ _ _ ih =>
    intro p hp
    rcases List.mem_cons.1 hp with rfl | hp
    · exact hb
    · exact ih p hp

/-- The last token is the end token, at the end of the text; the others cover non-empty
stretches that they spell. -/
theorem split (h : Tiles text k ts) :
    ∃ pre eof, ts = pre ++ [eof] ∧ eof.kind = .eof ∧ eof.span.start = text.utf8ByteSize ∧
      eof.span.stop = text.utf8ByteSize ∧
      ∀ t ∈ pre, t.span.start < t.span.stop ∧ t.Spelled (t.span.text text) (Text.charAt text t.span.stop) := by
  induction h with
  | @last k t _ he hs hst => exact ⟨[], t, rfl, he, hs, hst, by simp⟩
  | @cons k t rest _ _ hlt hsp _ ih =>
    obtain ⟨pre, eof, rfl, he, hs, hst, hpre⟩ := ih
    refine ⟨t :: pre, eof, rfl, he, hs, hst, fun u hu => ?_⟩
    rcases List.mem_cons.1 hu with rfl | hu
    · exact ⟨hlt, hsp⟩
    · exact hpre u hu

end Tiles

namespace Lexer

/-- **A read places its token in the text**: after the characters `done` already read, it
skips ignored characters, covers a non-empty stretch that its token spells, and leaves the
lexer after that stretch. -/
theorem read_tiles {text : String} {lx : Lexer} {done : List Char} (hd : done ++ lx.rest = text.toList)
    (hp : lx.pos = ({} : Cursor).advance done) {t : Token} (h : lx.read.1 = .ok t) (ht : t.kind ≠ .eof) :
    Blank text (Text.utf8Length done) t.span.start ∧ t.span.start < t.span.stop ∧
      t.Spelled (t.span.text text) (Text.charAt text t.span.stop) ∧
      ∃ done', done' ++ lx.read.2.rest = text.toList ∧ lx.read.2.pos = ({} : Cursor).advance done' ∧
        Text.utf8Length done' = t.span.stop := by
  have hsplit := List.takeWhile_append_dropWhile (p := isIgnored) (l := lx.rest)
  have hign : ∀ c ∈ lx.rest.takeWhile isIgnored, isIgnored c = true := List.all_eq_true.1 List.all_takeWhile
  simp only [read] at h ⊢
  generalize lx.rest.takeWhile isIgnored = ign at hsplit hign h ⊢
  generalize lx.rest.dropWhile isIgnored = cs at hsplit h ⊢
  cases cs with
  | nil =>
    simp only [scanToken, Scanned.token, Except.ok.injEq] at h
    exact absurd (by rw [← h]) ht
  | cons c r =>
    generalize hsc : scanToken (lx.pos.advance ign) (c :: r) = sc at h ⊢
    obtain ⟨res, n⟩ := sc
    simp only at h
    subst h
    obtain ⟨hspan, hspelled⟩ := scanToken_spelled hsc
    have hpos : 0 < n := by
      have := scanToken_pos (lx.pos.advance ign) c r
      rw [hsc] at this
      exact this
    have htext : text.toList = (done ++ ign) ++ (c :: r).take n ++ (c :: r).drop n := by
      rw [List.append_assoc, List.take_append_drop, List.append_assoc, hsplit, hd]
    have hstart : t.span.start = Text.utf8Length (done ++ ign) := by
      simp [hspan, Cursor.spanOf, Cursor.spanTo, hp, ← Cursor.advance_append, Cursor.offset_advance]
    have hstop : t.span.stop = Text.utf8Length (done ++ ign) + Text.utf8Length ((c :: r).take n) := by
      simp [hspan, Cursor.spanOf, Cursor.spanTo, hp, ← Cursor.advance_append, Cursor.offset_advance,
        Text.utf8Length_append, Nat.add_assoc]
    -- a scan takes at least its first character, which has at least one byte
    have hlen : 0 < Text.utf8Length ((c :: r).take n) := by
      obtain ⟨m, rfl⟩ : ∃ m, n = m + 1 := ⟨n - 1, by omega⟩
      simp only [List.take_succ_cons, Text.utf8Length_cons]
      have := c.utf8Size_pos
      omega
    refine ⟨?_, by omega, ?_, done ++ ign ++ (c :: r).take n, ?_, ?_, ?_⟩
    · rw [hstart, Text.utf8Length_append]
      exact blank_middle (show text.toList = done ++ ign ++ (c :: r) by rw [List.append_assoc, hsplit, hd]) hign
    · rw [Span.text_middle htext hstart hstop, hstop, ← Text.utf8Length_append,
        Text.charAt_utf8Length (by rw [htext])]
      exact hspelled
    · rw [List.append_assoc, List.take_append_drop, List.append_assoc, hsplit, hd]
    · simp [hp, Cursor.advance_append]
    · rw [hstop, Text.utf8Length_append]

theorem read_eof_tiles {text : String} {lx : Lexer} {done : List Char} (hd : done ++ lx.rest = text.toList)
    (hp : lx.pos = ({} : Cursor).advance done) {t : Token} (h : lx.read.1 = .ok t) (he : t.kind = .eof) :
    Blank text (Text.utf8Length done) t.span.start ∧ t.span.start = text.utf8ByteSize ∧
      t.span.stop = text.utf8ByteSize := by
  obtain ⟨-, hs, hst, -⟩ := read_eof_at_end ⟨done, hd, hp⟩ h he
  have hall : ∀ c ∈ lx.rest, isIgnored c = true := by
    rw [← takeWhile_of_dropWhile_nil (read_closes h (by simp [he, TokenKind.closes]))]
    exact List.all_eq_true.1 List.all_takeWhile
  have hb := blank_middle (show text.toList = done ++ lx.rest ++ [] by simp [hd]) hall
  rw [← Text.utf8Length_append, hd, ← Text.utf8ByteSize_eq] at hb
  exact ⟨hs ▸ hb, hs, hst⟩

/-- **The listing of a lexer tiles the rest of its text**, when it reaches the end token
without a fault. -/
theorem tiles_listing {text : String} (lx : Lexer) :
    ∀ {done : List Char}, done ++ lx.rest = text.toList → lx.pos = ({} : Cursor).advance done →
      lx.listing.2 = none → Tiles text (Text.utf8Length done) lx.listing.1 := by
  fun_induction listing lx with
  | case1 lx t next hr ht =>
    intro done hd hp _
    obtain ⟨hb, hs, hst⟩ := read_eof_tiles hd hp (by rw [hr]) ht
    exact .last hb ht hs hst
  | case2 lx t next hr ht more =>
    rename_i ih
    intro done hd hp hnone
    obtain ⟨hb, hlt, hsp, done', hd', hp', hlen⟩ := read_tiles hd hp (by rw [hr]) ht
    have hnext : lx.read.2 = next := by rw [hr]
    rw [hnext] at hd' hp'
    have hrest := ih hd' hp' hnone
    rw [hlen] at hrest
    exact .cons hb ht hlt hsp hrest
  | case3 => intro _ _ _ h; cases h

end Lexer

/-- **Reading a text loses and doubles nothing.**  When the tokens of `text` reach the end
token without a fault, they are tokens `pre`, each covering a non-empty stretch of bytes that it
spells, and then the end token, which spans `[size, size)`; every token ends before the later
ones start; and from the start of the text to the first token, between two tokens, and from
the last token to the end token stand only ignored characters. -/
theorem tokens_tile (text : String) (h : (Lexer.ofString text).listing.2 = none) :
    let ts := (Lexer.ofString text).listing.1
    (∃ pre eof, ts = pre ++ [eof] ∧ eof.kind = .eof ∧ eof.span.start = text.utf8ByteSize ∧
      eof.span.stop = text.utf8ByteSize ∧
      ∀ t ∈ pre, t.span.start < t.span.stop ∧ t.Spelled (t.span.text text) (Text.charAt text t.span.stop)) ∧
    ts.Pairwise (fun a b => a.span.stop ≤ b.span.start) ∧
    ∀ p ∈ (0 :: ts.map (·.span.stop)).zip (ts.map (·.span.start)), Blank text p.1 p.2 := by
  have htiles : Tiles text 0 (Lexer.ofString text).listing.1 :=
    Lexer.tiles_listing _ (show [] ++ (Lexer.ofString text).rest = text.toList by simp [Lexer.ofString]) rfl h
  exact ⟨htiles.split, htiles.pairwise, htiles.gaps⟩

/-- The text `{a}` reads to its end token without a fault, so its tokens tile it. -/
theorem tokens_tile_braces :
    (Lexer.ofString "\x7ba\x7d").listing.2 = none ∧
      ((∃ pre eof, (Lexer.ofString "\x7ba\x7d").listing.1 = pre ++ [eof] ∧ eof.kind = .eof ∧
        eof.span.start = 3 ∧ eof.span.stop = 3 ∧
        ∀ t ∈ pre, t.span.start < t.span.stop ∧
          t.Spelled (t.span.text "\x7ba\x7d") (Text.charAt "\x7ba\x7d" t.span.stop)) ∧
      (Lexer.ofString "\x7ba\x7d").listing.1.Pairwise (fun a b => a.span.stop ≤ b.span.start) ∧
      ∀ p ∈ (0 :: (Lexer.ofString "\x7ba\x7d").listing.1.map (·.span.stop)).zip
        ((Lexer.ofString "\x7ba\x7d").listing.1.map (·.span.start)), Blank "\x7ba\x7d" p.1 p.2) := by
  have h : (Lexer.ofString "\x7ba\x7d").listing.2 = none := by
    rw [Lexer.listing_of_token (t := ⟨.braceL, "\x7b", ⟨0, 1, 1, 1⟩⟩) (by decide) (by decide),
      Lexer.listing_of_token (t := ⟨.name, "a", ⟨1, 2, 1, 2⟩⟩) (by decide) (by decide),
      Lexer.listing_of_token (t := ⟨.braceR, "\x7d", ⟨2, 3, 1, 3⟩⟩) (by decide) (by decide),
      Lexer.listing_of_eof (t := ⟨.eof, "", ⟨3, 3, 1, 4⟩⟩) (by decide) (by decide)]
  exact ⟨h, tokens_tile "\x7ba\x7d" h⟩

end Gql
