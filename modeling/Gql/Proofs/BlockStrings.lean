import Gql.Proofs.Strings
/-!
# BlockStrings — a block string is read to its closing delimiter and valued as GraphQL says

After an opening `"""` the scanner reads from left to right, taking `\"""` as one unit of
four characters, up to the first `"""`; it fails at a control character other than tab, line
feed and carriage return, and at the end of the text (`BlockClosed`).  The token spans both
delimiters and the characters `body` between them.  Its value is the block-string value of
the raw content of `body`: every escaped delimiter written as `"""`, and every carriage
return, alone or before a line feed, written as one line feed (`blockRaw`).  The block-string
value (`Text.blockStringValue`) splits at line feeds, removes the least indentation of the
lines after the first that hold more than spaces and tabs from each line after the first,
drops the blank lines at both ends and joins the rest with line feeds
(`Lexer.scanBlockString_value`).

The scanner writes a carriage return and the line feed after it as one line feed in one step,
where `BlockClosed` takes them one at a time; the proof that a closed body is read whole
bridges the two by reading the line feed one position on (`Lexer.blockBody_closed`).
-/
namespace Gql

def unescapeDelimiters : List Char → List Char
  | '\\' :: '"' :: '"' :: '"' :: r => '"' :: '"' :: '"' :: unescapeDelimiters r
  | c :: r => c :: unescapeDelimiters r
  | [] => []

def normalizeBreaks : List Char → List Char
  | '\r' :: '\n' :: r => '\n' :: normalizeBreaks r
  | '\r' :: r => '\n' :: normalizeBreaks r
  | c :: r => c :: normalizeBreaks r
  | [] => []

/-- The raw content of a block string with body `body`: its escaped delimiters restored and
its line breaks written as line feeds. -/
def blockRaw (body : List Char) : List Char := normalizeBreaks (unescapeDelimiters body)

/-- `BlockClosed text body`: read from left to right after an opening `"""`, with `\"""` taken
as one unit, `text` reaches a closing `"""` after the characters `body`, and holds no control
character other than tab, line feed and carriage return before it. -/
inductive BlockClosed : List Char → List Char → Prop
  | close {rest : List Char} : BlockClosed ('"' :: '"' :: '"' :: rest) []
  | escaped {r b : List Char} : BlockClosed r b →
      BlockClosed ('\\' :: '"' :: '"' :: '"' :: r) ('\\' :: '"' :: '"' :: '"' :: b)
  | char {c : Char} {r b : List Char} : ¬ ['"', '"', '"'] <+: c :: r → ¬ ['\\', '"', '"', '"'] <+: c :: r →
      (c.toNat < 0x20 → c = '\t' ∨ c = '\n' ∨ c = '\r') → BlockClosed r b → BlockClosed (c :: r) (c :: b)

/-! ### The raw content -/

theorem unescapeDelimiters_cons {c : Char} {r : List Char} (h : ¬ ['\\', '"', '"', '"'] <+: c :: r) :
    unescapeDelimiters (c :: r) = c :: unescapeDelimiters r := by
  rw [unescapeDelimiters.eq_def]
  split <;> simp_all

theorem normalizeBreaks_cons {c : Char} {r : List Char} (h : c ≠ '\r') :
    normalizeBreaks (c :: r) = c :: normalizeBreaks r := by
  rw [normalizeBreaks.eq_def]
  split <;> simp_all

theorem normalizeBreaks_cr {r : List Char} (h : ∀ x ∈ r.head?, x ≠ '\n') :
    normalizeBreaks ('\r' :: r) = '\n' :: normalizeBreaks r := by
  cases r with
  | nil => rfl
  | cons x r => exact normalizeBreaks.eq_2 _ fun _ hx => h x rfl (List.cons.inj hx).1

theorem unescapeDelimiters_head {b : List Char} (h : ∀ x ∈ b.head?, x ≠ '\n') :
    ∀ x ∈ (unescapeDelimiters b).head?, x ≠ '\n' := by
  cases b with
  | nil => simp [unescapeDelimiters]
  | cons c r =>
    by_cases hp : ['\\', '"', '"', '"'] <+: c :: r
    · obtain ⟨t, ht⟩ := hp
      simp only [List.cons_append, List.nil_append, List.cons.injEq] at ht
      obtain ⟨rfl, rfl⟩ := ht
      simp [unescapeDelimiters]
    · rw [unescapeDelimiters_cons hp]
      simpa using h

/-! ### Closed bodies -/

theorem BlockClosed.split {r b : List Char} (h : BlockClosed r b) : ∃ rest, r = b ++ '"' :: '"' :: '"' :: rest := by
  induction h with
  | @close rest => exact ⟨rest, rfl⟩
  | escaped _ ih => obtain ⟨rest, rfl⟩ := ih; exact ⟨rest, rfl⟩
  | char _ _ _ _ ih => obtain ⟨rest, rfl⟩ := ih; exact ⟨rest, rfl⟩

theorem BlockClosed.prefix {r b : List Char} (h : BlockClosed r b) : b <+: r := by
  obtain ⟨rest, rfl⟩ := h.split
  exact List.prefix_append _ _

namespace Lexer

section Blocks

variable {start : Cursor} {cs : List Char}

/-- **A closed body is read whole**, as the value of its raw content. -/
theorem blockBody_closed {text body : List Char} (h : BlockClosed text body) (i : Nat) (acc : List Char) :
    blockBody start cs text i acc = Scanned.token start cs .blockString
      (Text.blockStringValue (String.ofList (acc.reverse ++ blockRaw body))) (i + body.length + 3) := by
  induction h generalizing i acc with
  | close => simp [blockBody, blockRaw, unescapeDelimiters, normalizeBreaks]
  | @escaped r b _ ih =>
    rw [blockBody.eq_3, ih]
    simp [blockRaw, unescapeDelimiters, normalizeBreaks_cons, Nat.add_assoc, Nat.add_comm 4]
  | @char c r b hq hb hctl hr ih =>
    have hbr := hr.prefix
    have hun : unescapeDelimiters (c :: b) = c :: unescapeDelimiters b :=
      unescapeDelimiters_cons fun hp => hb (hp.trans (List.cons_prefix_cons.2 ⟨rfl, hbr⟩))
    by_cases hcr : c = '\r'
    · subst hcr
      by_cases hlf : ∃ r', r = '\n' :: r'
      · -- a carriage return and a line feed: the scanner takes both at once, as the line feed
        -- read one position on does
        obtain ⟨r', rfl⟩ := hlf
        obtain ⟨b', rfl⟩ : ∃ b', b = '\n' :: b' := by
          obtain ⟨rest, hrest⟩ := hr.split
          cases b with
          | nil => simp at hrest
          | cons y b' => simp only [List.cons_append, List.cons.injEq] at hrest; exact ⟨b', by rw [hrest.1]⟩
        have hlf' : blockBody start cs ('\n' :: r') (i + 1) acc = blockBody start cs r' (i + 2) ('\n' :: acc) :=
          blockBody_raw _ _ (by decide) (by decide) (by simp) (by simp)
        rw [blockBody.eq_4, ← hlf', ih]
        have hun' : unescapeDelimiters ('\n' :: b') = '\n' :: unescapeDelimiters b' :=
          unescapeDelimiters_cons (by simp)
        simp only [blockRaw, hun, hun', normalizeBreaks.eq_1, normalizeBreaks_cons (show '\n' ≠ '\r' by decide)]
        simp [Nat.add_assoc, Nat.add_comm 1]
      · have hnot : ∀ r', r = '\n' :: r' → False := fun r' h => hlf ⟨r', h⟩
        have hhead : ∀ x ∈ b.head?, x ≠ '\n' := by
          rintro x hx rfl
          obtain ⟨t, rfl⟩ := List.head?_eq_some_iff.1 hx
          obtain ⟨u, hu⟩ := hbr
          exact hnot _ (by rw [← hu]; rfl)
        rw [blockBody.eq_5 _ _ _ _ _ hnot, ih]
        simp only [blockRaw, hun, normalizeBreaks_cr (unescapeDelimiters_head hhead)]
        simp [Nat.add_assoc, Nat.add_comm 1]
    · have hf : isForbiddenInBlock c = false := by
        by_cases hlt : c.toNat < 0x20
        · rcases hctl hlt with rfl | rfl | rfl <;> decide
        · simp [isForbiddenInBlock, hlt]
      have hraw : blockBody start cs (c :: r) i acc = blockBody start cs r (i + 1) (c :: acc) :=
        blockBody_raw i acc hcr hf
          (fun hc hp => hq (by subst hc; exact List.cons_prefix_cons.2 ⟨rfl, hp⟩))
          (fun hc hp => hb (by subst hc; exact List.cons_prefix_cons.2 ⟨rfl, hp⟩))
      rw [hraw, ih]
      simp only [blockRaw, hun, normalizeBreaks_cons hcr]
      simp [Nat.add_assoc, Nat.add_comm 1]

/-- **What the scanner reads is a closed body.** -/
theorem blockBody_sound {r : List Char} {i : Nat} {acc : List Char} {t : Token} {n : Nat} :
    blockBody start cs r i acc = (.ok t, n) → ∃ body, BlockClosed r body := by
  fun_induction blockBody start cs r i acc
  all_goals intro h
  case case2 rest i acc => exact ⟨[], .close⟩
  case case3 r i acc ih =>
    obtain ⟨b, hb⟩ := ih h
    exact ⟨_, .escaped hb⟩
  case case4 r i acc ih =>
    obtain ⟨b, hb⟩ := ih h
    exact ⟨_, .char (by simp) (by simp) (fun _ => .inr (.inr rfl))
      (.char (by simp) (by simp) (fun _ => .inr (.inl rfl)) hb)⟩
  case case5 r i acc hr1 ih =>
    obtain ⟨b, hb⟩ := ih h
    exact ⟨_, .char (by simp) (by simp) (fun _ => .inr (.inr rfl)) hb⟩
  case case7 c r i acc h1 h2 h3 h4 hf ih =>
    obtain ⟨b, hb⟩ := ih h
    have hq : ¬ ['"', '"', '"'] <+: c :: r := by
      rintro ⟨t, ht⟩
      simp only [List.cons_append, List.nil_append, List.cons.injEq] at ht
      exact h1 t ht.1.symm ht.2.symm
    have hb' : ¬ ['\\', '"', '"', '"'] <+: c :: r := by
      rintro ⟨t, ht⟩
      simp only [List.cons_append, List.nil_append, List.cons.injEq] at ht
      exact h2 t ht.1.symm ht.2.symm
    have hctl : c.toNat < 0x20 → c = '\t' ∨ c = '\n' ∨ c = '\r' := by
      intro hlt
      by_contra hne
      simp only [not_or] at hne
      simp [isForbiddenInBlock, hlt, hne.1, hne.2.1, hne.2.2] at hf
    exact ⟨_, .char hq hb' hctl hb⟩
  all_goals simp [Scanned.fault] at h

/-- **Block strings lex to their GraphQL value.**  After an opening `"""`, the scanner gives a
token exactly when the text reaches a closing delimiter, with `\"""` taken as one unit and no
control character other than tab and line breaks before it.  The token then spans both
delimiters and the body between them, and its value is the block-string value of the body
with escaped delimiters restored and line breaks written as line feeds. -/
theorem scanBlockString_value (start : Cursor) (r : List Char) :
    ((∃ t, (scanBlockString start ('"' :: '"' :: '"' :: r)).1 = .ok t) ↔ ∃ body, BlockClosed r body) ∧
    ∀ body, BlockClosed r body → (∃ rest, r = body ++ '"' :: '"' :: '"' :: rest) ∧
      scanBlockString start ('"' :: '"' :: '"' :: r) = Scanned.token start ('"' :: '"' :: '"' :: r) .blockString
        (Text.blockStringValue (String.ofList (blockRaw body))) (body.length + 6) := by
  have hread : ∀ body, BlockClosed r body →
      scanBlockString start ('"' :: '"' :: '"' :: r) = Scanned.token start ('"' :: '"' :: '"' :: r) .blockString
        (Text.blockStringValue (String.ofList (blockRaw body))) (body.length + 6) := by
    intro body hb
    rw [scanBlockString, List.drop_succ_cons, List.drop_succ_cons, List.drop_succ_cons, List.drop_zero,
      blockBody_closed hb]
    simp [Nat.add_assoc, Nat.add_comm 3]
  refine ⟨⟨?_, ?_⟩, fun body hb => ⟨hb.split, hread body hb⟩⟩
  · rintro ⟨t, ht⟩
    rw [scanBlockString, List.drop_succ_cons, List.drop_succ_cons, List.drop_succ_cons, List.drop_zero] at ht
    exact blockBody_sound (Prod.ext ht rfl)
  · rintro ⟨body, hb⟩
    exact ⟨_, by rw [hread body hb]; rfl⟩

end Blocks

end Lexer

end Gql
