import Mathlib.Control.Monad.Basic
import Gql.Proofs.Descent.Faults.Definitions
import Gql.Proofs.Acceptance
/-!
# Faults at the first token that cannot continue a document

A sentence of the grammar is definitions, nesting to some depth, then the end token; a viable
prefix is one that some tokens after it complete to a sentence (`Grammar.Viable`). The
significant tokens of a text are its listing without comments (`Lexer.stream`).

A read that fails, fails at the first token that no sentence continues with
(`parse_error_at_first_unviable`): the tokens before that token are a viable prefix and,
unless the fault is one of depth, the tokens up to it are not; the fault has that token's
place, and it is a fault of the end exactly when that token is the end token. A lexical fault
is the first fault of the listing, and the significant tokens before it are a viable prefix.

The argument: the read faults after a prefix `pre` that opens definitions
(`Syntax.definitions_faults`), and a read of `pre` followed by any tokens that go on like
the rest faults again, at every limit. A sentence that went on from `pre` with the next token
would be such tokens, and a read of a sentence does not fault (`definitions_complete`).
-/
namespace Gql

def Stop.tokens : Stop → List Token
  | .eof u => [u]
  | .fault _ => []

namespace Lexer

def stream (lx : Lexer) : List Token := lx.listing.1.filter (fun t => t.kind != .comment)

/-- The significant tokens are those the reader reads, then the end token if the listing
reaches it; the fault the reader stops at is the listing's. -/
theorem stream_eq (lx : Lexer) :
    lx.stream = lx.significant.1 ++ lx.significant.2.tokens ∧
      ∀ f, lx.significant.2 = .fault f → lx.listing.2 = some f := by
  unfold stream
  fun_induction listing lx with
  | case1 lx t next hr ht =>
    have hr1 : lx.read.1 = .ok t := by rw [hr]
    simp [significant_of_eof hr1 ht, ht, Stop.tokens]
  | case2 lx t next hr ht more =>
    rename_i ih
    have hr1 : lx.read.1 = .ok t := by rw [hr]
    have hnext : lx.read.2 = next := by rw [hr]
    rw [significant_of_token hr1 ht, hnext]
    by_cases hc : t.kind = .comment
    · simpa [hc, more] using ih
    · simpa [hc, more] using ih
  | case3 lx e next hr =>
    have hr1 : lx.read.1 = .error e := by rw [hr]
    simp [significant_of_fault hr1, Stop.tokens]

end Lexer

namespace Grammar

/-- A sentence of the grammar: definitions nesting to some depth, then the end token. -/
def IsSentence (ts : List Token) : Prop :=
  ∃ lim w u os fs, ts = w ++ [u] ∧ u.kind = .eof ∧ IsDefinitions lim w os fs

/-- A viable prefix: tokens that some tokens after them complete to a sentence. -/
def Viable (p : List Token) : Prop := ∃ c, IsSentence (p ++ c)

end Grammar

namespace Diagnostic

theorem StandsAt.not_lexical {e : Diagnostic} {t : Token} (h : e.StandsAt t) : e.isLexical = false := by
  obtain ⟨-, ht⟩ := h
  unfold isLexical
  split
  · rename_i x hx
    simp only [hx] at ht
  · rfl

theorem StandsAt.unexpectedEnd_iff {e : Diagnostic} {t : Token} (h : e.StandsAt t) (hdeep : e.isDeep = false) :
    (∃ x, e.fault = .unexpectedEnd x) ↔ t.kind = .eof := by
  obtain ⟨-, ht⟩ := h
  unfold isDeep at hdeep
  cases hf : e.fault <;> simp [hf] at ht hdeep <;> simp [ht]

end Diagnostic

namespace Syntax

open Grammar

variable {stop : Stop} {L : Nat}

/-- Tokens that open definitions are a viable prefix: the end token closes the definitions. -/
theorem viable_of_opens {pre : List Token}
    (h : Opens (fun lim ts (x : List Operation × List Fragment) => IsDefinitions lim ts x.1 x.2) pre) :
    Viable pre := by
  obtain ⟨B, hB⟩ := h
  obtain ⟨c, x, hx⟩ := hB B (Nat.le_refl B)
  exact ⟨c ++ [Token.filler .eof ""], B, pre ++ c, Token.filler .eof "", x.1, x.2, by simp,
    Token.filler_kind .eof "", hx⟩

theorem AtNext.lexical {r : List Token} {e : Diagnostic} (h : AtNext stop r e) (hl : e.isLexical = true) :
    r = [] ∧ ∃ f, stop = .fault f ∧ e = .ofLex f := by
  cases r with
  | cons t r => exact absurd (Diagnostic.StandsAt.not_lexical h) (by simp [hl])
  | nil =>
    cases stop with
    | eof u => exact absurd (Diagnostic.StandsAt.not_lexical h) (by simp [hl])
    | fault f => exact ⟨rfl, f, rfl, h⟩

theorem AtNext.exists_head {r : List Token} {e : Diagnostic} (h : AtNext stop r e) (hl : e.isLexical = false) :
    ∃ t, (r ++ stop.tokens).head? = some t ∧ e.StandsAt t := by
  cases r with
  | cons t r => exact ⟨t, rfl, h⟩
  | nil =>
    cases stop with
    | eof u => exact ⟨u, rfl, h⟩
    | fault f =>
      have he : e = .ofLex f := h
      subst he
      simp [Diagnostic.isLexical, Diagnostic.ofLex] at hl

/-- A sentence that goes on from `pre` with the next token `t` of the tokens `r` left, then
the end, goes on from `pre` like `r`, up to its own end token. -/
theorem sentence_goes_on (hstop : stop.Ends) {pre r c w : List Token} {t u : Token}
    (hr : ∀ x ∈ r, x.kind ≠ .eof) (hhead : (r ++ stop.tokens).head? = some t) (hu : u.kind = .eof)
    (hw : pre ++ t :: c = w ++ [u]) (hwne : ∀ x ∈ w, x.kind ≠ .eof) :
    ∃ r', w = pre ++ r' ∧ SameNext stop r (.eof u) r' := by
  rcases List.eq_nil_or_concat c with rfl | ⟨c', x, rfl⟩
  · obtain ⟨rfl, htu⟩ := List.append_inj' hw rfl
    obtain rfl : t = u := by simpa using htu
    cases r with
    | cons y r =>
      obtain rfl : y = t := by simpa using hhead
      exact absurd hu (hr y (by simp))
    | nil =>
      cases stop with
      | eof v =>
        obtain rfl : v = t := by simpa [Stop.tokens] using hhead
        exact ⟨[], by simp, .inl ⟨rfl, rfl, rfl⟩⟩
      | fault f => simp [Stop.tokens] at hhead
  · have hw' : pre ++ t :: c' ++ [x] = w ++ [u] := by simpa using hw
    obtain ⟨rfl, -⟩ := List.append_inj' hw' rfl
    cases r with
    | cons y r =>
      obtain rfl : y = t := by simpa using hhead
      exact ⟨y :: c', rfl, .inr ⟨y, r, c', rfl, rfl⟩⟩
    | nil =>
      cases stop with
      | eof v =>
        obtain rfl : v = t := by simpa [Stop.tokens] using hhead
        exact absurd hstop (hwne v (by simp))
      | fault f => simp [Stop.tokens] at hhead

/-- Tokens that open definitions, followed by the next token `t` of the tokens `r` left
after them, are no viable prefix when the read of definitions faults at `t` again on every
tokens that go on like `r`, at every limit from `L` on: a sentence that went on with `t`
would go on like `r`, and a sentence is read without a fault. -/
theorem not_viable_of_faults (hstop : stop.Ends) {pre r : List Token} {t : Token} {e : Diagnostic}
    (hr : ∀ x ∈ r, x.kind ≠ .eof) (hhead : (r ++ stop.tokens).head? = some t)
    (hagain : ∀ stop' L' r', L ≤ L' → SameNext stop r stop' r' →
      ∀ doc₀, (definitions stop' L' doc₀ (pre ++ r')).2 = some e) :
    ¬ Viable (pre ++ [t]) := by
  rintro ⟨c, lim, w, u, os, fs, hw, hu, hdefs⟩
  obtain ⟨r', rfl, hsame⟩ :=
    sentence_goes_on hstop hr hhead hu (by simpa using hw) hdefs.not_eof
  have hread := definitions_complete _ (hdefs.mono (Nat.le_max_right L lim)) rfl hu {}
  have hfault := hagain (.eof u) (max L lim) r' (Nat.le_max_left L lim) hsame {}
  rw [hread] at hfault
  cases hfault

end Syntax

/-- **A read that fails, fails at the first token that no sentence continues with.**  Let
`ts` be the significant tokens of a text, the end token included.  A lexical fault is the
first fault of the text's listing, and all of `ts` is a viable prefix.  Any other fault has
the place of some `ts[k]`, and `ts.take k` is a viable prefix.  Unless the fault is one of
depth, `ts.take (k + 1)` is not, and the fault is one of the end exactly when `ts[k]` is the
end token. -/
theorem parse_error_at_first_unviable (text : String) {e : Diagnostic}
    (h : (Document.parse text).error = some e) :
    (e.isLexical = true → (Lexer.ofString text).listing.2.map Diagnostic.ofLex = some e ∧
      Grammar.Viable (Lexer.ofString text).stream) ∧
    (e.isLexical = false → ∃ k t, (Lexer.ofString text).stream[k]? = some t ∧ e.span = t.span ∧
      Grammar.Viable ((Lexer.ofString text).stream.take k) ∧
      (e.isDeep = false → ¬ Grammar.Viable ((Lexer.ofString text).stream.take (k + 1)) ∧
        ((∃ x, e.fault = .unexpectedEnd x) ↔ t.kind = .eof))) := by
  rw [Document.parse_eq] at h
  obtain ⟨-, -, hkind⟩ := Lexer.significant_eq_listing (Lexer.ofString text)
  have hne := Lexer.significant_not_eof (Lexer.ofString text)
  obtain ⟨hstream, hfault⟩ := (Lexer.ofString text).stream_eq
  generalize (Lexer.ofString text).significant = sig at h hne hkind hstream hfault
  obtain ⟨ts, stop⟩ := sig
  simp only at h hne hkind hstream hfault
  have hends : stop.Ends := by
    cases stop with
    | eof u => exact hkind u rfl
    | fault f => trivial
  obtain ⟨pre, r, rfl, hat, hagain, hopens⟩ := Syntax.definitions_faults hends (Prod.ext rfl h)
  have hviable := Syntax.viable_of_opens hopens
  refine ⟨fun hl => ?_, fun hl => ?_⟩
  · obtain ⟨rfl, f, rfl, rfl⟩ := hat.lexical hl
    refine ⟨by simp [hfault f rfl], ?_⟩
    simpa [hstream, Stop.tokens] using hviable
  · obtain ⟨t, hhead, hst⟩ := hat.exists_head hl
    obtain ⟨rest, hrest⟩ := List.head?_eq_some_iff.1 hhead
    have hsplit : (Lexer.ofString text).stream = pre ++ t :: rest := by
      simp only [hstream, List.append_assoc, hrest]
    have hr : ∀ x ∈ r, x.kind ≠ .eof := fun x hx => hne x (List.mem_append_right pre hx)
    refine ⟨pre.length, t, by simp [hsplit], hst.1, by simpa [hsplit] using hviable, fun hdeep => ⟨?_,
      hst.unexpectedEnd_iff hdeep⟩⟩
    have htake : (Lexer.ofString text).stream.take (pre.length + 1) = pre ++ [t] := by
      rw [hsplit, List.take_length_add_append]
      rfl
    rw [htake]
    exact Syntax.not_viable_of_faults hends hr hhead (hagain hdeep)

/-- A stray closing brace faults at the first token, which no document starts with. -/
theorem parse_error_at_stray_brace :
    (Document.parse "\x7d").error = some (.notDefinition ⟨.braceR, "\x7d", ⟨0, 1, 1, 1⟩⟩) ∧
    ((Diagnostic.notDefinition ⟨.braceR, "\x7d", ⟨0, 1, 1, 1⟩⟩).isLexical = false →
      ∃ k t, (Lexer.ofString "\x7d").stream[k]? = some t ∧
        (Diagnostic.notDefinition ⟨.braceR, "\x7d", ⟨0, 1, 1, 1⟩⟩).span = t.span ∧
        Grammar.Viable ((Lexer.ofString "\x7d").stream.take k) ∧
        ((Diagnostic.notDefinition ⟨.braceR, "\x7d", ⟨0, 1, 1, 1⟩⟩).isDeep = false →
          ¬ Grammar.Viable ((Lexer.ofString "\x7d").stream.take (k + 1)) ∧
          ((∃ x, (Diagnostic.notDefinition ⟨.braceR, "\x7d", ⟨0, 1, 1, 1⟩⟩).fault = .unexpectedEnd x) ↔
            t.kind = .eof))) := by
  have hsig : (Lexer.ofString "\x7d").significant =
      ([⟨.braceR, "\x7d", ⟨0, 1, 1, 1⟩⟩], .eof ⟨.eof, "", ⟨1, 1, 1, 2⟩⟩) := by
    rw [Lexer.significant_of_token (t := ⟨.braceR, "\x7d", ⟨0, 1, 1, 1⟩⟩) (by decide) (by decide), if_neg (by decide),
      Lexer.significant_of_eof (t := ⟨.eof, "", ⟨1, 1, 1, 2⟩⟩) (by decide) (by decide)]
  have he : (Document.parse "\x7d").error = some (.notDefinition ⟨.braceR, "\x7d", ⟨0, 1, 1, 1⟩⟩) := by
    rw [Document.parse_eq, hsig]
    dsimp only
    rw [Syntax.definitions]
    simp [Syntax.peek, Token.isKeyword]
  exact ⟨he, (parse_error_at_first_unviable _ he).2⟩

end Gql
