import Gql.Proofs.Descent.Complete
import Gql.Proofs.Reading
/-!
# Acceptance — a text is read without a fault exactly when it is a document

The reader reads the significant tokens of a text, those of its listing other than comments
and the end token, and stops where the listing does.  A text is read without a fault exactly
when its listing reaches the end without a lexical fault and those tokens are a sentence of
the grammar (`Grammar.IsDocument`), nesting at most `Diagnostic.nestingLimit` levels deep;
the document read is then the one the sentence spells.

The two halves are `Syntax.definitions_sound` and `Syntax.definitions_complete`; what is
proved here is that `Lexer.significant` is the listing with comments and the end left out.
-/
namespace Gql

namespace Lexer

def keepsToken (t : Token) : Bool := t.kind ≠ .comment && t.kind ≠ .eof

theorem significant_of_fault {lx : Lexer} {e : LexError} (h : lx.read.1 = .error e) :
    lx.significant = ([], .fault e) := by
  rw [significant]
  split
  · rename_i t next hr; rw [hr] at h; cases h
  · rename_i e' next hr; rw [hr] at h; cases h; rfl

theorem significant_of_eof {lx : Lexer} {t : Token} (h : lx.read.1 = .ok t) (ht : t.kind = .eof) :
    lx.significant = ([], .eof t) := by
  rw [significant]
  split
  · rename_i t' next hr; rw [hr] at h; cases h; simp [ht]
  · rename_i e' next hr; rw [hr] at h; cases h

theorem significant_of_token {lx : Lexer} {t : Token} (h : lx.read.1 = .ok t) (ht : t.kind ≠ .eof) :
    lx.significant = if t.kind = .comment then lx.read.2.significant
      else (t :: lx.read.2.significant.1, lx.read.2.significant.2) := by
  rw [significant]
  split
  · rename_i t' next hr; rw [hr] at h; cases h; simp [ht, hr]
  · rename_i e' next hr; rw [hr] at h; cases h

/-- **The significant tokens are the listing without comments and the end token**; they stop
at an end token, of kind `eof`, exactly when the listing has no fault. -/
theorem significant_eq_listing (lx : Lexer) :
    lx.significant.1 = lx.listing.1.filter keepsToken ∧
      ((∃ u, lx.significant.2 = .eof u) ↔ lx.listing.2 = none) ∧
      ∀ u, lx.significant.2 = .eof u → u.kind = .eof := by
  fun_induction listing lx with
  | case1 lx t next hr ht =>
    have hr1 : lx.read.1 = .ok t := by rw [hr]
    simp [significant_of_eof hr1 ht, keepsToken, ht]
  | case2 lx t next hr ht more =>
    rename_i ih
    have hr1 : lx.read.1 = .ok t := by rw [hr]
    have hnext : lx.read.2 = next := by rw [hr]
    obtain ⟨ih1, ih2, ih3⟩ := ih
    rw [significant_of_token hr1 ht, hnext]
    by_cases hc : t.kind = .comment
    · simpa [hc, ih1, ih2, keepsToken, more] using ih3
    · simpa [hc, ht, ih1, ih2, keepsToken, more] using ih3
  | case3 lx e next hr =>
    have hr1 : lx.read.1 = .error e := by rw [hr]
    simp [significant_of_fault hr1]

theorem significant_not_eof (lx : Lexer) : ∀ t ∈ lx.significant.1, t.kind ≠ .eof := by
  intro t ht
  rw [(significant_eq_listing lx).1, List.mem_filter] at ht
  simp only [keepsToken, Bool.and_eq_true, decide_eq_true_eq] at ht
  exact ht.2.2

end Lexer

/-- Reading a document is reading definitions from the significant tokens of its text. -/
theorem Document.parse_eq (text : String) :
    Document.parse text =
      let read := Syntax.definitions (Lexer.ofString text).significant.2 Diagnostic.nestingLimit {}
        (Lexer.ofString text).significant.1
      ⟨read.1, read.2⟩ := by
  unfold Document.parse
  cases (Lexer.ofString text).significant
  rfl

/-- **A text is read without a fault exactly when it is a document**: when its listing
reaches the end token without a lexical fault, and its tokens other than comments and the
end are a sentence of the grammar, nesting at most `Diagnostic.nestingLimit` levels. -/
theorem parse_error_free_iff (text : String) :
    (Document.parse text).error = none ↔
      (Lexer.ofString text).listing.2 = none ∧
        ∃ doc, Grammar.IsDocument Diagnostic.nestingLimit
          ((Lexer.ofString text).listing.1.filter Lexer.keepsToken) doc := by
  obtain ⟨hts, hstop, hkind⟩ := Lexer.significant_eq_listing (Lexer.ofString text)
  have hne : ∀ t ∈ (Lexer.ofString text).significant.1, t.kind ≠ .eof := by
    intro t ht
    rw [hts, List.mem_filter] at ht
    simp only [Lexer.keepsToken, Bool.and_eq_true, decide_eq_true_eq] at ht
    exact ht.2.2
  rw [Document.parse_eq, ← hstop, ← hts]
  constructor
  · intro h
    obtain ⟨hu, os, fs, hdefs, -⟩ := Syntax.definitions_sound hne (Prod.ext rfl h)
    exact ⟨hu, ⟨os, fs⟩, hdefs⟩
  · rintro ⟨⟨u, hu⟩, doc, hdoc⟩
    simp [Syntax.definitions_complete _ hdoc hu (hkind u hu)]

end Gql
