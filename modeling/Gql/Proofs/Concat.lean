import Gql.Proofs.Padding
/-!
# Concat — two documents joined by a line break read as one

Two texts that each read as a document without a fault, joined by a line break, read as one
document: its operations are those of the first text and then those of the second, and so
are its fragments (`parse_append_line`).

Three facts make it so.  The first text reads as it did alone, and the line break closes a
comment it may end with (`Lexer.significant_append_line`): its reads before its last
significant token are the same reads, and what is left of it, comments and ignored
characters, reads as nothing with the line break after it (`Lexer.significant_after_end`).
The second text is then read from another cursor, which only places its tokens
(`Lexer.significant_relabel`).  And the grammar's definitions are a list of definitions, so
the definitions of the two texts one after the other are definitions
(`Grammar.IsDefinitions.append`), which the reader reads whole.
-/
namespace Gql

namespace Grammar

variable {lim : Nat}

theorem IsDefinitions.append {ts ts' os os' fs fs'} (h : IsDefinitions lim ts os fs)
    (h' : IsDefinitions lim ts' os' fs') : IsDefinitions lim (ts ++ ts') (os ++ os') (fs ++ fs') := by
  induction h with
  | nil => simpa using h'
  | operation ho _ ih => simpa using IsDefinitions.operation ho ih
  | fragment hf _ ih => simpa using IsDefinitions.fragment hf ih

end Grammar

namespace Lexer

/-- **A text read to its end token, then a line break, then more text**: the significant
tokens are those of the text alone, then those of the text after the line break, read from
some cursor. -/
theorem significant_append_line {s : String} {u : Token} (he : (ofString s).significant.2 = .eof u)
    (post : List Char) :
    ∃ q, (⟨s.toList ++ '\n' :: post, {}⟩ : Lexer).significant =
      ((ofString s).significant.1 ++ (⟨post, q⟩ : Lexer).significant.1, (⟨post, q⟩ : Lexer).significant.2) := by
  obtain ⟨q, hq⟩ := significant_after_end he .nil ('\n' :: post) (by simp [isLineBreak])
  have hbrk := significant_pad (w := ['\n']) (.ignored (by decide) .nil) post q
  rw [List.singleton_append] at hbrk
  rw [List.append_nil, hbrk] at hq
  exact ⟨_, hq⟩

end Lexer

/-- A text read without a fault reaches the end token, and its significant tokens are
definitions: the operations and fragments of the document read. -/
theorem parse_ok_definitions {s : String} (h : (Document.parse s).error = none) :
    ∃ u, (Lexer.ofString s).significant.2 = .eof u ∧ u.kind = .eof ∧
      Grammar.IsDefinitions Diagnostic.nestingLimit (Lexer.ofString s).significant.1
        (Document.parse s).document.operations (Document.parse s).document.fragments := by
  obtain ⟨-, -, hkind⟩ := Lexer.significant_eq_listing (Lexer.ofString s)
  rw [Document.parse_eq] at h ⊢
  obtain ⟨⟨u, hu⟩, os, fs, hdefs, hdoc⟩ :=
    Syntax.definitions_sound (Lexer.significant_not_eof _) (Prod.ext rfl h)
  refine ⟨u, hu, hkind u hu, ?_⟩
  simpa [hdoc] using hdefs

/-- A text whose listing holds no fault, and whose significant tokens are definitions, reads
as the document they make, without a fault. -/
theorem parse_of_definitions {s : String} {os fs} (hl : (Lexer.ofString s).listing.2 = none)
    (h : Grammar.IsDefinitions Diagnostic.nestingLimit (Lexer.ofString s).significant.1 os fs) :
    Document.parse s = ⟨⟨os, fs⟩, none⟩ := by
  obtain ⟨-, hstop, hkind⟩ := Lexer.significant_eq_listing (Lexer.ofString s)
  obtain ⟨u, hu⟩ := hstop.2 hl
  rw [Document.parse_eq]
  simp [Syntax.definitions_complete _ h hu (hkind u hu)]

/-- **Two documents joined by a line break read as one.**  When two texts each read without
a fault, the text of the first, a line break and the second reads without a fault, as the
document whose operations are those of the first then those of the second, and whose
fragments are those of the first then those of the second. -/
theorem parse_append_line {s₁ s₂ : String} (h₁ : (Document.parse s₁).error = none)
    (h₂ : (Document.parse s₂).error = none) :
    Document.parse (s₁ ++ "\n" ++ s₂) =
      ⟨⟨(Document.parse s₁).document.operations ++ (Document.parse s₂).document.operations,
        (Document.parse s₁).document.fragments ++ (Document.parse s₂).document.fragments⟩, none⟩ := by
  obtain ⟨u₁, he₁, -, hd₁⟩ := parse_ok_definitions h₁
  obtain ⟨u₂, he₂, hk₂, hd₂⟩ := parse_ok_definitions h₂
  obtain ⟨q, hq⟩ := Lexer.significant_append_line he₁ s₂.toList
  have hsame : SameReading
      ((Lexer.ofString s₁).significant.1 ++ (Lexer.ofString s₂).significant.1, (Lexer.ofString s₂).significant.2)
      (Lexer.ofString (s₁ ++ "\n" ++ s₂)).significant := by
    have hcat : Lexer.ofString (s₁ ++ "\n" ++ s₂) = ⟨s₁.toList ++ '\n' :: s₂.toList, {}⟩ := by
      simp [Lexer.ofString]
    rw [hcat, hq]
    exact SameReading.append_left _ (Lexer.significant_relabel (Lexer.ofString s₂) rfl)
  have hread := Syntax.definitions_complete _ (hd₁.append hd₂) he₂ hk₂ {}
  obtain ⟨hdoc, hrel⟩ := Syntax.definitions_of_sameReading hsame Diagnostic.nestingLimit {}
  simp only [hread] at hdoc hrel
  rw [Document.parse_eq]
  dsimp only
  revert hrel
  generalize (Syntax.definitions (Lexer.ofString (s₁ ++ "\n" ++ s₂)).significant.2 Diagnostic.nestingLimit {}
    (Lexer.ofString (s₁ ++ "\n" ++ s₂)).significant.1).2 = e
  rintro ⟨⟩
  simp [hdoc]

theorem isDefinitions_field_braces {o t c : Token} (ho : o.kind = .braceL) (ht : t.kind = .name)
    (hc : c.kind = .braceR) :
    Grammar.IsDefinitions Diagnostic.nestingLimit [o, t, c] [⟨.query, none, [], [], [.field t.value t.value [] [] none]⟩] [] := by
  -- the token lists of the rules close up to `[o, t, c]` by computation
  have hsel : Grammar.IsSelection Diagnostic.nestingLimit 1 [t] (.field t.value t.value [] [] none) :=
    Grammar.IsSelection.field (Grammar.IsFieldName.plain ht) .none .nil .none
  have hset : Grammar.IsSelectionSet Diagnostic.nestingLimit 0 [o, t, c] [.field t.value t.value [] [] none] :=
    Grammar.IsSelectionSet.mk (show 0 < Diagnostic.nestingLimit by decide) ho hc (.cons hsel .nil) (by simp)
  exact Grammar.IsDefinitions.operation (Grammar.IsOperation.shorthand hset) .nil

/-- `{a}` and `{b}`, joined by a line break, read as the two queries. -/
theorem parse_append_line_queries :
    (Document.parse "\x7ba\x7d").error = none ∧ (Document.parse "\x7bb\x7d").error = none ∧
      Document.parse ("\x7ba\x7d" ++ "\n" ++ "\x7bb\x7d") =
        ⟨⟨(Document.parse "\x7ba\x7d").document.operations ++ (Document.parse "\x7bb\x7d").document.operations,
          (Document.parse "\x7ba\x7d").document.fragments ++ (Document.parse "\x7bb\x7d").document.fragments⟩,
          none⟩ := by
  have ha : (Lexer.ofString "\x7ba\x7d").significant.1 =
      [⟨.braceL, "\x7b", ⟨0, 1, 1, 1⟩⟩, ⟨.name, "a", ⟨1, 2, 1, 2⟩⟩, ⟨.braceR, "\x7d", ⟨2, 3, 1, 3⟩⟩] := by
    decide +kernel
  have hb : (Lexer.ofString "\x7bb\x7d").significant.1 =
      [⟨.braceL, "\x7b", ⟨0, 1, 1, 1⟩⟩, ⟨.name, "b", ⟨1, 2, 1, 2⟩⟩, ⟨.braceR, "\x7d", ⟨2, 3, 1, 3⟩⟩] := by
    decide +kernel
  have h₁ : (Document.parse "\x7ba\x7d").error = none := by
    rw [parse_of_definitions (by decide +kernel) (ha ▸ isDefinitions_field_braces rfl rfl rfl)]
  have h₂ : (Document.parse "\x7bb\x7d").error = none := by
    rw [parse_of_definitions (by decide +kernel) (hb ▸ isDefinitions_field_braces rfl rfl rfl)]
  exact ⟨h₁, h₂, parse_append_line h₁ h₂⟩

end Gql
