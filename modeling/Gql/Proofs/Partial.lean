import Gql.Proofs.Padding
/-!
# Partial — what a failed read keeps

A read that fails keeps the definitions it completed before the fault, and nothing of the
one in progress: they are exactly what the text reads as when it is cut right after the
closing brace of the last of them, or cut to nothing when there is none; and the cut comes
no later than where the fault is reported (`parse_error_prefix`).

On the side of the grammar, the definitions read before a fault are a sentence of it
(`Syntax.definitions_partial`), each ending with a closing brace
(`Grammar.IsDefinitions.last`), and the fault is reported at one of the places that come
after them.  On the side of the tokens, cutting the text after a significant token keeps
every read before the cut (`Lexer.Run.retail`, with nothing after), and then the end token
comes.
-/
namespace Gql

namespace Grammar

variable {lim : Nat}

theorem IsSelectionSet.last {d : Nat} {ts : List Token} {sels : List Selection}
    (h : IsSelectionSet lim d ts sels) : ∃ c, ts.getLast? = some c ∧ c.kind = .braceR := by
  cases h with
  | @mk _ o c ts sels _ _ hc _ _ => exact ⟨c, List.getLast?_eq_some_iff.2 ⟨o :: ts, rfl⟩, hc⟩

theorem IsOperation.last {ts : List Token} {o : Operation} (h : IsOperation lim ts o) :
    ∃ c, ts.getLast? = some c ∧ c.kind = .braceR := by
  cases h with
  | shorthand hs => exact hs.last
  | full _ _ _ _ _ hs =>
    obtain ⟨c, hc, hk⟩ := hs.last
    exact ⟨c, by rw [List.getLast?_append, hc]; rfl, hk⟩

theorem IsFragment.last {ts : List Token} {f : Fragment} (h : IsFragment lim ts f) :
    ∃ c, ts.getLast? = some c ∧ c.kind = .braceR := by
  cases h with
  | mk _ _ _ _ _ _ hs =>
    obtain ⟨c, hc, hk⟩ := hs.last
    exact ⟨c, by rw [List.getLast?_append, hc]; rfl, hk⟩

/-- **Definitions end with a closing brace**, when there are any. -/
theorem IsDefinitions.last {ts : List Token} {os : List Operation} {fs : List Fragment}
    (h : IsDefinitions lim ts os fs) : ∀ t ∈ ts.getLast?, t.kind = .braceR := by
  induction h with
  | nil => simp
  | @operation ts rest o os fs ho _ ih =>
    obtain ⟨c, hc, hk⟩ := ho.last
    cases rest with
    | nil => simpa [hc] using hk
    | cons r rest => simpa [List.getLast?_append] using ih
  | @fragment ts rest f os fs hf _ ih =>
    obtain ⟨c, hc, hk⟩ := hf.last
    cases rest with
    | nil => simpa [hc] using hk
    | cons r rest => simpa [List.getLast?_append] using ih

end Grammar

namespace Syntax

open Grammar

variable {stop : Stop} {limit : Nat}

/-- **A read of definitions that faults completed a sentence of the grammar first**: the
tokens are the definitions it completed, then the tokens at which it tried the next one and
faulted; the document it gives holds those definitions. -/
theorem definitions_partial {doc doc' : Document} {ts : List Token} {e : Diagnostic}
    (h : definitions stop limit doc ts = (doc', some e)) :
    ∃ pre rest os fs, ts = pre ++ rest ∧ IsDefinitions limit pre os fs ∧
      doc' = ⟨doc.operations ++ os, doc.fragments ++ fs⟩ ∧
      definitions stop limit doc' rest = (doc', some e) := by
  fun_induction definitions stop limit doc ts with
  | case1 doc ts e' hp =>
    cases h
    exact ⟨[], ts, [], [], rfl, .nil, by simp, by rw [definitions, hp]⟩
  | case2 => cases h
  | case3 doc ts t hp hk hkw e' hf =>
    cases h
    refine ⟨[], ts, [], [], rfl, .nil, by simp, ?_⟩
    rw [definitions, hp]
    simp [hk, hkw, hf]
  | case4 doc ts t _ _ _ f r hr hf ih =>
    obtain ⟨pre, hpre, hfr⟩ := fragment_sound hf
    obtain ⟨pre', rest, os, fs, hsplit, hdefs, rfl, hrest⟩ := ih h
    refine ⟨pre ++ pre', rest, os, f :: fs, by rw [hpre, List.append_assoc, ← hsplit],
      .fragment hfr hdefs, by simp [Document.addFragment], hrest⟩
  | case5 doc ts t hp hk hkw hop e' ho =>
    cases h
    refine ⟨[], ts, [], [], rfl, .nil, by simp, ?_⟩
    rw [definitions, hp]
    simp [hk, hkw, hop, ho]
  | case6 doc ts t _ _ _ _ o r hr ho ih =>
    obtain ⟨pre, hpre, hop⟩ := operation_sound ho
    obtain ⟨pre', rest, os, fs, hsplit, hdefs, rfl, hrest⟩ := ih h
    refine ⟨pre ++ pre', rest, o :: os, fs, by rw [hpre, List.append_assoc, ← hsplit],
      .operation hop hdefs, by simp [Document.addOperation], hrest⟩
  | case7 doc ts t hp hk hkw hop =>
    cases h
    refine ⟨[], ts, [], [], rfl, .nil, by simp, ?_⟩
    rw [definitions, hp]
    simp [hk, hkw, hop]

/-- A fault of a read of definitions is reported at one of the places of its tokens or of
their end. -/
theorem definitions_fault_place {doc doc' : Document} {ts : List Token} {e : Diagnostic}
    (h : definitions stop limit doc ts = (doc', some e)) : e.span ∈ places stop ts := by
  have hal : Aligned stop stop ((places stop ts).zip (places stop ts)) ts ts := ⟨rfl, List.suffix_refl _⟩
  have hrel : Option.Rel (Twin ((places stop ts).zip (places stop ts)))
      (definitions stop limit doc ts).2 (definitions stop limit doc ts).2 :=
    (definitions_alike (Stop.Alike.refl stop) doc hal).2
  rw [h] at hrel
  cases hrel with
  | some htw => exact (List.of_mem_zip htw.place).1

end Syntax

namespace Lexer

/-- **The significant tokens up to any one of them are those of a run** from the start of the
reading, which ends with that token; the reading after the run gives the rest. -/
theorem run_of_significant (lx : Lexer) :
    ∀ {pre rest : List Token}, lx.significant.1 = pre ++ rest → pre ≠ [] →
      ∃ ts lx', Run lx ts lx' ∧ ts.filter (fun t => t.kind != .comment) = pre ∧
        ts.getLast? = pre.getLast? ∧ lx'.significant = (rest, lx.significant.2) := by
  fun_induction significant lx
  case case1 =>
    intro pre rest h hne
    cases pre with
    | nil => exact absurd rfl hne
    | cons _ _ => simp at h
  case case2 =>
    rename_i lx t next hr ht more hc ih
    intro pre rest h hne
    obtain ⟨ts, lx', hrun, hf, hl, hs⟩ := ih h hne
    have hts : ts ≠ [] := by rintro rfl; simp at hf; exact hne hf
    refine ⟨t :: ts, lx', .cons (by rw [hr]) ht (by rw [hr]; exact hrun), by simp [hc, hf], ?_, hs⟩
    rw [List.getLast?_cons_of_ne_nil hts, hl]
  case case3 =>
    rename_i lx t next hr ht more hc ih
    intro pre rest h hne
    cases pre with
    | nil => exact absurd rfl hne
    | cons p pre =>
      simp only [List.cons_append, List.cons.injEq] at h
      obtain ⟨rfl, h⟩ := h
      by_cases hpre : pre = []
      · subst hpre
        refine ⟨[t], next, .cons (by rw [hr]) ht (by rw [hr]; exact .nil next), by simp [hc], rfl, ?_⟩
        exact Prod.ext h rfl
      · obtain ⟨ts, lx', hrun, hf, hl, hs⟩ := ih h hpre
        have hts : ts ≠ [] := by rintro rfl; simp at hf; exact hpre hf
        refine ⟨t :: ts, lx', .cons (by rw [hr]) ht (by rw [hr]; exact hrun), by simp [hc, hf], ?_, hs⟩
        rw [List.getLast?_cons_of_ne_nil hts, hl, List.getLast?_cons_of_ne_nil hpre]
  case case4 =>
    intro pre rest h hne
    cases pre with
    | nil => exact absurd rfl hne
    | cons _ _ => simp at h

theorem offset_lt_of_read {lx next : Lexer} {t : Token} (hr : lx.read = (.ok t, next)) (ht : t.kind ≠ .eof) :
    lx.pos.offset < next.pos.offset := by
  have h : lx.pos.offset < lx.read.2.pos.offset := read_offset_lt (fun t' h' => by rw [hr] at h'; cases h'; exact ht)
  rwa [hr] at h

theorem read_places_from (lx : Lexer) : ∀ sp ∈ placesOf lx.read.1, lx.pos.offset ≤ sp.start := by
  intro sp hsp
  simp only [read] at hsp
  obtain ⟨i, j, -, rfl⟩ := scanToken_forward sp hsp
  simp only [Cursor.spanOf, Cursor.spanTo, Cursor.offset_advance]
  omega

/-- **A reading names no place before the cursor it starts from**: neither its significant
tokens nor its end. -/
theorem significant_places_from (lx : Lexer) :
    ∀ sp ∈ Syntax.places lx.significant.2 lx.significant.1, lx.pos.offset ≤ sp.start := by
  fun_induction significant lx
  case case1 =>
    rename_i lx t next hr ht
    intro sp hsp
    simp only [Syntax.places, List.map_nil, List.nil_append, List.mem_singleton, Stop.span] at hsp
    subst hsp
    exact read_places_from lx _ (by rw [hr]; simp [placesOf])
  case case2 =>
    rename_i lx t next hr ht more hc ih
    intro sp hsp
    have hle := ih sp hsp
    have hlt := offset_lt_of_read hr ht
    omega
  case case3 =>
    rename_i lx t next hr ht more hc ih
    intro sp hsp
    simp only [Syntax.places, List.map_cons, List.cons_append, List.mem_cons] at hsp
    rcases hsp with rfl | hsp
    · exact read_places_from lx _ (by rw [hr]; simp [placesOf])
    · have hle := ih sp hsp
      have hlt := offset_lt_of_read hr ht
      omega
  case case4 =>
    rename_i lx e next hr
    intro sp hsp
    simp only [Syntax.places, List.map_nil, List.nil_append, List.mem_singleton, Stop.span] at hsp
    subst hsp
    exact read_places_from lx _ (by rw [hr]; simp [placesOf])

/-- **Cutting a text right after a significant token keeps its reading up to that token**:
the cut text reads as the significant tokens up to it, then ends; and what the reading of the
whole text names after that token starts no earlier than the cut.  Cutting at the start
reads as nothing. -/
theorem significant_cut (s : String) {pre rest : List Token} (h : (ofString s).significant.1 = pre ++ rest) :
    ∃ k v u, (k = 0 ∨ ∃ c ∈ pre.getLast?, c.span.stop = k) ∧ Text.takeBytes k s.toList = some v ∧
      (ofString (String.ofList v)).significant = (pre, .eof u) ∧ u.kind = .eof ∧
      ∀ sp ∈ Syntax.places (ofString s).significant.2 rest, k ≤ sp.start := by
  cases hlast : pre.getLast? with
  | none =>
    rw [List.getLast?_eq_none_iff] at hlast
    subst hlast
    exact ⟨0, [], _, .inl rfl, by rw [Text.takeBytes], significant_empty _, rfl, fun _ _ => Nat.zero_le _⟩
  | some c =>
    have hne : pre ≠ [] := by rintro rfl; simp at hlast
    obtain ⟨ts, lx', hrun, hf, hl, hs⟩ := run_of_significant _ h hne
    obtain ⟨init, rfl⟩ := List.getLast?_eq_some_iff.1 (hl.trans hlast)
    obtain ⟨lx₀, hrun₀, hrun₁⟩ := Run.of_append hrun
    cases hrun₁ with
    | cons hr hk hnil =>
    cases hnil
    obtain ⟨done, hd, hp⟩ := hrun₀.tracks (tracks_ofString s)
    obtain ⟨-, -, -, v, hv, hpv, hlen⟩ := read_tiles hd hp hr hk
    have hcut : lx₀.read.2.pos.offset = c.span.stop := by
      rw [hpv, Cursor.offset_advance, hlen]
      exact Nat.zero_add _
    have hrun' := hrun.retail (u := v) [] hv.symm (by simp)
    have hofs : ofString (String.ofList v) = ⟨v ++ [], (ofString s).pos⟩ := by simp [ofString]
    refine ⟨c.span.stop, v, ⟨.eof, "", lx₀.read.2.pos.spanTo lx₀.read.2.pos⟩, .inr ⟨c, rfl, rfl⟩, ?_, ?_, rfl, ?_⟩
    · rw [← hlen, ← hv]
      exact Text.takeBytes_utf8Length _ _
    · rw [hofs, hrun'.significant_eq, significant_empty, hf, List.append_nil]
    · intro sp hsp
      rw [← hcut]
      have hfrom := significant_places_from lx₀.read.2
      rw [hs] at hfrom
      exact hfrom sp hsp

end Lexer

open Grammar in
/-- **A failed read keeps exactly what the text cut before the fault reads**: the text cut
at its start, or right after the closing brace of a significant token, no later than where
the fault is reported, reads without a fault as the very document the failed read gives. -/
theorem parse_error_prefix (s : String) {e : Diagnostic} (he : (Document.parse s).error = some e) :
    ∃ k pre, k ≤ e.span.start ∧
      (k = 0 ∨ ∃ t ∈ (Lexer.ofString s).significant.1, t.kind = .braceR ∧ t.span.stop = k) ∧
      Text.takeBytes k s.toList = some pre ∧
      Document.parse (String.ofList pre) = ⟨(Document.parse s).document, none⟩ := by
  rw [Document.parse_eq] at he ⊢
  dsimp only at he ⊢
  generalize hd : Syntax.definitions (Lexer.ofString s).significant.2 Diagnostic.nestingLimit {}
    (Lexer.ofString s).significant.1 = r at he ⊢
  obtain ⟨doc, err⟩ := r
  cases he
  obtain ⟨P, R, os, fs, hsplit, hdefs, rfl, hrest⟩ := Syntax.definitions_partial hd
  obtain ⟨k, v, u, hk, htake, hsig, hu, hafter⟩ := Lexer.significant_cut s hsplit
  refine ⟨k, v, hafter e.span (Syntax.definitions_fault_place hrest), ?_, htake, ?_⟩
  · rcases hk with rfl | ⟨c, hc, rfl⟩
    · exact .inl rfl
    · exact .inr ⟨c, by rw [hsplit]; exact List.mem_append_left _ (List.mem_of_getLast? hc), hdefs.last c hc, rfl⟩
  · rw [Document.parse_eq, hsig]
    dsimp only
    rw [Syntax.definitions_complete _ hdefs rfl hu]

/-- A stray closing brace faults at once, and the text cut at its start reads as the empty
document the failed read gives. -/
theorem parse_error_prefix_stray_brace :
    (Document.parse "\x7d").error = some (.notDefinition ⟨.braceR, "\x7d", ⟨0, 1, 1, 1⟩⟩) ∧
      ∃ k pre, k ≤ (Diagnostic.notDefinition ⟨.braceR, "\x7d", ⟨0, 1, 1, 1⟩⟩).span.start ∧
        (k = 0 ∨ ∃ t ∈ (Lexer.ofString "\x7d").significant.1, t.kind = .braceR ∧ t.span.stop = k) ∧
        Text.takeBytes k "\x7d".toList = some pre ∧
        Document.parse (String.ofList pre) = ⟨(Document.parse "\x7d").document, none⟩ := by
  have hsig : (Lexer.ofString "\x7d").significant =
      ([⟨.braceR, "\x7d", ⟨0, 1, 1, 1⟩⟩], .eof ⟨.eof, "", ⟨1, 1, 1, 2⟩⟩) := by
    rw [Lexer.significant_of_token (t := ⟨.braceR, "\x7d", ⟨0, 1, 1, 1⟩⟩) (by decide) (by decide), if_neg (by decide),
      Lexer.significant_of_eof (t := ⟨.eof, "", ⟨1, 1, 1, 2⟩⟩) (by decide) (by decide)]
  have he : (Document.parse "\x7d").error = some (.notDefinition ⟨.braceR, "\x7d", ⟨0, 1, 1, 1⟩⟩) := by
    rw [Document.parse_eq, hsig]
    dsimp only
    rw [Syntax.definitions]
    simp [Syntax.peek, Token.isKeyword]
  exact ⟨he, parse_error_prefix _ he⟩

end Gql
