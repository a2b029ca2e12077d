import Mathlib.Data.List.Basic
import Gql.Proofs.Descent.Places
import Gql.Proofs.Tiling
import Gql.Diagnostic.Render
/-!
# Snippets — a detailed diagnostic shows the line it points at

A detailed diagnostic shows each place it names by the line of source around the place's
start, found again by `Text.nthLine` from the line number the place carries, and underlines
the place from its column on.  The line number and column were counted by the cursor while
reading, one character at a time; `nthLine` counts line breaks afresh from the start of the
text.  The two agree at every place the lexer or the reader reports (`places_are_shown`):
the line `nthLine` finds is the one the place starts on, the characters of that line before
the start number one less than the column, and so the first mark of the underline stands
under the character the place starts with.

Three facts give this.
* Counting line breaks: the line after the first `lineBreaks pre` breaks of `pre ++ post` is
  the end of `pre` after its last break followed by `post` up to its next break
  (`Text.nthLine_lineBreaks`) — unless `pre` ends with the carriage return and `post` starts
  with the line feed of one break, which the two counts would split differently.
* No reported place starts there (`Lexer.read_starts_clear`): a token never starts with a line
  feed, which is an ignored character, and the only fault that starts at a line feed, the one
  that ends a quoted string, follows a character of the string, never a carriage return.
* The reader reports only places of its tokens and of their end (`definitions_names_within`),
  and each of those is a place of some read of the lexer.
-/
namespace Gql

namespace Text

/-! ### Lines of a text -/

/-- The characters of `pre` after its last line break: the part of the line that `pre` ends
on. -/
def lastLine (pre : List Char) : List Char := (pre.reverse.takeWhile fun c => !isLineBreak c).reverse

/-- A split of a text into `pre` and `post` *falls inside a line break* when `pre` ends with
the carriage return and `post` starts with the line feed of one break. -/
def SplitsCRLF (pre post : List Char) : Prop := pre.getLast? = some '\r' ∧ post.head? = some '\n'

theorem sinceBreak_eq_length (pre : List Char) : sinceBreak pre = (lastLine pre).length := by
  simp [sinceBreak, lastLine]

theorem lineBreaks_eq_zero_iff (cs : List Char) : lineBreaks cs = 0 ↔ ∀ c ∈ cs, isLineBreak c = false := by
  fun_induction lineBreaks cs with
  | case1 => simp
  | case2 r ih => simp [isLineBreak]
  | case3 c r _ ih => cases hc : isLineBreak c <;> simp [hc, ih]

theorem takeWhile_self {p : Char → Bool} {cs : List Char} (h : ∀ c ∈ cs, p c = true) :
    cs.takeWhile p = cs := by
  simpa using (List.takeWhile_append_of_pos h : List.takeWhile p (cs ++ []) = cs ++ List.takeWhile p [])

theorem lastLine_of_no_break {cs : List Char} (h : ∀ c ∈ cs, isLineBreak c = false) : lastLine cs = cs := by
  rw [lastLine, takeWhile_self (fun c hc => by simpa using h c (List.mem_reverse.1 hc)), List.reverse_reverse]

theorem lastLine_cons_of_break {c : Char} (hc : isLineBreak c = true) (r : List Char) :
    lastLine (c :: r) = lastLine r := by
  have hstop : List.takeWhile (fun c => !isLineBreak c) [c] = [] := by simp [hc]
  rw [lastLine, lastLine, List.reverse_cons, List.takeWhile_append]
  split
  · rename_i hall
    rw [hstop, List.append_nil, (List.takeWhile_prefix _).eq_of_length hall]
  · rfl

theorem lastLine_cons_of_not_break {c : Char} (hc : isLineBreak c = false) (r : List Char) :
    lastLine (c :: r) = if lineBreaks r = 0 then c :: r else lastLine r := by
  split
  · rename_i h0
    exact lastLine_of_no_break (by
      intro x hx
      rcases List.mem_cons.1 hx with rfl | hx
      · exact hc
      · exact (lineBreaks_eq_zero_iff r).1 h0 x hx)
  · rename_i h0
    rw [lastLine, lastLine, List.reverse_cons, List.takeWhile_append]
    rw [if_neg]
    intro hall
    apply h0
    rw [lineBreaks_eq_zero_iff]
    intro x hx
    have hall' := List.all_takeWhile (p := fun c => !isLineBreak c) (l := r.reverse)
    rw [(List.takeWhile_prefix _).eq_of_length hall, List.all_eq_true] at hall'
    simpa using hall' x (List.mem_reverse.2 hx)

theorem afterLineBreak_cons_of_not_break {c : Char} (hc : isLineBreak c = false) (cs : List Char) :
    afterLineBreak (c :: cs) = afterLineBreak cs := by
  simp [afterLineBreak, List.dropWhile_cons_of_pos, hc]

theorem afterLineBreak_cons_of_break {c : Char} (hc : isLineBreak c = true) {cs : List Char}
    (hcr : ¬ (c = '\r' ∧ cs.head? = some '\n')) : afterLineBreak (c :: cs) = some cs := by
  rw [afterLineBreak, List.dropWhile_cons_of_neg (by simp [hc])]
  split
  · rename_i r h
    simp only [List.cons.injEq] at h
    obtain ⟨rfl, rfl⟩ := h
    exact absurd ⟨rfl, rfl⟩ hcr
  · rename_i x r _ h
    simp only [List.cons.injEq] at h
    rw [h.2]
  · simp at *

theorem afterLineBreak_crlf (cs : List Char) : afterLineBreak ('\r' :: '\n' :: cs) = some cs := by
  simp [afterLineBreak, isLineBreak]

theorem nthLine_succ_cons_of_not_break {c : Char} (hc : isLineBreak c = false) (k : Nat) (cs : List Char) :
    nthLine (k + 1) (c :: cs) = nthLine (k + 1) cs := by
  simp only [nthLine, afterLineBreak_cons_of_not_break hc]

/-- **The line after the line breaks of `pre`** is the last line of `pre` followed by `post` up
to its next break, unless `pre` ends with the carriage return and `post` starts with the line
feed of one break. -/
theorem nthLine_lineBreaks (pre post : List Char) (h : ¬ SplitsCRLF pre post) :
    nthLine (lineBreaks pre) (pre ++ post) = some (lastLine pre ++ post.takeWhile fun c => !isLineBreak c) := by
  induction pre using lineBreaks.induct with
  | case1 => simp [lineBreaks, nthLine, lastLine]
  | case2 r ih =>
    have hr : ¬ SplitsCRLF r post := by
      cases r with
      | nil => simp [SplitsCRLF]
      | cons x r => simpa [SplitsCRLF, List.getLast?_cons_cons] using h
    rw [lineBreaks, Nat.add_comm, List.cons_append, List.cons_append,
      lastLine_cons_of_break (by decide), lastLine_cons_of_break (by decide), ← ih hr]
    simp only [nthLine, afterLineBreak_crlf]
  | case3 c r hne ih =>
    have hr : ¬ SplitsCRLF r post := by
      cases r with
      | nil => simp [SplitsCRLF]
      | cons x r => simpa [SplitsCRLF, List.getLast?_cons_cons] using h
    rw [lineBreaks.eq_3 c r hne, List.cons_append]
    cases hc : isLineBreak c
    · rw [if_neg (by simp), Nat.zero_add, lastLine_cons_of_not_break hc]
      split
      · rename_i h0
        have hall := (lineBreaks_eq_zero_iff r).1 h0
        rw [h0, nthLine, List.takeWhile_cons_of_pos (by simp [hc]), List.takeWhile_append_of_pos
          (fun x hx => by simpa using hall x hx)]
        rfl
      · obtain ⟨k, hk⟩ : ∃ k, lineBreaks r = k + 1 := ⟨lineBreaks r - 1, by omega⟩
        rw [hk, nthLine_succ_cons_of_not_break hc, ← hk, ih hr]
    · have hcr : ¬ (c = '\r' ∧ (r ++ post).head? = some '\n') := by
        rintro ⟨rfl, hhead⟩
        cases r with
        | nil => simp [SplitsCRLF] at h; exact h hhead
        | cons x r =>
          simp only [List.cons_append, List.head?_cons, Option.some.injEq] at hhead
          exact hne r rfl (by rw [hhead])
      rw [if_pos rfl, Nat.add_comm, lastLine_cons_of_break hc, ← ih hr]
      simp only [nthLine, afterLineBreak_cons_of_break hc hcr]

theorem take_drop_past {cs w r : List Char} {i : Nat} (h : cs.drop i = w ++ r) :
    cs.drop (i + w.length) = r ∧ cs.take (i + w.length) = cs.take i ++ w := by
  constructor
  · rw [← List.drop_drop, h, List.drop_left]
  · rw [List.take_add, h, List.take_left]

end Text

/-! ### No place starts inside a carriage return and line feed -/

namespace Scanned

/-- A place that runs forward over characters of `cs` read from `start`, from an index of `cs`
that does not fall inside a carriage return and line feed. -/
def IsClear (start : Cursor) (cs : List Char) (sp : Span) : Prop :=
  ∃ i j, i ≤ j ∧ sp = start.spanOf cs i j ∧ ¬ Text.SplitsCRLF (cs.take i) (cs.drop i)

def Clear (start : Cursor) (cs : List Char) (s : Scanned) : Prop :=
  ∀ sp ∈ placesOf s.1, IsClear start cs sp

variable {start : Cursor} {cs : List Char}

/-- A place from the first character is clear: nothing of `cs` stands before it. -/
@[simp] theorem isClear_spanOf_zero (j : Nat) : IsClear start cs (start.spanOf cs 0 j) :=
  ⟨0, j, Nat.zero_le j, rfl, by simp [Text.SplitsCRLF]⟩

theorem isClear_spanOf_of_getLast {i j : Nat} (hij : i ≤ j) (h : (cs.take i).getLast? ≠ some '\r') :
    IsClear start cs (start.spanOf cs i j) :=
  ⟨i, j, hij, rfl, fun h' => h h'.1⟩

theorem isClear_spanOf_of_head {i j : Nat} (hij : i ≤ j) (h : (cs.drop i).head? ≠ some '\n') :
    IsClear start cs (start.spanOf cs i j) :=
  ⟨i, j, hij, rfl, fun h' => h h'.2⟩

@[simp] theorem clear_token (k : TokenKind) (v : String) (n : Nat) : Clear start cs (token start cs k v n) := by
  simp [Clear, token, placesOf]

@[simp] theorem clear_fault (f : LexFault) (i j : Nat) (notes : List Note) (n : Nat) :
    Clear start cs (fault start cs f i j notes n) ↔
      IsClear start cs (start.spanOf cs i j) ∧ ∀ sp ∈ notes.filterMap Note.location, IsClear start cs sp := by
  simp only [Clear, fault, placesOf, List.forall_mem_cons]

end Scanned

section Scanners

open Scanned

variable {start : Cursor} {cs : List Char}

theorem needDigits_clear {i : Nat} {s : Scanned} (h : needDigits start cs i = .error s) : Clear start cs s := by
  unfold needDigits at h
  split at h
  · cases h; simp
  · cases h

theorem needDigits_map_clear {i : Nat} {s : Scanned}
    (h : (needDigits start cs i).map (fun x => (x, true)) = .error s) : Clear start cs s := by
  cases hd : needDigits start cs i <;> simp_all [Except.map]
  subst h; exact needDigits_clear hd

theorem scanNumber_clear : Clear start cs (scanNumber start cs) := by
  apply scanNumber_of_parts
  · intro i s h
    unfold integerEnd at h
    split at h
    · split at h
      · cases h; simp [Note.spec]
      · cases h
    · cases h
    · exact needDigits_clear h
  · intro i s h
    unfold fractionEnd at h
    split at h
    · exact needDigits_map_clear h
    · cases h
  · intro i s h
    unfold exponentEnd at h
    split at h <;> first | exact needDigits_map_clear h | cases h
  · intro kind k _; simp

/-- Taking characters that end with no carriage return keeps a string body's invariant. -/
theorem stringBody_past {i : Nat} {w r : List Char} (h : cs.drop i = w ++ r) (hne : w ≠ [])
    (hx : w.getLast? ≠ some '\r') :
    cs.drop (i + w.length) = r ∧ (cs.take (i + w.length)).getLast? ≠ some '\r' := by
  obtain ⟨hd, ht⟩ := Text.take_drop_past h
  rw [ht, List.getLast?_append_of_ne_nil _ hne]
  exact ⟨hd, hx⟩

theorem hexNumber?_last_ne_cr {a b c d : Char} {n : Nat} (h : Text.hexNumber? [a, b, c, d] = some n) :
    d ≠ '\r' := by
  rintro rfl
  simp [Text.hexNumber?, Text.hexValue?] at h

/-- **A quoted string faults only where its body has reached**, and the body never reaches past
a carriage return: one ends the string at once, and no escape ends with one. -/
theorem stringBody_clear (r : List Char) (i : Nat) (acc : List Char) (hr : cs.drop i = r)
    (hlast : (cs.take i).getLast? ≠ some '\r') : Clear start cs (stringBody start cs r i acc) := by
  fun_induction stringBody start cs r i acc
  case case9 a b c d i acc n hn hhi e f g k r' lo hlo hlow ih =>
    obtain ⟨hd, hl⟩ := stringBody_past (w := ['\\', 'u', a, b, c, d, '\\', 'u', e, f, g, k]) hr (by simp)
      (by simpa using hexNumber?_last_ne_cr hlo)
    exact ih hd hl
  case case14 a b c d r i acc n hn _ _ ih =>
    obtain ⟨hd, hl⟩ := stringBody_past (w := ['\\', 'u', a, b, c, d]) hr (by simp)
      (by simpa using hexNumber?_last_ne_cr hn)
    exact ih hd hl
  case case16 e r i acc _ hcr _ _ d _ ih =>
    obtain ⟨hd, hl⟩ := stringBody_past (w := ['\\', e]) hr (by simp) (by simpa using hcr)
    exact ih hd hl
  case case19 c r i acc _ hcr _ _ _ _ _ _ _ _ ih =>
    obtain ⟨hd, hl⟩ := stringBody_past (w := [c]) hr (by simp) (by simpa using hcr)
    exact ih hd hl
  all_goals simp (disch := omega) [badUnicodeEscape, loneSurrogate, Note.help, Note.generalAt,
    isClear_spanOf_of_getLast]

/-- A block string faults only where its body has reached: at the end of the text or at a
control character, and neither is a line feed. -/
theorem blockBody_clear (r : List Char) (i : Nat) (acc : List Char) (hr : cs.drop i = r) :
    Clear start cs (blockBody start cs r i acc) := by
  fun_induction blockBody start cs r i acc
  case case1 => simp [Note.generalAt, isClear_spanOf_of_head, hr]
  case case2 => simp
  case case3 r i acc ih => exact ih (Text.take_drop_past (w := ['\\', '"', '"', '"']) hr).1
  case case4 r i acc ih => exact ih (Text.take_drop_past (w := ['\r', '\n']) hr).1
  case case5 r i acc _ ih => exact ih (Text.take_drop_past (w := ['\r']) hr).1
  case case6 c r i acc _ _ _ _ hc =>
    -- a line feed may stand in a block string, so the faulty character is none
    have hlf : c ≠ '\n' := by rintro rfl; simp [isForbiddenInBlock] at hc
    simp [isClear_spanOf_of_head, hr, hlf]
  case case7 c r i acc _ _ _ _ _ ih => exact ih (Text.take_drop_past (w := [c]) hr).1

/-- **A scan names no place inside a carriage return and line feed.**  Every place starts at
the first character of the scan, or inside a string literal past a character that is not a
carriage return, or where a control character other than a line feed stands. -/
theorem scanToken_clear : Clear start cs (scanToken start cs) := by
  unfold scanToken
  split
  · simp
  · split
    · simp
    split
    · simp [scanComment]
    split
    · unfold scanSpread; split <;> simp [Note.help]
    split
    · split
      · exact blockBody_clear _ _ _ rfl
      · exact stringBody_clear _ _ _ rfl (by simp_all)
    split
    · simp [Note.help]
    split
    · simp [scanName]
    split
    · exact scanNumber_clear
    · simp

end Scanners

/-! ### Every place cuts the text where the cursor counted -/

/-- The place `sp` cuts `text` into the characters `pre` before it, its own characters `mid`
and the `rest`; it carries the line and column that the cursor counts after `pre`, and its
start does not fall inside a carriage return and line feed. -/
structure Span.Cuts (text : List Char) (sp : Span) (pre mid rest : List Char) : Prop where
  split : text = pre ++ mid ++ rest
  start : sp.start = Text.utf8Length pre
  stop : sp.stop = Text.utf8Length pre + Text.utf8Length mid
  line : sp.line = 1 + Text.lineBreaks pre
  column : sp.column = 1 + Text.sinceBreak pre
  clear : ¬ Text.SplitsCRLF pre (mid ++ rest)

namespace Lexer

theorem splitsCRLF_of_append {a b post : List Char} (h : Text.SplitsCRLF (a ++ b) post) (hb : b ≠ []) :
    Text.SplitsCRLF b post := by
  obtain ⟨hl, hh⟩ := h
  rw [List.getLast?_append_of_ne_nil _ hb] at hl
  exact ⟨hl, hh⟩

/-- **Every place a read names cuts its text where the cursor counted**: a read from any lexer
that tracks `text` names only places that cut `text`, none inside a carriage return and line
feed. -/
theorem read_cuts {text : String} {lx : Lexer} (h : lx.Tracks text) :
    ∀ sp ∈ placesOf lx.read.1, ∃ pre mid rest, sp.Cuts text.toList pre mid rest := by
  obtain ⟨done, hd, hp⟩ := h
  intro sp hsp
  simp only [read] at hsp
  obtain ⟨i, j, hij, rfl, hclear⟩ := scanToken_clear sp hsp
  have htext : done ++ lx.rest.takeWhile isIgnored ++ lx.rest.dropWhile isIgnored = text.toList := by
    rw [List.append_assoc, List.takeWhile_append_dropWhile, hd]
  have hhead : (lx.rest.dropWhile isIgnored).head? ≠ some '\n' := by
    have hnot := List.head?_dropWhile_not isIgnored lx.rest
    intro hn
    rw [hn] at hnot
    simp [isIgnored] at hnot
  generalize lx.rest.takeWhile isIgnored = ign at htext
  generalize lx.rest.dropWhile isIgnored = cs at htext hhead hclear
  have htake : cs.take j = cs.take i ++ (cs.drop i).take (j - i) := by
    rw [← List.take_add, Nat.add_sub_cancel' hij]
  simp only [Cursor.spanOf, Cursor.spanTo, hp, ← Cursor.advance_append]
  have hi := Cursor.standsAfter_advance (done ++ ign ++ cs.take i)
  have hj := Cursor.standsAfter_advance (done ++ ign ++ cs.take j)
  refine ⟨done ++ ign ++ cs.take i, (cs.drop i).take (j - i), (cs.drop i).drop (j - i),
    ⟨?_, hi.offset, ?_, hi.line, hi.column, ?_⟩⟩
  · rw [List.append_assoc _ ((cs.drop i).take _), List.take_append_drop, List.append_assoc,
      List.take_append_drop, htext]
  · rw [hj.offset, htake, ← List.append_assoc, Text.utf8Length_append]
  · rw [List.take_append_drop]
    intro hs
    by_cases hne : cs.take i = []
    · rcases List.take_eq_nil_iff.1 hne with rfl | rfl
      · exact hhead hs.2
      · simp [Text.SplitsCRLF] at hs
    · exact hclear (splitsCRLF_of_append hs hne)

end Lexer

/-! ### What the detailed form shows -/

theorem Text.alignRight_length {w : Nat} {s : String} (h : s.length ≤ w) : (Text.alignRight w s).length = w := by
  rw [Text.alignRight, String.length_append, String.length_ofList, List.length_replicate]
  omega

/-- How the detailed form shows the place `sp` of `text`, cut into the characters `pre` before
it, its own characters `mid` and the `rest`: the line numbered by the place is the line around
its start, the characters of that line before the start are one fewer than the column, and
the snippet shows that line after the right-aligned line number, and under it, after a gutter
as wide and as many blanks as the line has characters before the start, as many marks as `mid`
has characters up to its first line break, and at least one. -/
structure Span.ShownAt (text : List Char) (mark : Char) (sp : Span) (pre mid rest : List Char) : Prop where
  split : text = pre ++ mid ++ rest
  start : Text.utf8Length pre = sp.start
  stop : Text.utf8Length (pre ++ mid) = sp.stop
  line : Text.nthLine (sp.line - 1) text =
    some (Text.lastLine pre ++ (mid ++ rest).takeWhile fun c => !isLineBreak c)
  column : (Text.lastLine pre).length = sp.column - 1
  snippet : ∃ w, (Text.alignRight w (toString sp.line)).length = w ∧
    sp.snippet text mark = some (Text.spaces w ++ " |\n" ++
      Text.alignRight w (toString sp.line) ++ " | " ++
        String.ofList (Text.lastLine pre ++ (mid ++ rest).takeWhile fun c => !isLineBreak c) ++ "\n" ++
      Text.spaces w ++ " | " ++ Text.spaces (Text.lastLine pre).length ++
        String.ofList (List.replicate (max 1 (mid.takeWhile fun c => !isLineBreak c).length) mark) ++ "\n")

def Span.Shown (text : List Char) (mark : Char) (sp : Span) : Prop :=
  ∃ pre mid rest, sp.ShownAt text mark pre mid rest

/-- **A place shows where the cursor counted it**: the line that the renderer finds by counting
line breaks afresh is the one around the place's start, and the underline starts under it. -/
theorem Span.Cuts.shownAt {text pre mid rest : List Char} {sp : Span} (h : sp.Cuts text pre mid rest)
    (mark : Char) : sp.ShownAt text mark pre mid rest := by
  have hline : Text.nthLine (sp.line - 1) text =
      some (Text.lastLine pre ++ (mid ++ rest).takeWhile fun c => !isLineBreak c) := by
    rw [h.line, Nat.add_sub_cancel_left, h.split, List.append_assoc]
    exact Text.nthLine_lineBreaks pre (mid ++ rest) h.clear
  have hcol : (Text.lastLine pre).length = sp.column - 1 := by
    rw [h.column, ← Text.sinceBreak_eq_length]
    omega
  have hunder : sp.underlineLength text = max 1 (mid.takeWhile fun c => !isLineBreak c).length := by
    rw [Span.underlineLength, h.start, h.stop, Nat.max_eq_left (Nat.le_add_right _ _), h.split,
      Text.sliceBytes_middle]
  refine ⟨h.split, h.start.symm, by rw [Text.utf8Length_append, h.stop], hline, hcol,
    max 2 (toString sp.line).length, Text.alignRight_length (Nat.le_max_right _ _), ?_⟩
  rw [Span.snippet]
  split
  · rename_i h0
    rw [h.line] at h0
    omega
  · rename_i l hl
    rw [show l = sp.line - 1 by omega, hline, Option.map_some, ← hcol, hunder]

/-! ### The places of a read and of a failed reading -/

namespace Lexer

/-- Each significant token of a reading, and each place its end names, is named by some read
along the way. -/
theorem significant_read_places (lx : Lexer) :
    (∀ t ∈ lx.significant.1, ∃ n, t.span ∈ placesOf (lx.after n).read.1) ∧
      ∀ sp ∈ placesOf lx.significant.2.outcome, ∃ n, sp ∈ placesOf (lx.after n).read.1 := by
  fun_induction significant lx
  case case1 lx t next hr ht =>
    refine ⟨by simp, fun sp hsp => ⟨0, ?_⟩⟩
    simpa [after, hr, Stop.outcome] using hsp
  case case2 lx t next hr ht more hc ih =>
    obtain ⟨hts, hend⟩ := ih
    have hnext : next = lx.read.2 := by rw [hr]
    refine ⟨fun t' ht' => ?_, fun sp hsp => ?_⟩
    · obtain ⟨n, hn⟩ := hts t' ht'
      exact ⟨n + 1, by rw [after_succ, ← hnext]; exact hn⟩
    · obtain ⟨n, hn⟩ := hend sp hsp
      exact ⟨n + 1, by rw [after_succ, ← hnext]; exact hn⟩
  case case3 lx t next hr ht more hc ih =>
    obtain ⟨hts, hend⟩ := ih
    have hnext : next = lx.read.2 := by rw [hr]
    refine ⟨fun t' ht' => ?_, fun sp hsp => ?_⟩
    · rcases List.mem_cons.1 ht' with rfl | ht'
      · exact ⟨0, by simp [after, hr, placesOf]⟩
      · obtain ⟨n, hn⟩ := hts t' ht'
        exact ⟨n + 1, by rw [after_succ, ← hnext]; exact hn⟩
    · obtain ⟨n, hn⟩ := hend sp hsp
      exact ⟨n + 1, by rw [after_succ, ← hnext]; exact hn⟩
  case case4 lx e next hr =>
    refine ⟨by simp, fun sp hsp => ⟨0, ?_⟩⟩
    simpa [after, hr, Stop.outcome] using hsp

end Lexer

/-- **Diagnostic snippets point at the reported character.**  Every place that a read of the
lexer names after any number of reads from the start of `text` — a token, a fault and each
place its notes point at — and every place of the fault of reading `text` as a document is
shown where it starts: the line numbered by the place is the line of `text` around its start,
the characters of that line before the start are one fewer than its column, and the snippet
underlines from there, with marks as many as the place's characters up to a line break, and
at least one. -/
theorem places_are_shown (text : String) (mark : Char) :
    (∀ n, ∀ sp ∈ placesOf ((Lexer.ofString text).after n).read.1, sp.Shown text.toList mark) ∧
      ∀ e, (Document.parse text).error = some e → ∀ sp ∈ e.places, sp.Shown text.toList mark := by
  have hread : ∀ n, ∀ sp ∈ placesOf ((Lexer.ofString text).after n).read.1, sp.Shown text.toList mark := by
    intro n sp hsp
    obtain ⟨pre, mid, rest, hc⟩ := Lexer.read_cuts (Lexer.tracks_after n (Lexer.tracks_ofString text)) sp hsp
    exact ⟨pre, mid, rest, hc.shownAt mark⟩
  refine ⟨hread, fun e he => ?_⟩
  obtain ⟨hts, hend⟩ := Lexer.significant_read_places (Lexer.ofString text)
  rw [Document.parse_eq] at he
  exact Syntax.definitions_names_within (fun sp hsp => (hend sp hsp).elim fun n hn => hread n sp hn) {}
    (fun t ht => (hts t ht).elim fun n hn => hread n t.span hn) e he

end Gql
