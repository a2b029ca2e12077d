import Mathlib.Data.List.Induction
import Gql.Proofs.Reading
/-!
# Positions — every cursor and every span of a read is placed in its text

A byte offset of a text has a line and a column (`Text.lineCol`): the line is one more than
the line breaks before it, where a line feed, a carriage return and a carriage return followed
by a line feed each count once, and the column is one more than the characters since the last
break.  A cursor is *placed* in a text (`Cursor.PlacedIn`) when its offset is a character
boundary, its line and column are those of the offset, and it remembers a carriage return
exactly when the character before the offset is one.  A span is placed when it runs forward
between two boundaries and carries the line and column of its start.

Reading one character keeps a cursor standing after what it has read (`StandsAfter.next`),
so reading a prefix of a text from its start places the cursor (`StandsAfter.placedIn`).
Every scan names only spans that run forward over the characters it looks at
(`scanToken_forward`); hence every lexer reached by reads from the start of a text, faults
included, has a placed cursor and reports only placed spans (`Lexer.reads_stay_placed`).
-/
namespace Gql

namespace Text

/-- The line breaks of `cs`: a line feed, a carriage return, and a carriage return followed
by a line feed each count as one. -/
def lineBreaks : List Char → Nat
  | [] => 0
  | '\r' :: '\n' :: r => 1 + lineBreaks r
  | c :: r => (if isLineBreak c then 1 else 0) + lineBreaks r

def sinceBreak (cs : List Char) : Nat := (cs.reverse.takeWhile (fun c => !isLineBreak c)).length

/-- The line and column of byte offset `k` of `text`: one more than the line breaks before
it, and one more than the characters since the last of them.  None when `k` lies past the
end or inside a character. -/
def lineCol (text : String) (k : Nat) : Option (Nat × Nat) :=
  (takeBytes k text.toList).map fun pre => (1 + lineBreaks pre, 1 + sinceBreak pre)

def charBefore (text : String) (k : Nat) : Option Char :=
  (takeBytes k text.toList).bind List.getLast?

theorem lineBreaks_concat (pre : List Char) (c : Char) :
    lineBreaks (pre ++ [c]) =
      lineBreaks pre + if c = '\n' ∧ pre.getLast? = some '\r' then 0 else if isLineBreak c then 1 else 0 := by
  fun_induction lineBreaks pre with
  | case1 => simp [lineBreaks]
  | case2 r ih =>
    rw [List.cons_append, List.cons_append, lineBreaks, ih]
    cases r <;> simp <;> omega
  | case3 d r hne ih =>
    cases r with
    | nil => by_cases hd : d = '\r' <;> by_cases hc : c = '\n' <;> simp_all [lineBreaks, isLineBreak]
    | cons x r =>
      -- `d` and `x` are no carriage return and line feed, so `d` still counts on its own
      have hne' : ∀ r', d = '\r' → x :: r ++ [c] = '\n' :: r' → False := fun r' hd h => by
        simp only [List.cons_append, List.cons.injEq] at h
        exact hne r hd (by rw [h.1])
      rw [List.cons_append, lineBreaks.eq_3 d _ hne', ih]
      simp only [List.getLast?_cons_cons]
      omega

theorem sinceBreak_concat (pre : List Char) (c : Char) :
    sinceBreak (pre ++ [c]) = if isLineBreak c then 0 else sinceBreak pre + 1 := by
  cases h : isLineBreak c <;> simp [sinceBreak, h]

theorem utf8Length_append (as bs : List Char) : utf8Length (as ++ bs) = utf8Length as + utf8Length bs := by
  induction as with
  | nil => simp
  | cons c as ih => simp [ih]; omega

theorem utf8Length_le_of_prefix {a b : List Char} (h : a <+: b) : utf8Length a ≤ utf8Length b := by
  obtain ⟨t, rfl⟩ := h
  rw [utf8Length_append]; omega

theorem takeBytes_utf8Length (pre suf : List Char) : takeBytes (utf8Length pre) (pre ++ suf) = some pre := by
  induction pre with
  | nil => simp [takeBytes]
  | cons c r ih =>
    have hc := c.utf8Size_pos
    obtain ⟨m, hm⟩ : ∃ m, utf8Length (c :: r) = m + 1 := ⟨utf8Length (c :: r) - 1, by simp; omega⟩
    have hr : m + 1 - c.utf8Size = utf8Length r := by simp at hm; omega
    rw [hm, List.cons_append, takeBytes, if_pos (by simp at hm; omega), hr, ih]
    rfl

end Text

namespace Cursor

/-- A cursor *stands after* the characters `pre` when its offset is their byte count, its
line and column are those at their end, and it remembers a carriage return exactly when
`pre` ends with one. -/
structure StandsAfter (pre : List Char) (p : Cursor) : Prop where
  offset : p.offset = Text.utf8Length pre
  line : p.line = 1 + Text.lineBreaks pre
  column : p.column = 1 + Text.sinceBreak pre
  afterCR : p.afterCR = true ↔ pre.getLast? = some '\r'

theorem standsAfter_nil : StandsAfter [] {} := ⟨rfl, rfl, rfl, by simp⟩

/-- **Reading one character keeps a cursor standing after what it has read.** -/
theorem StandsAfter.next {pre : List Char} {p : Cursor} (h : StandsAfter pre p) (c : Char) :
    StandsAfter (pre ++ [c]) (p.next c) := by
  obtain ⟨ho, hl, hc, hr⟩ := h
  have hlen : Text.utf8Length (pre ++ [c]) = Text.utf8Length pre + c.utf8Size := by
    rw [Text.utf8Length_append]; simp
  have hn : '\n'.utf8Size = 1 := by decide
  have hr1 : '\r'.utf8Size = 1 := by decide
  unfold Cursor.next
  by_cases hlf : c = '\n'
  · subst hlf
    cases hcr : p.afterCR
    · have hlast : pre.getLast? ≠ some '\r' := fun h => by simp [hr.2 h] at hcr
      refine ⟨?_, ?_, ?_, ?_⟩ <;>
        simp [hlen, hn, ho, hl, Text.lineBreaks_concat, Text.sinceBreak_concat, hlast, isLineBreak]
      omega
    · have hlast : pre.getLast? = some '\r' := hr.1 hcr
      have hs : Text.sinceBreak pre = 0 := by
        obtain ⟨init, rfl⟩ := List.getLast?_eq_some_iff.1 hlast
        simp [Text.sinceBreak_concat, isLineBreak]
      refine ⟨?_, ?_, ?_, ?_⟩ <;>
        simp [hlen, hn, ho, hl, hc, hs, hlast, Text.lineBreaks_concat, Text.sinceBreak_concat, isLineBreak]
  · by_cases hcr : c = '\r'
    · subst hcr
      refine ⟨?_, ?_, ?_, ?_⟩ <;>
        simp [hlen, hr1, ho, hl, Text.lineBreaks_concat, Text.sinceBreak_concat, isLineBreak]
      omega
    · have hb : isLineBreak c = false := by simp [isLineBreak, hlf, hcr]
      refine ⟨?_, ?_, ?_, ?_⟩ <;>
        simp [hlen, ho, hl, hc, hlf, hcr, hb, Text.lineBreaks_concat, Text.sinceBreak_concat]
      omega

theorem standsAfter_advance (pre : List Char) : StandsAfter pre (({} : Cursor).advance pre) := by
  induction pre using List.reverseRecOn with
  | nil => exact standsAfter_nil
  | append_singleton pre c ih => rw [advance_append, advance_cons, advance_nil]; exact ih.next c

/-- **Reading characters that hold no line break only moves the column**, by their number,
and forgets a carriage return: the shortcut a reader may take over a name or the body of a
comment, where it adds the byte count to the offset and the character count to the column. -/
theorem advance_of_no_break (p : Cursor) {cs : List Char} (h : ∀ c ∈ cs, isLineBreak c = false)
    (hne : cs ≠ []) :
    p.advance cs =
      { p with offset := p.offset + Text.utf8Length cs, column := p.column + cs.length, afterCR := false } := by
  induction cs generalizing p with
  | nil => exact absurd rfl hne
  | cons c r ih =>
    have hc : c ≠ '\n' ∧ c ≠ '\r' := by
      have := h c (List.mem_cons_self ..)
      constructor <;> rintro rfl <;> simp [isLineBreak] at this
    have hstep : p.next c = { p with offset := p.offset + c.utf8Size, column := p.column + 1, afterCR := false } := by
      simp [next, hc.1, hc.2]
    rw [advance_cons, hstep]
    cases r with
    | nil => simp
    | cons d r =>
      rw [ih _ (fun x hx => h x (List.mem_cons_of_mem _ hx)) (List.cons_ne_nil _ _)]
      simp only [mk.injEq, Text.utf8Length_cons, List.length_cons, and_true, true_and]
      omega

/-- A cursor *placed* in `text`: its offset is a character boundary of `text`, its line and
column are those of the offset, and it remembers a carriage return exactly when one stands
just before the offset. -/
structure PlacedIn (text : String) (p : Cursor) : Prop where
  boundary : (⟨p.offset⟩ : String.Pos.Raw).IsValid text
  lineCol : Text.lineCol text p.offset = some (p.line, p.column)
  afterCR : p.afterCR = true ↔ Text.charBefore text p.offset = some '\r'

theorem StandsAfter.placedIn {text : String} {pre : List Char} {p : Cursor} (h : StandsAfter pre p)
    (hp : pre <+: text.toList) : p.PlacedIn text := by
  obtain ⟨suf, hsuf⟩ := hp
  have ht : Text.takeBytes p.offset text.toList = some pre := by
    rw [h.offset, ← hsuf, Text.takeBytes_utf8Length]
  refine ⟨?_, by simp [Text.lineCol, ht, h.line, h.column], by simp [Text.charBefore, ht, h.afterCR]⟩
  rw [String.Pos.Raw.isValid_iff_exists_take_toList]
  exact ⟨pre.length, by rw [← hsuf]; simp [Text.utf8ByteSize_ofList, h.offset]⟩

end Cursor

/-- A span *placed* in `text`: it runs forward between two character boundaries of `text`,
and carries the line and column of its start. -/
structure Span.PlacedIn (text : String) (s : Span) : Prop where
  forward : s.start ≤ s.stop
  startBoundary : (⟨s.start⟩ : String.Pos.Raw).IsValid text
  stopBoundary : (⟨s.stop⟩ : String.Pos.Raw).IsValid text
  lineCol : Text.lineCol text s.start = some (s.line, s.column)

theorem Span.PlacedIn.stop_le {text : String} {s : Span} (h : s.PlacedIn text) :
    s.stop ≤ text.utf8ByteSize :=
  h.stopBoundary.le_utf8ByteSize

theorem Cursor.spanTo_placedIn {text : String} {a b : Cursor} (ha : a.PlacedIn text) (hb : b.PlacedIn text)
    (hle : a.offset ≤ b.offset) : (a.spanTo b).PlacedIn text :=
  ⟨hle, ha.boundary, hb.boundary, ha.lineCol⟩

def placesOf : Except LexError Token → List Span
  | .ok t => [t.span]
  | .error e => e.span :: e.notes.filterMap Note.location

namespace Scanned

def IsForward (start : Cursor) (cs : List Char) (sp : Span) : Prop :=
  ∃ i j, i ≤ j ∧ sp = start.spanOf cs i j

/-- Every span that a scan names runs forward over characters of `cs` read from `start`. -/
def Forward (start : Cursor) (cs : List Char) (s : Scanned) : Prop :=
  ∀ sp ∈ placesOf s.1, IsForward start cs sp

variable {start : Cursor} {cs : List Char}

@[simp] theorem isForward_spanOf {i j : Nat} (h : i ≤ j) : IsForward start cs (start.spanOf cs i j) :=
  ⟨i, j, h, rfl⟩

@[simp] theorem forward_token (k : TokenKind) (v : String) (n : Nat) : Forward start cs (token start cs k v n) := by
  simp [Forward, token, placesOf]

@[simp] theorem forward_fault (f : LexFault) (i j : Nat) (notes : List Note) (n : Nat) :
    Forward start cs (fault start cs f i j notes n) ↔
      IsForward start cs (start.spanOf cs i j) ∧ ∀ sp ∈ notes.filterMap Note.location, IsForward start cs sp := by
  simp only [Forward, fault, placesOf, List.forall_mem_cons]

end Scanned

section Scanners

open Scanned

variable {start : Cursor} {cs : List Char}

theorem needDigits_forward {i : Nat} {s : Scanned} (h : needDigits start cs i = .error s) : Forward start cs s := by
  unfold needDigits at h
  split at h
  · cases h; simp
  · cases h

theorem needDigits_map_forward {i : Nat} {s : Scanned}
    (h : (needDigits start cs i).map (fun x => (x, true)) = .error s) : Forward start cs s := by
  cases hd : needDigits start cs i <;> simp_all [Except.map]
  subst h; exact needDigits_forward hd

theorem scanNumber_forward : Forward start cs (scanNumber start cs) := by
  apply scanNumber_of_parts
  · intro i s h
    unfold integerEnd at h
    split at h
    · split at h
      · cases h; simp [Note.spec]
      · cases h
    · cases h
    · exact needDigits_forward h
  · intro i s h
    unfold fractionEnd at h
    split at h
    · exact needDigits_map_forward h
    · cases h
  · intro i s h
    unfold exponentEnd at h
    split at h <;> first | exact needDigits_map_forward h | cases h
  · intro kind k _; simp

theorem stringBody_forward (r : List Char) (i : Nat) (acc : List Char) :
    Forward start cs (stringBody start cs r i acc) := by
  fun_induction stringBody start cs r i acc <;>
    simp (disch := omega) [badUnicodeEscape, loneSurrogate, Note.help, Note.generalAt, *]

theorem blockBody_forward (r : List Char) (i : Nat) (acc : List Char) :
    Forward start cs (blockBody start cs r i acc) := by
  fun_induction blockBody start cs r i acc <;> simp (disch := omega) [Note.generalAt, *]

/-- **A scan names only spans that run forward over the characters it looks at**: its token,
its fault, and the opening that a note on an unterminated string points back to. -/
theorem scanToken_forward : Forward start cs (scanToken start cs) := by
  unfold scanToken
  split
  · simp
  · split
    · simp
    split
    · simp [scanComment]
    split
    · unfold scanSpread; split <;> simp [Note.help]
    split
    · split
      · exact blockBody_forward _ _ _
      · exact stringBody_forward _ _ _
    split
    · simp [Note.help]
    split
    · simp [scanName]
    split
    · exact scanNumber_forward
    · simp

end Scanners

namespace Lexer

theorem read_places {text : String} {lx : Lexer} (h : lx.Tracks text) :
    ∀ sp ∈ placesOf lx.read.1, sp.PlacedIn text := by
  obtain ⟨done, hd, hp⟩ := h
  intro sp hsp
  simp only [read] at hsp
  obtain ⟨i, j, hij, rfl⟩ := scanToken_forward sp hsp
  have htext : done ++ lx.rest.takeWhile isIgnored ++ lx.rest.dropWhile isIgnored = text.toList := by
    rw [List.append_assoc, List.takeWhile_append_dropWhile, hd]
  generalize lx.rest.takeWhile isIgnored = ign at htext
  generalize lx.rest.dropWhile isIgnored = cs at htext
  have hpre : ∀ k, done ++ ign ++ cs.take k <+: text.toList := fun k => by
    rw [← htext]; exact (List.prefix_append_right_inj _).2 (List.take_prefix k cs)
  simp only [Cursor.spanOf, hp, ← Cursor.advance_append]
  refine Cursor.spanTo_placedIn ((Cursor.standsAfter_advance _).placedIn (hpre i))
    ((Cursor.standsAfter_advance _).placedIn (hpre j)) ?_
  rw [(Cursor.standsAfter_advance _).offset, (Cursor.standsAfter_advance _).offset]
  exact Text.utf8Length_le_of_prefix ((List.prefix_append_right_inj _).2 (List.take_prefix_take_left hij))

/-- **Every cursor and every span of a read is placed.**  After any number of reads from the
start of `text`, faults included, the cursor's offset is a character boundary of `text`, its
line and column are those of the offset, and it remembers a carriage return exactly when one
stands before the offset; and the next read names only spans — of its token, of its fault,
of its notes — that run forward between two boundaries and carry the line and column of
their start. -/
theorem reads_stay_placed (text : String) (n : Nat) :
    ((ofString text).after n).pos.PlacedIn text ∧
      ∀ sp ∈ placesOf ((ofString text).after n).read.1, sp.PlacedIn text := by
  have htr := tracks_after n (tracks_ofString text)
  obtain ⟨done, hd, hp⟩ := id htr
  exact ⟨hp ▸ (Cursor.standsAfter_advance done).placedIn ⟨_, hd⟩, read_places htr⟩

end Lexer

end Gql
