import Gql.Token.Stream
/-!
# Reading a text to its end

A lexer *tracks* a text when its rest is a suffix of the text and its cursor is where
reading the characters before that suffix leaves a cursor at the start.  Reads keep this
(`Lexer.tracks_read`), so every lexer reached from the start of a text tracks it.

On such lexers reading is well behaved (`Lexer.reads_advance_and_close`): each read other
than the end moves the offset forward; the end token stands at the end of the text and
comes back on every later read; it comes within as many reads as the text has characters
and one more; and the tokens of a text close with exactly one end or error token.
-/
namespace Gql

namespace Lexer

def after : Nat → Lexer → Lexer
  | 0, lx => lx
  | n + 1, lx => after n lx.read.2

/-- A lexer tracks `text` when its rest is what is left of `text` after some characters
`done`, and its cursor is where reading `done` from the start leaves it. -/
def Tracks (text : String) (lx : Lexer) : Prop :=
  ∃ done, done ++ lx.rest = text.toList ∧ lx.pos = ({} : Cursor).advance done

theorem after_succ (n : Nat) (lx : Lexer) : lx.after (n + 1) = lx.read.2.after n := rfl

theorem tracks_ofString (text : String) : (ofString text).Tracks text :=
  ⟨[], by simp [ofString], rfl⟩

/-- A read keeps a lexer tracking its text: what it skips and what it scans is taken
from the front of the rest, and the cursor reads exactly those characters. -/
theorem tracks_read {text : String} {lx : Lexer} (h : lx.Tracks text) : lx.read.2.Tracks text := by
  obtain ⟨done, hd, hp⟩ := h
  refine ⟨done ++ lx.rest.takeWhile isIgnored ++
    (lx.rest.dropWhile isIgnored).take (scanToken (lx.pos.advance (lx.rest.takeWhile isIgnored))
      (lx.rest.dropWhile isIgnored)).2, ?_, ?_⟩
  · simp only [Lexer.read, List.append_assoc, List.take_append_drop, List.takeWhile_append_dropWhile, hd]
  · simp only [Lexer.read, hp, Cursor.advance_append]

theorem tracks_after {text : String} :
    ∀ (n : Nat) {lx : Lexer}, lx.Tracks text → (lx.after n).Tracks text
  | 0, _, h => h
  | n + 1, _, h => tracks_after n (tracks_read h)

theorem takeWhile_of_dropWhile_nil {p : Char → Bool} {l : List Char} (h : l.dropWhile p = []) :
    l.takeWhile p = l := by
  have := List.takeWhile_append_dropWhile (p := p) (l := l)
  rw [h, List.append_nil] at this
  exact this

/-- Where only ignored characters are left, a read gives the end token after them, with
an empty span, and leaves nothing behind. -/
theorem read_of_blank {lx : Lexer} (h : lx.rest.dropWhile isIgnored = []) :
    lx.read = (.ok ⟨.eof, "", (lx.pos.advance lx.rest).spanTo (lx.pos.advance lx.rest)⟩,
      ⟨[], lx.pos.advance lx.rest⟩) := by
  simp only [Lexer.read, h, takeWhile_of_dropWhile_nil h, scanToken, Scanned.token, Cursor.spanOf]
  simp

theorem read_empty (p : Cursor) : (⟨[], p⟩ : Lexer).read = (.ok ⟨.eof, "", p.spanTo p⟩, ⟨[], p⟩) :=
  read_of_blank rfl

theorem after_empty (p : Cursor) : ∀ m, (⟨[], p⟩ : Lexer).after m = ⟨[], p⟩
  | 0 => rfl
  | m + 1 => by rw [after_succ, read_empty]; exact after_empty p m

/-- A read that gives the end token or an error token had only ignored characters left:
no scan of a character gives either (`scanToken_kind`). -/
theorem read_closes {lx : Lexer} {t : Token} (h : lx.read.1 = .ok t) (hc : t.kind.closes = true) :
    lx.rest.dropWhile isIgnored = [] := by
  simp only [Lexer.read] at h
  generalize lx.rest.dropWhile isIgnored = cs at h ⊢
  cases cs with
  | nil => rfl
  | cons c r => rw [scanToken_kind _ _ _ _ h] at hc; cases hc

theorem read_kind_closes {lx : Lexer} {t : Token} (h : lx.read.1 = .ok t) (ht : t.kind ≠ .eof) :
    t.kind.closes = false := by
  cases hc : t.kind.closes
  · rfl
  · have hb := read_closes h hc
    rw [read_of_blank hb] at h
    cases h
    exact absurd rfl ht

/-- **A read that gives no end token moves the offset forward**: it scans at least one
character, and every character has at least one byte. -/
theorem read_offset_lt {lx : Lexer} (h : ∀ t, lx.read.1 = .ok t → t.kind ≠ .eof) :
    lx.pos.offset < lx.read.2.pos.offset := by
  simp only [Lexer.read] at h ⊢
  generalize hcs : lx.rest.dropWhile isIgnored = cs at h
  cases cs with
  | nil => exact absurd rfl (h _ rfl)
  | cons c r =>
    have hn := scanToken_pos (lx.pos.advance (lx.rest.takeWhile isIgnored)) c r
    generalize (scanToken (lx.pos.advance (lx.rest.takeWhile isIgnored)) (c :: r)).2 = n at hn ⊢
    obtain ⟨m, rfl⟩ : ∃ m, n = m + 1 := ⟨n - 1, by omega⟩
    simp only [List.take_succ_cons, Cursor.offset_advance, Text.utf8Length_cons]
    have := Char.utf8Size_pos c
    omega

/-- **The end token stands at the end of the text**: a lexer that tracks a text and reads
the end token has its offset at the text's UTF-8 size afterwards, the token spans
`[size, size)`, and every later read gives the same token. -/
theorem read_eof_at_end {text : String} {lx : Lexer} (htr : lx.Tracks text) {t : Token}
    (h : lx.read.1 = .ok t) (he : t.kind = .eof) :
    lx.read.2.pos.offset = text.utf8ByteSize ∧ t.span.start = text.utf8ByteSize ∧
      t.span.stop = text.utf8ByteSize ∧ ∀ m, (lx.read.2.after m).read.1 = .ok t := by
  have hb := read_closes h (by simp [he, TokenKind.closes])
  obtain ⟨done, hd, hp⟩ := htr
  have hend : (lx.pos.advance lx.rest).offset = text.utf8ByteSize := by
    rw [hp, ← Cursor.advance_append, hd, Cursor.offset_advance, Text.utf8ByteSize_eq]
    exact Nat.zero_add _
  rw [read_of_blank hb] at h ⊢
  cases h
  refine ⟨hend, hend, hend, fun m => ?_⟩
  rw [after_empty, read_empty]

/-- **Reading again and again reaches the end token** within as many reads as there are
characters left. -/
theorem reaches_eof (lx : Lexer) :
    ∃ k ≤ lx.rest.length, ∃ t, (lx.after k).read.1 = .ok t ∧ t.kind = .eof := by
  by_cases h : ∀ t, lx.read.1 = .ok t → t.kind ≠ .eof
  · obtain ⟨k, hk, t, ht, he⟩ := reaches_eof lx.read.2
    have := read_rest_lt h
    exact ⟨k + 1, by omega, t, ht, he⟩
  · simp only [Classical.not_forall, Classical.not_not] at h
    obtain ⟨t, ht, he⟩ := h
    exact ⟨0, Nat.zero_le _, t, ht, he⟩
termination_by lx.rest.length
decreasing_by exact read_rest_lt h

theorem listing_of_fault {lx : Lexer} {e : LexError} (h : lx.read.1 = .error e) :
    lx.listing = ([], some e) := by
  rw [listing]
  split
  · rename_i t next hr; rw [hr] at h; cases h
  · rename_i e' next hr; rw [hr] at h; cases h; rfl

theorem listing_of_eof {lx : Lexer} {t : Token} (h : lx.read.1 = .ok t) (ht : t.kind = .eof) :
    lx.listing = ([t], none) := by
  rw [listing]
  split
  · rename_i t' next hr; rw [hr] at h; cases h; simp [ht]
  · rename_i e' next hr; rw [hr] at h; cases h

theorem listing_of_token {lx : Lexer} {t : Token} (h : lx.read.1 = .ok t) (ht : t.kind ≠ .eof) :
    lx.listing = (t :: lx.read.2.listing.1, lx.read.2.listing.2) := by
  rw [listing]
  split
  · rename_i t' next hr; rw [hr] at h; cases h; simp [ht, hr]
  · rename_i e' next hr; rw [hr] at h; cases h

theorem tokens_of_token {lx : Lexer} {t : Token} (h : lx.read.1 = .ok t) (ht : t.kind ≠ .eof) :
    lx.tokens = t :: lx.read.2.tokens := by
  simp only [tokens, listing_of_token h ht]
  rcases lx.read.2.listing with ⟨ts, _ | e⟩ <;> rfl

/-- **The tokens of a lexer close with exactly one token, the last.**  Every token before it
is what the read at its index gives, and none closes a listing; there are at most as many
of them as characters left.  The last is the end token that the next read gives, or the
fault that it gives, as a token. -/
theorem tokens_shape (lx : Lexer) :
    ∃ pre last, lx.tokens = pre ++ [last] ∧ pre.length ≤ lx.rest.length ∧
      last.kind.closes = true ∧
      (∀ i (h : i < pre.length), (lx.after i).read.1 = .ok pre[i] ∧ pre[i].kind.closes = false) ∧
      ((lx.after pre.length).read.1 = .ok last ∧ last.kind = .eof ∨
        ∃ e, (lx.after pre.length).read.1 = .error e ∧ last = e.toToken) := by
  match hr : lx.read.1 with
  | .error e =>
    refine ⟨[], e.toToken, ?_, Nat.zero_le _, rfl, fun i h => absurd h (Nat.not_lt_zero _), Or.inr ⟨e, hr, rfl⟩⟩
    simp [tokens, listing_of_fault hr]
  | .ok t =>
    by_cases he : t.kind = .eof
    · refine ⟨[], t, ?_, Nat.zero_le _, by simp [he, TokenKind.closes], fun i h => absurd h (Nat.not_lt_zero _), Or.inl ⟨hr, he⟩⟩
      simp [tokens, listing_of_eof hr he]
    · have hlt : lx.read.2.rest.length < lx.rest.length :=
        read_rest_lt (fun t' ht' => by rw [hr] at ht'; cases ht'; exact he)
      obtain ⟨pre, last, hs, hl, hc, hi, hend⟩ := tokens_shape lx.read.2
      refine ⟨t :: pre, last, ?_, ?_, hc, ?_, ?_⟩
      · rw [tokens_of_token hr he, hs]; rfl
      · simp only [List.length_cons]; omega
      · intro i h
        cases i with
        | zero => exact ⟨hr, read_kind_closes hr he⟩
        | succ i =>
          simp only [List.length_cons] at h
          exact hi i (by omega)
      · exact hend
termination_by lx.rest.length
decreasing_by exact hlt

/-- **Reading makes progress and ends at the end of the text.**  Of any lexer reached by
`n` reads from the start of `text`: a read that gives a fault or a token other than the end
token moves the offset forward; a read that gives the end token leaves the offset at the
text's UTF-8 size, spans `[size, size)` and is given again by every later read.  Within
`text.length + 1` reads the end token comes; and the tokens of the text are at most
`text.length + 1`, each read in turn, the last the only one that closes the listing: the
end token, or the first fault as an error token. -/
theorem reads_advance_and_close (text : String) (n : Nat) :
    let lx := (ofString text).after n
    ((∀ t, lx.read.1 = .ok t → t.kind ≠ .eof) → lx.pos.offset < lx.read.2.pos.offset) ∧
    (∀ t, lx.read.1 = .ok t → t.kind = .eof →
      lx.read.2.pos.offset = text.utf8ByteSize ∧ t.span.start = text.utf8ByteSize ∧
        t.span.stop = text.utf8ByteSize ∧ ∀ m, (lx.read.2.after m).read.1 = .ok t) ∧
    (∃ k ≤ text.length, ∃ t, ((ofString text).after k).read.1 = .ok t ∧ t.kind = .eof) ∧
    (∃ pre last, (ofString text).tokens = pre ++ [last] ∧ pre.length ≤ text.length ∧
      last.kind.closes = true ∧
      (∀ i (h : i < pre.length),
        ((ofString text).after i).read.1 = .ok pre[i] ∧ pre[i].kind.closes = false) ∧
      (((ofString text).after pre.length).read.1 = .ok last ∧ last.kind = .eof ∨
        ∃ e, ((ofString text).after pre.length).read.1 = .error e ∧ last = e.toToken)) := by
  have hlen : (ofString text).rest.length = text.length := by simp [ofString, String.length_toList]
  refine ⟨read_offset_lt, fun t h he => read_eof_at_end (tracks_after n (tracks_ofString text)) h he,
    ?_, ?_⟩
  · rw [← hlen]; exact reaches_eof _
  · rw [← hlen]; exact tokens_shape _

end Lexer

end Gql
