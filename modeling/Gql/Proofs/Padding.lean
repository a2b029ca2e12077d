import Gql.Proofs.Horizon
import Gql.Proofs.Descent.Alike
/-!
# Padding — ignored text moves places and changes nothing else

*Padding* is text made of ignored characters and of comments each closed by a line break.
Put into a text at its start, or right after one of the significant tokens read before a
fault, padding leaves what the text says as it was: the same document, and an error just
when there was one, with the same message and kind of fault.  Only places move
(`parse_pad`).

Three facts make it so.  The reads before the padding are the same reads
(`Lexer.Run.retail`): a scan looks at most one character past its token, and with the
padding in, that character is the one it met before or one that may stand after the token
(`scanToken_follows`).  The padding reads as nothing (`Lexer.significant_pad`).  The rest
is read from another cursor, which only places its tokens (`Lexer.significant_relabel`).
The parser sees only the kinds and values of tokens, so it reads the same
(`Syntax.definitions_alike`).
-/
namespace Gql

/-- Text that reads as nothing: ignored characters, and comments each closed by a line
break. -/
inductive Padding : List Char → Prop
  | nil : Padding []
  | ignored {c : Char} {w : List Char} : isIgnored c = true → Padding w → Padding (c :: w)
  | comment {body w : List Char} {brk : Char} : (∀ x ∈ body, isLineBreak x = false) →
      isLineBreak brk = true → Padding w → Padding ('#' :: body ++ brk :: w)

theorem Padding.head {w : List Char} (h : Padding w) : ∀ x ∈ w.head?, isIgnored x = true ∨ x = '#' := by
  cases h with
  | nil => simp
  | ignored hc _ => simpa using Or.inl hc
  | comment _ _ _ => simp

theorem isIgnored_of_isLineBreak {c : Char} (h : isLineBreak c = true) : isIgnored c = true := by
  simp only [isLineBreak, Bool.or_eq_true, beq_iff_eq] at h
  rcases h with rfl | rfl <;> decide

theorem Padding.append_ignored {ws w : List Char} (hws : ∀ c ∈ ws, isIgnored c = true) (hw : Padding w) :
    Padding (ws ++ w) := by
  induction ws with
  | nil => exact hw
  | cons c ws ih =>
    exact .ignored (hws c (by simp)) (ih fun x hx => hws x (by simp [hx]))

/-- Padding is a stretch without line breaks, then padding that starts with a line break or
is empty: what a comment left open before it takes, and what it leaves. -/
theorem Padding.split_break {w : List Char} (hw : Padding w) :
    ∃ x y, w = x ++ y ∧ (∀ c ∈ x, isLineBreak c = false) ∧ (∀ c ∈ y.head?, isLineBreak c = true) ∧
      Padding y := by
  induction hw with
  | nil => exact ⟨[], [], rfl, by simp, by simp, .nil⟩
  | @ignored c w hc hw ih =>
    by_cases hb : isLineBreak c = true
    · exact ⟨[], c :: w, rfl, by simp, by simpa using hb, .ignored hc hw⟩
    · obtain ⟨x, y, rfl, hx, hy, hpy⟩ := ih
      refine ⟨c :: x, y, rfl, ?_, hy, hpy⟩
      simpa [hb] using hx
  | @comment body w brk hbody hbrk hw _ =>
    refine ⟨'#' :: body, brk :: w, by simp, ?_, by simpa using hbrk,
      .ignored (isIgnored_of_isLineBreak hbrk) hw⟩
    intro c hc
    simp only [List.mem_cons] at hc
    rcases hc with rfl | hc
    · decide
    · exact hbody c hc

/-- After a token other than a comment, padding may come in before the text that followed:
the first character the token meets is the one it met before, or one that may stand after it. -/
theorem Padding.next_follows {w : List Char} (hw : Padding w) {ts : List Token}
    (hlast : ∀ t ∈ ts.getLast?, t.kind ≠ .comment) (tail post : List Char) :
    ∀ x ∈ (tail ++ w ++ post).head?,
      (tail ++ post).head? = some x ∨ ∀ t ∈ ts.getLast?, t.kind.stops x = true := by
  intro x hx
  cases tail with
  | cons y tail => exact .inl (by simpa using hx)
  | nil =>
    cases w with
    | nil => exact .inl (by simpa using hx)
    | cons y w =>
      simp only [List.nil_append, List.cons_append, List.head?_cons, Option.mem_def,
        Option.some.injEq] at hx
      subst hx
      refine .inr fun t ht => ?_
      rcases hw.head y rfl with hi | rfl <;> simp [TokenKind.stops, hlast t ht, *]

theorem Stop.Alike.refl (s : Stop) : s.Alike s := by
  cases s <;> simp [Stop.Alike]

/-- Two readings say the same, places aside: the same lexemes, and ends alike. -/
def SameReading (a b : List Token × Stop) : Prop :=
  a.1.map Token.lexeme = b.1.map Token.lexeme ∧ a.2.Alike b.2

namespace SameReading

theorem append_left (ts : List Token) {a b : List Token × Stop} (h : SameReading a b) :
    SameReading (ts ++ a.1, a.2) (ts ++ b.1, b.2) :=
  ⟨by simp [h.1], h.2⟩

end SameReading

namespace Lexer

theorem read_split (lx : Lexer) : ∃ a, lx.rest = a ++ lx.read.2.rest :=
  ⟨lx.rest.takeWhile isIgnored ++ (lx.rest.dropWhile isIgnored).take
      (scanToken (lx.pos.advance (lx.rest.takeWhile isIgnored)) (lx.rest.dropWhile isIgnored)).2,
    by simp only [read, List.append_assoc, List.take_append_drop, List.takeWhile_append_dropWhile]⟩

theorem read_of_head {cs : List Char} (hc : ∀ x ∈ cs.head?, isIgnored x = false) (p : Cursor) :
    (⟨cs, p⟩ : Lexer).read =
      ((scanToken p cs).1, ⟨cs.drop (scanToken p cs).2, p.advance (cs.take (scanToken p cs).2)⟩) := by
  cases cs with
  | nil => rfl
  | cons c r =>
    have hc' : isIgnored c = false := hc c rfl
    simp [read, List.takeWhile_cons_of_neg, List.dropWhile_cons_of_neg, hc']

theorem read_skip (lx : Lexer) :
    lx.read = (⟨lx.rest.dropWhile isIgnored, lx.pos.advance (lx.rest.takeWhile isIgnored)⟩ : Lexer).read := by
  have hign : ∀ c ∈ lx.rest.takeWhile isIgnored, isIgnored c = true := List.all_eq_true.1 List.all_takeWhile
  conv_lhs => rw [show lx = ⟨lx.rest.takeWhile isIgnored ++ lx.rest.dropWhile isIgnored, lx.pos⟩ by
    rw [List.takeWhile_append_dropWhile]]
  exact read_ignored hign _ _

/-- **A read gives its token again when only the text after the token changes**, so long as
the next character stays or becomes one that may stand after the token. -/
theorem read_retail {lx : Lexer} {t : Token} {a : List Char} (h : lx.read.1 = .ok t) (hk : t.kind ≠ .eof)
    (ha : lx.rest = a ++ lx.read.2.rest) (r' : List Char)
    (hr : ∀ x ∈ r'.head?, lx.read.2.rest.head? = some x ∨ t.kind.stops x = true) :
    (⟨a ++ r', lx.pos⟩ : Lexer).read = (.ok t, ⟨r', lx.read.2.pos⟩) := by
  obtain ⟨rest, pos⟩ := lx
  have hign : ∀ c ∈ rest.takeWhile isIgnored, isIgnored c = true := List.all_eq_true.1 List.all_takeWhile
  have hsplit := List.takeWhile_append_dropWhile (p := isIgnored) (l := rest)
  have hhead : ∀ x ∈ (rest.dropWhile isIgnored).head?, isIgnored x = false := by
    intro x hx
    obtain ⟨r, hr⟩ := List.head?_eq_some_iff.1 hx
    simpa [hr] using List.head_dropWhile_not (p := isIgnored) (l := rest) (by simp [hr])
  have hlx := read_skip ⟨rest, pos⟩
  dsimp only at hlx
  generalize rest.takeWhile isIgnored = ign at hign hsplit hlx
  generalize rest.dropWhile isIgnored = cs at hhead hsplit hlx
  subst hsplit
  rw [hlx, read_of_head hhead] at h ha hr ⊢
  generalize hsc : scanToken (pos.advance ign) cs = sc at h ha hr ⊢
  obtain ⟨res, n⟩ := sc
  dsimp only at h ha hr ⊢
  subst h
  have hle := scanToken_le_length hsc
  have ha' : a = ign ++ cs.take n := by
    have : ign ++ cs.take n ++ cs.drop n = a ++ cs.drop n := by
      rw [List.append_assoc, List.take_append_drop, ha]
    exact (List.append_cancel_right this).symm
  subst ha'
  rw [List.append_assoc, read_ignored hign]
  cases cs with
  | nil =>
    simp only [scanToken, Scanned.token, Prod.mk.injEq, Except.ok.injEq] at hsc
    exact absurd (by rw [← hsc.1]) hk
  | cons c r =>
    have hpos := scanToken_pos (pos.advance ign) c r
    rw [hsc] at hpos
    obtain ⟨m, rfl⟩ : ∃ m, n = m + 1 := ⟨n - 1, by simp at hpos; omega⟩
    simp only [List.length_cons] at hle
    have hlen : (r.take m).length = m := by simp; omega
    have hf : Follows t.kind.stops (m + 1) (c :: r) (c :: (r.take m ++ r')) := by
      refine ⟨by simp [List.take_left' hlen], ?_⟩
      simpa [List.drop_left' hlen] using hr
    rw [List.take_succ_cons, List.cons_append, read_of_head (by simpa using hhead c rfl),
      scanToken_follows hsc hk hf]
    simp [List.drop_left' hlen, List.take_left' hlen]

/-- `Run lx ts lx'`: reading `lx` gives the tokens `ts`, none of them the end token, and
leaves `lx'`. -/
inductive Run : Lexer → List Token → Lexer → Prop
  | nil (lx : Lexer) : Run lx [] lx
  | cons {lx lx' : Lexer} {t : Token} {ts : List Token} : lx.read.1 = .ok t → t.kind ≠ .eof →
      Run lx.read.2 ts lx' → Run lx (t :: ts) lx'

namespace Run

variable {lx lx' : Lexer} {ts : List Token}

/-- Past a run, the significant tokens are those of the run that are no comments, and then
those after it. -/
theorem significant_eq (h : Run lx ts lx') :
    lx.significant = (ts.filter (fun t => t.kind != .comment) ++ lx'.significant.1, lx'.significant.2) := by
  induction h with
  | nil => simp
  | @cons lx lx' t ts hr hk _ ih =>
    rw [significant_of_token hr hk, ih]
    by_cases hc : t.kind = .comment <;> simp [hc]

theorem split (h : Run lx ts lx') : ∃ v, lx.rest = v ++ lx'.rest := by
  induction h with
  | nil lx => exact ⟨[], rfl⟩
  | @cons lx lx' t ts _ _ _ ih =>
    obtain ⟨a, ha⟩ := read_split lx
    obtain ⟨v, hv⟩ := ih
    exact ⟨a ++ v, by rw [ha, hv, List.append_assoc]⟩

theorem eq_nil_of_rest (h : Run lx ts lx') (hr : lx'.rest = lx.rest) : ts = [] := by
  cases h with
  | nil => rfl
  | cons hr1 hk hrun =>
    have hlt := read_rest_lt (fun t' ht' => by rw [hr1] at ht'; cases ht'; exact hk)
    obtain ⟨v, hv⟩ := hrun.split
    have := congrArg List.length hv
    simp only [List.length_append, hr] at this
    omega

theorem append {lx₁ : Lexer} {ts' : List Token} (h : Run lx ts lx') (h' : Run lx' ts' lx₁) :
    Run lx (ts ++ ts') lx₁ := by
  induction h with
  | nil => exact h'
  | cons hr hk _ ih => exact .cons hr hk (ih h')

theorem of_append {ts' : List Token} {lx₁ : Lexer} : Run lx (ts ++ ts') lx₁ → ∃ lx', Run lx ts lx' ∧ Run lx' ts' lx₁ := by
  induction ts generalizing lx with
  | nil => exact fun h => ⟨lx, .nil lx, h⟩
  | cons t ts ih =>
    intro h
    cases h with
    | cons hr hk hrun =>
      obtain ⟨lx', h1, h2⟩ := ih hrun
      exact ⟨lx', .cons hr hk h1, h2⟩

theorem tracks {text : String} (h : Run lx ts lx') (ht : lx.Tracks text) : lx'.Tracks text := by
  induction h with
  | nil => exact ht
  | cons _ _ _ ih => exact ih (tracks_read ht)

/-- **A run reads the same tokens when only the text after it changes**, so long as the
next character stays or becomes one that may stand after its last token. -/
theorem retail (h : Run lx ts lx') :
    ∀ {u : List Char} (r' : List Char), lx.rest = u ++ lx'.rest →
      (∀ x ∈ r'.head?, lx'.rest.head? = some x ∨ ∀ t ∈ ts.getLast?, t.kind.stops x = true) →
      Run ⟨u ++ r', lx.pos⟩ ts ⟨r', lx'.pos⟩ := by
  induction h with
  | nil lx =>
    intro u r' hu _
    have : u = [] := by simpa using congrArg List.length hu
    subst this
    exact .nil _
  | @cons lx lx' t ts hr hk hrun ih =>
    intro u r' hu hnext
    obtain ⟨a, ha⟩ := read_split lx
    obtain ⟨v, hv⟩ := hrun.split
    have huv : u = a ++ v := by
      rw [ha, hv, ← List.append_assoc] at hu
      exact (List.append_cancel_right hu).symm
    subst huv
    have hfirst : ∀ x ∈ (v ++ r').head?, lx.read.2.rest.head? = some x ∨ t.kind.stops x = true := by
      intro x hx
      cases v with
      | cons y v => left; simpa [hv] using hx
      | nil =>
        have hts : ts = [] := hrun.eq_nil_of_rest (by simpa using hv.symm)
        subst hts
        rw [hv]
        simpa using hnext x hx
    have hread := read_retail hr hk ha (v ++ r') hfirst
    refine .cons (by rw [List.append_assoc, hread]) hk ?_
    rw [List.append_assoc, hread]
    refine ih r' (by simpa using hv) (fun x hx => ?_)
    rcases hnext x hx with h1 | h2
    · exact .inl h1
    · refine .inr fun t' ht' => h2 t' ?_
      cases ts with
      | nil => simp at ht'
      | cons _ _ => simpa [List.getLast?_cons_cons] using ht'

end Run

/-- **A significant token ends a run** that starts where the reading starts. -/
theorem run_of_mem_significant {lx : Lexer} {t : Token} (h : t ∈ lx.significant.1) :
    ∃ ts lx₀, Run lx ts lx₀ ∧ lx₀.read.1 = .ok t ∧ t.kind ≠ .eof ∧ t.kind ≠ .comment := by
  fun_induction significant lx with
  | case1 => simp at h
  | case2 lx t₀ next hr ht more hc ih =>
    obtain ⟨ts, lx₀, hrun, h0, hk, hc'⟩ := ih h
    have hnext : lx.read.2 = next := by rw [hr]
    exact ⟨t₀ :: ts, lx₀, .cons (by rw [hr]) ht (hnext ▸ hrun), h0, hk, hc'⟩
  | case3 lx t₀ next hr ht more hc ih =>
    rcases List.mem_cons.1 h with rfl | h'
    · exact ⟨[], lx, .nil lx, by rw [hr], ht, hc⟩
    · obtain ⟨ts, lx₀, hrun, h0, hk, hc'⟩ := ih h'
      have hnext : lx.read.2 = next := by rw [hr]
      exact ⟨t₀ :: ts, lx₀, .cons (by rw [hr]) ht (hnext ▸ hrun), h0, hk, hc'⟩
  | case4 => simp at h

/-! ### Padding reads as nothing -/

theorem read_comment (body rest : List Char) (hbody : ∀ x ∈ body, isLineBreak x = false)
    (hrest : ∀ x ∈ rest.head?, isLineBreak x = true) (q : Cursor) :
    ∃ t, t.kind = .comment ∧ (⟨'#' :: body ++ rest, q⟩ : Lexer).read = (.ok t, ⟨rest, q.advance ('#' :: body)⟩) := by
  have hrun : (body ++ rest).takeWhile (fun c => !isLineBreak c) = body := by
    rw [List.takeWhile_append_of_pos (by simpa using hbody)]
    cases rest with
    | nil => simp
    | cons y rest => simp [hrest y rfl]
  rw [read_of_head (fun x hx => by
    simp only [List.cons_append, List.head?_cons, Option.mem_def, Option.some.injEq] at hx
    subst hx
    decide)]
  refine ⟨⟨.comment, String.ofList body, q.spanOf ('#' :: body ++ rest) 0 (1 + body.length)⟩, rfl, ?_⟩
  simp [scanToken, TokenKind.ofSymbolChar?, TokenKind.singleCharSymbols, scanComment, Scanned.token, hrun,
    List.drop_left', List.take_left', Nat.add_comm]

/-- **Padding reads as nothing**: the significant tokens after it are those of the text it
stands before, read from where the padding ends. -/
theorem significant_pad {w : List Char} (hw : Padding w) (post : List Char) (q : Cursor) :
    (⟨w ++ post, q⟩ : Lexer).significant = (⟨post, q.advance w⟩ : Lexer).significant := by
  induction hw generalizing q with
  | nil => rfl
  | @ignored c w hc _ ih =>
    have hskip : (⟨[c] ++ (w ++ post), q⟩ : Lexer).read = (⟨w ++ post, q.advance [c]⟩ : Lexer).read :=
      read_ignored (by simpa using hc) (w ++ post) q
    rw [List.singleton_append] at hskip
    rw [List.cons_append, significant_congr hskip, ih]
    simp
  | @comment body w brk hbody hbrk _ ih =>
    obtain ⟨t, hc, hread⟩ := read_comment body (brk :: (w ++ post)) hbody (by simpa using hbrk) q
    have hk : t.kind ≠ .eof := by rw [hc]; decide
    rw [List.append_assoc, List.cons_append, List.cons_append, ← List.cons_append,
      significant_of_token (by rw [hread]) hk, if_pos hc, hread]
    dsimp only
    have hskip : (⟨[brk] ++ (w ++ post), q.advance ('#' :: body)⟩ : Lexer).read =
        (⟨w ++ post, (q.advance ('#' :: body)).advance [brk]⟩ : Lexer).read :=
      read_ignored (by simpa using isIgnored_of_isLineBreak hbrk) (w ++ post) (q.advance ('#' :: body))
    rw [List.singleton_append] at hskip
    rw [significant_congr hskip, ih]
    simp [Cursor.advance_append]

/-! ### Reading from another cursor -/

/-- A token read from another cursor over the same text has the same lexeme and leaves the
same rest. -/
theorem read_relabel_ok {lx lx' : Lexer} (h : lx'.rest = lx.rest) {t : Token} (ht : lx.read.1 = .ok t) :
    ∃ t', lx'.read.1 = .ok t' ∧ t'.lexeme = t.lexeme ∧ lx'.read.2.rest = lx.read.2.rest := by
  have hg : (scanToken (lx'.pos.advance (lx.rest.takeWhile isIgnored)) (lx.rest.dropWhile isIgnored)).gist =
      (scanToken (lx.pos.advance (lx.rest.takeWhile isIgnored)) (lx.rest.dropWhile isIgnored)).gist :=
    scanToken_gist _
  simp only [Scanned.gist, Prod.mk.injEq] at hg
  simp only [read, h] at ht ⊢
  rw [ht] at hg
  cases h' : (scanToken (lx'.pos.advance (lx.rest.takeWhile isIgnored)) (lx.rest.dropWhile isIgnored)).1 with
  | error e => simp [h', Except.map, Except.mapError] at hg
  | ok t' =>
    simp only [h', Except.map, Except.mapError, Except.ok.injEq] at hg
    exact ⟨t', rfl, hg.1, by rw [hg.2]⟩

theorem read_relabel_error {lx lx' : Lexer} (h : lx'.rest = lx.rest) {e : LexError} (he : lx.read.1 = .error e) :
    ∃ e', lx'.read.1 = .error e' ∧ e'.fault = e.fault := by
  have hg : (scanToken (lx'.pos.advance (lx.rest.takeWhile isIgnored)) (lx.rest.dropWhile isIgnored)).gist =
      (scanToken (lx.pos.advance (lx.rest.takeWhile isIgnored)) (lx.rest.dropWhile isIgnored)).gist :=
    scanToken_gist _
  simp only [Scanned.gist, Prod.mk.injEq] at hg
  simp only [read, h] at he ⊢
  rw [he] at hg
  cases h' : (scanToken (lx'.pos.advance (lx.rest.takeWhile isIgnored)) (lx.rest.dropWhile isIgnored)).1 with
  | error e' =>
    simp only [h', Except.map, Except.mapError, Except.error.injEq] at hg
    exact ⟨e', rfl, hg.1⟩
  | ok t' => simp [h', Except.map, Except.mapError] at hg

/-- **Where reading starts only places the tokens**: over the same text, readings from two
cursors say the same. -/
theorem significant_relabel (lx : Lexer) :
    ∀ {lx' : Lexer}, lx'.rest = lx.rest → SameReading lx.significant lx'.significant := by
  fun_induction significant lx
  case case1 =>
    rename_i lx t next hr ht
    intro lx' hrest
    obtain ⟨t', h', hl, -⟩ := read_relabel_ok hrest (by rw [hr])
    simp only [Token.lexeme, Prod.mk.injEq] at hl
    rw [significant_of_eof h' (hl.1 ▸ ht)]
    exact ⟨rfl, hl.1.symm, hl.2.symm⟩
  case case2 =>
    rename_i lx t next hr ht more hc ih
    intro lx' hrest
    obtain ⟨t', h', hl, hnext⟩ := read_relabel_ok hrest (by rw [hr])
    simp only [Token.lexeme, Prod.mk.injEq] at hl
    rw [significant_of_token h' (hl.1 ▸ ht), if_pos (hl.1 ▸ hc)]
    exact ih (by rw [hnext, hr])
  case case3 =>
    rename_i lx t next hr ht more hc ih
    intro lx' hrest
    obtain ⟨t', h', hl, hnext⟩ := read_relabel_ok hrest (by rw [hr])
    have hk := (Prod.mk.injEq _ _ _ _).mp hl
    rw [significant_of_token h' (hk.1 ▸ ht), if_neg (hk.1 ▸ hc)]
    have hm := ih (by rw [hnext, hr])
    refine ⟨?_, hm.2⟩
    simp only [List.map_cons, hl, List.cons.injEq, true_and]
    exact hm.1
  case case4 =>
    rename_i lx e next hr
    intro lx' hrest
    obtain ⟨e', h', hf⟩ := read_relabel_error hrest (by rw [hr])
    rw [significant_of_fault h']
    exact ⟨rfl, hf.symm⟩

/-! ### Padding after the end -/

theorem read_eof_value {lx : Lexer} {t : Token} (h : lx.read.1 = .ok t) (hk : t.kind = .eof) : t.value = "" := by
  have hd := read_closes h (by simp [hk, TokenKind.closes])
  rw [read_of_blank hd] at h
  cases h
  rfl

theorem read_comment_shape {lx : Lexer} {c : Token} (h : lx.read.1 = .ok c) (hc : c.kind = .comment) :
    ∃ ign body, (∀ x ∈ ign, isIgnored x = true) ∧ (∀ x ∈ body, isLineBreak x = false) ∧
      lx.rest = ign ++ '#' :: body ++ lx.read.2.rest := by
  have hign : ∀ x ∈ lx.rest.takeWhile isIgnored, isIgnored x = true := List.all_eq_true.1 List.all_takeWhile
  have hsplit := List.takeWhile_append_dropWhile (p := isIgnored) (l := lx.rest)
  simp only [read] at h ⊢
  generalize lx.rest.takeWhile isIgnored = ign at hign hsplit h ⊢
  generalize lx.rest.dropWhile isIgnored = cs at hsplit h ⊢
  generalize hsc : scanToken (lx.pos.advance ign) cs = sc at h ⊢
  obtain ⟨res, n⟩ := sc
  dsimp only at h ⊢
  subst h
  cases cs with
  | nil =>
    simp only [scanToken, Scanned.token, Prod.mk.injEq, Except.ok.injEq] at hsc
    rw [← hsc.1] at hc
    cases hc
  | cons x r =>
    obtain ⟨hl, hv, -⟩ := (scanToken_spelled hsc).2.comment hc
    have htake : (x :: r).take n = '#' :: c.value.toList := by
      simpa using congrArg String.toList hl
    refine ⟨ign, c.value.toList, hign, hv, ?_⟩
    rw [← hsplit]
    conv_lhs => rw [← List.take_append_drop n (x :: r), htake]
    simp

/-- Comments and ignored characters before the end token, then padding, read as nothing
when a line break or the end of the text comes after them: the text after the padding is
read next, from some cursor. -/
theorem significant_quiet_before {lx lx' : Lexer} {cs : List Token} (hrun : Run lx cs lx')
    (hc : ∀ t ∈ cs, t.kind = .comment) {t : Token} (he : lx'.read.1 = .ok t) (hke : t.kind = .eof)
    {w : List Char} (hw : Padding w) (post : List Char) (hpost : ∀ x ∈ post.head?, isLineBreak x = true) :
    ∃ q, (⟨lx.rest ++ w ++ post, lx.pos⟩ : Lexer).significant = (⟨post, q⟩ : Lexer).significant := by
  induction hrun with
  | nil lx =>
    have hd := read_closes he (by simp [hke, TokenKind.closes])
    have hall : ∀ x ∈ lx.rest, isIgnored x = true := by
      rw [← takeWhile_of_dropWhile_nil hd]
      exact List.all_eq_true.1 List.all_takeWhile
    rw [significant_pad (hw.append_ignored hall)]
    exact ⟨_, rfl⟩
  | @cons lx lx' c cs hr hk hrun ih =>
    have hcc := hc c (by simp)
    obtain ⟨ign, body, hign, hbody, hrest⟩ := read_comment_shape hr hcc
    cases hr2 : lx.read.2.rest with
    | cons y r2 =>
      have hread := read_retail hr hk hrest (lx.read.2.rest ++ w ++ post) (fun x hx => by
        left
        simpa [hr2] using hx)
      rw [hrest, show ign ++ '#' :: body ++ lx.read.2.rest ++ w ++ post =
          ign ++ '#' :: body ++ (lx.read.2.rest ++ w ++ post) by simp,
        significant_of_token (by rw [hread]) hk, if_pos hcc, hread]
      exact ih (fun t ht => hc t (by simp [ht])) he
    | nil =>
      -- the comment runs to the end and goes on into the padding, up to its first line break
      obtain ⟨x, y, rfl, hx, hy, hpy⟩ := hw.split_break
      have hyp : ∀ z ∈ (y ++ post).head?, isLineBreak z = true := by
        cases y with
        | nil => simpa using hpost
        | cons b y => simpa using hy
      obtain ⟨t', hc', hread⟩ := read_comment (body ++ x) (y ++ post)
        (by simpa [or_imp, forall_and] using ⟨hbody, hx⟩) hyp (lx.pos.advance ign)
      have hk' : t'.kind ≠ .eof := by rw [hc']; decide
      rw [hrest, hr2, List.append_nil, show ign ++ '#' :: body ++ (x ++ y) ++ post =
          ign ++ ('#' :: (body ++ x) ++ (y ++ post)) by simp,
        significant_congr (read_ignored hign _ _), significant_of_token (by rw [hread]) hk', if_pos hc', hread]
      exact ⟨_, significant_pad hpy post _⟩

theorem run_of_eof {lx : Lexer} {t : Token} (h : lx.significant.2 = .eof t) :
    ∃ ts lx', Run lx ts lx' ∧ lx'.read.1 = .ok t ∧ t.kind = .eof := by
  fun_induction significant lx
  case case1 =>
    rename_i lx t₀ next hr ht
    cases h
    exact ⟨[], lx, .nil lx, by rw [hr], ht⟩
  case case2 =>
    rename_i lx t₀ next hr ht more hc ih
    obtain ⟨ts, lx', hrun, he, hk⟩ := ih h
    have hnext : lx.read.2 = next := by rw [hr]
    exact ⟨t₀ :: ts, lx', .cons (by rw [hr]) ht (hnext ▸ hrun), he, hk⟩
  case case3 =>
    rename_i lx t₀ next hr ht more hc ih
    obtain ⟨ts, lx', hrun, he, hk⟩ := ih h
    have hnext : lx.read.2 = next := by rw [hr]
    exact ⟨t₀ :: ts, lx', .cons (by rw [hr]) ht (hnext ▸ hrun), he, hk⟩
  case case4 => cases h

theorem exists_last_significant (ts : List Token) :
    ∃ ts₁ cs, ts = ts₁ ++ cs ∧ (∀ t ∈ ts₁.getLast?, t.kind ≠ .comment) ∧ ∀ t ∈ cs, t.kind = .comment := by
  induction ts with
  | nil => exact ⟨[], [], rfl, by simp, by simp⟩
  | cons t ts ih =>
    obtain ⟨ts₁, cs, rfl, hlast, hcs⟩ := ih
    cases ts₁ with
    | nil =>
      by_cases hc : t.kind = .comment
      · exact ⟨[], t :: cs, rfl, by simp, by simpa [hc] using hcs⟩
      · exact ⟨[t], cs, rfl, by simpa using hc, hcs⟩
    | cons u ts₁ => exact ⟨t :: u :: ts₁, cs, rfl, by simpa [List.getLast?_cons_cons] using hlast, hcs⟩

/-! ### Padding after a significant token -/

/-- The start of a text, and the end of each of its significant tokens, ends a run from the
start whose last token is no comment. -/
theorem run_to {s : String} {b : Nat} (hb : b = 0 ∨ ∃ t ∈ (ofString s).significant.1, t.span.stop = b) :
    ∃ ts lx', Run (ofString s) ts lx' ∧ (∀ t ∈ ts.getLast?, t.kind ≠ .comment) ∧
      ∃ pre, s.toList = pre ++ lx'.rest ∧ Text.utf8Length pre = b := by
  rcases hb with rfl | ⟨t, ht, rfl⟩
  · exact ⟨[], ofString s, .nil _, by simp, [], rfl, rfl⟩
  · obtain ⟨ts, lx₀, hrun, h0, hk, hc⟩ := run_of_mem_significant ht
    obtain ⟨done, hd, hp⟩ := hrun.tracks (tracks_ofString s)
    obtain ⟨-, -, -, done', hd', -, hlen⟩ := read_tiles hd hp h0 hk
    exact ⟨ts ++ [t], lx₀.read.2, hrun.append (.cons h0 hk (.nil _)), by simpa using hc, done', hd'.symm, hlen⟩

/-- Padding after the start or a significant token says the same, at the level of tokens. -/
theorem significant_pad_inside {s : String} {b : Nat}
    (hb : b = 0 ∨ ∃ t ∈ (ofString s).significant.1, t.span.stop = b) {w : List Char} (hw : Padding w) :
    ∃ pre post, s.toList = pre ++ post ∧ Text.utf8Length pre = b ∧
      SameReading (ofString s).significant (ofString (String.ofList (pre ++ w ++ post))).significant := by
  obtain ⟨ts, lx', hrun, hlast, pre, hs, hb⟩ := run_to hb
  refine ⟨pre, lx'.rest, hs, hb, ?_⟩
  have hrun' := hrun.retail (u := pre) (w ++ lx'.rest) (by rw [← hs]; rfl)
    (hw.next_follows hlast [] lx'.rest)
  have hofs : ofString (String.ofList (pre ++ w ++ lx'.rest)) = ⟨pre ++ (w ++ lx'.rest), (ofString s).pos⟩ := by
    simp [ofString]
  rw [hofs, hrun.significant_eq, hrun'.significant_eq, significant_pad hw]
  exact SameReading.append_left _ (significant_relabel _ rfl)

/-- **A text read to its end token, then padding, then text that starts a line or is
empty**: the significant tokens are those of the text alone, then those of the text after the
padding, read from some cursor. -/
theorem significant_after_end {s : String} {u : Token} (he : (ofString s).significant.2 = .eof u)
    {w : List Char} (hw : Padding w) (post : List Char) (hpost : ∀ x ∈ post.head?, isLineBreak x = true) :
    ∃ q, (⟨s.toList ++ w ++ post, {}⟩ : Lexer).significant =
      ((ofString s).significant.1 ++ (⟨post, q⟩ : Lexer).significant.1, (⟨post, q⟩ : Lexer).significant.2) := by
  obtain ⟨ts, lxe, hrun, hre, hk⟩ := run_of_eof he
  obtain ⟨ts₁, cs, rfl, hlast, hcs⟩ := exists_last_significant ts
  obtain ⟨lx₁, hrun₁, hrun₂⟩ := Run.of_append hrun
  obtain ⟨v, hv⟩ := hrun₁.split
  have hnext : ∀ x ∈ (lx₁.rest ++ w ++ post).head?,
      lx₁.rest.head? = some x ∨ ∀ t ∈ ts₁.getLast?, t.kind.stops x = true := by
    intro x hx
    by_cases hw0 : w = []
    · subst hw0
      cases hr : lx₁.rest with
      | cons y r => exact .inl (by simpa [hr] using hx)
      | nil =>
        refine .inr fun t ht => ?_
        have hbr : isLineBreak x = true := hpost x (by simpa [hr] using hx)
        simp [TokenKind.stops, hlast t ht, isIgnored_of_isLineBreak hbr]
    · obtain ⟨y, w', rfl⟩ := List.exists_cons_of_ne_nil hw0
      have hx' : x ∈ (lx₁.rest ++ y :: w' ++ []).head? := by
        revert hx
        cases lx₁.rest <;> simp
      simpa using hw.next_follows hlast lx₁.rest [] x hx'
  have hrun' := hrun₁.retail (lx₁.rest ++ w ++ post) (by rw [hv]) hnext
  obtain ⟨q, hq⟩ := significant_quiet_before hrun₂ hcs hre hk hw post hpost
  have hofs : (⟨s.toList ++ w ++ post, {}⟩ : Lexer) = ⟨v ++ (lx₁.rest ++ w ++ post), (ofString s).pos⟩ := by
    simp only [ofString] at hv ⊢
    rw [hv]
    simp
  have hcs' : cs.filter (fun t => t.kind != .comment) = [] := by
    simpa using fun t ht => hcs t ht
  refine ⟨q, ?_⟩
  rw [hofs, hrun₁.significant_eq, hrun'.significant_eq, hrun₂.significant_eq, significant_of_eof hre hk, hq, hcs']
  simp

/-- Padding after the end token of a text read without a fault says the same, at the level
of tokens; the end token stands at the end of the text. -/
theorem significant_pad_end {s : String} {t : Token} (he : (ofString s).significant.2 = .eof t)
    {w : List Char} (hw : Padding w) :
    t.span.stop = Text.utf8Length s.toList ∧
      SameReading (ofString s).significant (ofString (String.ofList (s.toList ++ w))).significant := by
  obtain ⟨ts, lxe, hrun, hre, hk⟩ := run_of_eof he
  refine ⟨?_, ?_⟩
  · obtain ⟨done, hd, hp⟩ := hrun.tracks (tracks_ofString s)
    rw [(read_eof_tiles hd hp hre hk).2.2, Text.utf8ByteSize_eq]
  obtain ⟨q, hq⟩ := significant_after_end he hw [] (by simp)
  have hofs : ofString (String.ofList (s.toList ++ w)) = ⟨s.toList ++ w ++ [], {}⟩ := by
    simp [ofString]
  rw [hofs, hq, significant_empty]
  refine ⟨by simp, ?_⟩
  rw [he]
  exact ⟨hk, read_eof_value hre hk⟩

/-- **Padding after the start of a text, after a significant token, or after the end token
says the same**, at the level of tokens. -/
theorem significant_pad_at {s : String} {b : Nat}
    (hb : b = 0 ∨ (∃ t ∈ (ofString s).significant.1, t.span.stop = b) ∨
      ∃ t, (ofString s).significant.2 = .eof t ∧ t.span.stop = b) {w : List Char} (hw : Padding w) :
    ∃ pre post, s.toList = pre ++ post ∧ Text.utf8Length pre = b ∧
      SameReading (ofString s).significant (ofString (String.ofList (pre ++ w ++ post))).significant := by
  rcases hb with hb | hb | ⟨t, he, rfl⟩
  · exact significant_pad_inside (.inl hb) hw
  · exact significant_pad_inside (.inr hb) hw
  · obtain ⟨hstop, hsame⟩ := significant_pad_end he hw
    exact ⟨s.toList, [], by simp, hstop.symm, by simpa using hsame⟩

end Lexer

/-- Readings that say the same read the same definitions, and fail alike: both or neither,
with the same message and kind of fault. -/
theorem Syntax.definitions_of_sameReading {a a' : List Token × Stop} (h : SameReading a a') (L : Nat)
    (doc : Document) :
    (Syntax.definitions a'.2 L doc a'.1).1 = (Syntax.definitions a.2 L doc a.1).1 ∧
      Option.Rel (fun e e' => e.message = e'.message ∧ e.fault = e'.fault)
        (Syntax.definitions a.2 L doc a.1).2 (Syntax.definitions a'.2 L doc a'.1).2 := by
  obtain ⟨ts, stop⟩ := a
  obtain ⟨ts', stop'⟩ := a'
  obtain ⟨hl, hs⟩ := h
  have hal : Syntax.Aligned stop stop' ((Syntax.places stop ts).zip (Syntax.places stop' ts')) ts ts' :=
    ⟨hl, List.suffix_refl _⟩
  obtain ⟨hdoc, hrel⟩ := Syntax.definitions_alike hs doc hal
  refine ⟨hdoc.symm, ?_⟩
  revert hrel
  generalize (Syntax.definitions stop L doc ts).2 = e
  generalize (Syntax.definitions stop' L doc ts').2 = e'
  rintro (htw | _)
  · exact .some ⟨htw.message, htw.fault⟩
  · exact .none

/-- Texts whose readings say the same read the same document, and fail alike: both or
neither, with the same message and kind of fault. -/
theorem parse_of_sameReading {s s' : String}
    (h : SameReading (Lexer.ofString s).significant (Lexer.ofString s').significant) :
    (Document.parse s').document = (Document.parse s).document ∧
      Option.Rel (fun e e' => e.message = e'.message ∧ e.fault = e'.fault)
        (Document.parse s).error (Document.parse s').error := by
  rw [Document.parse_eq, Document.parse_eq]
  exact Syntax.definitions_of_sameReading h Diagnostic.nestingLimit {}

/-- **Padding changes nothing but places.**  Ignored characters and comments closed by a
line break, put at the start of a text, right after one of its significant tokens read
before any fault, or at its end when it reads without a fault, leave the document as it
was, and the error: there is one just when there was, with the same message and kind of
fault. -/
theorem parse_pad (s : String) (b : Nat)
    (hb : b = 0 ∨ (∃ t ∈ (Lexer.ofString s).significant.1, t.span.stop = b) ∨
      ∃ t, (Lexer.ofString s).significant.2 = .eof t ∧ t.span.stop = b) {w : List Char} (hw : Padding w) :
    ∃ pre post, Text.takeBytes b s.toList = some pre ∧ Text.dropBytes b s.toList = some post ∧
      (Document.parse (String.ofList (pre ++ w ++ post))).document = (Document.parse s).document ∧
      Option.Rel (fun e e' => e.message = e'.message ∧ e.fault = e'.fault)
        (Document.parse s).error (Document.parse (String.ofList (pre ++ w ++ post))).error := by
  obtain ⟨pre, post, hs, hlen, hsame⟩ := Lexer.significant_pad_at hb hw
  refine ⟨pre, post, ?_, ?_, parse_of_sameReading hsame⟩
  · rw [hs, ← hlen]
    exact Text.takeBytes_utf8Length pre post
  · rw [hs, ← hlen]
    exact Text.dropBytes_utf8Length pre post


/-- A comment after the opening brace of `{a}`. -/
theorem parse_pad_after_brace :
    (∃ t ∈ (Lexer.ofString "\x7ba\x7d").significant.1, t.span.stop = 1) ∧ Padding ['#', 'x', '\n'] ∧
      ∃ pre post, Text.takeBytes 1 "\x7ba\x7d".toList = some pre ∧
        Text.dropBytes 1 "\x7ba\x7d".toList = some post ∧
        (Document.parse (String.ofList (pre ++ ['#', 'x', '\n'] ++ post))).document =
          (Document.parse "\x7ba\x7d").document ∧
        Option.Rel (fun e e' => e.message = e'.message ∧ e.fault = e'.fault)
          (Document.parse "\x7ba\x7d").error (Document.parse (String.ofList (pre ++ ['#', 'x', '\n'] ++ post))).error := by
  have hb : ∃ t ∈ (Lexer.ofString "\x7ba\x7d").significant.1, t.span.stop = 1 := by
    refine ⟨⟨.braceL, "\x7b", ⟨0, 1, 1, 1⟩⟩, ?_, rfl⟩
    rw [Lexer.significant_of_token (t := ⟨.braceL, "\x7b", ⟨0, 1, 1, 1⟩⟩) (by decide) (by decide)]
    simp
  have hw : Padding ('#' :: ['x'] ++ ['\n']) :=
    .comment (fun x hx => by rw [List.mem_singleton] at hx; subst hx; decide) (by decide) .nil
  exact ⟨hb, hw, parse_pad "\x7ba\x7d" 1 (.inr (.inl hb)) hw⟩

/-- After a fault, the end of the end token is no place for padding: `-` faults on the end
of the text, and `- ` on the blank that padding put there. -/
theorem parse_pad_fails_after_fault :
    (∃ t, Except.ok t ∈ (Lexer.readUpTo 2 (Lexer.ofString "-")).1 ∧ t.kind = .eof ∧ t.span.stop = 1) ∧
      Padding [' '] ∧
      (Document.parse "-").error.map Diagnostic.message = some "invalid number, expected digit but got <EOF>" ∧
      (Document.parse "- ").error.map Diagnostic.message = some "invalid number, expected digit but got ` `" := by
  have h1 : (Lexer.ofString "-").significant = ([], .fault ⟨.expectedDigit "<EOF>", ⟨0, 1, 1, 1⟩, []⟩) :=
    Lexer.significant_of_fault (by decide)
  have h2 : (Lexer.ofString "- ").significant = ([], .fault ⟨.expectedDigit "` `", ⟨0, 1, 1, 1⟩, []⟩) :=
    Lexer.significant_of_fault (by decide)
  refine ⟨⟨⟨.eof, "", ⟨1, 1, 1, 2⟩⟩, by decide, rfl, rfl⟩, .ignored (by decide) .nil, ?_, ?_⟩
  · rw [Document.parse_eq, h1, Syntax.definitions]
    rfl
  · rw [Document.parse_eq, h2, Syntax.definitions]
    rfl

end Gql
