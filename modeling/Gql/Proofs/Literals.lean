import Gql.Proofs.Lexemes
import Gql.Document.Printer
/-!
# Literals — written strings read back

A string value written by `Text.stringLiteral` reads as one string token with that value
(`lexes_stringLiteral`).  A block-string value written by `Text.blockLiteral` reads as one
block-string token with that value (`lexes_blockLiteral`) when it is a value that a block
string can have at all (`IsBlockValue`): the value of some raw content with no carriage
return and no control character other than tab and line feed.

The block-string half has two parts: the scanner undoes the escaped delimiters, with the
line breaks the printer puts where a delimiter would run into the value
(`blockBody_escapeDelimiters`), and the value of the content that the printer writes around
a value is that value again (`blockStringValue_blockContent`).
-/
namespace Gql

namespace Lexer

/-! ### Quoted strings -/

section Strings

variable {start : Cursor} {cs : List Char}

theorem hexUpper_four {n : Nat} (h : n < 32) :
    (Text.hexUpper 4 n).toList = ['0', '0', Text.hexDigit true (n / 16), Text.hexDigit true (n % 16)] := by
  by_cases h16 : n < 16
  · rw [Text.hexUpper, String.toList_ofList, Text.hexDigits, if_pos h16]
    simp [Text.padLeft, Nat.div_eq_of_lt h16, Nat.mod_eq_of_lt h16, Text.hexDigit]
  · have hd : Text.hexDigits true n = [Text.hexDigit true 1, Text.hexDigit true (n % 16)] := by
      rw [Text.hexDigits, if_neg h16, Text.hexDigits, if_pos (by omega)]
      simp [show n / 16 = 1 by omega]
    rw [Text.hexUpper, String.toList_ofList, hd]
    simp [Text.padLeft, show n / 16 = 1 by omega]

theorem hexNumber?_control : ∀ n < 32,
    Text.hexNumber? ['0', '0', Text.hexDigit true (n / 16), Text.hexDigit true (n % 16)] = some n := by
  decide

/-- Each character, as the printer escapes it, is read back as itself. -/
theorem stringBody_escapeInString (c : Char) (r : List Char) (i : Nat) (acc : List Char) :
    stringBody start cs ((Text.escapeInString c).toList ++ r) i acc =
      stringBody start cs r (i + (Text.escapeInString c).toList.length) (c :: acc) := by
  unfold Text.escapeInString
  by_cases h1 : c = '"'
  · subst h1; simp [stringBody, simpleEscape?]
  by_cases h2 : c = '\\'
  · subst h2; simp [stringBody, simpleEscape?]
  by_cases h3 : c = '\n'
  · subst h3; simp [stringBody, simpleEscape?]
  by_cases h4 : c = '\r'
  · subst h4; simp [stringBody, simpleEscape?]
  by_cases h5 : c = '\t'
  · subst h5; simp [stringBody, simpleEscape?]
  by_cases h6 : c = '\x08'
  · subst h6; simp [stringBody, simpleEscape?]
  by_cases h7 : c = '\x0c'
  · subst h7; simp [stringBody, simpleEscape?]
  simp only [h1, h2, h3, h4, h5, h6, h7, if_false]
  by_cases h8 : c.toNat < 0x20
  · have hhi : isHighSurrogate c.toNat = false := by simp [isHighSurrogate]; omega
    have hlo : isLowSurrogate c.toNat = false := by simp [isLowSurrogate]; omega
    rw [if_pos h8, String.toList_append, hexUpper_four h8]
    simp [stringBody, hexNumber?_control c.toNat h8, hhi, hlo, Char.ofNat_toNat]
  · have hf : isForbiddenInString c = false := by simp [isForbiddenInString]; omega
    have hc : c.toString.toList = [c] := by simp
    rw [if_neg h8, hc, List.singleton_append, stringBody.eq_def]
    split <;> simp_all

theorem stringBody_escaped (s : List Char) (r : List Char) (i : Nat) (acc : List Char) :
    stringBody start cs ((s.flatMap fun c => (Text.escapeInString c).toList) ++ '"' :: r) i acc =
      Scanned.token start cs .string (String.ofList (acc.reverse ++ s))
        (i + (s.flatMap fun c => (Text.escapeInString c).toList).length + 1) := by
  induction s generalizing i acc with
  | nil => simp [stringBody]
  | cons c s ih =>
    rw [List.flatMap_cons, List.append_assoc, stringBody_escapeInString, ih]
    simp [Nat.add_assoc]

theorem escapeInString_head (c : Char) : ∃ x r, (Text.escapeInString c).toList = x :: r ∧ x ≠ '"' := by
  unfold Text.escapeInString
  split
  · exact ⟨'\\', ['"'], by simp, by decide⟩
  split
  · exact ⟨'\\', ['\\'], by simp, by decide⟩
  split
  · exact ⟨'\\', ['n'], by simp, by decide⟩
  split
  · exact ⟨'\\', ['r'], by simp, by decide⟩
  split
  · exact ⟨'\\', ['t'], by simp, by decide⟩
  split
  · exact ⟨'\\', ['b'], by simp, by decide⟩
  split
  · exact ⟨'\\', ['f'], by simp, by decide⟩
  split
  · exact ⟨'\\', 'u' :: (Text.hexUpper 4 c.toNat).toList, by simp, by decide⟩
  · rename_i h _ _ _ _ _ _ _
    exact ⟨c, [], by simp, h⟩

theorem scanToken_string {start : Cursor} {r : List Char} (h : ¬ ['"', '"'] <+: r) :
    scanToken start ('"' :: r) = scanString start ('"' :: r) := by
  simp only [scanToken, TokenKind.ofSymbolChar?, TokenKind.singleCharSymbols, List.find?]
  simp
  split
  · simp at h
  · rfl

/-- **A written string reads as a string token with its value**, before any boundary. -/
theorem lexes_stringLiteral (s : String) :
    Lexes Boundary (Text.stringLiteral s).toList [(.string, s)] := by
  generalize hesc : (s.toList.flatMap fun c => (Text.escapeInString c).toList) = esc
  have hlit : (Text.stringLiteral s).toList = '"' :: (esc ++ ['"']) := by
    simp [Text.stringLiteral, ← hesc, List.flatMap, Function.comp_def]
  rw [hlit]
  refine lexes_token (by decide) (by decide) (by decide) (fun start rest hr => ?_)
  -- a string, not a block string: what follows the opening quote is no `""`
  have hno : ¬ ['"', '"'] <+: esc ++ ['"'] ++ rest := by
    intro hp
    cases hs : s.toList with
    | nil =>
      rw [hs, List.flatMap_nil] at hesc
      subst hesc
      cases rest with
      | nil => simp at hp
      | cons x xs =>
        simp only [List.nil_append, List.singleton_append, List.cons_prefix_cons, true_and] at hp
        exact (hr.stops x rfl).2.2.2.2.2 (Eq.symm (by simpa using hp))
    | cons c t =>
      obtain ⟨x, r, hx, hxq⟩ := escapeInString_head c
      rw [hs, List.flatMap_cons, hx] at hesc
      subst hesc
      simp only [List.cons_append, List.cons_prefix_cons] at hp
      exact hxq hp.1.symm
  rw [List.cons_append, scanToken_string hno, scanString, List.drop_succ_cons, List.drop_zero,
    List.append_assoc, List.singleton_append, ← hesc, stringBody_escaped]
  simp [hesc, Nat.add_comm 1]

end Strings

end Lexer

/-! ### Block-string values

The value of a block string is the join, at line feeds, of the lines that `dedent` and
`trimBlankLines` leave.  Those lines hold no line feed, the first and the last of them are
not blank, and when there are two or more, one of them that is not blank has no
indentation: the common indentation was taken off.  From these three facts the content that
the printer writes around a value has that value again. -/

namespace Text

theorem not_mem_of_mem_splitOn {a : Char} :
    ∀ {xs : List Char} {l : List Char}, l ∈ xs.splitOn a → a ∉ l
  | [], l, h => by
    rw [List.splitOn_nil, List.mem_singleton] at h
    simp [h]
  | x :: xs, l, h => by
    obtain ⟨l0, rest, hsplit⟩ := List.exists_cons_of_ne_nil (List.splitOn_ne_nil a xs)
    rw [List.splitOn_cons_eq_if_modifyHead] at h
    split at h
    · rcases List.mem_cons.1 h with rfl | h
      · simp
      · exact not_mem_of_mem_splitOn h
    · rename_i hx
      rw [hsplit, List.modifyHead_cons] at h
      rcases List.mem_cons.1 h with rfl | h
      · have h0 : a ∉ l0 := not_mem_of_mem_splitOn (by rw [hsplit]; exact List.mem_cons_self)
        simp only [List.mem_cons, not_or]
        exact ⟨fun hax => hx (by simp [hax]), h0⟩
      · exact not_mem_of_mem_splitOn (by rw [hsplit]; exact List.mem_cons_of_mem _ h)

/-- Lines whose first and last lines are not blank. -/
def Trimmed (L : List (List Char)) : Prop :=
  (∀ l ∈ L.head?, isBlankLine l = false) ∧ ∀ l ∈ L.getLast?, isBlankLine l = false

theorem mem_of_mem_trimBlankLines {L : List (List Char)} {l : List Char} (h : l ∈ trimBlankLines L) :
    l ∈ L := by
  unfold trimBlankLines at h
  rw [List.mem_reverse] at h
  have h1 := (List.dropWhile_suffix isBlankLine).subset h
  rw [List.mem_reverse] at h1
  exact (List.dropWhile_suffix isBlankLine).subset h1

theorem mem_dropWhile_of_not {p : α → Bool} {L : List α} {l : α} (hl : l ∈ L) (hp : p l = false) :
    l ∈ L.dropWhile p := by
  rw [← List.takeWhile_append_dropWhile (p := p) (l := L), List.mem_append] at hl
  rcases hl with hl | hl
  · have := List.all_eq_true.1 (List.all_takeWhile (p := p) (l := L)) l hl
    simp [hp] at this
  · exact hl

theorem mem_trimBlankLines {L : List (List Char)} {l : List Char} (hl : l ∈ L)
    (hb : isBlankLine l = false) : l ∈ trimBlankLines L := by
  unfold trimBlankLines
  rw [List.mem_reverse]
  exact mem_dropWhile_of_not (List.mem_reverse.2 (mem_dropWhile_of_not hl hb)) hb

theorem head?_dropWhile {p : α → Bool} {L : List α} : ∀ x ∈ (L.dropWhile p).head?, p x = false := by
  intro x hx
  have hne : L.dropWhile p ≠ [] := by rintro h; simp [h] at hx
  rw [List.head?_eq_some_head hne, Option.mem_some_iff] at hx
  rw [← hx]
  exact List.head_dropWhile_not p hne

theorem trimmed_trimBlankLines (L : List (List Char)) : Trimmed (trimBlankLines L) := by
  unfold trimBlankLines
  refine ⟨fun l hl => ?_, fun l hl => ?_⟩
  · rw [List.head?_reverse] at hl
    obtain ⟨Y, hY⟩ := List.dropWhile_suffix isBlankLine (l := (L.dropWhile isBlankLine).reverse)
    have hD : l ∈ (L.dropWhile isBlankLine).head? := by
      rw [← List.getLast?_reverse, ← hY, List.getLast?_append, Option.mem_def.1 hl]
      rfl
    exact head?_dropWhile l hD
  · rw [List.getLast?_reverse] at hl
    exact head?_dropWhile l hl

theorem trimBlankLines_of_trimmed {L : List (List Char)} (h : Trimmed L) : trimBlankLines L = L := by
  unfold trimBlankLines
  cases L with
  | nil => rfl
  | cons l L' =>
    rw [List.dropWhile_cons_of_neg (by simp [h.1 l rfl])]
    obtain ⟨y, ys, hy⟩ := List.exists_cons_of_ne_nil (List.reverse_ne_nil_iff.2 (List.cons_ne_nil l L'))
    have hlast : isBlankLine y = false := h.2 y (by rw [← List.head?_reverse, hy]; rfl)
    rw [hy, List.dropWhile_cons_of_neg (by simp [hlast]), ← hy, List.reverse_reverse]

theorem trimBlankLines_blank_cons {l : List Char} {L : List (List Char)} (hb : isBlankLine l = true) :
    trimBlankLines (l :: L) = trimBlankLines L := by
  unfold trimBlankLines
  rw [List.dropWhile_cons_of_pos hb]

theorem trimBlankLines_append_blank {L : List (List Char)} {l : List Char} (hb : isBlankLine l = true) :
    trimBlankLines (L ++ [l]) = trimBlankLines L := by
  unfold trimBlankLines
  rw [List.dropWhile_append]
  split
  · rename_i he
    rw [List.isEmpty_iff] at he
    rw [he, List.dropWhile_cons_of_pos hb]
    rfl
  · rw [List.reverse_append, List.reverse_singleton, List.singleton_append, List.dropWhile_cons_of_pos hb]

theorem dropWhile_of_all {p : α → Bool} : ∀ {L : List α}, (∀ x ∈ L, p x = true) → L.dropWhile p = []
  | [], _ => rfl
  | x :: xs, h => by
    rw [List.dropWhile_cons_of_pos (h x List.mem_cons_self)]
    exact dropWhile_of_all (fun y hy => h y (List.mem_cons_of_mem x hy))

theorem length_trimBlankLines_le_one {l : List Char} {L : List (List Char)}
    (h : ∀ x ∈ L, isBlankLine x = true) : (trimBlankLines (l :: L)).length ≤ 1 := by
  by_cases hl : isBlankLine l = true
  · rw [trimBlankLines_blank_cons hl]
    simp [trimBlankLines, dropWhile_of_all h]
  · unfold trimBlankLines
    rw [List.dropWhile_cons_of_neg hl, List.reverse_cons,
      List.dropWhile_append_of_pos (fun x hx => h x (List.mem_reverse.1 hx))]
    simp [hl]

theorem commonIndent_eq_none {L : List (List Char)} :
    commonIndent L = none ↔ ∀ l ∈ L.drop 1, isBlankLine l = true := by
  simp [commonIndent, List.filter_eq_nil_iff]

theorem dedent_of_commonIndent_none {L : List (List Char)} (h : commonIndent L = none) :
    dedent L = L := by
  unfold dedent
  rw [h]

theorem dedent_of_commonIndent_zero {L : List (List Char)} (h : commonIndent L = some 0) :
    dedent L = L := by
  unfold dedent
  rw [h]
  cases L with
  | nil => rfl
  | cons first rest =>
    have hid : (List.drop 0 : List Char → List Char) = id := funext fun _ => rfl
    simp [hid]

theorem commonIndent_eq_zero {L : List (List Char)}
    (h : ∃ l ∈ L.drop 1, isBlankLine l = false ∧ indentOf l = 0) : commonIndent L = some 0 := by
  obtain ⟨l, hl, hb, hi⟩ := h
  rw [commonIndent, List.min?_eq_some_iff]
  exact ⟨List.mem_map.2 ⟨l, List.mem_filter.2 ⟨hl, by simp [hb]⟩, hi⟩, fun b _ => Nat.zero_le b⟩

theorem drop_length_takeWhile (p : α → Bool) :
    ∀ l : List α, l.drop (l.takeWhile p).length = l.dropWhile p
  | [] => rfl
  | x :: xs => by
    cases hx : p x
    · have ht : (x :: xs).takeWhile p = [] := List.takeWhile_cons_of_neg (by simp [hx])
      have hd : (x :: xs).dropWhile p = x :: xs := List.dropWhile_cons_of_neg (by simp [hx])
      rw [ht, hd]
      rfl
    · rw [List.takeWhile_cons_of_pos (by simp [hx]), List.dropWhile_cons_of_pos (by simp [hx]),
        List.length_cons, List.drop_succ_cons, drop_length_takeWhile p xs]

theorem dropWhile_indent_of_not_blank {l : List Char} (h : isBlankLine l = false) :
    ∃ c r, l.dropWhile isIndent = c :: r ∧ isIndent c = false := by
  cases hd : l.dropWhile isIndent with
  | nil =>
    have hl := List.takeWhile_append_dropWhile (p := isIndent) (l := l)
    rw [hd, List.append_nil] at hl
    have hall := List.all_takeWhile (p := isIndent) (l := l)
    rw [hl] at hall
    simp [isBlankLine, hall] at h
  | cons c r =>
    have hc := head?_dropWhile (p := isIndent) (L := l) c
    rw [hd] at hc
    exact ⟨c, r, rfl, hc rfl⟩

/-- The line that gives the common indentation keeps none of it. -/
theorem exists_flush_of_commonIndent {L : List (List Char)} {k : Nat} (h : commonIndent L = some k) :
    ∃ l ∈ (dedent L).drop 1, isBlankLine l = false ∧ indentOf l = 0 := by
  obtain ⟨hmem, -⟩ := List.min?_eq_some_iff.1 h
  obtain ⟨l0, hl0, hk⟩ := List.mem_map.1 hmem
  obtain ⟨hl0, hb0⟩ := List.mem_filter.1 hl0
  cases L with
  | nil => simp at hl0
  | cons first rest =>
    have hd : dedent (first :: rest) = first :: rest.map (List.drop k) := by
      unfold dedent
      rw [h]
    have hb0' : isBlankLine l0 = false := by simpa using hb0
    obtain ⟨c, r, hcr, hc⟩ := dropWhile_indent_of_not_blank hb0'
    have hdrop : l0.drop k = c :: r := by rw [← hk, indentOf, drop_length_takeWhile, hcr]
    refine ⟨c :: r, ?_, ?_, ?_⟩
    · rw [hd, List.drop_succ_cons, List.drop_zero, ← hdrop]
      exact List.mem_map_of_mem hl0
    · simp [isBlankLine, hc]
    · simp [indentOf, hc]

theorem mem_dedent {L : List (List Char)} {l : List Char} (h : l ∈ dedent L) :
    ∃ l' ∈ L, ∃ k, l = l'.drop k := by
  unfold dedent at h
  split at h
  · rename_i k first rest _
    rcases List.mem_cons.1 h with rfl | h
    · exact ⟨l, List.mem_cons_self, 0, rfl⟩
    · obtain ⟨l', hl', rfl⟩ := List.mem_map.1 h
      exact ⟨l', List.mem_cons_of_mem _ hl', k, rfl⟩
  · exact ⟨l, h, 0, rfl⟩


theorem intercalate_append_nil {sep : List Char} :
    ∀ {X : List (List Char)}, X ≠ [] → sep.intercalate (X ++ [[]]) = sep.intercalate X ++ sep
  | [], h => absurd rfl h
  | [x], _ => by simp [List.intercalate_cons_cons]
  | x :: y :: rest, _ => by
    rw [List.cons_append, List.cons_append, List.intercalate_cons_cons, ← List.cons_append,
      intercalate_append_nil (List.cons_ne_nil y rest), List.intercalate_cons_cons]
    simp

theorem blockStringValue_toList (raw : String) :
    (blockStringValue raw).toList =
      ['\n'].intercalate (trimBlankLines (dedent (raw.toList.splitOn '\n'))) := by
  simp [blockStringValue, String.toList_intercalate, List.map_map, Function.comp_def]

theorem blockStringValue_intercalate {LL : List (List Char)} (hnl : ∀ l ∈ LL, '\n' ∉ l) (hne : LL ≠ []) :
    blockStringValue (String.ofList (['\n'].intercalate LL)) =
      "\n".intercalate ((trimBlankLines (dedent LL)).map String.ofList) := by
  rw [blockStringValue, String.toList_ofList, List.splitOn_intercalate '\n' hnl hne]

theorem exists_flush_line {raw : String}
    (h : 2 ≤ (trimBlankLines (dedent (raw.toList.splitOn '\n'))).length) :
    ∃ l ∈ trimBlankLines (dedent (raw.toList.splitOn '\n')), isBlankLine l = false ∧ indentOf l = 0 := by
  cases hk : commonIndent (raw.toList.splitOn '\n') with
  | none =>
    obtain ⟨first, rest, hfr⟩ := List.exists_cons_of_ne_nil (List.splitOn_ne_nil '\n' raw.toList)
    have hblank := commonIndent_eq_none.1 hk
    rw [hfr, List.drop_succ_cons, List.drop_zero] at hblank
    rw [dedent_of_commonIndent_none hk, hfr] at h
    exact absurd (length_trimBlankLines_le_one (l := first) hblank) (by omega)
  | some k =>
    obtain ⟨l, hl, hb, hi⟩ := exists_flush_of_commonIndent hk
    exact ⟨l, mem_trimBlankLines (List.mem_of_mem_drop hl) hb, hb, hi⟩

/-- **A block-string value is read back from what the printer writes for it**: the value,
after a line feed when it has several lines, and before a last line feed or not. -/
theorem blockStringValue_blockContent (raw : String) (P : Prop) [Decidable P] :
    blockStringValue (String.ofList ((if '\n' ∈ (blockStringValue raw).toList then ['\n'] else []) ++
      (blockStringValue raw).toList ++ (if P then ['\n'] else []))) = blockStringValue raw := by
  have hs := blockStringValue_toList raw
  have hval : blockStringValue raw =
      "\n".intercalate ((trimBlankLines (dedent (raw.toList.splitOn '\n'))).map String.ofList) := rfl
  have hflush := @exists_flush_line raw
  have htrim := trimmed_trimBlankLines (dedent (raw.toList.splitOn '\n'))
  have hnl : ∀ l ∈ trimBlankLines (dedent (raw.toList.splitOn '\n')), '\n' ∉ l := by
    intro l hl
    obtain ⟨l', hl', k, rfl⟩ := mem_dedent (mem_of_mem_trimBlankLines hl)
    exact fun h => not_mem_of_mem_splitOn hl' (List.mem_of_mem_drop h)
  generalize trimBlankLines (dedent (raw.toList.splitOn '\n')) = L at hs hval hflush htrim hnl
  rw [hs, hval]
  have hblank : isBlankLine [] = true := rfl
  match L, hflush, htrim, hnl with
  | [], _, _, _ =>
    rcases (Decidable.em P).symm with hP | hP
    · have hc : String.ofList [] = String.ofList (['\n'].intercalate [[]]) := rfl
      simp only [List.intercalate_nil, List.mem_nil_iff, if_false, hP, List.append_nil]
      rw [hc, blockStringValue_intercalate (by simp) (by simp),
        dedent_of_commonIndent_none (commonIndent_eq_none.2 (by simp)), trimBlankLines_blank_cons hblank]
      rfl
    · have hc : ['\n'] = ['\n'].intercalate [[], []] := rfl
      simp only [List.intercalate_nil, List.mem_nil_iff, if_false, List.nil_append, hP, if_true]
      rw [hc, blockStringValue_intercalate (by simp) (by simp),
        dedent_of_commonIndent_none (commonIndent_eq_none.2 (by simp [hblank])),
        trimBlankLines_blank_cons hblank, ← List.nil_append [[]], trimBlankLines_append_blank hblank]
      rfl
  | [a], _, htrim, hnl =>
    have ha : '\n' ∉ a := hnl a List.mem_cons_self
    simp only [List.intercalate_singleton, ha, if_false, List.nil_append]
    rcases (Decidable.em P).symm with hP | hP
    · simp only [hP, if_false, List.append_nil]
      have hc : String.ofList a = String.ofList (['\n'].intercalate [a]) := by
        rw [List.intercalate_singleton]
      rw [hc,
        blockStringValue_intercalate (by simpa using ha) (by simp),
        dedent_of_commonIndent_none (commonIndent_eq_none.2 (by simp)), trimBlankLines_of_trimmed htrim]
    · have hc : a ++ ['\n'] = ['\n'].intercalate [a, []] := by simp [List.intercalate_cons_cons]
      rw [if_pos hP, hc, blockStringValue_intercalate (by simp [ha]) (by simp),
        dedent_of_commonIndent_none (commonIndent_eq_none.2 (by simp [hblank])),
        ← List.singleton_append, trimBlankLines_append_blank hblank, trimBlankLines_of_trimmed htrim]
  | a :: b :: rest, hflush, htrim, hnl =>
    have hmem : '\n' ∈ ['\n'].intercalate (a :: b :: rest) := by simp [List.intercalate_cons_cons]
    rw [if_pos hmem]
    obtain ⟨l, hl, hlb, hli⟩ := hflush (by simp)
    have hLL : ∀ LT : List (List Char), (∀ x ∈ LT, x = []) →
        ∀ x ∈ ([] :: (a :: b :: rest) ++ LT), '\n' ∉ x := by
      intro LT hLT x hx
      simp only [List.cons_append, List.mem_cons, List.mem_append] at hx
      rcases hx with rfl | rfl | rfl | hx | hx
      · simp
      · exact hnl _ List.mem_cons_self
      · exact hnl _ (by simp)
      · exact hnl _ (by simp [hx])
      · rw [hLT x hx]; simp
    have hdedent : ∀ LT : List (List Char),
        dedent ([] :: (a :: b :: rest) ++ LT) = [] :: (a :: b :: rest) ++ LT := fun LT =>
      dedent_of_commonIndent_zero (commonIndent_eq_zero ⟨l, by
        rw [List.cons_append, List.drop_succ_cons, List.drop_zero]
        exact List.mem_append.2 (.inl hl), hlb, hli⟩)
    rcases (Decidable.em P).symm with hP | hP
    · have hc : ['\n'] ++ ['\n'].intercalate (a :: b :: rest) ++ [] =
          ['\n'].intercalate ([] :: (a :: b :: rest) ++ []) := by
        simp [List.intercalate_cons_cons]
      rw [if_neg hP, hc, blockStringValue_intercalate (hLL [] (by simp)) (by simp), hdedent,
        List.append_nil, trimBlankLines_blank_cons hblank, trimBlankLines_of_trimmed htrim]
    · have hc : ['\n'] ++ ['\n'].intercalate (a :: b :: rest) ++ ['\n'] =
          ['\n'].intercalate ([] :: (a :: b :: rest) ++ [[]]) := by
        rw [List.cons_append, intercalate_append_nil (by simp), List.intercalate_cons_cons]
        simp
      rw [if_pos hP, hc, blockStringValue_intercalate (hLL [[]] (by simp)) (by simp), hdedent,
        trimBlankLines_append_blank hblank, trimBlankLines_blank_cons hblank,
        trimBlankLines_of_trimmed htrim]

theorem mem_intercalate_of_mem {sep : List α} {c : α} {l : List α} :
    ∀ {L : List (List α)}, l ∈ L → c ∈ l → c ∈ sep.intercalate L
  | [], hl, _ => by simp at hl
  | [x], hl, hc => by
    rw [List.mem_singleton] at hl
    subst hl
    simpa using hc
  | x :: y :: rest, hl, hc => by
    rw [List.intercalate_cons_cons]
    rcases List.mem_cons.1 hl with rfl | hl
    · simp [hc]
    · exact List.mem_append_right _ (mem_intercalate_of_mem hl hc)

theorem mem_of_mem_intercalate {sep : List α} {c : α} :
    ∀ {L : List (List α)}, c ∈ sep.intercalate L → c ∈ sep ∨ ∃ l ∈ L, c ∈ l
  | [], h => by simp at h
  | [l], h => .inr ⟨l, List.mem_singleton_self l, by simpa using h⟩
  | l :: l' :: rest, h => by
    rw [List.intercalate_cons_cons] at h
    simp only [List.mem_append] at h
    rcases h with (h | h) | h
    · exact .inr ⟨l, List.mem_cons_self, h⟩
    · exact .inl h
    · rcases mem_of_mem_intercalate h with h | ⟨x, hx, hc⟩
      · exact .inl h
      · exact .inr ⟨x, List.mem_cons_of_mem _ hx, hc⟩

theorem mem_blockStringValue {raw : String} {c : Char} (h : c ∈ (blockStringValue raw).toList) :
    c = '\n' ∨ c ∈ raw.toList := by
  rw [blockStringValue_toList] at h
  rcases mem_of_mem_intercalate h with h | ⟨l, hl, hc⟩
  · exact .inl (List.mem_singleton.1 h)
  · obtain ⟨l', hl', k, rfl⟩ := mem_dedent (mem_of_mem_trimBlankLines hl)
    right
    have hraw : ['\n'].intercalate (raw.toList.splitOn '\n') = raw.toList := List.intercalate_splitOn '\n'
    rw [← hraw]
    exact mem_intercalate_of_mem hl' (List.mem_of_mem_drop hc)

end Text

/-- A value that a block string can have: the value of raw content with no carriage return
and no control character other than tab and line feed. -/
def IsBlockValue (s : String) : Prop :=
  ∃ raw : String, (∀ c ∈ raw.toList, c ≠ '\r' ∧ isForbiddenInBlock c = false) ∧
    Text.blockStringValue raw = s

theorem IsBlockValue.chars {s : String} (hs : IsBlockValue s) :
    ∀ c ∈ s.toList, c ≠ '\r' ∧ isForbiddenInBlock c = false := by
  obtain ⟨raw, hraw, rfl⟩ := hs
  intro c hc
  rcases Text.mem_blockStringValue hc with rfl | hc
  · exact ⟨by decide, by decide⟩
  · exact hraw c hc

namespace Lexer

/-! ### Block strings -/

section Blocks

variable {start : Cursor} {cs : List Char}

theorem blockBody_raw {c : Char} {rest : List Char} (i : Nat) (acc : List Char) (hcr : c ≠ '\r')
    (hf : isForbiddenInBlock c = false) (hq : c = '"' → ¬ ['"', '"'] <+: rest)
    (hb : c = '\\' → ¬ ['"', '"', '"'] <+: rest) :
    blockBody start cs (c :: rest) i acc = blockBody start cs rest (i + 1) (c :: acc) := by
  rw [blockBody.eq_def]
  split <;> simp_all

theorem escapeDelimiters_cons {c : Char} {r : List Char} (h : ¬ ['"', '"', '"'] <+: c :: r) :
    Text.escapeDelimiters (c :: r) = c :: Text.escapeDelimiters r := by
  rw [Text.escapeDelimiters.eq_def]
  split <;> simp_all

theorem replicate_prefix_delimiter : ∀ k ≤ 3, List.replicate k '"' <+: ['"', '"', '"']
  | 0, _ => List.nil_prefix
  | 1, _ => by decide
  | 2, _ => by decide
  | 3, _ => by decide

/-- Quotes at the front of an escaped text, fewer than the text starts with, are all the
text, fewer than three, and the rest of them come from what follows it. -/
theorem quotes_of_escapeDelimiters : ∀ (k : Nat), k ≤ 3 → ∀ {r e : List Char},
    ¬ List.replicate k '"' <+: r → List.replicate k '"' <+: Text.escapeDelimiters r ++ e →
    ∃ j < k, r = List.replicate j '"' ∧ List.replicate (k - j) '"' <+: e
  | 0, _, _, _, hk, _ => absurd List.nil_prefix hk
  | k + 1, hk3, r, e, hk, h => by
    cases r with
    | nil => exact ⟨0, Nat.succ_pos k, rfl, by simpa [Text.escapeDelimiters] using h⟩
    | cons a r' =>
      have hnd : ¬ ['"', '"', '"'] <+: a :: r' :=
        fun hd => hk ((replicate_prefix_delimiter (k + 1) hk3).trans hd)
      rw [escapeDelimiters_cons hnd, List.cons_append, List.replicate_succ, List.cons_prefix_cons] at h
      obtain ⟨rfl, h⟩ := h
      have hk' : ¬ List.replicate k '"' <+: r' := fun hp =>
        hk (by rw [List.replicate_succ]; exact List.cons_prefix_cons.2 ⟨rfl, hp⟩)
      obtain ⟨j, hj, rfl, he⟩ := quotes_of_escapeDelimiters k (by omega) hk' h
      refine ⟨j + 1, by omega, by rw [List.replicate_succ], ?_⟩
      rwa [Nat.add_sub_add_right]

/-- What the scanner needs after an escaped text `x`: a line feed, or no quote or backslash
at the end of `x`. -/
def EndsSafely (x e : List Char) : Prop :=
  e.head? = some '\n' ∨ (x.getLast? ≠ some '"' ∧ x.getLast? ≠ some '\\')

theorem EndsSafely.tail {p r e : List Char} (he : EndsSafely (p ++ r) e) : EndsSafely r e := by
  rcases he with he | ⟨h1, h2⟩
  · exact .inl he
  · right
    rw [List.getLast?_append] at h1 h2
    cases hr : r.getLast? with
    | none => simp
    | some y => rw [hr] at h1 h2; exact ⟨h1, h2⟩

theorem EndsSafely.not_quote {c : Char} {j : Nat} {e : List Char} (hc : c = '"' ∨ c = '\\')
    (he : EndsSafely (c :: List.replicate j '"') e) {m : Nat} (hm : 0 < m)
    (hq : List.replicate m '"' <+: e) : False := by
  obtain ⟨t, rfl⟩ := hq
  obtain ⟨m, rfl⟩ := Nat.exists_eq_add_of_lt hm
  have hlast : (c :: List.replicate j '"').getLast? = some '"' ∨
      (c :: List.replicate j '"').getLast? = some '\\' := by
    cases j with
    | zero => rcases hc with rfl | rfl <;> simp
    | succ j => simp [List.getLast?_cons, List.getLast?_replicate]
  rcases he with he | ⟨h1, h2⟩
  · simp [List.replicate_succ] at he
  · rcases hlast with h | h
    · exact h1 h
    · exact h2 h

/-- **The scanner undoes the escaped delimiters** of a text with no carriage return and no
forbidden control character, when it ends safely. -/
theorem blockBody_escapeDelimiters (x e : List Char) (i : Nat) (acc : List Char)
    (hx : ∀ c ∈ x, c ≠ '\r' ∧ isForbiddenInBlock c = false) (he : EndsSafely x e) :
    blockBody start cs (Text.escapeDelimiters x ++ e) i acc =
      blockBody start cs e (i + (Text.escapeDelimiters x).length) (x.reverse ++ acc) := by
  fun_induction Text.escapeDelimiters x generalizing i acc with
  | case1 r ih =>
    have hdelim : blockBody start cs ('\\' :: '"' :: '"' :: '"' :: (Text.escapeDelimiters r ++ e)) i acc =
        blockBody start cs (Text.escapeDelimiters r ++ e) (i + 4) ('"' :: '"' :: '"' :: acc) := by
      rw [blockBody]
    rw [List.cons_append, List.cons_append, List.cons_append, List.cons_append, hdelim,
      ih (i + 4) _ (fun c hc => hx c (by simp [hc])) (EndsSafely.tail (p := ['"', '"', '"']) he)]
    simp only [List.length_cons, List.reverse_cons, List.append_assoc, List.cons_append,
      List.nil_append]
    congr 1
    omega
  | case2 c r h ih =>
    have hc := hx c List.mem_cons_self
    have hq : c = '"' → ¬ ['"', '"'] <+: Text.escapeDelimiters r ++ e := by
      rintro rfl hp
      have hk : ¬ List.replicate 2 '"' <+: r := by
        rintro ⟨t, ht⟩
        exact h t rfl (by simpa using ht.symm)
      obtain ⟨j, hj, rfl, hje⟩ := quotes_of_escapeDelimiters 2 (by omega) hk hp
      exact he.not_quote (.inl rfl) (by omega) hje
    have hb : c = '\\' → ¬ ['"', '"', '"'] <+: Text.escapeDelimiters r ++ e := by
      rintro rfl hp
      by_cases hr : ['"', '"', '"'] <+: r
      · obtain ⟨t, rfl⟩ := hr
        simp [Text.escapeDelimiters] at hp
      · obtain ⟨j, hj, rfl, hje⟩ := quotes_of_escapeDelimiters 3 (by omega) hr hp
        exact he.not_quote (.inr rfl) (by omega) hje
    rw [List.cons_append, blockBody_raw i acc hc.1 hc.2 hq hb,
      ih (i + 1) (c :: acc) (fun x hx' => hx x (List.mem_cons_of_mem c hx'))
        (EndsSafely.tail (p := [c]) he)]
    simp [Nat.add_assoc, Nat.add_comm]
  | case3 => simp

theorem blockBody_lineFeeds {ns : List Char} (hn : ∀ c ∈ ns, c = '\n') (rest : List Char) (i : Nat)
    (acc : List Char) :
    blockBody start cs (ns ++ rest) i acc = blockBody start cs rest (i + ns.length) (ns.reverse ++ acc) := by
  induction ns generalizing i acc with
  | nil => simp
  | cons c ns ih =>
    obtain rfl := hn c List.mem_cons_self
    rw [List.cons_append, blockBody_raw i acc (by decide) (by decide) (fun h => absurd h (by decide))
      (fun h => absurd h (by decide)),
      ih (fun x hx => hn x (List.mem_cons_of_mem _ hx))]
    simp [Nat.add_assoc, Nat.add_comm 1]

theorem blockBody_close (rest : List Char) (i : Nat) (acc : List Char) :
    blockBody start cs ('"' :: '"' :: '"' :: rest) i acc =
      Scanned.token start cs .blockString (Text.blockStringValue (String.ofList acc.reverse)) (i + 3) := by
  rw [blockBody]

theorem scanToken_block (r : List Char) :
    scanToken start ('"' :: '"' :: '"' :: r) = scanBlockString start ('"' :: '"' :: '"' :: r) := by
  simp [scanToken, TokenKind.ofSymbolChar?, TokenKind.singleCharSymbols]

theorem blockLiteral_toList (s : String) : (Text.blockLiteral s).toList =
    '"' :: '"' :: '"' :: ((if '\n' ∈ s.toList then ['\n'] else []) ++ Text.escapeDelimiters s.toList ++
      (if s.toList.getLast? = some '"' ∨ s.toList.getLast? = some '\\' then ['\n'] else []) ++
        ['"', '"', '"']) := by
  simp only [Text.blockLiteral, String.toList_append, String.toList_ofList]
  split <;> split <;> simp_all

/-- **A written block string reads as a block-string token with its value**, whatever
follows it, when the value is one that a block string can have. -/
theorem lexes_blockLiteral {s : String} (hs : IsBlockValue s) :
    Lexes (fun _ => True) (Text.blockLiteral s).toList [(.blockString, s)] := by
  have hchars := hs.chars
  obtain ⟨raw, -, rfl⟩ := hs
  rw [blockLiteral_toList]
  generalize hcs : (Text.blockStringValue raw).toList = cs at hchars
  refine lexes_token (by decide) (by decide) (by decide) (fun start rest _ => ?_)
  generalize hlead : (if '\n' ∈ cs then ['\n'] else []) = lead
  generalize htrail : (if cs.getLast? = some '"' ∨ cs.getLast? = some '\\' then ['\n'] else []) = trail
  have hleadn : ∀ c ∈ lead, c = '\n' := by
    rw [← hlead]; split <;> simp
  have htrailn : ∀ c ∈ trail, c = '\n' := by
    rw [← htrail]; split <;> simp
  have hsafe : EndsSafely cs (trail ++ ('"' :: '"' :: '"' :: rest)) := by
    rw [← htrail]
    split
    · exact .inl rfl
    · rename_i h
      exact .inr (not_or.1 h)
  rw [List.cons_append, List.cons_append, List.cons_append, scanToken_block, scanBlockString,
    List.drop_succ_cons, List.drop_succ_cons, List.drop_succ_cons, List.drop_zero]
  -- the text scanned is only read for spans from here on
  generalize '"' :: '"' :: '"' :: (lead ++ Text.escapeDelimiters cs ++ trail ++ ['"', '"', '"'] ++ rest) = whole
  have hbody : lead ++ Text.escapeDelimiters cs ++ trail ++ ['"', '"', '"'] ++ rest =
      lead ++ (Text.escapeDelimiters cs ++ (trail ++ ('"' :: '"' :: '"' :: rest))) := by
    simp
  rw [hbody, blockBody_lineFeeds hleadn, blockBody_escapeDelimiters cs _ _ _ hchars hsafe,
    blockBody_lineFeeds htrailn, blockBody_close]
  have hcontent : (trail.reverse ++ (cs.reverse ++ (lead.reverse ++ []))).reverse = lead ++ cs ++ trail := by
    simp
  have hlen : 3 + lead.length + (Text.escapeDelimiters cs).length + trail.length + 3 =
      ('"' :: '"' :: (lead ++ Text.escapeDelimiters cs ++ trail ++ ['"', '"', '"'])).length + 1 := by
    simp only [List.length_append, List.length_cons, List.length_nil]
    omega
  rw [hlen, hcontent, ← hlead, ← htrail, ← hcs, Text.blockStringValue_blockContent]

end Blocks

end Lexer

end Gql
