import Gql.Proofs.Horizon
/-!
# Strings — a quoted string decodes as GraphQL says

The body of a quoted string is a sequence of units, each standing for one character
(`StringUnit`): a tab or any character from U+0020 on other than `"` and `\`, standing for
itself; a backslash and one of `" \ / b f n r t`; `\u` and four hexadecimal digits naming a
code point that is no surrogate; or two such escapes naming a high and a low surrogate, which
stand together for the character they encode.

The scanner reads a string exactly when the text after the opening quote is such units up to
a closing quote.  The token then spans the string with both quotes, and its value is what the
units stand for, in order (`Lexer.scanString_decodes`).  Reading calls this scanner where a
token starts with one `"` that does not open a block string (`Lexer.scanToken_string`).

The proof has two halves: one unit is read as the character it stands for, whatever follows it
(`Lexer.stringBody_unit`), so a body of units is read whole; and whatever the scanner reads
is such a body, by induction along the scanner (`Lexer.stringBody_sound`).
-/
namespace Gql

def stringEscapes : List (Char × Char) :=
  [('"', '"'), ('\\', '\\'), ('/', '/'), ('b', '\x08'), ('f', '\x0c'), ('n', '\n'), ('r', '\r'),
    ('t', '\t')]

/-- A character that stands for itself in a quoted string: a tab, or a character from U+0020
on other than the double quote and the backslash. -/
def IsStringChar (c : Char) : Prop := (c = '\t' ∨ 0x20 ≤ c.toNat) ∧ c ≠ '"' ∧ c ≠ '\\'

def IsHex4 (ds : List Char) (n : Nat) : Prop := ds.length = 4 ∧ Text.hexNumber? ds = some n

/-- One unit of the body of a quoted string, as the characters it is written with, and the
character it stands for. -/
inductive StringUnit : List Char → Char → Prop
  | plain {c : Char} : IsStringChar c → StringUnit [c] c
  | escape {e d : Char} : (e, d) ∈ stringEscapes → StringUnit ['\\', e] d
  | unicode {ds : List Char} {h : Nat} : IsHex4 ds h → ¬ (0xD800 ≤ h ∧ h ≤ 0xDFFF) →
      StringUnit ('\\' :: 'u' :: ds) (Char.ofNat h)
  | pair {hs ls : List Char} {h l : Nat} : IsHex4 hs h → IsHex4 ls l → 0xD800 ≤ h → h ≤ 0xDBFF →
      0xDC00 ≤ l → l ≤ 0xDFFF →
      StringUnit ('\\' :: 'u' :: hs ++ '\\' :: 'u' :: ls) (Char.ofNat (0x10000 + (h - 0xD800) * 0x400 + (l - 0xDC00)))

inductive StringUnits : List Char → List Char → Prop
  | nil : StringUnits [] []
  | cons {raw rest : List Char} {c : Char} {v : List Char} : StringUnit raw c → StringUnits rest v →
      StringUnits (raw ++ rest) (c :: v)

namespace Lexer

section Strings

variable {start : Cursor} {cs : List Char}

theorem simpleEscape?_mem {e d : Char} (h : simpleEscape? e = some d) : (e, d) ∈ stringEscapes := by
  unfold simpleEscape? at h
  split_ifs at h <;> cases h <;> simp_all [stringEscapes]

theorem simpleEscape?_of_mem {e d : Char} (h : (e, d) ∈ stringEscapes) :
    simpleEscape? e = some d ∧ e ≠ '\n' ∧ e ≠ '\r' ∧ e ≠ 'u' := by
  simp only [stringEscapes, List.mem_cons, Prod.mk.injEq, List.not_mem_nil, or_false] at h
  rcases h with ⟨rfl, rfl⟩ | ⟨rfl, rfl⟩ | ⟨rfl, rfl⟩ | ⟨rfl, rfl⟩ | ⟨rfl, rfl⟩ | ⟨rfl, rfl⟩ | ⟨rfl, rfl⟩ |
    ⟨rfl, rfl⟩ <;> decide

theorem isHex4_cons {ds : List Char} {n : Nat} (h : IsHex4 ds n) :
    ∃ a b c d, ds = [a, b, c, d] ∧ Text.hexNumber? [a, b, c, d] = some n := by
  obtain ⟨hl, hn⟩ := h
  match ds, hl with
  | [a, b, c, d], _ => exact ⟨a, b, c, d, rfl, hn⟩

/-- **One unit is read as the character it stands for**, whatever follows it. -/
theorem stringBody_unit {raw : List Char} {c : Char} (hu : StringUnit raw c) (r : List Char) (i : Nat)
    (acc : List Char) : stringBody start cs (raw ++ r) i acc = stringBody start cs r (i + raw.length) (c :: acc) := by
  cases hu with
  | @plain c hc =>
    obtain ⟨htab, hq, hb⟩ := hc
    have hf : isForbiddenInString c = false := by
      rcases htab with rfl | h20
      · decide
      · simp [isForbiddenInString]; omega
    have hbr : c ≠ '\n' ∧ c ≠ '\r' := by
      rcases htab with rfl | h20
      · decide
      · constructor <;> rintro rfl <;> revert h20 <;> decide
    rw [List.singleton_append, stringBody.eq_11 _ _ _ _ _ _ hbr.1 hbr.2 hq (fun h => absurd h hb)
      (fun _ h => absurd h hb) (fun _ h => absurd h hb) (fun _ _ _ _ _ h => absurd h hb)
      (fun _ h => absurd h hb) (fun _ _ h => absurd h hb), hf]
    rfl
  | @escape e d he =>
    obtain ⟨hd, hn, hr, hu⟩ := simpleEscape?_of_mem he
    rw [List.cons_append, List.singleton_append,
      stringBody.eq_10 _ _ _ _ _ _ hn hr (fun _ _ _ _ _ h => absurd h hu) hu, hd]
    rfl
  | @unicode ds h hh hs =>
    obtain ⟨a, b, c', d, rfl, hn⟩ := isHex4_cons hh
    have hhi : isHighSurrogate h = false := by simp [isHighSurrogate]; omega
    have hlo : isLowSurrogate h = false := by simp [isLowSurrogate]; omega
    simp only [List.cons_append, List.nil_append]
    rw [stringBody.eq_8, hn]
    simp only [hhi, hlo, Bool.false_eq_true, if_false]
    rfl
  | @pair hs ls h l hh hl h1 h2 h3 h4 =>
    obtain ⟨a, b, c', d, rfl, hn⟩ := isHex4_cons hh
    obtain ⟨e, f, g, k, rfl, hm⟩ := isHex4_cons hl
    have hhi : isHighSurrogate h = true := by simp [isHighSurrogate]; omega
    have hlo : isLowSurrogate l = true := by simp [isLowSurrogate]; omega
    simp only [List.cons_append, List.nil_append]
    rw [stringBody.eq_8, hn]
    simp only [hhi, hm, hlo, if_true]
    rfl

/-- A body of units up to a closing quote is read whole, as the characters the units stand
for. -/
theorem stringBody_units {body v : List Char} (h : StringUnits body v) (rest : List Char) (i : Nat)
    (acc : List Char) :
    stringBody start cs (body ++ '"' :: rest) i acc =
      Scanned.token start cs .string (String.ofList (acc.reverse ++ v)) (i + body.length + 1) := by
  induction h generalizing i acc with
  | nil => simp [stringBody]
  | @cons raw rest' c v hu _ ih =>
    rw [List.append_assoc, stringBody_unit hu, ih]
    simp [Nat.add_assoc]

/-- **What the scanner reads is a body of units** up to a closing quote. -/
theorem stringBody_sound {r : List Char} {i : Nat} {acc : List Char} {t : Token} {n : Nat} :
    stringBody start cs r i acc = (.ok t, n) → ∃ body v rest, r = body ++ '"' :: rest ∧ StringUnits body v := by
  fun_induction stringBody start cs r i acc
  all_goals intro h
  case case4 rest i acc => exact ⟨[], [], rest, rfl, .nil⟩
  case case9 a b c d i acc hi hab hhi e f g k r lo hef hlo ih =>
    obtain ⟨body, v, rest, rfl, hv⟩ := ih h
    simp only [isHighSurrogate, isLowSurrogate, Bool.and_eq_true, decide_eq_true_eq] at hhi hlo
    exact ⟨_, _, rest, by simp, .cons (.pair ⟨rfl, hab⟩ ⟨rfl, hef⟩ hhi.1 hhi.2 hlo.1 hlo.2) hv⟩
  case case14 a b c d r i acc hi hab hhi hlo ih =>
    obtain ⟨body, v, rest, rfl, hv⟩ := ih h
    have hs : ¬ (0xD800 ≤ hi ∧ hi ≤ 0xDFFF) := by
      simp only [isHighSurrogate, isLowSurrogate] at hhi hlo
      simp only [Bool.and_eq_true, decide_eq_true_eq] at hhi hlo
      omega
    exact ⟨_, _, rest, by simp, .cons (.unicode ⟨rfl, hab⟩ hs) hv⟩
  case case16 e r i acc hn hr' hu hu' d hd ih =>
    obtain ⟨body, v, rest, rfl, hv⟩ := ih h
    exact ⟨_, _, rest, by simp, .cons (.escape (simpleEscape?_mem hd)) hv⟩
  case case19 c r i acc hn hr' hq h1 h2 h3 h4 h5 h6 hf ih =>
    obtain ⟨body, v, rest, rfl, hv⟩ := ih h
    have hcb : c ≠ '\\' := by
      rintro rfl
      cases hb : body ++ '"' :: rest with
      | nil => simp at hb
      | cons e r1 => exact h6 e r1 rfl hb
    have hc : IsStringChar c := by
      refine ⟨?_, hq, hcb⟩
      by_cases ht : c = '\t'
      · exact .inl ht
      · have h20 : ¬ c.toNat < 0x20 := fun hlt => by simp [isForbiddenInString, hlt, ht] at hf
        exact .inr (by omega)
    exact ⟨c :: body, c :: v, rest, rfl, .cons (.plain hc) hv⟩
  all_goals simp [Scanned.fault, badUnicodeEscape, loneSurrogate] at h

/-- **A quoted string decodes as GraphQL says.**  The scanner reads a string exactly when the
text after the opening quote is units up to a closing quote; the token then spans the string
with both quotes, and its value is what the units stand for.  Any other string is a fault. -/
theorem scanString_decodes (start : Cursor) (r : List Char) :
    ((∃ t, (scanString start ('"' :: r)).1 = .ok t) ↔
      ∃ body v rest, r = body ++ '"' :: rest ∧ StringUnits body v) ∧
    ∀ body v rest, r = body ++ '"' :: rest → StringUnits body v →
      scanString start ('"' :: r) = Scanned.token start ('"' :: r) .string (String.ofList v) (body.length + 2) := by
  have hread : ∀ body v rest, r = body ++ '"' :: rest → StringUnits body v →
      scanString start ('"' :: r) = Scanned.token start ('"' :: r) .string (String.ofList v) (body.length + 2) := by
    rintro body v rest rfl hv
    rw [scanString, List.drop_one, List.tail_cons, stringBody_units hv]
    simp [Nat.add_assoc, Nat.add_comm 1]
  refine ⟨⟨?_, ?_⟩, hread⟩
  · rintro ⟨t, ht⟩
    rw [scanString, List.drop_one, List.tail_cons] at ht
    exact stringBody_sound (Prod.ext ht rfl)
  · rintro ⟨body, v, rest, hr, hv⟩
    exact ⟨_, by rw [hread body v rest hr hv]; rfl⟩

end Strings

end Lexer

end Gql
