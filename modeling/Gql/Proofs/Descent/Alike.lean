import Mathlib.Tactic.SplitIfs
import Gql.Proofs.Lexemes
/-!
# Alike — the reader sees kinds and values, and reports a fault where it stands

Two lists of tokens with the same kinds and values, ended alike, read alike: every rule
gives the same node from both and leaves aligned tokens behind, or fails on both with the
same message and kind of fault.  The spans never steer the reader; they only say where a
fault lies, and a fault of either reading lies at the paired place of the other.

The places of a reading are the spans of its tokens and then of its end.  Two aligned lists
pair their places off from the back, inside a fixed list `P` of pairs; since a rule only
ever goes forward, what is left after a step pairs off inside the same `P`, and a fault
found at any later step lies at a pair of `P` (`Twin.place`).  With one list on both sides
this says where a fault can lie at all: at one of the tokens read or at the end.

The proofs follow each rule step by step: `Alike.bind` carries a step that both readings
take alike into the rest of the rule.
-/
namespace Gql

def Stop.span : Stop → Span
  | .eof t => t.span
  | .fault e => e.span

/-- Two ends of readings that no rule tells apart: end tokens of one kind and value, or
one lexical fault. -/
def Stop.Alike : Stop → Stop → Prop
  | .eof t, .eof t' => t.kind = t'.kind ∧ t.value = t'.value
  | .fault e, .fault e' => e.fault = e'.fault
  | _, _ => False

namespace Syntax

/-- The spans a reading of `ts` may report a fault at, in order: its tokens', then its
end's. -/
def places (stop : Stop) (ts : List Token) : List Span := ts.map Token.span ++ [stop.span]

section Alike

variable (stop stop' : Stop) (P : List (Span × Span))

/-- Two readings at the same point: their tokens have the same kinds and values, and their
places pair off inside `P`. -/
structure Aligned (ts ts' : List Token) : Prop where
  lexemes : ts.map Token.lexeme = ts'.map Token.lexeme
  paired : ((places stop ts).zip (places stop' ts')) <:+ P

structure TwinToken (t t' : Token) : Prop where
  kind : t.kind = t'.kind
  value : t.value = t'.value
  place : (t.span, t'.span) ∈ P

structure Twin (e e' : Diagnostic) : Prop where
  message : e.message = e'.message
  fault : e.fault = e'.fault
  place : (e.span, e'.span) ∈ P

/-- Two outcomes alike: both results, related by `R`, or both faults, twins. -/
def Alike {α α' : Type} (R : α → α' → Prop) : Except Diagnostic α → Except Diagnostic α' → Prop
  | .ok a, .ok a' => R a a'
  | .error e, .error e' => Twin P e e'
  | _, _ => False

/-- Two reads alike: nodes related by `R`, and aligned tokens left after them. -/
def Reads {α α' : Type} {p p' : List Token → Prop} (R : α → α' → Prop) (x : α × Subtype p)
    (x' : α' × Subtype p') : Prop :=
  R x.1 x'.1 ∧ Aligned stop stop' P x.2.1 x'.2.1

variable {stop stop' P}

/-! ### Aligned readings -/

namespace Aligned

variable {ts ts' : List Token}

theorem nil_left (h : Aligned stop stop' P [] ts') : ts' = [] :=
  List.map_eq_nil_iff.1 (h.lexemes.symm.trans (List.map_nil))

theorem stop_place (h : Aligned stop stop' P [] []) : (stop.span, stop'.span) ∈ P :=
  h.paired.subset (by simp [places])

theorem cons_left {t : Token} {r : List Token} (h : Aligned stop stop' P (t :: r) ts') :
    ∃ t' r', ts' = t' :: r' ∧ TwinToken P t t' ∧ Aligned stop stop' P r r' := by
  obtain ⟨hl, hp⟩ := h
  cases ts' with
  | nil => simp at hl
  | cons t' r' =>
    simp only [List.map_cons, List.cons.injEq, Token.lexeme, Prod.mk.injEq] at hl
    simp only [places, List.map_cons, List.cons_append, List.zip_cons_cons] at hp
    exact ⟨t', r', rfl, ⟨hl.1.1, hl.1.2, hp.subset List.mem_cons_self⟩,
      ⟨hl.2, (List.suffix_cons _ _).trans hp⟩⟩

end Aligned

/-! ### Outcomes alike -/

namespace Alike

variable {α α' β β' : Type} {R : α → α' → Prop} {S : β → β' → Prop}

theorem bind {x : Except Diagnostic α} {x' : Except Diagnostic α'} {f : α → Except Diagnostic β}
    {f' : α' → Except Diagnostic β'} (hx : Alike P R x x') (hf : ∀ a a', R a a' → Alike P S (f a) (f' a')) :
    Alike P S (x >>= f) (x' >>= f') := by
  cases x <;> cases x' <;> first | exact hx.elim | exact hx | exact hf _ _ hx

theorem map {x : Except Diagnostic α} {x' : Except Diagnostic α'} {f : α → β} {f' : α' → β'}
    (hx : Alike P R x x') (hf : ∀ a a', R a a' → S (f a) (f' a')) : Alike P S (x.map f) (x'.map f') := by
  cases x <;> cases x' <;> first | exact hx.elim | exact hx | exact hf _ _ hx

end Alike

/-! ### Faults built alike -/

namespace TwinToken

variable {t t' : Token}

/-- Diagnostics made from twin tokens by rules that read only the kind and value and place
the fault at the token are twins. -/
theorem twin (h : TwinToken P t t') (mk mk' : Token → Diagnostic)
    (hmk : ∀ k v s s', (mk ⟨k, v, s⟩).message = (mk' ⟨k, v, s'⟩).message ∧
      (mk ⟨k, v, s⟩).fault = (mk' ⟨k, v, s'⟩).fault ∧ (mk ⟨k, v, s⟩).span = s ∧ (mk' ⟨k, v, s'⟩).span = s') :
    Twin P (mk t) (mk' t') := by
  obtain ⟨k, v, s⟩ := t
  obtain ⟨k', v', s'⟩ := t'
  obtain ⟨hk, hv, hp⟩ := h
  simp only at hk hv hp
  subst hk hv
  obtain ⟨hm, hf, hsp, hsp'⟩ := hmk k v s s'
  exact ⟨hm, hf, by rw [hsp, hsp']; exact hp⟩

theorem describe (h : TwinToken P t t') : t.describe = t'.describe := by
  simp only [Token.describe, h.kind, h.value]

theorem isKeyword (h : TwinToken P t t') (w : String) : t.isKeyword w = t'.isKeyword w := by
  simp only [Token.isKeyword, h.kind, h.value]

theorem unexpected (h : TwinToken P t t') (expected : List String) :
    Twin P (.unexpected t expected) (.unexpected t' expected) :=
  h.twin (Diagnostic.unexpected · expected) (Diagnostic.unexpected · expected) fun _ _ _ _ => ⟨rfl, rfl, rfl, rfl⟩

end TwinToken

theorem end_cases (hs : stop.Alike stop') (hp : (stop.span, stop'.span) ∈ P) :
    (∃ u u', stop = .eof u ∧ stop' = .eof u' ∧ TwinToken P u u') ∨
      ∃ e e', stop = .fault e ∧ stop' = .fault e' ∧ Twin P (.ofLex e) (.ofLex e') := by
  cases stop <;> cases stop' <;> simp only [Stop.Alike] at hs
  case eof.eof u u' => exact .inl ⟨u, u', rfl, rfl, hs.1, hs.2, hp⟩
  case fault.fault e e' =>
    exact .inr ⟨e, e', rfl, rfl, by simp [Diagnostic.ofLex, LexError.message, hs], by simp [Diagnostic.ofLex, hs], hp⟩

/-! ### One-token steps -/

section Steps

variable {ts ts' : List Token} (hs : stop.Alike stop')
include hs

theorem atEnd_twin (h : Aligned stop stop' P [] []) (expected : List String) :
    Twin P (atEnd stop expected) (atEnd stop' expected) := by
  rcases end_cases hs h.stop_place with ⟨u, u', rfl, rfl, hu⟩ | ⟨e, e', rfl, rfl, he⟩
  · exact hu.unexpected expected
  · exact he

theorem unclosedAtEnd_twin (h : Aligned stop stop' P [] []) (o o' : Token) (close : TokenKind) :
    Twin P (unclosedAtEnd stop o close) (unclosedAtEnd stop' o' close) := by
  rcases end_cases hs h.stop_place with ⟨u, u', rfl, rfl, hu⟩ | ⟨e, e', rfl, rfl, he⟩
  · exact hu.twin (Diagnostic.unclosed o close) (Diagnostic.unclosed o' close) fun _ _ _ _ => ⟨rfl, rfl, rfl, rfl⟩
  · exact he

theorem peek_alike (h : Aligned stop stop' P ts ts') : Alike P (TwinToken P) (peek stop ts) (peek stop' ts') := by
  cases ts with
  | nil =>
    obtain rfl := h.nil_left
    rcases end_cases hs h.stop_place with ⟨u, u', rfl, rfl, hu⟩ | ⟨e, e', rfl, rfl, he⟩
    · exact hu
    · exact he
  | cons t r =>
    obtain ⟨t', r', rfl, ht, -⟩ := h.cons_left
    exact ht

theorem tooDeepAt_twin (h : Aligned stop stop' P ts ts') (limit : Nat) :
    Twin P (tooDeepAt stop limit ts) (tooDeepAt stop' limit ts') := by
  have hp := peek_alike hs h
  unfold tooDeepAt
  revert hp
  cases peek stop ts <;> cases peek stop' ts' <;> intro hp
  case error.error => exact hp
  case ok.ok u u' => exact hp.twin (Diagnostic.tooDeep limit) (Diagnostic.tooDeep limit) fun _ _ _ _ => ⟨rfl, rfl, rfl, rfl⟩
  all_goals exact hp.elim

theorem nextIs_alike (h : Aligned stop stop' P ts ts') (k : TokenKind) :
    Alike P Eq (nextIs stop k ts) (nextIs stop' k ts') :=
  Alike.map (peek_alike hs h) fun _ _ ht => by simp only [ht.kind]

theorem expect_alike (h : Aligned stop stop' P ts ts') (k : TokenKind) :
    Alike P (Reads stop stop' P (TwinToken P)) (expect stop k ts) (expect stop' k ts') := by
  cases ts with
  | nil =>
    obtain rfl := h.nil_left
    exact atEnd_twin hs h _
  | cons t r =>
    obtain ⟨t', r', rfl, ht, hr⟩ := h.cons_left
    simp only [expect, ← ht.kind]
    split_ifs
    · exact ⟨ht, hr⟩
    · exact ht.unexpected _

theorem expectName_alike (h : Aligned stop stop' P ts ts') :
    Alike P (Reads stop stop' P (TwinToken P)) (expectName stop ts) (expectName stop' ts') := by
  cases ts with
  | nil =>
    obtain rfl := h.nil_left
    exact atEnd_twin hs h _
  | cons t r =>
    obtain ⟨t', r', rfl, ht, hr⟩ := h.cons_left
    simp only [expectName, ← ht.kind]
    split_ifs
    · exact ⟨ht, hr⟩
    · exact ht.unexpected _

theorem expectKeyword_alike (h : Aligned stop stop' P ts ts') (w : String) :
    Alike P (Reads stop stop' P (TwinToken P)) (expectKeyword stop w ts) (expectKeyword stop' w ts') := by
  cases ts with
  | nil =>
    obtain rfl := h.nil_left
    exact atEnd_twin hs h _
  | cons t r =>
    obtain ⟨t', r', rfl, ht, hr⟩ := h.cons_left
    simp only [expectKeyword, ← ht.isKeyword]
    split_ifs
    · exact ⟨ht, hr⟩
    · exact ht.unexpected _

/-- A test that reads only kinds and values takes the next token from both readings or from
neither. -/
theorem accept_alike (h : Aligned stop stop' P ts ts') {p : Token → Bool}
    (hp : ∀ {t t'}, TwinToken P t t' → p t = p t') :
    Alike P (Option.Rel fun r r' => Aligned stop stop' P r.1 r'.1) (accept stop p ts) (accept stop' p ts') := by
  cases ts with
  | nil =>
    obtain rfl := h.nil_left
    rcases end_cases hs h.stop_place with ⟨u, u', rfl, rfl, hu⟩ | ⟨e, e', rfl, rfl, he⟩
    · exact Option.Rel.none
    · exact he
  | cons t r =>
    obtain ⟨t', r', rfl, ht, hr⟩ := h.cons_left
    simp only [accept, ← hp ht]
    split
    · exact Option.Rel.some hr
    · exact Option.Rel.none

omit hs in
theorem nonEmpty_alike (h : Aligned stop stop' P ts ts') (close : TokenKind) (item construct : String) :
    Alike P Eq (nonEmpty close item construct ts) (nonEmpty close item construct ts') := by
  cases ts with
  | nil =>
    obtain rfl := h.nil_left
    rfl
  | cons t r =>
    obtain ⟨t', r', rfl, ht, -⟩ := h.cons_left
    simp only [nonEmpty, ← ht.kind]
    split_ifs
    · exact ht.twin (Diagnostic.empty item construct) (Diagnostic.empty item construct)
        fun _ _ _ _ => ⟨rfl, rfl, rfl, rfl⟩
    · rfl

theorem fragmentName_alike (h : Aligned stop stop' P ts ts') :
    Alike P (Reads stop stop' P Eq) (fragmentName stop ts) (fragmentName stop' ts') := by
  refine Alike.bind (expectName_alike hs h) ?_
  rintro ⟨n, r, hr⟩ ⟨n', r', hr'⟩ ⟨hn, ha⟩
  dsimp only
  rw [← hn.isKeyword]
  split
  · exact hn.twin Diagnostic.reservedOn Diagnostic.reservedOn fun _ _ _ _ => ⟨rfl, rfl, rfl, rfl⟩
  · exact ⟨hn.value, ha⟩

end Steps

/-! ### Bracketed lists -/

section Lists

variable {α : Type} {close : TokenKind} {item item' : (ts : List Token) → Except Diagnostic (Taken ts α)}
  (hs : stop.Alike stop') (hitem : ∀ {us us'}, Aligned stop stop' P us us' →
    Alike P (Reads stop stop' P Eq) (item us) (item' us'))
include hs hitem

theorem itemsUntil_alike {o o' : Token} :
    ∀ {ts ts' : List Token}, Aligned stop stop' P ts ts' →
      Alike P (Reads stop stop' P Eq) (itemsUntil stop close o item ts) (itemsUntil stop' close o' item' ts')
  | [], ts', h => by
    obtain rfl := h.nil_left
    rw [itemsUntil, itemsUntil]
    exact unclosedAtEnd_twin hs h o o' close
  | t :: r, ts', h => by
    obtain ⟨t', r', rfl, ht, hr⟩ := h.cons_left
    rw [itemsUntil, itemsUntil, ← ht.kind]
    split_ifs
    · exact ⟨rfl, hr⟩
    · exact ht.twin (Diagnostic.unclosed o close) (Diagnostic.unclosed o' close) fun _ _ _ _ => ⟨rfl, rfl, rfl, rfl⟩
    · refine Alike.bind (hitem h) ?_
      rintro ⟨x, r1, h1⟩ ⟨x', r1', h1'⟩ ⟨rfl, ha⟩
      refine Alike.bind (itemsUntil_alike ha) ?_
      rintro ⟨xs, r2, h2⟩ ⟨xs', r2', h2'⟩ ⟨rfl, hb⟩
      exact ⟨rfl, hb⟩
termination_by ts => ts.length
decreasing_by all_goals decreasing_with grind

theorem nonEmptyList_alike {ts ts' : List Token} (h : Aligned stop stop' P ts ts') (openKind : TokenKind)
    (itemWord construct : String) :
    Alike P (Reads stop stop' P Eq) (nonEmptyList stop openKind close itemWord construct item ts)
      (nonEmptyList stop' openKind close itemWord construct item' ts') := by
  refine Alike.bind (expect_alike hs h openKind) ?_
  rintro ⟨o, r1, h1⟩ ⟨o', r1', h1'⟩ ⟨-, ha⟩
  refine Alike.bind (nonEmpty_alike ha close itemWord construct) ?_
  rintro ⟨⟩ ⟨⟩ -
  refine Alike.bind (itemsUntil_alike hs hitem ha) ?_
  rintro ⟨xs, r2, h2⟩ ⟨xs', r2', h2'⟩ ⟨rfl, hb⟩
  exact ⟨rfl, hb⟩

end Lists

/-! ### Values -/

section Rules

variable {limit : Nat} (hs : stop.Alike stop')
include hs

mutual

theorem value_alike {ctx d} : ∀ {ts ts' : List Token}, Aligned stop stop' P ts ts' →
    Alike P (Reads stop stop' P Eq) (value stop limit ctx d ts) (value stop' limit ctx d ts')
  | [], ts', h => by
    obtain rfl := h.nil_left
    rw [value, value]
    split_ifs
    · exact tooDeepAt_twin hs h limit
    · exact atEnd_twin hs h _
  | t :: r, ts', h => by
    obtain ⟨t', r', rfl, ht, hr⟩ := h.cons_left
    rw [value, value]
    by_cases hd : limit ≤ d
    · rw [dif_pos hd, dif_pos hd]
      exact tooDeepAt_twin hs h limit
    rw [dif_neg hd, dif_neg hd, ← ht.kind]
    cases hk : t.kind
    all_goals dsimp only
    case bracketL =>
      refine Alike.bind (listItems_alike ht hr) ?_
      rintro ⟨items, r1, h1⟩ ⟨items', r1', h1'⟩ ⟨rfl, ha⟩
      exact ⟨rfl, ha⟩
    case braceL =>
      refine Alike.bind (objectFields_alike ht hr) ?_
      rintro ⟨fields, r1, h1⟩ ⟨fields', r1', h1'⟩ ⟨rfl, ha⟩
      exact ⟨rfl, ha⟩
    case dollar =>
      split
      · exact ht.twin (Diagnostic.variableForbidden · _) (Diagnostic.variableForbidden · _)
          fun _ _ _ _ => ⟨rfl, rfl, rfl, rfl⟩
      · refine Alike.bind (expectName_alike hs hr) ?_
        rintro ⟨n, r1, h1⟩ ⟨n', r1', h1'⟩ ⟨hn, ha⟩
        exact ⟨by rw [hn.value], ha⟩
    all_goals first
      | exact ⟨by rw [ht.value], hr⟩
      | exact ht.unexpected _
termination_by ts => (ts.length, 0)
decreasing_by all_goals decreasing_with omega

theorem listItems_alike {ctx d} {o o' : Token} (ho : TwinToken P o o') : ∀ {ts ts' : List Token},
    Aligned stop stop' P ts ts' →
    Alike P (Reads stop stop' P Eq) (listItems stop limit ctx d o ts) (listItems stop' limit ctx d o' ts')
  | [], ts', h => by
    obtain rfl := h.nil_left
    rw [listItems, listItems]
    exact unclosedAtEnd_twin hs h o o' _
  | t :: r, ts', h => by
    obtain ⟨t', r', rfl, ht, hr⟩ := h.cons_left
    rw [listItems, listItems, ← ht.kind]
    split_ifs
    · exact ⟨rfl, hr⟩
    · exact ht.twin (Diagnostic.unclosed o _) (Diagnostic.unclosed o' _) fun _ _ _ _ => ⟨rfl, rfl, rfl, rfl⟩
    · refine Alike.bind (value_alike h) ?_
      rintro ⟨v, r1, h1⟩ ⟨v', r1', h1'⟩ ⟨rfl, ha⟩
      refine Alike.bind (listItems_alike ho ha) ?_
      rintro ⟨vs, r2, h2⟩ ⟨vs', r2', h2'⟩ ⟨rfl, hb⟩
      exact ⟨rfl, hb⟩
termination_by ts => (ts.length, 1)
decreasing_by all_goals decreasing_with omega

theorem objectFields_alike {ctx d} {o o' : Token} (ho : TwinToken P o o') : ∀ {ts ts' : List Token},
    Aligned stop stop' P ts ts' →
    Alike P (Reads stop stop' P Eq) (objectFields stop limit ctx d o ts) (objectFields stop' limit ctx d o' ts')
  | [], ts', h => by
    obtain rfl := h.nil_left
    rw [objectFields, objectFields]
    exact unclosedAtEnd_twin hs h o o' _
  | t :: r, ts', h => by
    obtain ⟨t', r', rfl, ht, hr⟩ := h.cons_left
    rw [objectFields, objectFields, ← ht.kind]
    split_ifs
    · exact ⟨rfl, hr⟩
    · exact ht.twin (Diagnostic.unclosed o _) (Diagnostic.unclosed o' _) fun _ _ _ _ => ⟨rfl, rfl, rfl, rfl⟩
    · refine Alike.bind (expectName_alike hs h) ?_
      rintro ⟨n, r1, h1⟩ ⟨n', r1', h1'⟩ ⟨hn, ha⟩
      refine Alike.bind (expect_alike hs ha .colon) ?_
      rintro ⟨c, r2, h2⟩ ⟨c', r2', h2'⟩ ⟨-, hb⟩
      refine Alike.bind (value_alike hb) ?_
      rintro ⟨v, r3, h3⟩ ⟨v', r3', h3'⟩ ⟨rfl, hc⟩
      refine Alike.bind (objectFields_alike ho hc) ?_
      rintro ⟨fs, r4, h4⟩ ⟨fs', r4', h4'⟩ ⟨rfl, hd⟩
      exact ⟨by rw [hn.value], hd⟩
termination_by ts => (ts.length, 1)
decreasing_by all_goals decreasing_with grind

end

/-! ### Arguments, directives and types -/

theorem typeRef_alike {d} : ∀ {ts ts' : List Token}, Aligned stop stop' P ts ts' →
    Alike P (Reads stop stop' P Eq) (typeRef stop limit d ts) (typeRef stop' limit d ts')
  | ts, ts', h => by
    unfold typeRef
    by_cases hd : limit ≤ d
    · rw [dif_pos hd, dif_pos hd]
      exact tooDeepAt_twin hs h limit
    rw [dif_neg hd, dif_neg hd]
    dsimp only
    refine Alike.bind (R := Reads stop stop' P Eq) ?_ ?_
    · cases ts with
      | nil =>
        obtain rfl := h.nil_left
        exact atEnd_twin hs h _
      | cons t r =>
        obtain ⟨t', r', rfl, ht, hr⟩ := h.cons_left
        dsimp only
        rw [← ht.kind]
        split
        · exact ⟨by rw [ht.value], hr⟩
        · refine Alike.bind (typeRef_alike hr) ?_
          rintro ⟨e, r1, h1⟩ ⟨e', r1', h1'⟩ ⟨rfl, ha⟩
          refine Alike.bind (expect_alike hs ha .bracketR) ?_
          rintro ⟨c, r2, h2⟩ ⟨c', r2', h2'⟩ ⟨-, hb⟩
          exact ⟨rfl, hb⟩
        · exact ht.unexpected _
    · rintro ⟨ty, r1, h1⟩ ⟨ty', r1', h1'⟩ ⟨rfl, ha⟩
      refine Alike.bind (accept_alike hs ha fun ht => by rw [ht.kind]) ?_
      rintro o o' ho
      cases ho with
      | none => exact ⟨rfl, ha⟩
      | some hb => exact ⟨rfl, hb⟩
termination_by ts => ts.length
decreasing_by all_goals decreasing_with grind

theorem argument_alike {ctx d} {ts ts' : List Token} (h : Aligned stop stop' P ts ts') :
    Alike P (Reads stop stop' P Eq) (argument stop limit ctx d ts) (argument stop' limit ctx d ts') := by
  refine Alike.bind (expectName_alike hs h) ?_
  rintro ⟨n, r1, h1⟩ ⟨n', r1', h1'⟩ ⟨hn, ha⟩
  refine Alike.bind (expect_alike hs ha .colon) ?_
  rintro ⟨c, r2, h2⟩ ⟨c', r2', h2'⟩ ⟨-, hb⟩
  refine Alike.bind (value_alike hs hb) ?_
  rintro ⟨v, r3, h3⟩ ⟨v', r3', h3'⟩ ⟨rfl, hc⟩
  exact ⟨by rw [hn.value], hc⟩

theorem arguments_alike {ctx d} {ts ts' : List Token} (h : Aligned stop stop' P ts ts') :
    Alike P (Reads stop stop' P Eq) (arguments stop limit ctx d ts) (arguments stop' limit ctx d ts') := by
  refine Alike.bind (nextIs_alike hs h .parenL) ?_
  rintro b b' rfl
  cases b
  · exact ⟨rfl, h⟩
  · refine Alike.bind (nonEmptyList_alike hs (fun h => argument_alike hs h) h .parenL _ _) ?_
    rintro ⟨args, r, hr⟩ ⟨args', r', hr'⟩ ⟨rfl, ha⟩
    exact ⟨rfl, ha⟩

theorem directives_alike {ctx d} : ∀ {ts ts' : List Token}, Aligned stop stop' P ts ts' →
    Alike P (Reads stop stop' P Eq) (directives stop limit ctx d ts) (directives stop' limit ctx d ts')
  | ts, ts', h => by
    rw [directives, directives]
    refine Alike.bind (accept_alike hs h fun ht => by rw [ht.kind]) ?_
    rintro o o' ho
    cases ho with
    | none => exact ⟨rfl, h⟩
    | @some r1 r1' ha =>
      obtain ⟨r1, h1⟩ := r1
      refine Alike.bind (expectName_alike hs ha) ?_
      rintro ⟨n, r2, h2⟩ ⟨n', r2', h2'⟩ ⟨hn, hb⟩
      refine Alike.bind (arguments_alike hs hb) ?_
      rintro ⟨args, r3, h3⟩ ⟨args', r3', h3'⟩ ⟨rfl, hc⟩
      refine Alike.bind (directives_alike hc) ?_
      rintro ⟨ds, r4, h4⟩ ⟨ds', r4', h4'⟩ ⟨rfl, hd⟩
      exact ⟨by rw [hn.value], hd⟩
termination_by ts => ts.length
decreasing_by all_goals decreasing_with omega

theorem typeCondition_alike {ts ts' : List Token} (h : Aligned stop stop' P ts ts') :
    Alike P (Reads stop stop' P Eq) (typeCondition stop ts) (typeCondition stop' ts') := by
  refine Alike.bind (accept_alike hs h fun ht => ht.isKeyword "on") ?_
  rintro o o' ho
  cases ho with
  | none => exact ⟨rfl, h⟩
  | some ha =>
    refine Alike.bind (expectName_alike hs ha) ?_
    rintro ⟨n, r2, h2⟩ ⟨n', r2', h2'⟩ ⟨hn, hb⟩
    exact ⟨by rw [hn.value], hb⟩

theorem fieldName_alike {first first' : Token} (hf : first.value = first'.value) {ts ts' : List Token}
    (h : Aligned stop stop' P ts ts') :
    Alike P (Reads stop stop' P Eq) (fieldName stop first ts) (fieldName stop' first' ts') := by
  refine Alike.bind (accept_alike hs h fun ht => by rw [ht.kind]) ?_
  rintro o o' ho
  cases ho with
  | none => exact ⟨hf, h⟩
  | some ha =>
    refine Alike.bind (expectName_alike hs ha) ?_
    rintro ⟨n, r2, h2⟩ ⟨n', r2', h2'⟩ ⟨hn, hb⟩
    exact ⟨hn.value, hb⟩

/-! ### Selections -/

mutual

theorem selectionSet_alike {d} {ts ts' : List Token} (h : Aligned stop stop' P ts ts') :
    Alike P (Reads stop stop' P Eq) (selectionSet stop limit d ts) (selectionSet stop' limit d ts') := by
  rw [selectionSet, selectionSet]
  by_cases hd : limit ≤ d
  · rw [dif_pos hd, dif_pos hd]
    exact tooDeepAt_twin hs h limit
  rw [dif_neg hd, dif_neg hd]
  refine Alike.bind (expect_alike hs h .braceL) ?_
  rintro ⟨o, r1, h1⟩ ⟨o', r1', h1'⟩ ⟨ho, ha⟩
  refine Alike.bind (nonEmpty_alike ha .braceR _ _) ?_
  rintro ⟨⟩ ⟨⟩ -
  refine Alike.bind (selections_alike ho ha) ?_
  rintro ⟨sels, r2, h2⟩ ⟨sels', r2', h2'⟩ ⟨rfl, hb⟩
  exact ⟨rfl, hb⟩
termination_by (ts.length, 2)
decreasing_by all_goals decreasing_with omega

theorem subselection_alike {d} {ts ts' : List Token} (h : Aligned stop stop' P ts ts') :
    Alike P (Reads stop stop' P Eq) (subselection stop limit d ts) (subselection stop' limit d ts') := by
  rw [subselection, subselection]
  refine Alike.bind (nextIs_alike hs h .braceL) ?_
  rintro b b' rfl
  cases b
  · exact ⟨rfl, h⟩
  · refine Alike.bind (selectionSet_alike h) ?_
    rintro ⟨sels, r, hr⟩ ⟨sels', r', hr'⟩ ⟨rfl, ha⟩
    exact ⟨rfl, ha⟩
termination_by (ts.length, 3)
decreasing_by all_goals decreasing_with omega

theorem selections_alike {d} {o o' : Token} (ho : TwinToken P o o') : ∀ {ts ts' : List Token},
    Aligned stop stop' P ts ts' →
    Alike P (Reads stop stop' P Eq) (selections stop limit d o ts) (selections stop' limit d o' ts')
  | [], ts', h => by
    obtain rfl := h.nil_left
    rw [selections, selections]
    exact unclosedAtEnd_twin hs h o o' _
  | t :: r, ts', h => by
    obtain ⟨t', r', rfl, ht, hr⟩ := h.cons_left
    rw [selections, selections, ← ht.kind]
    split_ifs
    · exact ⟨rfl, hr⟩
    · exact ht.twin (Diagnostic.unclosed o _) (Diagnostic.unclosed o' _) fun _ _ _ _ => ⟨rfl, rfl, rfl, rfl⟩
    · refine Alike.bind (selection_alike h) ?_
      rintro ⟨x, r1, h1⟩ ⟨x', r1', h1'⟩ ⟨rfl, ha⟩
      refine Alike.bind (selections_alike ho ha) ?_
      rintro ⟨xs, r2, h2⟩ ⟨xs', r2', h2'⟩ ⟨rfl, hb⟩
      exact ⟨rfl, hb⟩
termination_by ts => (ts.length, 1)
decreasing_by all_goals decreasing_with omega

theorem selection_alike {d} {ts ts' : List Token} (h : Aligned stop stop' P ts ts') :
    Alike P (Reads stop stop' P Eq) (selection stop limit d ts) (selection stop' limit d ts') := by
  rw [selection, selection]
  refine Alike.bind (accept_alike hs h fun ht => by rw [ht.kind]) ?_
  rintro o o' ho
  cases ho with
  | @some r1 r1' ha =>
    obtain ⟨r1, h1⟩ := r1
    refine Alike.bind (peek_alike hs ha) ?_
    rintro u u' hu
    dsimp only
    rw [← hu.isKeyword, ← hu.kind]
    split
    · refine Alike.bind (typeCondition_alike hs ha) ?_
      rintro ⟨c, r2, h2⟩ ⟨c', r2', h2'⟩ ⟨rfl, hb⟩
      refine Alike.bind (directives_alike hs hb) ?_
      rintro ⟨ds, r3, h3⟩ ⟨ds', r3', h3'⟩ ⟨rfl, hc⟩
      refine Alike.bind (selectionSet_alike hc) ?_
      rintro ⟨ss, r4, h4⟩ ⟨ss', r4', h4'⟩ ⟨rfl, he⟩
      exact ⟨rfl, he⟩
    · refine Alike.bind (fragmentName_alike hs ha) ?_
      rintro ⟨n, r2, h2⟩ ⟨n', r2', h2'⟩ ⟨rfl, hb⟩
      refine Alike.bind (directives_alike hs hb) ?_
      rintro ⟨ds, r3, h3⟩ ⟨ds', r3', h3'⟩ ⟨rfl, hc⟩
      exact ⟨rfl, hc⟩
  | none =>
    refine Alike.bind (expectName_alike hs h) ?_
    rintro ⟨f, r1, h1⟩ ⟨f', r1', h1'⟩ ⟨hf, ha⟩
    refine Alike.bind (fieldName_alike hs hf.value ha) ?_
    rintro ⟨n, r2, h2⟩ ⟨n', r2', h2'⟩ ⟨rfl, hb⟩
    refine Alike.bind (arguments_alike hs hb) ?_
    rintro ⟨args, r3, h3⟩ ⟨args', r3', h3'⟩ ⟨rfl, hc⟩
    refine Alike.bind (directives_alike hs hc) ?_
    rintro ⟨ds, r4, h4⟩ ⟨ds', r4', h4'⟩ ⟨rfl, he⟩
    refine Alike.bind (subselection_alike he) ?_
    rintro ⟨sub, r5, h5⟩ ⟨sub', r5', h5'⟩ ⟨rfl, hg⟩
    exact ⟨by rw [hf.value], hg⟩
termination_by (ts.length, 0)
decreasing_by all_goals decreasing_with grind

end

/-! ### Definitions -/

theorem defaultValue_alike {ts ts' : List Token} (h : Aligned stop stop' P ts ts') :
    Alike P (Reads stop stop' P Eq) (defaultValue stop limit ts) (defaultValue stop' limit ts') := by
  refine Alike.bind (accept_alike hs h fun ht => by rw [ht.kind]) ?_
  rintro o o' ho
  cases ho with
  | none => exact ⟨rfl, h⟩
  | some ha =>
    refine Alike.bind (value_alike hs ha) ?_
    rintro ⟨v, r2, h2⟩ ⟨v', r2', h2'⟩ ⟨rfl, hb⟩
    exact ⟨rfl, hb⟩

theorem variableDefinition_alike {ts ts' : List Token} (h : Aligned stop stop' P ts ts') :
    Alike P (Reads stop stop' P Eq) (variableDefinition stop limit ts) (variableDefinition stop' limit ts') := by
  refine Alike.bind (expect_alike hs h .dollar) ?_
  rintro ⟨x, r1, h1⟩ ⟨x', r1', h1'⟩ ⟨-, ha⟩
  refine Alike.bind (expectName_alike hs ha) ?_
  rintro ⟨n, r2, h2⟩ ⟨n', r2', h2'⟩ ⟨hn, hb⟩
  refine Alike.bind (expect_alike hs hb .colon) ?_
  rintro ⟨c, r3, h3⟩ ⟨c', r3', h3'⟩ ⟨-, hc⟩
  refine Alike.bind (typeRef_alike hs hc) ?_
  rintro ⟨ty, r4, h4⟩ ⟨ty', r4', h4'⟩ ⟨rfl, hd⟩
  refine Alike.bind (defaultValue_alike hs hd) ?_
  rintro ⟨dv, r5, h5⟩ ⟨dv', r5', h5'⟩ ⟨rfl, he⟩
  refine Alike.bind (directives_alike hs he) ?_
  rintro ⟨ds, r6, h6⟩ ⟨ds', r6', h6'⟩ ⟨rfl, hg⟩
  exact ⟨by rw [hn.value], hg⟩

theorem operationName_alike {ts ts' : List Token} (h : Aligned stop stop' P ts ts') :
    Alike P (Reads stop stop' P Eq) (operationName stop ts) (operationName stop' ts') := by
  refine Alike.bind (nextIs_alike hs h .name) ?_
  rintro b b' rfl
  cases b
  · exact ⟨rfl, h⟩
  · refine Alike.bind (expectName_alike hs h) ?_
    rintro ⟨n, r, hr⟩ ⟨n', r', hr'⟩ ⟨hn, ha⟩
    exact ⟨by rw [hn.value], ha⟩

theorem variableDefinitions_alike {ts ts' : List Token} (h : Aligned stop stop' P ts ts') :
    Alike P (Reads stop stop' P Eq) (variableDefinitions stop limit ts) (variableDefinitions stop' limit ts') := by
  refine Alike.bind (nextIs_alike hs h .parenL) ?_
  rintro b b' rfl
  cases b
  · exact ⟨rfl, h⟩
  · refine Alike.bind (nonEmptyList_alike hs (fun h => variableDefinition_alike hs h) h .parenL _ _) ?_
    rintro ⟨vs, r, hr⟩ ⟨vs', r', hr'⟩ ⟨rfl, ha⟩
    exact ⟨rfl, ha⟩

theorem operation_alike {ts ts' : List Token} (h : Aligned stop stop' P ts ts') :
    Alike P (Reads stop stop' P Eq) (operation stop limit ts) (operation stop' limit ts') := by
  refine Alike.bind (nextIs_alike hs h .braceL) ?_
  rintro b b' rfl
  cases b
  · refine Alike.bind (expectName_alike hs h) ?_
    rintro ⟨⟨k, v, s⟩, r1, h1⟩ ⟨⟨k', v', s'⟩, r1', h1'⟩ ⟨⟨hk, hv, hplace⟩, ha⟩
    simp only at hk hv
    subst hk hv
    dsimp only
    cases OperationKind.ofKeyword? v
    · exact TwinToken.unexpected (show TwinToken P ⟨k, v, s⟩ ⟨k, v, s'⟩ from ⟨rfl, rfl, hplace⟩) _
    · refine Alike.bind (operationName_alike hs ha) ?_
      rintro ⟨n, r2, h2⟩ ⟨n', r2', h2'⟩ ⟨rfl, hb⟩
      refine Alike.bind (variableDefinitions_alike hs hb) ?_
      rintro ⟨vs, r3, h3⟩ ⟨vs', r3', h3'⟩ ⟨rfl, hc⟩
      refine Alike.bind (directives_alike hs hc) ?_
      rintro ⟨ds, r4, h4⟩ ⟨ds', r4', h4'⟩ ⟨rfl, hd⟩
      refine Alike.bind (selectionSet_alike hs hd) ?_
      rintro ⟨ss, r5, h5⟩ ⟨ss', r5', h5'⟩ ⟨rfl, he⟩
      exact ⟨rfl, he⟩
  · refine Alike.bind (selectionSet_alike hs h) ?_
    rintro ⟨ss, r, hr⟩ ⟨ss', r', hr'⟩ ⟨rfl, ha⟩
    exact ⟨rfl, ha⟩

theorem fragment_alike {ts ts' : List Token} (h : Aligned stop stop' P ts ts') :
    Alike P (Reads stop stop' P Eq) (fragment stop limit ts) (fragment stop' limit ts') := by
  refine Alike.bind (expectKeyword_alike hs h "fragment") ?_
  rintro ⟨x, r1, h1⟩ ⟨x', r1', h1'⟩ ⟨-, ha⟩
  refine Alike.bind (fragmentName_alike hs ha) ?_
  rintro ⟨n, r2, h2⟩ ⟨n', r2', h2'⟩ ⟨rfl, hb⟩
  refine Alike.bind (expectKeyword_alike hs hb "on") ?_
  rintro ⟨o, r3, h3⟩ ⟨o', r3', h3'⟩ ⟨-, hc⟩
  refine Alike.bind (expectName_alike hs hc) ?_
  rintro ⟨c, r4, h4⟩ ⟨c', r4', h4'⟩ ⟨hcond, hd⟩
  refine Alike.bind (directives_alike hs hd) ?_
  rintro ⟨ds, r5, h5⟩ ⟨ds', r5', h5'⟩ ⟨rfl, he⟩
  refine Alike.bind (selectionSet_alike hs he) ?_
  rintro ⟨ss, r6, h6⟩ ⟨ss', r6', h6'⟩ ⟨rfl, hg⟩
  exact ⟨by rw [hcond.value], hg⟩

/-- **Aligned readings read the same definitions**, and stop at twin faults or both at the
end. -/
theorem definitions_alike (doc : Document) : ∀ {ts ts' : List Token}, Aligned stop stop' P ts ts' →
    (definitions stop limit doc ts).1 = (definitions stop' limit doc ts').1 ∧
      Option.Rel (Twin P) (definitions stop limit doc ts).2 (definitions stop' limit doc ts').2
  | ts, ts', h => by
    have hp := peek_alike hs h
    rw [definitions, definitions]
    revert hp
    cases peek stop ts <;> cases peek stop' ts' <;> intro hp
    case error.error e e' => exact ⟨rfl, .some hp⟩
    case ok.ok t t' =>
      dsimp only
      rw [← hp.kind, ← hp.isKeyword, ← hp.isKeyword, ← hp.isKeyword, ← hp.isKeyword]
      split_ifs
      · exact ⟨rfl, .none⟩
      · have hf : Alike P (Reads stop stop' P Eq) (fragment stop limit ts) (fragment stop' limit ts') :=
          fragment_alike hs h
        revert hf
        cases fragment stop limit ts <;> cases fragment stop' limit ts' <;> intro hf
        case error.error => exact ⟨rfl, .some hf⟩
        case ok.ok x x' =>
          rcases x with ⟨y, r, hr⟩
          rcases x' with ⟨y', r', hr'⟩
          obtain ⟨hy, ha⟩ := hf
          simp only at hy ha
          subst hy
          exact definitions_alike _ ha
        all_goals exact hf.elim
      · have ho : Alike P (Reads stop stop' P Eq) (operation stop limit ts) (operation stop' limit ts') :=
          operation_alike hs h
        revert ho
        cases operation stop limit ts <;> cases operation stop' limit ts' <;> intro ho
        case error.error => exact ⟨rfl, .some ho⟩
        case ok.ok x x' =>
          rcases x with ⟨y, r, hr⟩
          rcases x' with ⟨y', r', hr'⟩
          obtain ⟨hy, ha⟩ := ho
          simp only at hy ha
          subst hy
          exact definitions_alike _ ha
        all_goals exact ho.elim
      · exact ⟨rfl, .some (hp.twin Diagnostic.notDefinition Diagnostic.notDefinition
          fun _ _ _ _ => ⟨rfl, rfl, rfl, rfl⟩)⟩
    all_goals exact hp.elim
termination_by ts => ts.length
decreasing_by all_goals decreasing_with omega

end Rules

end Alike

end Syntax
end Gql
