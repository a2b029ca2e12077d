import Gql.Proofs.Positions
import Gql.Document.Syntax
/-!
# Places — a fault of the reader names only places it has read

A diagnostic names places: its own span, and the places its notes point at.  The reader
builds every fault from a token it looked at (the token it did not expect, the token that
closed a list too early, the opening bracket of a list left open, which a note points back
at) or from how the tokens end (the end token, or the lexical fault with its own notes).  So
whatever a read of `ts` reports names only places of the tokens of `ts` and of their end
(`definitions_names_within`).

The statement is carried through the rules as a postcondition: `Within S P x` says that
a fault of `x` names only places in `S` and that a result of `x` has `P`; for a rule, `P`
says that the tokens it leaves still stand at places in `S`.  Each rule is proved step by
step with `Within.bind`, along its own recursion.
-/
namespace Gql

/-- Every place a diagnostic names: its span, then the places its notes point at. -/
def Diagnostic.places (d : Diagnostic) : List Span := d.span :: d.notes.filterMap Note.location

def Stop.outcome : Stop → Except LexError Token
  | .eof u => .ok u
  | .fault e => .error e

namespace Diagnostic

variable {t o : Token}

@[simp] theorem places_unexpected (expected : List String) : (unexpected t expected).places = [t.span] := rfl

@[simp] theorem places_tooDeep (limit : Nat) : (tooDeep limit t).places = [t.span] := rfl

@[simp] theorem places_empty (item construct : String) : (empty item construct t).places = [t.span] := rfl

@[simp] theorem places_unclosed (close : TokenKind) : (unclosed o close t).places = [t.span, o.span] := rfl

@[simp] theorem places_reservedOn : (reservedOn t).places = [t.span] := rfl

@[simp] theorem places_variableForbidden (place : String) : (variableForbidden t place).places = [t.span] := rfl

@[simp] theorem places_notDefinition : (notDefinition t).places = [t.span] := rfl

@[simp] theorem places_ofLex (e : LexError) : (ofLex e).places = placesOf (.error e) := rfl

end Diagnostic

namespace Syntax

/-- **A postcondition of a step**: a fault of `x` names only places in `S`, and a result of
`x` has `P`. -/
def Within (S : Span → Prop) {β : Type} (P : β → Prop) : Except Diagnostic β → Prop
  | .ok b => P b
  | .error e => ∀ sp ∈ e.places, S sp

def Leaves (S : Span → Prop) {α : Type} {p : List Token → Prop} (x : α × Subtype p) : Prop :=
  ∀ t ∈ x.2.1, S t.span

section Within

variable {S : Span → Prop} {β γ : Type} {P : β → Prop} {Q : γ → Prop}

@[simp] theorem within_ok {b : β} : Within S P (.ok b) ↔ P b := Iff.rfl

@[simp] theorem within_error {e : Diagnostic} : Within S P (.error e) ↔ ∀ sp ∈ e.places, S sp := Iff.rfl

theorem Within.bind {x : Except Diagnostic β} {f : β → Except Diagnostic γ} (hx : Within S P x)
    (hf : ∀ b, P b → Within S Q (f b)) : Within S Q (x >>= f) := by
  cases x with
  | error e => exact hx
  | ok b => exact hf b hx

theorem Within.map {x : Except Diagnostic β} {f : β → γ} (hx : Within S P x) (h : ∀ b, P b → Q (f b)) :
    Within S Q (x.map f) := by
  cases x with
  | error e => exact hx
  | ok b => exact h b hx

end Within

section Tokens

variable {S : Span → Prop}

theorem leaves_tail {α : Type} {t : Token} {r : List Token} (hts : ∀ x ∈ t :: r, S x.span) (a : α) :
    Leaves S (a, (⟨r, length_lt_cons t r⟩ : {r' : List Token // r'.length < (t :: r).length})) :=
  fun x hx => hts x (List.mem_cons_of_mem _ hx)

theorem nonEmpty_within (hts : ∀ t ∈ ts, S t.span) (close : TokenKind) (item construct : String) :
    Within S (fun _ => True) (nonEmpty close item construct ts) := by
  cases ts with
  | nil => trivial
  | cons t r =>
    simp only [nonEmpty]
    split
    · simpa [Within] using hts t List.mem_cons_self
    · trivial

end Tokens

section Steps

variable {S : Span → Prop} {stop : Stop} (hstop : ∀ sp ∈ placesOf stop.outcome, S sp)
include hstop

variable {ts : List Token}

theorem atEnd_places (expected : List String) : ∀ sp ∈ (atEnd stop expected).places, S sp := by
  cases stop with
  | eof u => simpa [atEnd, placesOf, Stop.outcome] using hstop
  | fault e => simpa [atEnd, Stop.outcome] using hstop

theorem unclosedAtEnd_places {o : Token} (ho : S o.span) (close : TokenKind) :
    ∀ sp ∈ (unclosedAtEnd stop o close).places, S sp := by
  cases stop with
  | eof u => simpa [unclosedAtEnd, placesOf, Stop.outcome, ho] using hstop
  | fault e => simpa [unclosedAtEnd, Stop.outcome] using hstop

theorem peek_within (hts : ∀ t ∈ ts, S t.span) : Within S (fun t => S t.span) (peek stop ts) := by
  cases ts with
  | cons t r => exact hts t List.mem_cons_self
  | nil =>
    cases stop with
    | eof u => simpa [peek, Within, placesOf, Stop.outcome] using hstop
    | fault e => simpa [peek, Within, Stop.outcome] using hstop

theorem tooDeepAt_places (hts : ∀ t ∈ ts, S t.span) (limit : Nat) :
    ∀ sp ∈ (tooDeepAt stop limit ts).places, S sp := by
  have hp := peek_within hstop hts
  unfold tooDeepAt
  revert hp
  cases peek stop ts with
  | ok t => exact fun ht => by simpa using ht
  | error e => exact id

theorem expect_within (hts : ∀ t ∈ ts, S t.span) (k : TokenKind) :
    Within S (fun x => S x.1.span ∧ Leaves S x) (expect stop k ts) := by
  cases ts with
  | nil => exact atEnd_places hstop _
  | cons t r =>
    simp only [expect]
    split
    · exact ⟨hts t List.mem_cons_self, leaves_tail hts t⟩
    · simpa [Within] using hts t List.mem_cons_self

theorem expectName_within (hts : ∀ t ∈ ts, S t.span) :
    Within S (fun x => S x.1.span ∧ Leaves S x) (expectName stop ts) := by
  cases ts with
  | nil => exact atEnd_places hstop _
  | cons t r =>
    simp only [expectName]
    split
    · exact ⟨hts t List.mem_cons_self, leaves_tail hts t⟩
    · simpa [Within] using hts t List.mem_cons_self

theorem expectKeyword_within (hts : ∀ t ∈ ts, S t.span) (w : String) :
    Within S (Leaves S) (expectKeyword stop w ts) := by
  cases ts with
  | nil => exact atEnd_places hstop _
  | cons t r =>
    simp only [expectKeyword]
    split
    · exact leaves_tail hts t
    · simpa [Within] using hts t List.mem_cons_self

theorem accept_within (hts : ∀ t ∈ ts, S t.span) (p : Token → Bool) :
    Within S (fun o => ∀ r ∈ o, ∀ t ∈ r.1, S t.span) (accept stop p ts) := by
  cases ts with
  | cons t r =>
    simp only [accept, Within]
    split
    · simpa using fun x hx => hts x (List.mem_cons_of_mem _ hx)
    · simp
  | nil =>
    cases stop with
    | eof u => simp [accept, Within]
    | fault e => simpa [accept, Within, Stop.outcome] using hstop

theorem nextIs_within (hts : ∀ t ∈ ts, S t.span) (k : TokenKind) :
    Within S (fun _ => True) (nextIs stop k ts) :=
  (peek_within hstop hts).map fun _ _ => trivial

theorem fragmentName_within (hts : ∀ t ∈ ts, S t.span) : Within S (Leaves S) (fragmentName stop ts) := by
  refine Within.bind (expectName_within hstop hts) ?_
  rintro ⟨n, r, hr⟩ ⟨hn, hl⟩
  dsimp only
  split
  · simpa [Within] using hn
  · exact hl

end Steps

/-! ### Bracketed lists -/

section Lists

variable {S : Span → Prop} {stop : Stop} (hstop : ∀ sp ∈ placesOf stop.outcome, S sp)
  {α : Type} {close : TokenKind} {item : (ts : List Token) → Except Diagnostic (Taken ts α)}
  (hitem : ∀ {us}, (∀ t ∈ us, S t.span) → Within S (Leaves S) (item us))
include hstop hitem

theorem itemsUntil_within {o : Token} (ho : S o.span) :
    ∀ {ts : List Token}, (∀ t ∈ ts, S t.span) → Within S (Leaves S) (itemsUntil stop close o item ts)
  | [], _ => by
    rw [itemsUntil]
    exact unclosedAtEnd_places hstop ho close
  | t :: r, hts => by
    rw [itemsUntil]
    split_ifs
    · exact fun x hx => hts x (List.mem_cons_of_mem _ hx)
    · simpa [Within, ho] using hts t List.mem_cons_self
    · refine Within.bind (hitem hts) ?_
      rintro ⟨x, r1, h1⟩ hl
      refine Within.bind (itemsUntil_within ho hl) ?_
      rintro ⟨xs, r2, h2⟩ hl'
      exact hl'
termination_by ts => ts.length
decreasing_by all_goals decreasing_with grind

theorem nonEmptyList_within {ts : List Token} (hts : ∀ t ∈ ts, S t.span) (openKind : TokenKind)
    (itemWord construct : String) :
    Within S (Leaves S) (nonEmptyList stop openKind close itemWord construct item ts) := by
  refine Within.bind (expect_within hstop hts openKind) ?_
  rintro ⟨o, r1, h1⟩ ⟨ho, hl⟩
  refine Within.bind (nonEmpty_within hl close itemWord construct) ?_
  rintro ⟨⟩ -
  refine Within.bind (itemsUntil_within hstop hitem ho hl) ?_
  rintro ⟨xs, r2, h2⟩ hl'
  exact hl'

end Lists

/-! ### The rules -/

section Rules

variable {S : Span → Prop} {stop : Stop} {limit : Nat} (hstop : ∀ sp ∈ placesOf stop.outcome, S sp)
include hstop

mutual

theorem value_within {ctx d} : ∀ {ts : List Token}, (∀ t ∈ ts, S t.span) →
    Within S (Leaves S) (value stop limit ctx d ts)
  | [], _ => by
    rw [value]
    split_ifs
    · exact tooDeepAt_places hstop (by simp) limit
    · exact atEnd_places hstop _
  | t :: r, hts => by
    rw [value]
    by_cases hd : limit ≤ d
    · rw [dif_pos hd]
      exact tooDeepAt_places hstop hts limit
    rw [dif_neg hd]
    have ht : S t.span := hts t List.mem_cons_self
    have hr : ∀ x ∈ r, S x.span := fun x hx => hts x (List.mem_cons_of_mem _ hx)
    cases hk : t.kind
    all_goals dsimp only
    case bracketL =>
      refine Within.bind (listItems_within ht hr) ?_
      rintro ⟨items, r1, h1⟩ hl
      exact hl
    case braceL =>
      refine Within.bind (objectFields_within ht hr) ?_
      rintro ⟨fields, r1, h1⟩ hl
      exact hl
    case dollar =>
      split
      · simpa [Within] using ht
      · refine Within.bind (expectName_within hstop hr) ?_
        rintro ⟨n, r1, h1⟩ ⟨-, hl⟩
        exact hl
    all_goals first
      | exact hr
      | simpa [Within] using ht
termination_by ts => (ts.length, 0)
decreasing_by all_goals decreasing_with omega

theorem listItems_within {ctx d} {o : Token} (ho : S o.span) : ∀ {ts : List Token}, (∀ t ∈ ts, S t.span) →
    Within S (Leaves S) (listItems stop limit ctx d o ts)
  | [], _ => by
    rw [listItems]
    exact unclosedAtEnd_places hstop ho _
  | t :: r, hts => by
    rw [listItems]
    split_ifs
    · exact fun x hx => hts x (List.mem_cons_of_mem _ hx)
    · simpa [Within, ho] using hts t List.mem_cons_self
    · refine Within.bind (value_within hts) ?_
      rintro ⟨v, r1, h1⟩ hl
      refine Within.bind (listItems_within ho hl) ?_
      rintro ⟨vs, r2, h2⟩ hl'
      exact hl'
termination_by ts => (ts.length, 1)
decreasing_by all_goals decreasing_with omega

theorem objectFields_within {ctx d} {o : Token} (ho : S o.span) : ∀ {ts : List Token}, (∀ t ∈ ts, S t.span) →
    Within S (Leaves S) (objectFields stop limit ctx d o ts)
  | [], _ => by
    rw [objectFields]
    exact unclosedAtEnd_places hstop ho _
  | t :: r, hts => by
    rw [objectFields]
    split_ifs
    · exact fun x hx => hts x (List.mem_cons_of_mem _ hx)
    · simpa [Within, ho] using hts t List.mem_cons_self
    · refine Within.bind (expectName_within hstop hts) ?_
      rintro ⟨n, r1, h1⟩ ⟨-, hl⟩
      refine Within.bind (expect_within hstop hl .colon) ?_
      rintro ⟨c, r2, h2⟩ ⟨-, hl⟩
      refine Within.bind (value_within hl) ?_
      rintro ⟨v, r3, h3⟩ hl
      refine Within.bind (objectFields_within ho hl) ?_
      rintro ⟨fs, r4, h4⟩ hl
      exact hl
termination_by ts => (ts.length, 1)
decreasing_by all_goals decreasing_with grind

end

theorem typeRef_within {d} : ∀ {ts : List Token}, (∀ t ∈ ts, S t.span) →
    Within S (Leaves S) (typeRef stop limit d ts)
  | ts, hts => by
    unfold typeRef
    by_cases hd : limit ≤ d
    · rw [dif_pos hd]
      exact tooDeepAt_places hstop hts limit
    rw [dif_neg hd]
    dsimp only
    refine Within.bind (P := Leaves S) ?_ ?_
    · cases ts with
      | nil => exact atEnd_places hstop _
      | cons t r =>
        have hr : ∀ x ∈ r, S x.span := fun x hx => hts x (List.mem_cons_of_mem _ hx)
        dsimp only
        split
        · exact hr
        · refine Within.bind (typeRef_within hr) ?_
          rintro ⟨e, r1, h1⟩ hl
          refine Within.bind (expect_within hstop hl .bracketR) ?_
          rintro ⟨c, r2, h2⟩ ⟨-, hl⟩
          exact hl
        · simpa [Within] using hts t List.mem_cons_self
    · rintro ⟨ty, r1, h1⟩ hl
      refine Within.bind (accept_within hstop hl _) ?_
      rintro (_ | ⟨r2, h2⟩) hl'
      · exact hl
      · exact hl' _ rfl
termination_by ts => ts.length
decreasing_by all_goals decreasing_with grind

theorem argument_within {ctx d} {ts : List Token} (hts : ∀ t ∈ ts, S t.span) :
    Within S (Leaves S) (argument stop limit ctx d ts) := by
  refine Within.bind (expectName_within hstop hts) ?_
  rintro ⟨n, r1, h1⟩ ⟨-, hl⟩
  refine Within.bind (expect_within hstop hl .colon) ?_
  rintro ⟨c, r2, h2⟩ ⟨-, hl⟩
  refine Within.bind (value_within hstop hl) ?_
  rintro ⟨v, r3, h3⟩ hl
  exact hl

theorem arguments_within {ctx d} {ts : List Token} (hts : ∀ t ∈ ts, S t.span) :
    Within S (Leaves S) (arguments stop limit ctx d ts) := by
  refine Within.bind (nextIs_within hstop hts .parenL) ?_
  rintro (_ | _) -
  · exact hts
  · refine Within.bind (nonEmptyList_within hstop (fun hus => argument_within hstop hus) hts _ _ _) ?_
    rintro ⟨args, r, h⟩ hl
    exact hl

theorem directives_within {ctx d} : ∀ {ts : List Token}, (∀ t ∈ ts, S t.span) →
    Within S (Leaves S) (directives stop limit ctx d ts)
  | ts, hts => by
    rw [directives]
    refine Within.bind (accept_within hstop hts _) ?_
    rintro (_ | ⟨r1, h1⟩) hl
    · exact hts
    · refine Within.bind (expectName_within hstop (hl _ rfl)) ?_
      rintro ⟨n, r2, h2⟩ ⟨-, hl⟩
      refine Within.bind (arguments_within hstop hl) ?_
      rintro ⟨args, r3, h3⟩ hl
      refine Within.bind (directives_within hl) ?_
      rintro ⟨ds, r4, h4⟩ hl
      exact hl
termination_by ts => ts.length
decreasing_by all_goals decreasing_with omega

theorem typeCondition_within {ts : List Token} (hts : ∀ t ∈ ts, S t.span) :
    Within S (Leaves S) (typeCondition stop ts) := by
  refine Within.bind (accept_within hstop hts _) ?_
  rintro (_ | ⟨r, h⟩) hl
  · exact hts
  · refine Within.bind (expectName_within hstop (hl _ rfl)) ?_
    rintro ⟨n, r', h'⟩ ⟨-, hl⟩
    exact hl

theorem fieldName_within (first : Token) {ts : List Token} (hts : ∀ t ∈ ts, S t.span) :
    Within S (Leaves S) (fieldName stop first ts) := by
  refine Within.bind (accept_within hstop hts _) ?_
  rintro (_ | ⟨r, h⟩) hl
  · exact hts
  · refine Within.bind (expectName_within hstop (hl _ rfl)) ?_
    rintro ⟨n, r', h'⟩ ⟨-, hl⟩
    exact hl

mutual

theorem selectionSet_within {d} : ∀ {ts : List Token}, (∀ t ∈ ts, S t.span) →
    Within S (Leaves S) (selectionSet stop limit d ts)
  | ts, hts => by
    rw [selectionSet]
    by_cases hd : limit ≤ d
    · rw [dif_pos hd]
      exact tooDeepAt_places hstop hts limit
    rw [dif_neg hd]
    refine Within.bind (expect_within hstop hts .braceL) ?_
    rintro ⟨o, r1, h1⟩ ⟨ho, hl⟩
    refine Within.bind (nonEmpty_within hl .braceR _ _) ?_
    rintro ⟨⟩ -
    refine Within.bind (selections_within ho hl) ?_
    rintro ⟨sels, r2, h2⟩ hl
    exact hl
termination_by ts => (ts.length, 2)
decreasing_by all_goals decreasing_with omega

theorem subselection_within {d} : ∀ {ts : List Token}, (∀ t ∈ ts, S t.span) →
    Within S (Leaves S) (subselection stop limit d ts)
  | ts, hts => by
    rw [subselection]
    refine Within.bind (nextIs_within hstop hts .braceL) ?_
    rintro (_ | _) -
    · exact hts
    · refine Within.bind (selectionSet_within hts) ?_
      rintro ⟨sels, r, h⟩ hl
      exact hl
termination_by ts => (ts.length, 3)
decreasing_by all_goals decreasing_with omega

theorem selections_within {d} {o : Token} (ho : S o.span) : ∀ {ts : List Token}, (∀ t ∈ ts, S t.span) →
    Within S (Leaves S) (selections stop limit d o ts)
  | [], _ => by
    rw [selections]
    exact unclosedAtEnd_places hstop ho _
  | t :: r, hts => by
    rw [selections]
    split_ifs
    · exact fun x hx => hts x (List.mem_cons_of_mem _ hx)
    · simpa [Within, ho] using hts t List.mem_cons_self
    · refine Within.bind (selection_within hts) ?_
      rintro ⟨s, r1, h1⟩ hl
      refine Within.bind (selections_within ho hl) ?_
      rintro ⟨ss, r2, h2⟩ hl
      exact hl
termination_by ts => (ts.length, 1)
decreasing_by all_goals decreasing_with omega

theorem selection_within {d} : ∀ {ts : List Token}, (∀ t ∈ ts, S t.span) →
    Within S (Leaves S) (selection stop limit d ts)
  | ts, hts => by
    rw [selection]
    refine Within.bind (accept_within hstop hts _) ?_
    rintro (_ | ⟨r1, h1⟩) hl
    · refine Within.bind (expectName_within hstop hts) ?_
      rintro ⟨first, r1, h1⟩ ⟨-, hl⟩
      refine Within.bind (fieldName_within hstop first hl) ?_
      rintro ⟨name, r2, h2⟩ hl
      refine Within.bind (arguments_within hstop hl) ?_
      rintro ⟨args, r3, h3⟩ hl
      refine Within.bind (directives_within hstop hl) ?_
      rintro ⟨dirs, r4, h4⟩ hl
      refine Within.bind (subselection_within hl) ?_
      rintro ⟨sub, r5, h5⟩ hl
      exact hl
    · have hl := hl _ rfl
      refine Within.bind (peek_within hstop hl) ?_
      rintro u -
      split
      · refine Within.bind (typeCondition_within hstop hl) ?_
        rintro ⟨cond, r2, h2⟩ hl
        refine Within.bind (directives_within hstop hl) ?_
        rintro ⟨dirs, r3, h3⟩ hl
        refine Within.bind (selectionSet_within hl) ?_
        rintro ⟨sels, r4, h4⟩ hl
        exact hl
      · refine Within.bind (fragmentName_within hstop hl) ?_
        rintro ⟨n, r2, h2⟩ hl
        refine Within.bind (directives_within hstop hl) ?_
        rintro ⟨dirs, r3, h3⟩ hl
        exact hl
termination_by ts => (ts.length, 0)
decreasing_by all_goals decreasing_with omega

end

theorem defaultValue_within {ts : List Token} (hts : ∀ t ∈ ts, S t.span) :
    Within S (Leaves S) (defaultValue stop limit ts) := by
  refine Within.bind (accept_within hstop hts _) ?_
  rintro (_ | ⟨r, h⟩) hl
  · exact hts
  · refine Within.bind (value_within hstop (hl _ rfl)) ?_
    rintro ⟨v, r', h'⟩ hl
    exact hl

theorem variableDefinition_within {ts : List Token} (hts : ∀ t ∈ ts, S t.span) :
    Within S (Leaves S) (variableDefinition stop limit ts) := by
  refine Within.bind (expect_within hstop hts .dollar) ?_
  rintro ⟨_, r1, h1⟩ ⟨-, hl⟩
  refine Within.bind (expectName_within hstop hl) ?_
  rintro ⟨n, r2, h2⟩ ⟨-, hl⟩
  refine Within.bind (expect_within hstop hl .colon) ?_
  rintro ⟨_, r3, h3⟩ ⟨-, hl⟩
  refine Within.bind (typeRef_within hstop hl) ?_
  rintro ⟨ty, r4, h4⟩ hl
  refine Within.bind (defaultValue_within hstop hl) ?_
  rintro ⟨dflt, r5, h5⟩ hl
  refine Within.bind (directives_within hstop hl) ?_
  rintro ⟨dirs, r6, h6⟩ hl
  exact hl

theorem operationName_within {ts : List Token} (hts : ∀ t ∈ ts, S t.span) :
    Within S (Leaves S) (operationName stop ts) := by
  refine Within.bind (nextIs_within hstop hts .name) ?_
  rintro (_ | _) -
  · exact hts
  · refine Within.bind (expectName_within hstop hts) ?_
    rintro ⟨n, r, h⟩ ⟨-, hl⟩
    exact hl

theorem variableDefinitions_within {ts : List Token} (hts : ∀ t ∈ ts, S t.span) :
    Within S (Leaves S) (variableDefinitions stop limit ts) := by
  refine Within.bind (nextIs_within hstop hts .parenL) ?_
  rintro (_ | _) -
  · exact hts
  · refine Within.bind
      (nonEmptyList_within hstop (fun hus => variableDefinition_within hstop hus) hts _ _ _) ?_
    rintro ⟨vs, r, h⟩ hl
    exact hl

theorem operation_within {ts : List Token} (hts : ∀ t ∈ ts, S t.span) :
    Within S (Leaves S) (operation stop limit ts) := by
  refine Within.bind (nextIs_within hstop hts .braceL) ?_
  rintro (_ | _) -
  · refine Within.bind (expectName_within hstop hts) ?_
    rintro ⟨kw, r1, h1⟩ ⟨hkw, hl⟩
    dsimp only
    split
    · refine Within.bind (operationName_within hstop hl) ?_
      rintro ⟨name, r2, h2⟩ hl
      refine Within.bind (variableDefinitions_within hstop hl) ?_
      rintro ⟨vars, r3, h3⟩ hl
      refine Within.bind (directives_within hstop hl) ?_
      rintro ⟨dirs, r4, h4⟩ hl
      refine Within.bind (selectionSet_within hstop hl) ?_
      rintro ⟨sels, r5, h5⟩ hl
      exact hl
    · simpa [Within] using hkw
  · refine Within.bind (selectionSet_within hstop hts) ?_
    rintro ⟨sels, rest⟩ hl
    exact hl

theorem fragment_within {ts : List Token} (hts : ∀ t ∈ ts, S t.span) :
    Within S (Leaves S) (fragment stop limit ts) := by
  refine Within.bind (expectKeyword_within hstop hts "fragment") ?_
  rintro ⟨_, r1, h1⟩ hl
  refine Within.bind (fragmentName_within hstop hl) ?_
  rintro ⟨n, r2, h2⟩ hl
  refine Within.bind (expectKeyword_within hstop hl "on") ?_
  rintro ⟨_, r3, h3⟩ hl
  refine Within.bind (expectName_within hstop hl) ?_
  rintro ⟨cond, r4, h4⟩ ⟨-, hl⟩
  refine Within.bind (directives_within hstop hl) ?_
  rintro ⟨dirs, r5, h5⟩ hl
  refine Within.bind (selectionSet_within hstop hl) ?_
  rintro ⟨sels, r6, h6⟩ hl
  exact hl

/-- **A read of definitions names only places of its tokens and of their end**: the span of
its fault and every place a note of the fault points at. -/
theorem definitions_names_within (doc : Document) :
    ∀ {ts : List Token}, (∀ t ∈ ts, S t.span) →
      ∀ e, (definitions stop limit doc ts).2 = some e → ∀ sp ∈ e.places, S sp
  | ts, hts, e, h => by
    rw [definitions] at h
    have hp := peek_within hstop hts
    revert h hp
    generalize peek stop ts = next
    rcases next with e' | t <;> intro h hp
    · cases h
      exact hp
    dsimp only at h
    split_ifs at h
    · have hf : Within S (Leaves S) (fragment stop limit ts) := fragment_within hstop hts
      revert h hf
      generalize fragment stop limit ts = read
      rcases read with e' | ⟨f, r, hr⟩ <;> intro h hf
      · cases h
        exact hf
      · exact definitions_names_within _ hf e h
    · have ho : Within S (Leaves S) (operation stop limit ts) := operation_within hstop hts
      revert h ho
      generalize operation stop limit ts = read
      rcases read with e' | ⟨o, r, hr⟩ <;> intro h ho
      · cases h
        exact ho
      · exact definitions_names_within _ ho e h
    · cases h
      simpa using hp
termination_by ts => ts.length
decreasing_by all_goals decreasing_with omega

end Rules

end Syntax
end Gql
