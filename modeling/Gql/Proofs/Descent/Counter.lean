import Gql.Proofs.Descent.Depth
/-!
# Counter — what the nesting counter goes through

`Nesting` reads a document with one counter for the levels of values, selection sets and list
types, raised before the check on entering one and lowered on leaving it, also when what it
held failed.  `Syntax` reads the same rules with the depth as an argument.  Here the two are
related rule by rule (`Counted`): read from a counter at the depth that `Syntax` is given, both
give the same result; a success leaves the counter where it was, and so does a failure, but
the fault of nesting too deep, which leaves it one higher at every level it passes.

The steps the counter goes through are logged by `Nesting`, and `replay` gives the rules they
keep: each check raises the counter by one, at most one past the limit; each exit lowers it
from a positive value; each definition starts at zero.  Each check is also made where the
levels open in the tokens before it are one fewer than the counter.  For a whole parse this
gives `nesting_counter_invariant`.
-/
namespace Gql
namespace Nesting

/-- Replays a log of counter steps from the counter `n`: the counter it ends at, or none at the
first step that breaks the counter's rules. -/
def replay (limit : Nat) : Nat → List CounterStep → Option Nat
  | n, [] => some n
  | n, .start k :: l => if k = n ∧ n = 0 then replay limit n l else none
  | n, .check k _ :: l => if k = n + 1 ∧ k ≤ limit + 1 then replay limit k l else none
  | n, .leave k :: l => if k = n ∧ 0 < k then replay limit (k - 1) l else none

/-- The constructs a log enters and does not leave: its checks less its exits. -/
def openCount : List CounterStep → Int
  | [] => 0
  | .start _ :: l => openCount l
  | .check _ _ :: l => 1 + openCount l
  | .leave _ :: l => openCount l - 1

section Replay

variable {limit : Nat}

theorem replay_append (a b : List CounterStep) (n : Nat) :
    replay limit n (a ++ b) = (replay limit n a).bind (replay limit · b) := by
  induction a generalizing n with
  | nil => rfl
  | cons x a ih => cases x <;> simp only [List.cons_append, replay] <;> split_ifs <;> simp [ih]

theorem replay_counts {n m : Nat} : ∀ {l : List CounterStep}, replay limit n l = some m → (m : Int) = n + openCount l
  | [], h => by simp_all [replay, openCount]
  | .start k :: l, h => by
    simp only [replay] at h
    split_ifs at h
    simp [openCount, replay_counts h]
  | .check k _ :: l, h => by
    simp only [replay] at h
    split_ifs at h with hk
    rw [openCount, replay_counts h]
    omega
  | .leave k :: l, h => by
    simp only [replay] at h
    split_ifs at h with hk
    rw [openCount, replay_counts h]
    omega

theorem replay_mid {pre post : List CounterStep} {x : CounterStep} {m : Nat}
    (h : replay limit 0 (pre ++ x :: post) = some m) :
    match x with
    | .start k => k = 0 ∧ openCount pre = 0
    | .check k _ => (k : Int) = openCount pre + 1 ∧ k ≤ limit + 1
    | .leave k => (k : Int) = openCount pre ∧ 0 < k := by
  rw [replay_append] at h
  cases hp : replay limit 0 pre with
  | none => simp [hp] at h
  | some n =>
    have hn := replay_counts hp
    simp only [hp, Option.bind_some] at h
    cases x with
    | start k =>
      simp only [replay] at h
      split_ifs at h with hk
      omega
    | check k rest =>
      simp only [replay] at h
      split_ifs at h with hk
      omega
    | leave k =>
      simp only [replay] at h
      split_ifs at h with hk
      omega

end Replay

variable {stop : Stop} {limit : Nat}

variable (stop limit) in
/-- The steps that a read entered at the tokens `ts`, with `d` levels open and the counter at
`c`, added to the log `L` on its way to the counter `s`: they replay from `c` to `s`, and each
check was made at a suffix of `ts` with the counter one past the levels open there, within the
limit unless it is where the read failed with the fault `e?`. -/
def Log (d c : Nat) (ts : List Token) (L : List CounterStep) (s : Counter) (e? : Option Diagnostic) : Prop :=
  ∃ seg, s.steps = L ++ seg ∧ replay limit c seg = some s.depth ∧
    ∀ (k : Nat) rest, .check k rest ∈ seg → (∃ p, ts = p ++ rest ∧ (k : Int) = d + nestingLevel p + 1) ∧
      (k ≤ limit ∨ k = limit + 1 ∧ e? = some (Syntax.tooDeepAt stop limit rest))

section Log

variable {d c : Nat} {ts : List Token} {L : List CounterStep} {s s' : Counter} {e? : Option Diagnostic}

theorem Log.nil (hs : s.depth = c) : Log stop limit d c ts s.steps s e? :=
  ⟨[], by simp, by simp [replay, hs], by simp⟩

theorem Log.weaken (h : Log stop limit d c ts L s none) : Log stop limit d c ts L s e? := by
  obtain ⟨seg, hs, hr, hc⟩ := h
  refine ⟨seg, hs, hr, fun k rest hk => ?_⟩
  obtain ⟨hp, hb⟩ := hc k rest hk
  exact ⟨hp, hb.imp_right fun h => absurd h.2 (by simp)⟩

theorem Log.trans (h1 : Log stop limit d c ts L s e?) (hs : s.depth = c)
    (h2 : Log stop limit d c ts s.steps s' e?) : Log stop limit d c ts L s' e? := by
  obtain ⟨seg1, hs1, hr1, hc1⟩ := h1
  obtain ⟨seg2, hs2, hr2, hc2⟩ := h2
  refine ⟨seg1 ++ seg2, by rw [hs2, hs1, List.append_assoc], ?_, ?_⟩
  · rw [replay_append, hr1, hs]
    exact hr2
  · intro k rest hk
    rcases List.mem_append.1 hk with hk | hk
    · exact hc1 k rest hk
    · exact hc2 k rest hk

theorem Log.shift {d' : Nat} {p r : List Token} (hts : ts = p ++ r) (hd : (d' : Int) = d + nestingLevel p)
    (h : Log stop limit d' c r L s e?) : Log stop limit d c ts L s e? := by
  obtain ⟨seg, hs, hr, hc⟩ := h
  refine ⟨seg, hs, hr, fun k rest hk => ?_⟩
  obtain ⟨⟨q, hq, hk⟩, hb⟩ := hc k rest hk
  exact ⟨⟨p ++ q, by rw [hts, hq, List.append_assoc], by rw [nestingLevel_append]; omega⟩, hb⟩

/-- A construct entered below the limit and left after its body: the check, the body's steps,
and the exit. -/
theorem Log.wrap (hlt : d < limit) (hs : s.depth = d) (hpos : 0 < s'.depth)
    (h : Log stop limit d (d + 1) ts (s.raise ts).steps s' e?) : Log stop limit d d ts s.steps s'.lower e? := by
  obtain ⟨seg, hs', hr, hc⟩ := h
  refine ⟨.check (d + 1) ts :: seg ++ [.leave s'.depth], ?_, ?_, ?_⟩
  · simp [Counter.lower, hs', Counter.raise, hs]
  · rw [List.cons_append, replay, if_pos ⟨rfl, by omega⟩, replay_append, hr]
    simp [replay, hpos, Counter.lower]
  · intro k rest hk
    simp only [List.cons_append, List.mem_cons, CounterStep.check.injEq, List.mem_append, reduceCtorEq,
      List.not_mem_nil, or_false] at hk
    rcases hk with ⟨rfl, rfl⟩ | hk
    · exact ⟨⟨[], rfl, by simp⟩, .inl (by omega)⟩
    · exact hc k rest hk

theorem Log.deep (hd : d = limit) (hs : s.depth = d) :
    Log stop limit d d ts s.steps (s.raise ts) (some (Syntax.tooDeepAt stop limit ts)) := by
  refine ⟨[.check (d + 1) ts], by simp [Counter.raise, hs], by simp [replay, Counter.raise, hs]; omega, ?_⟩
  intro k rest hk
  simp only [List.mem_singleton, CounterStep.check.injEq] at hk
  obtain ⟨rfl, rfl⟩ := hk
  exact ⟨⟨[], rfl, by simp⟩, .inr ⟨by omega, rfl⟩⟩

end Log

variable (stop limit) in
/-- A result of the counting read against the result `x` of `Syntax` at depth `d`, from the
counter `c` with the log `L`: the same success, with the counter back at `c`; or the same
failure, with the counter back at `c`, or one higher after a check past the limit that the
failure is the fault of. -/
def Runs {α : Type} (d c : Nat) (ts : List Token) (L : List CounterStep) :
    Except Diagnostic α → EStateM.Result Diagnostic Counter α → Prop
  | .ok a, .ok b s => b = a ∧ s.depth = c ∧ Log stop limit d c ts L s none
  | .error e, .error e' s => e' = e ∧
      (s.depth = c ∧ Log stop limit d c ts L s none ∨
        s.depth = c + 1 ∧ (∃ rest, .check (limit + 1) rest ∈ s.steps ∧ e = Syntax.tooDeepAt stop limit rest) ∧
          Log stop limit d c ts L s (some e))
  | _, _ => False

variable (stop limit) in
/-- The counting read `y` reads as `x` does from every counter at `c`. -/
def Counted {α : Type} (d c : Nat) (ts : List Token) (x : Except Diagnostic α)
    (y : EStateM Diagnostic Counter α) : Prop :=
  ∀ s : Counter, s.depth = c → Runs stop limit d c ts s.steps x (y s)

section Counted

variable {d c : Nat} {ts : List Token} {α β : Type}

theorem Runs.mono {d' : Nat} {ts' : List Token} {L L' : List CounterStep} {x : Except Diagnostic α}
    {r : EStateM.Result Diagnostic Counter α}
    (hlog : ∀ {s e?}, Log stop limit d c ts L s e? → Log stop limit d' c ts' L' s e?)
    (h : Runs stop limit d c ts L x r) : Runs stop limit d' c ts' L' x r := by
  match x, r, h with
  | .ok a, .ok b s', ⟨hb, hd, hl⟩ => exact ⟨hb, hd, hlog hl⟩
  | .error e, .error e' s', ⟨he, .inl ⟨hd, hl⟩⟩ => exact ⟨he, .inl ⟨hd, hlog hl⟩⟩
  | .error e, .error e' s', ⟨he, .inr ⟨hd, hrest, hl⟩⟩ => exact ⟨he, .inr ⟨hd, hrest, hlog hl⟩⟩

theorem Runs.after {L : List CounterStep} {s : Counter} {x : Except Diagnostic α} {r : EStateM.Result Diagnostic Counter α}
    (h1 : Log stop limit d c ts L s none) (hs : s.depth = c) (h2 : Runs stop limit d c ts s.steps x r) :
    Runs stop limit d c ts L x r :=
  h2.mono fun hl => h1.weaken.trans hs hl

theorem Counted.shift {d' : Nat} {p r : List Token} {x : Except Diagnostic α} {y : EStateM Diagnostic Counter α}
    (hts : ts = p ++ r) (hd : (d' : Int) = d + nestingLevel p) (h : Counted stop limit d' c r x y) :
    Counted stop limit d c ts x y :=
  fun s hs => (h s hs).mono fun hl => hl.shift hts hd

theorem Counted.cons (d' : Nat) {t : Token} {r : List Token} {x : Except Diagnostic α}
    {y : EStateM Diagnostic Counter α} (hts : ts = t :: r) (hd : (d' : Int) = d + t.kind.nesting)
    (h : Counted stop limit d' c r x y) : Counted stop limit d c ts x y :=
  h.shift (p := [t]) hts (by simp [hd])

theorem Counted.lift {x : Except Diagnostic α} : Counted stop limit d c ts x (Nesting.lift x) := by
  intro s hs
  cases x with
  | ok a => exact ⟨rfl, hs, .nil hs⟩
  | error e => exact ⟨rfl, .inl ⟨hs, .nil hs⟩⟩

theorem Counted.pure {a : α} : Counted stop limit d c ts (.ok a) (Pure.pure a) :=
  fun _ hs => ⟨rfl, hs, .nil hs⟩

theorem Counted.throw {e : Diagnostic} : Counted stop limit d c ts (.error e : Except Diagnostic α) (MonadExcept.throw e) :=
  fun _ hs => ⟨rfl, .inl ⟨hs, .nil hs⟩⟩

theorem Counted.bind {x : Except Diagnostic α} {y : EStateM Diagnostic Counter α}
    {f : α → Except Diagnostic β} {g : α → EStateM Diagnostic Counter β} (hxy : Counted stop limit d c ts x y)
    (hfg : ∀ a, x = .ok a → Counted stop limit d c ts (f a) (g a)) :
    Counted stop limit d c ts (x >>= f) (y >>= g) := by
  intro s hs
  have h := hxy s hs
  show Runs stop limit d c ts s.steps (x >>= f) (EStateM.bind y g s)
  simp only [EStateM.bind]
  generalize y s = res at h
  match x, res, h with
  | .ok a, .ok b s', ⟨hb, hd, hlog⟩ =>
    subst hb
    exact Runs.after hlog hd (hfg _ rfl s' hd)
  | .error e, .error e' s', h => exact h

theorem Counted.bind_open {P : List Token → Prop} {x : Except Diagnostic (α × Subtype P)}
    {y : EStateM Diagnostic Counter (α × Subtype P)} {f : α × Subtype P → Except Diagnostic β}
    {g : α × Subtype P → EStateM Diagnostic Counter β} {δ : Int} (d' : Nat) (hd : (d' : Int) = d + δ)
    (hxy : Counted stop limit d c ts x y) (hx : Syntax.LeavesOpen δ ts x)
    (hfg : ∀ a, x = .ok a → Counted stop limit d' c a.2.1 (f a) (g a)) :
    Counted stop limit d c ts (x >>= f) (y >>= g) := by
  refine hxy.bind fun a ha => ?_
  obtain ⟨p, hts, hp⟩ := hx a ha
  exact (hfg a ha).shift hts (by rw [hp]; exact hd)

theorem Counted.bind_closed {P : List Token → Prop} {x : Except Diagnostic (α × Subtype P)}
    {y : EStateM Diagnostic Counter (α × Subtype P)} {f : α × Subtype P → Except Diagnostic β}
    {g : α × Subtype P → EStateM Diagnostic Counter β}
    (hxy : Counted stop limit d c ts x y) (hx : Syntax.LeavesOpen 0 ts x)
    (hfg : ∀ a, x = .ok a → Counted stop limit d c a.2.1 (f a) (g a)) :
    Counted stop limit d c ts (x >>= f) (y >>= g) :=
  hxy.bind_open d (by simp) hx hfg

/-- Entering a construct below the limit: the body reads from the raised counter, and the
exit brings it back, after a success and after a failure alike. -/
theorem Counted.enter (hlt : d < limit) {x : Except Diagnostic α} {y : EStateM Diagnostic Counter α}
    (h : Counted stop limit d (d + 1) ts x y) :
    Counted stop limit d d ts x (Nesting.enter stop limit ts >>= fun _ => exiting y) := by
  intro s hs
  have henter : Nesting.enter stop limit ts s = .ok () (s.raise ts) := by
    simp only [Nesting.enter, hs]
    exact if_neg (by omega)
  show Runs stop limit d d ts s.steps x (EStateM.bind _ _ s)
  simp only [EStateM.bind, henter, exiting]
  have h := h (s.raise ts) (by simp [Counter.raise, hs])
  generalize y (s.raise ts) = res at h
  match x, res, h with
  | .ok a, .ok b s', ⟨hb, hd, hlog⟩ =>
    exact ⟨hb, by simp [Counter.lower, hd], hlog.wrap hlt hs (by omega)⟩
  | .error e, .error e' s', ⟨he, .inl ⟨hd, hlog⟩⟩ =>
    exact ⟨he, .inl ⟨by simp [Counter.lower, hd], hlog.wrap hlt hs (by omega)⟩⟩
  | .error e, .error e' s', ⟨he, .inr ⟨hd, ⟨rest, hrest, hrest'⟩, hlog⟩⟩ =>
    refine ⟨he, .inr ⟨by simp [Counter.lower, hd], ⟨rest, by simp [Counter.lower, hrest], hrest'⟩,
      hlog.wrap hlt hs (by omega)⟩⟩

theorem enter_bind_of_le {s : Counter} {g : Unit → EStateM Diagnostic Counter α} (h : limit ≤ s.depth) :
    (Nesting.enter stop limit ts >>= g) s = .error (Syntax.tooDeepAt stop limit ts) (s.raise ts) := by
  show EStateM.bind _ _ s = _
  simp only [EStateM.bind, Nesting.enter, if_pos (show limit < s.depth + 1 by omega)]

theorem Counted.deep (hd : d = limit) {g : Unit → EStateM Diagnostic Counter α} :
    Counted stop limit d d ts (.error (Syntax.tooDeepAt stop limit ts)) (Nesting.enter stop limit ts >>= g) := by
  intro s hs
  rw [enter_bind_of_le (by omega)]
  exact ⟨rfl, .inr ⟨by simp [Counter.raise, hs], ⟨ts, by simp [Counter.raise, hs, hd], rfl⟩, .deep hd hs⟩⟩

end Counted

/-! ### The rules, against `Syntax`

Each nesting rule is read from the counter at the depth `Syntax` is given, at most the limit;
below it the body reads from the raised counter, at the limit the check fails.  Every other
rule reads from the counter at its depth and leaves it there. -/

section Rules

variable {ctx : ValueContext}

mutual

theorem value_counted : ∀ {d} {ts : List Token}, d ≤ limit →
    Counted stop limit d d ts (Syntax.value stop limit ctx d ts) (value stop limit ctx ts)
  | d, ts, hd => by
    rw [value]
    rcases Nat.lt_or_eq_of_le hd with hlt | rfl
    · exact .enter hlt (valueImpl_counted hlt)
    · rw [Syntax.value.eq_def, dif_pos (Nat.le_refl _)]
      exact .deep rfl
termination_by _ ts => (ts.length, 1)

theorem valueImpl_counted : ∀ {d} {ts : List Token}, d < limit →
    Counted stop limit d (d + 1) ts (Syntax.value stop limit ctx d ts) (valueImpl stop limit ctx ts)
  | d, ts, hlt => by
    rw [Syntax.value.eq_def, dif_neg (by omega), valueImpl.eq_def]
    match ts with
    | [] => exact .throw
    | t :: r =>
      dsimp only
      cases hk : t.kind
      all_goals dsimp only
      case bracketL =>
        refine Counted.bind (.cons (d + 1) rfl (by simp [hk, TokenKind.nesting]) (listItems_counted hlt)) ?_
        rintro ⟨items, r1, h1⟩ -
        exact .pure
      case braceL =>
        refine Counted.bind (.cons (d + 1) rfl (by simp [hk, TokenKind.nesting]) (objectFields_counted hlt)) ?_
        rintro ⟨fields, r1, h1⟩ -
        exact .pure
      case dollar =>
        cases ctx.forbidding? with
        | some place => exact .throw
        | none =>
          refine Counted.bind .lift ?_
          rintro ⟨n, r1, h1⟩ -
          exact .pure
      case int | float | string | blockString | name => exact .pure
      all_goals exact .throw
termination_by _ ts => (ts.length, 0)
decreasing_by all_goals decreasing_with omega

theorem listItems_counted {o : Token} : ∀ {d} {ts : List Token}, d ≤ limit →
    Counted stop limit d d ts (Syntax.listItems stop limit ctx d o ts) (listItems stop limit ctx o ts)
  | _, [], _ => by
    rw [Syntax.listItems, listItems]
    exact .throw
  | d, t :: r, hd => by
    rw [Syntax.listItems, listItems]
    split_ifs
    · exact .pure
    · exact .throw
    · refine Counted.bind_closed (value_counted hd) Syntax.value_leaves ?_
      rintro ⟨v, r1, h1⟩ -
      refine Counted.bind (listItems_counted hd) ?_
      rintro ⟨vs, r2, h2⟩ -
      exact .pure
termination_by _ ts => (ts.length, 2)
decreasing_by all_goals decreasing_with omega

theorem objectFields_counted {o : Token} : ∀ {d} {ts : List Token}, d ≤ limit →
    Counted stop limit d d ts (Syntax.objectFields stop limit ctx d o ts) (objectFields stop limit ctx o ts)
  | _, [], _ => by
    rw [Syntax.objectFields, objectFields]
    exact .throw
  | d, t :: r, hd => by
    rw [Syntax.objectFields, objectFields]
    split_ifs
    · exact .pure
    · exact .throw
    · refine Counted.bind_closed .lift Syntax.expectName_leaves ?_
      rintro ⟨n, r1, h1⟩ -
      refine Counted.bind_closed .lift Syntax.expect_leaves ?_
      rintro ⟨c, r2, h2⟩ -
      refine Counted.bind_closed (value_counted hd) Syntax.value_leaves ?_
      rintro ⟨v, r3, h3⟩ -
      refine Counted.bind (objectFields_counted hd) ?_
      rintro ⟨fs, r4, h4⟩ -
      exact .pure
termination_by _ ts => (ts.length, 2)
decreasing_by all_goals decreasing_with grind

end

mutual

theorem typeRef_counted : ∀ {d} {ts : List Token}, d ≤ limit →
    Counted stop limit d d ts (Syntax.typeRef stop limit d ts) (typeRef stop limit ts)
  | d, ts, hd => by
    rw [typeRef]
    rcases Nat.lt_or_eq_of_le hd with hlt | rfl
    · exact .enter hlt (typeRefImpl_counted hlt)
    · rw [Syntax.typeRef.eq_def, dif_pos (Nat.le_refl _)]
      exact .deep rfl
termination_by _ ts => (ts.length, 1)

theorem typeRefImpl_counted : ∀ {d} {ts : List Token}, d < limit →
    Counted stop limit d (d + 1) ts (Syntax.typeRef stop limit d ts) (typeRefImpl stop limit ts)
  | d, ts, hlt => by
    rw [Syntax.typeRef.eq_def, dif_neg (by omega), typeRefImpl.eq_def]
    dsimp only
    refine Counted.bind ?_ ?_
    · match ts with
      | [] => exact .throw
      | t :: r =>
        dsimp only
        cases hk : t.kind
        all_goals dsimp only
        case name => exact .pure
        case bracketL =>
          refine .cons (d + 1) rfl (by simp [hk, TokenKind.nesting]) ?_
          refine Counted.bind_closed (typeRef_counted hlt) Syntax.typeRef_leaves ?_
          rintro ⟨e, r1, h1⟩ -
          refine Counted.bind .lift ?_
          rintro ⟨c, r2, h2⟩ -
          exact .pure
        all_goals exact .throw
    · rintro ⟨ty, r1, h1⟩ -
      refine Counted.bind .lift ?_
      rintro (_ | ⟨r2, h2⟩) - <;> exact .pure
termination_by _ ts => (ts.length, 0)
decreasing_by all_goals decreasing_with omega

end

theorem argument_counted {d} {ts : List Token} (hd : d ≤ limit) :
    Counted stop limit d d ts (Syntax.argument stop limit ctx d ts) (argument stop limit ctx ts) := by
  unfold Syntax.argument argument
  refine Counted.bind_closed .lift Syntax.expectName_leaves ?_
  rintro ⟨n, r1, h1⟩ -
  refine Counted.bind_closed .lift Syntax.expect_leaves ?_
  rintro ⟨c, r2, h2⟩ -
  refine Counted.bind (value_counted hd) ?_
  rintro ⟨v, r3, h3⟩ -
  exact .pure

theorem itemsUntil_counted {α : Type} {close : TokenKind} {o : Token} {d : Nat}
    {item : (ts : List Token) → Except Diagnostic (Taken ts α)}
    {item' : (ts : List Token) → EStateM Diagnostic Counter (Taken ts α)}
    (hitem : ∀ ts, Counted stop limit d d ts (item ts) (item' ts)) (hleaves : ∀ ts, Syntax.LeavesOpen 0 ts (item ts)) :
    ∀ ts, Counted stop limit d d ts (Syntax.itemsUntil stop close o item ts) (itemsUntil stop close o item' ts)
  | [] => by
    rw [Syntax.itemsUntil, itemsUntil]
    exact .throw
  | t :: r => by
    rw [Syntax.itemsUntil, itemsUntil]
    split_ifs
    · exact .pure
    · exact .throw
    · refine Counted.bind_closed (hitem _) (hleaves _) ?_
      rintro ⟨x, r1, h1⟩ -
      refine Counted.bind (itemsUntil_counted hitem hleaves r1) ?_
      rintro ⟨xs, r2, h2⟩ -
      exact .pure
termination_by ts => ts.length
decreasing_by all_goals decreasing_with grind

theorem nonEmptyList_counted {α : Type} {openKind close : TokenKind} {itemWord construct : String} {d : Nat}
    {read : (ts : List Token) → Except Diagnostic (Taken ts α)}
    {read' : (ts : List Token) → EStateM Diagnostic Counter (Taken ts α)} (hk : openKind.nesting = 0)
    (hread : ∀ ts, Counted stop limit d d ts (read ts) (read' ts)) (hleaves : ∀ ts, Syntax.LeavesOpen 0 ts (read ts))
    (ts : List Token) :
    Counted stop limit d d ts (Syntax.nonEmptyList stop openKind close itemWord construct read ts)
      (nonEmptyList stop openKind close itemWord construct read' ts) := by
  unfold Syntax.nonEmptyList nonEmptyList
  refine Counted.bind_open d (by simp [hk]) .lift Syntax.expect_leaves ?_
  rintro ⟨o, r1, h1⟩ -
  refine Counted.bind .lift fun _ _ => ?_
  refine Counted.bind (itemsUntil_counted hread hleaves r1) ?_
  rintro ⟨xs, r2, h2⟩ -
  exact .pure

theorem arguments_counted {d} {ts : List Token} (hd : d ≤ limit) :
    Counted stop limit d d ts (Syntax.arguments stop limit ctx d ts) (arguments stop limit ctx ts) := by
  unfold Syntax.arguments arguments
  refine Counted.bind .lift fun b _ => ?_
  split_ifs
  · refine Counted.bind (nonEmptyList_counted rfl (fun _ => argument_counted hd) (fun _ => Syntax.argument_leaves) _) ?_
    rintro ⟨args, r, h⟩ -
    exact .pure
  · exact .pure

theorem directives_counted {d} (hd : d ≤ limit) : ∀ {ts : List Token},
    Counted stop limit d d ts (Syntax.directives stop limit ctx d ts) (directives stop limit ctx ts)
  | ts => by
    rw [Syntax.directives, directives]
    refine Counted.bind .lift fun o ho => ?_
    rcases o with _ | ⟨r1, h1⟩
    · exact .pure
    · obtain ⟨t, hts, hk⟩ := Syntax.accept_some ho
      simp only [decide_eq_true_eq] at hk
      refine .cons d hts (by simp [hk, TokenKind.nesting]) ?_
      refine Counted.bind_closed .lift Syntax.expectName_leaves ?_
      rintro ⟨n, r2, h2⟩ -
      refine Counted.bind_closed (arguments_counted hd) Syntax.arguments_leaves ?_
      rintro ⟨args, r3, h3⟩ -
      refine Counted.bind (directives_counted hd) ?_
      rintro ⟨ds, r4, h4⟩ -
      exact .pure
termination_by ts => ts.length
decreasing_by all_goals decreasing_with omega

mutual

theorem selectionSet_counted : ∀ {d} {ts : List Token}, d ≤ limit →
    Counted stop limit d d ts (Syntax.selectionSet stop limit d ts) (selectionSet stop limit ts)
  | d, ts, hd => by
    rw [selectionSet]
    rcases Nat.lt_or_eq_of_le hd with hlt | rfl
    · rw [Syntax.selectionSet.eq_def, dif_neg (by omega)]
      refine .enter hlt ?_
      refine Counted.bind_open (d + 1) (by simp [TokenKind.nesting]) .lift Syntax.expect_leaves ?_
      rintro ⟨o, r1, h1⟩ -
      refine Counted.bind .lift fun _ _ => ?_
      refine Counted.bind (selections_counted hlt) ?_
      rintro ⟨sels, r2, h2⟩ -
      exact .pure
    · rw [Syntax.selectionSet.eq_def, dif_pos (Nat.le_refl _)]
      exact .deep rfl
termination_by _ ts => (ts.length, 2)
decreasing_by all_goals decreasing_with omega

theorem subselection_counted : ∀ {d} {ts : List Token}, d ≤ limit →
    Counted stop limit d d ts (Syntax.subselection stop limit d ts) (subselection stop limit ts)
  | d, ts, hd => by
    rw [Syntax.subselection, subselection]
    refine Counted.bind .lift fun b _ => ?_
    split_ifs
    · refine Counted.bind (selectionSet_counted hd) ?_
      rintro ⟨sels, r, h⟩ -
      exact .pure
    · exact .pure
termination_by _ ts => (ts.length, 3)
decreasing_by all_goals decreasing_with omega

theorem selections_counted {o : Token} : ∀ {d} {ts : List Token}, d ≤ limit →
    Counted stop limit d d ts (Syntax.selections stop limit d o ts) (selections stop limit o ts)
  | _, [], _ => by
    rw [Syntax.selections, selections]
    exact .throw
  | d, t :: r, hd => by
    rw [Syntax.selections, selections]
    split_ifs
    · exact .pure
    · exact .throw
    · refine Counted.bind_closed (selection_counted hd) Syntax.selection_leaves ?_
      rintro ⟨s, r1, h1⟩ -
      refine Counted.bind (selections_counted hd) ?_
      rintro ⟨ss, r2, h2⟩ -
      exact .pure
termination_by _ ts => (ts.length, 1)
decreasing_by all_goals decreasing_with omega

theorem selection_counted : ∀ {d} {ts : List Token}, d ≤ limit →
    Counted stop limit d d ts (Syntax.selection stop limit d ts) (selection stop limit ts)
  | d, ts, hd => by
    rw [Syntax.selection, selection]
    refine Counted.bind .lift fun o ho => ?_
    rcases o with _ | ⟨r1, h1⟩
    · refine Counted.bind_closed .lift Syntax.expectName_leaves ?_
      rintro ⟨first, r1, h1⟩ -
      refine Counted.bind_closed .lift Syntax.fieldName_leaves ?_
      rintro ⟨name, r2, h2⟩ -
      refine Counted.bind_closed (arguments_counted hd) Syntax.arguments_leaves ?_
      rintro ⟨args, r3, h3⟩ -
      refine Counted.bind_closed (directives_counted hd) Syntax.directives_leaves ?_
      rintro ⟨dirs, r4, h4⟩ -
      refine Counted.bind (subselection_counted hd) ?_
      rintro ⟨sub, r5, h5⟩ -
      exact .pure
    · obtain ⟨t, hts, hk⟩ := Syntax.accept_some ho
      simp only [decide_eq_true_eq] at hk
      refine .cons d hts (by simp [hk, TokenKind.nesting]) ?_
      refine Counted.bind .lift fun u _ => ?_
      split_ifs
      · refine Counted.bind_closed .lift Syntax.typeCondition_leaves ?_
        rintro ⟨cond, r2, h2⟩ -
        refine Counted.bind_closed (directives_counted hd) Syntax.directives_leaves ?_
        rintro ⟨dirs, r3, h3⟩ -
        refine Counted.bind (selectionSet_counted hd) ?_
        rintro ⟨sels, r4, h4⟩ -
        exact .pure
      · refine Counted.bind_closed .lift Syntax.fragmentName_leaves ?_
        rintro ⟨n, r2, h2⟩ -
        refine Counted.bind (directives_counted hd) ?_
        rintro ⟨dirs, r3, h3⟩ -
        exact .pure
termination_by _ ts => (ts.length, 0)
decreasing_by all_goals decreasing_with omega

end

theorem defaultValue_counted {ts : List Token} :
    Counted stop limit 0 0 ts (Syntax.defaultValue stop limit ts) (defaultValue stop limit ts) := by
  unfold Syntax.defaultValue defaultValue
  refine Counted.bind .lift fun o ho => ?_
  rcases o with _ | ⟨r1, h1⟩
  · exact .pure
  · obtain ⟨t, hts, hk⟩ := Syntax.accept_some ho
    simp only [decide_eq_true_eq] at hk
    refine .cons 0 hts (by simp [hk, TokenKind.nesting]) ?_
    refine Counted.bind (value_counted (Nat.zero_le _)) ?_
    rintro ⟨v, r2, h2⟩ -
    exact .pure

theorem variableDefinition_counted {ts : List Token} :
    Counted stop limit 0 0 ts (Syntax.variableDefinition stop limit ts) (variableDefinition stop limit ts) := by
  unfold Syntax.variableDefinition variableDefinition
  refine Counted.bind_closed .lift Syntax.expect_leaves ?_
  rintro ⟨dollar, r1, h1⟩ -
  refine Counted.bind_closed .lift Syntax.expectName_leaves ?_
  rintro ⟨n, r2, h2⟩ -
  refine Counted.bind_closed .lift Syntax.expect_leaves ?_
  rintro ⟨c, r3, h3⟩ -
  refine Counted.bind_closed (typeRef_counted (Nat.zero_le _)) Syntax.typeRef_leaves ?_
  rintro ⟨ty, r4, h4⟩ -
  refine Counted.bind_closed defaultValue_counted Syntax.defaultValue_leaves ?_
  rintro ⟨dflt, r5, h5⟩ -
  refine Counted.bind (directives_counted (Nat.zero_le _)) ?_
  rintro ⟨dirs, r6, h6⟩ -
  exact .pure

theorem variableDefinitions_counted {ts : List Token} :
    Counted stop limit 0 0 ts (Syntax.variableDefinitions stop limit ts) (variableDefinitions stop limit ts) := by
  unfold Syntax.variableDefinitions variableDefinitions
  refine Counted.bind .lift fun b _ => ?_
  split_ifs
  · refine Counted.bind (nonEmptyList_counted rfl (fun _ => variableDefinition_counted)
      (fun _ => Syntax.variableDefinition_leaves) _) ?_
    rintro ⟨vs, r, h⟩ -
    exact .pure
  · exact .pure

theorem operation_counted (ts : List Token) :
    Counted stop limit 0 0 ts (Syntax.operation stop limit ts) (operation stop limit ts) := by
  unfold Syntax.operation operation
  refine Counted.bind .lift fun b _ => ?_
  split_ifs
  · refine Counted.bind (selectionSet_counted (Nat.zero_le _)) ?_
    rintro ⟨sels, rest⟩ -
    exact .pure
  · refine Counted.bind_closed .lift Syntax.expectName_leaves ?_
    rintro ⟨kw, r1, h1⟩ -
    dsimp only
    cases OperationKind.ofKeyword? kw.value with
    | none => exact .throw
    | some kind =>
      dsimp only
      refine Counted.bind_closed .lift Syntax.operationName_leaves ?_
      rintro ⟨name, r2, h2⟩ -
      refine Counted.bind_closed variableDefinitions_counted Syntax.variableDefinitions_leaves ?_
      rintro ⟨vars, r3, h3⟩ -
      refine Counted.bind_closed (directives_counted (Nat.zero_le _)) Syntax.directives_leaves ?_
      rintro ⟨dirs, r4, h4⟩ -
      refine Counted.bind (selectionSet_counted (Nat.zero_le _)) ?_
      rintro ⟨sels, r5, h5⟩ -
      exact .pure

theorem fragment_counted (ts : List Token) :
    Counted stop limit 0 0 ts (Syntax.fragment stop limit ts) (fragment stop limit ts) := by
  unfold Syntax.fragment fragment
  refine Counted.bind_closed .lift Syntax.expectKeyword_leaves ?_
  rintro ⟨kw, r1, h1⟩ -
  refine Counted.bind_closed .lift Syntax.fragmentName_leaves ?_
  rintro ⟨n, r2, h2⟩ -
  refine Counted.bind_closed .lift Syntax.expectKeyword_leaves ?_
  rintro ⟨on, r3, h3⟩ -
  refine Counted.bind_closed .lift Syntax.expectName_leaves ?_
  rintro ⟨cond, r4, h4⟩ -
  refine Counted.bind_closed (directives_counted (Nat.zero_le _)) Syntax.directives_leaves ?_
  rintro ⟨dirs, r5, h5⟩ -
  refine Counted.bind (selectionSet_counted (Nat.zero_le _)) ?_
  rintro ⟨sels, r6, h6⟩ -
  exact .pure

end Rules

/-! ### The whole reading -/

section Definitions

variable (stop limit) in
/-- A reading of the definitions in `ts` from the counter `s` at `0`, against `Syntax`'s
reading `x`: the same document and fault, and the counter back at `0` with every check within
the limit, or at `1` after a check past the limit that the fault is; the steps keep the
counter's rules either way. -/
def ReadAll (ts : List Token) (s : Counter) (x : Document × Option Diagnostic)
    (res : Document × Option Diagnostic × Counter) : Prop :=
  (res.1, res.2.1) = x ∧
    (res.2.2.depth = 0 ∧ Log stop limit 0 0 ts s.steps res.2.2 none ∨
      res.2.2.depth = 1 ∧
        (∃ rest, .check (limit + 1) rest ∈ res.2.2.steps ∧ res.2.1 = some (Syntax.tooDeepAt stop limit rest)) ∧
        Log stop limit 0 0 ts s.steps res.2.2 res.2.1)

theorem Log.begin {d : Nat} {ts : List Token} {s : Counter} {e? : Option Diagnostic} (hs : s.depth = 0) :
    Log stop limit d 0 ts s.steps s.begin e? :=
  ⟨[.start 0], by simp [Counter.begin, hs], by simp [replay, Counter.begin, hs], by simp⟩

theorem ReadAll.after {ts p r : List Token} {s s' : Counter} {x : Document × Option Diagnostic}
    {res : Document × Option Diagnostic × Counter} (hts : ts = p ++ r) (hp : nestingLevel p = 0)
    (h1 : Log stop limit 0 0 ts s.steps s' none) (hs' : s'.depth = 0) (h : ReadAll stop limit r s' x res) :
    ReadAll stop limit ts s x res := by
  obtain ⟨hsame, ⟨hd, hlog⟩ | ⟨hd, hrest, hlog⟩⟩ := h
  · exact ⟨hsame, .inl ⟨hd, h1.trans hs' (hlog.shift hts (by simp [hp]))⟩⟩
  · exact ⟨hsame, .inr ⟨hd, hrest, h1.weaken.trans hs' (hlog.shift hts (by simp [hp]))⟩⟩

/-- A definition read from a counter at `0` as `Syntax` reads it, leaving nothing open, and
followed by a reading that does the same, reads as `Syntax` does. -/
theorem readAll_of_runs {ts : List Token} {s : Counter} {α : Type} {x : Except Diagnostic (Taken ts α)}
    {res : EStateM.Result Diagnostic Counter (Taken ts α)} {doc : Document}
    {F : Except Diagnostic (Taken ts α) → Document × Option Diagnostic}
    {G : EStateM.Result Diagnostic Counter (Taken ts α) → Document × Option Diagnostic × Counter}
    (hF : ∀ e, F (.error e) = (doc, some e)) (hG : ∀ e s', G (.error e s') = (doc, some e, s'))
    (hs : s.depth = 0) (hxy : Runs stop limit 0 0 ts s.begin.steps x res) (hx : Syntax.LeavesOpen 0 ts x)
    (hok : ∀ a s', x = .ok a → s'.depth = 0 → ReadAll stop limit a.2.1 s' (F (.ok a)) (G (.ok a s'))) :
    ReadAll stop limit ts s (F x) (G res) := by
  have hxy : Runs stop limit 0 0 ts s.steps x res := hxy.after (Log.begin hs) hs
  match x, res, hxy with
  | .ok a, .ok b s', ⟨hab, hd, hlog⟩ =>
    subst hab
    obtain ⟨p, hts, hp⟩ := hx b rfl
    exact (hok b s' rfl hd).after hts hp hlog hd
  | .error e, .error e' s', ⟨he, .inl ⟨hd, hlog⟩⟩ =>
    subst he
    rw [hF, hG]
    exact ⟨rfl, .inl ⟨hd, hlog⟩⟩
  | .error e, .error e' s', ⟨he, .inr ⟨hd, ⟨rest, hrest, he'⟩, hlog⟩⟩ =>
    subst he
    rw [hF, hG]
    exact ⟨rfl, .inr ⟨hd, ⟨rest, hrest, by rw [he']⟩, hlog⟩⟩

/-- **The counting reading reads as `Syntax` does**, from a counter at `0`: the same document
and fault, with every step of the counter kept to its rules. -/
theorem definitions_counted : ∀ (doc : Document) (ts : List Token) (s : Counter), s.depth = 0 →
    ReadAll stop limit ts s (Syntax.definitions stop limit doc ts) (definitions stop limit doc ts s)
  | doc, ts, s, hs => by
    rw [definitions, Syntax.definitions]
    cases Syntax.peek stop ts with
    | error e => exact ⟨rfl, .inl ⟨hs, .nil hs⟩⟩
    | ok t =>
      dsimp only
      split_ifs
      · exact ⟨rfl, .inl ⟨hs, .nil hs⟩⟩
      · have hxy : Runs stop limit 0 0 ts s.begin.steps _ _ := fragment_counted ts s.begin hs
        have hx : Syntax.LeavesOpen 0 ts (Syntax.fragment stop limit ts) := Syntax.fragment_leaves
        generalize Syntax.fragment stop limit ts = x at hxy hx ⊢
        generalize fragment stop limit ts s.begin = res at hxy ⊢
        apply readAll_of_runs (fun _ => rfl) (fun _ _ => rfl) hs hxy hx
        rintro ⟨f, r, h⟩ s' - hs'
        exact definitions_counted _ r s' hs'
      · have hxy : Runs stop limit 0 0 ts s.begin.steps _ _ := operation_counted ts s.begin hs
        have hx : Syntax.LeavesOpen 0 ts (Syntax.operation stop limit ts) := Syntax.operation_leaves
        generalize Syntax.operation stop limit ts = x at hxy hx ⊢
        generalize operation stop limit ts s.begin = res at hxy ⊢
        apply readAll_of_runs (fun _ => rfl) (fun _ _ => rfl) hs hxy hx
        rintro ⟨o, r, h⟩ s' - hs'
        exact definitions_counted _ r s' hs'
      · exact ⟨rfl, .inl ⟨hs, .nil hs⟩⟩
termination_by _ ts => ts.length

end Definitions

/-! ### What the counter goes through -/

section Invariant

variable (limit) in
/-- What a step of the log of a reading of `ts` shows, after the steps `pre`: a definition
starts with nothing entered and the counter at `0`; a check raises the counter to one past the
constructs entered and not left before it, at most one past the limit, where the tokens read
before it leave one level fewer open; an exit lowers the counter from the number of
constructs entered and not left, never from `0`. -/
def StepKept (ts : List Token) (pre : List CounterStep) : CounterStep → Prop
  | .start k => k = 0 ∧ openCount pre = 0
  | .check k rest => (k : Int) = openCount pre + 1 ∧ k ≤ limit + 1 ∧
      ∃ p, ts = p ++ rest ∧ (k : Int) = nestingLevel p + 1
  | .leave k => (k : Int) = openCount pre ∧ 0 < k

theorem Log.stepKept {ts : List Token} {s : Counter} {e? : Option Diagnostic} (h : Log stop limit 0 0 ts [] s e?) :
    ∀ pre x post, s.steps = pre ++ x :: post → StepKept limit ts pre x := by
  obtain ⟨seg, hs, hr, hc⟩ := h
  intro pre x post hx
  rw [List.nil_append] at hs
  rw [hs] at hx
  rw [hx] at hr
  have hmid := replay_mid hr
  cases x with
  | start k => exact hmid
  | check k rest =>
    obtain ⟨⟨p, hts, hk⟩, -⟩ := hc k rest (by simp [hx])
    exact ⟨hmid.1, hmid.2, p, hts, by omega⟩
  | leave k => exact hmid

theorem Log.past_limit {d : Nat} {ts rest : List Token} {s : Counter} {e? : Option Diagnostic}
    (h : Log stop limit d 0 ts [] s e?) (hk : .check (limit + 1) rest ∈ s.steps) :
    e? = some (Syntax.tooDeepAt stop limit rest) := by
  obtain ⟨seg, hs, -, hc⟩ := h
  rw [hs, List.nil_append] at hk
  rcases (hc _ rest hk).2 with h | ⟨-, h⟩
  · omega
  · exact h

theorem Log.depth_eq {d : Nat} {ts : List Token} {s : Counter} {e? : Option Diagnostic}
    (h : Log stop limit d 0 ts [] s e?) : (s.depth : Int) = openCount s.steps := by
  obtain ⟨seg, hs, hr, -⟩ := h
  rw [hs, List.nil_append, replay_counts hr]
  simp

section ReadAll

variable {ts : List Token} {s : Counter} {x : Document × Option Diagnostic}
  {res : Document × Option Diagnostic × Counter}

theorem ReadAll.log (h : ReadAll stop limit ts s x res) : ∃ e?, Log stop limit 0 0 ts s.steps res.2.2 e? := by
  rcases h with ⟨-, ⟨-, hlog⟩ | ⟨-, -, hlog⟩⟩
  · exact ⟨_, hlog⟩
  · exact ⟨_, hlog⟩

theorem ReadAll.depth_le_one (h : ReadAll stop limit ts s x res) : res.2.2.depth = 0 ∨ res.2.2.depth = 1 := by
  rcases h with ⟨-, ⟨hd, -⟩ | ⟨hd, -⟩⟩
  · exact .inl hd
  · exact .inr hd

theorem ReadAll.past_limit {rest : List Token} (h : ReadAll stop limit ts ⟨0, []⟩ x res)
    (hk : .check (limit + 1) rest ∈ res.2.2.steps) : res.2.1 = some (Syntax.tooDeepAt stop limit rest) := by
  rcases h with ⟨-, ⟨-, hlog⟩ | ⟨-, -, hlog⟩⟩
  · cases hlog.past_limit hk
  · exact hlog.past_limit hk

/-- A reading from a fresh counter ends one higher exactly when a check went past the limit. -/
theorem ReadAll.depth_eq_one_iff (h : ReadAll stop limit ts ⟨0, []⟩ x res) :
    res.2.2.depth = 1 ↔ ∃ rest, .check (limit + 1) rest ∈ res.2.2.steps := by
  constructor
  · intro hd
    rcases h with ⟨-, ⟨hd0, -⟩ | ⟨-, ⟨rest, hrest, -⟩, -⟩⟩
    · omega
    · exact ⟨rest, hrest⟩
  · rintro ⟨rest, hrest⟩
    rcases h with ⟨-, ⟨-, hlog⟩ | ⟨hd, -⟩⟩
    · cases hlog.past_limit hrest
    · exact hd

end ReadAll

variable (stop limit) in
/-- A call from any counter leaves it where it was when it succeeds, and when it fails, where
it was or, failing with the fault of nesting too deep, one higher. -/
def Restores {α : Type} (x : EStateM Diagnostic Counter α) : Prop :=
  ∀ s, match x s with
    | .ok _ s' => s'.depth = s.depth
    | .error e s' => s'.depth = s.depth ∨ s'.depth = s.depth + 1 ∧ ∃ rest, e = Syntax.tooDeepAt stop limit rest

/-- A nesting rule read as `Syntax` reads it from every depth within the limit, and failing its
check beyond it, restores the counter. -/
theorem restores_of_counted {α : Type} {ts : List Token} {x : Nat → Except Diagnostic α}
    {y : EStateM Diagnostic Counter α} (h : ∀ d, d ≤ limit → Counted stop limit d d ts (x d) y)
    (hdeep : ∀ s : Counter, limit ≤ s.depth → y s = .error (Syntax.tooDeepAt stop limit ts) (s.raise ts)) :
    Restores stop limit y := by
  intro s
  by_cases hd : s.depth ≤ limit
  · have h := h s.depth hd s rfl
    generalize x s.depth = r at h
    generalize y s = res at h ⊢
    match r, res, h with
    | .ok a, .ok b s', ⟨_, hd', _⟩ => exact hd'
    | .error e, .error e' s', ⟨_, .inl ⟨hd', _⟩⟩ => exact .inl hd'
    | .error e, .error e' s', ⟨he, .inr ⟨hd', ⟨rest, _, he'⟩, _⟩⟩ => exact .inr ⟨hd', rest, he ▸ he'⟩
  · rw [hdeep s (by omega)]
    exact .inr ⟨rfl, ts, rfl⟩

theorem value_restores {ctx : ValueContext} {ts : List Token} : Restores stop limit (value stop limit ctx ts) :=
  restores_of_counted (fun _ hd => value_counted hd) fun _ hs => by rw [value]; exact enter_bind_of_le hs

theorem selectionSet_restores {ts : List Token} : Restores stop limit (selectionSet stop limit ts) :=
  restores_of_counted (fun _ hd => selectionSet_counted hd) fun _ hs => by rw [selectionSet]; exact enter_bind_of_le hs

theorem typeRef_restores {ts : List Token} : Restores stop limit (typeRef stop limit ts) :=
  restores_of_counted (fun _ hd => typeRef_counted hd) fun _ hs => by rw [typeRef]; exact enter_bind_of_le hs

end Invariant

end Nesting

open Nesting in
/-- **The nesting counter of a parse.**  Read with the counter as state, a text parses as
`Document.parse` reads it.  Along the way every definition starts with the counter at `0`;
every check raises it to one past the constructs entered and not yet left, which is one past
the levels that the tokens read before it leave open, and at most one past the limit; every
exit lowers it from that number, never from `0`.  The counter ends at `0`, or at `1` exactly
when a check went past the limit, and such a check is where the parse fails, with the fault of
nesting too deep at the next token.  Value, selection-set and list-type calls leave the counter
as they found it when they succeed, and when they fail with any other fault. -/
theorem nesting_counter_invariant (text : String) :
    let ts := (Lexer.ofString text).significant.1
    let stop := (Lexer.ofString text).significant.2
    let run := Document.parseCounting text
    run.1 = Document.parse text ∧
      (∀ pre x post, run.2.steps = pre ++ x :: post → StepKept Diagnostic.nestingLimit ts pre x) ∧
      (run.2.depth : Int) = openCount run.2.steps ∧
      (run.2.depth = 0 ∨ run.2.depth = 1) ∧
      (run.2.depth = 1 ↔ ∃ rest, .check (Diagnostic.nestingLimit + 1) rest ∈ run.2.steps) ∧
      (∀ rest, .check (Diagnostic.nestingLimit + 1) rest ∈ run.2.steps →
        run.1.error = some (Syntax.tooDeepAt stop Diagnostic.nestingLimit rest)) ∧
      ∀ ctx ts', Restores stop Diagnostic.nestingLimit (value stop Diagnostic.nestingLimit ctx ts') ∧
        Restores stop Diagnostic.nestingLimit (selectionSet stop Diagnostic.nestingLimit ts') ∧
        Restores stop Diagnostic.nestingLimit (typeRef stop Diagnostic.nestingLimit ts') := by
  intro ts stop run
  have hread : ReadAll stop Diagnostic.nestingLimit ts ⟨0, []⟩ _ _ := definitions_counted {} ts ⟨0, []⟩ rfl
  generalize hres : Nesting.definitions stop Diagnostic.nestingLimit {} ts ⟨0, []⟩ = res at hread
  have hrun : run = (⟨res.1, res.2.1⟩, res.2.2) := by
    rw [← hres]
    rfl
  have hparse : Document.parse text = ⟨res.1, res.2.1⟩ := by
    show (⟨(Syntax.definitions stop Diagnostic.nestingLimit {} ts).1,
      (Syntax.definitions stop Diagnostic.nestingLimit {} ts).2⟩ : Parsed) = _
    rw [← hread.1]
  obtain ⟨e?, hlog⟩ := hread.log
  rw [hrun]
  exact ⟨hparse.symm, hlog.stepKept, hlog.depth_eq, hread.depth_le_one, hread.depth_eq_one_iff,
    fun _ => hread.past_limit, fun _ _ => ⟨value_restores, selectionSet_restores, typeRef_restores⟩⟩

end Gql
