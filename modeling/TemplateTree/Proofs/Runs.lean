import TemplateTree.Grammar.Expression

/-!
Runs and failures of routines. A routine started in a state either runs to a value and a state or
fails with a fault, and never both. The rules say for each way of building routines what its runs
and failures are; the bound that makes the recursion end appears in them only as a condition on
the first state.
-/

namespace TemplateTree
set_option autoImplicit false

namespace Routine

variable {n : Nat} {α β : Type} {s s' : State} {a b : α} {e e' : Fault}

/-- Started in the first state, the routine answers with the value in the second. -/
def Runs (r : Routine n α) (s : State) (a : α) (s' : State) : Prop :=
  ∃ h size_le, r s h = .ok ⟨a, s', size_le⟩

def Fails (r : Routine n α) (s : State) (e : Fault) : Prop := ∃ h, r s h = .error e

theorem Runs.size_lt {r : Routine n α} (h : r.Runs s a s') : s.size < n := h.1

theorem Runs.size_le {r : Routine n α} (h : r.Runs s a s') : s'.size ≤ s.size := h.2.1

theorem Fails.size_lt {r : Routine n α} (h : r.Fails s e) : s.size < n := h.1

/-- Within its bound every routine comes to an end. -/
theorem runs_or_fails (r : Routine n α) (h : s.size < n) :
    (∃ a s', r.Runs s a s') ∨ ∃ e, r.Fails s e := by
  cases hr : r s h with
  | ok answer => exact .inl ⟨answer.value, answer.state, h, answer.size_le, hr⟩
  | error e => exact .inr ⟨e, h, hr⟩

/-- A routine runs when something can be computed from its answer. -/
theorem exists_runs {r : Routine n α} {f : α → β} {b : β} (h : s.size < n)
    (hr : (r s h).toOption.map (fun answer => f answer.value) = some b) :
    ∃ a s', r.Runs s a s' ∧ f a = b := by
  cases ha : r s h with
  | error e =>
    rw [ha] at hr
    cases hr
  | ok answer =>
    rw [ha] at hr
    exact ⟨answer.value, answer.state, ⟨h, answer.size_le, ha⟩, Option.some.inj hr⟩

/-! Pure routines, sequences and failures. -/

@[simp] theorem runs_pure : (pure a : Routine n α).Runs s b s' ↔ s.size < n ∧ b = a ∧ s' = s := by
  constructor
  · rintro ⟨h, _, hr⟩
    cases hr
    exact ⟨h, rfl, rfl⟩
  · rintro ⟨h, rfl, rfl⟩
    exact ⟨h, Nat.le_refl _, rfl⟩

@[simp] theorem not_fails_pure : ¬ (pure a : Routine n α).Fails s e := by
  rintro ⟨_, h⟩
  cases h

theorem bind_pure (r : Routine n α) : (r >>= pure) = r := by
  funext s h
  simp only [bind, Routine.bind]
  cases r s h <;> rfl

theorem runs_bind {r : Routine n α} {f : α → Routine n β} {b : β} :
    (r >>= f).Runs s b s' ↔ ∃ a s₁, r.Runs s a s₁ ∧ (f a).Runs s₁ b s' := by
  constructor
  · rintro ⟨h, _, hr⟩
    simp only [bind, Routine.bind] at hr
    cases hx : r s h with
    | error e => simp [hx] at hr
    | ok x =>
      simp only [hx] at hr
      have hlt := Nat.lt_of_le_of_lt x.size_le h
      cases hy : f x.value x.state hlt with
      | error e => simp [hy] at hr
      | ok y =>
        simp only [hy, Except.ok.injEq] at hr
        cases hr
        exact ⟨x.value, x.state, ⟨h, x.size_le, hx⟩, hlt, y.size_le, hy⟩
  · rintro ⟨a, s₁, ⟨h, hle, hx⟩, ⟨h₁, hle₁, hy⟩⟩
    exact ⟨h, Nat.le_trans hle₁ hle, by simp only [bind, Routine.bind, hx, hy]⟩

theorem fails_bind {r : Routine n α} {f : α → Routine n β} :
    (r >>= f).Fails s e ↔ r.Fails s e ∨ ∃ a s₁, r.Runs s a s₁ ∧ (f a).Fails s₁ e := by
  constructor
  · rintro ⟨h, hr⟩
    simp only [bind, Routine.bind] at hr
    cases hx : r s h with
    | error e' =>
      simp only [hx, Except.error.injEq] at hr
      exact .inl ⟨h, hr ▸ hx⟩
    | ok x =>
      simp only [hx] at hr
      have hlt := Nat.lt_of_le_of_lt x.size_le h
      cases hy : f x.value x.state hlt with
      | error e' =>
        simp only [hy, Except.error.injEq] at hr
        exact .inr ⟨x.value, x.state, ⟨h, x.size_le, hx⟩, hlt, hr ▸ hy⟩
      | ok y => simp [hy] at hr
  · rintro (⟨h, hx⟩ | ⟨a, s₁, ⟨h, hle, hx⟩, ⟨h₁, hy⟩⟩)
    · exact ⟨h, by simp only [bind, Routine.bind, hx]⟩
    · exact ⟨h, by simp only [bind, Routine.bind, hx, hy]⟩

@[simp] theorem not_runs_fail {cause : Cause} {line : Line} :
    ¬ (fail cause line : Routine n α).Runs s a s' := by
  rintro ⟨_, _, h⟩
  cases h

@[simp] theorem fails_fail {cause : Cause} {line : Line} :
    (fail cause line : Routine n α).Fails s e ↔ s.size < n ∧ e = ⟨cause, line⟩ := by
  constructor
  · rintro ⟨h, hr⟩
    cases hr
    exact ⟨h, rfl⟩
  · rintro ⟨h, rfl⟩
    exact ⟨h, rfl⟩

/-! Routines that only look at the state or change what is not read. -/

theorem runs_look {f : State → α} : (look f : Routine n α).Runs s a s' ↔
    s.size < n ∧ a = f s ∧ s' = s := by
  constructor
  · rintro ⟨h, _, hr⟩
    cases hr
    exact ⟨h, rfl, rfl⟩
  · rintro ⟨h, rfl, rfl⟩
    exact ⟨h, Nat.le_refl _, rfl⟩

theorem not_fails_look {f : State → α} : ¬ (look f : Routine n α).Fails s e := by
  rintro ⟨_, h⟩
  cases h

theorem look_bind_apply {g : State → α} {f : α → Routine n β} : (look g >>= f) s = f (g s) s := by
  funext h
  simp only [bind, Routine.bind, look]
  cases f (g s) s h <;> rfl

@[simp] theorem runs_look_bind {g : State → α} {f : α → Routine n β} {b : β} :
    (look g >>= f).Runs s b s' ↔ (f (g s)).Runs s b s' := by
  rw [runs_bind]
  constructor
  · rintro ⟨a, s₁, hl, hf⟩
    obtain ⟨_, rfl, rfl⟩ := runs_look.mp hl
    exact hf
  · exact fun hf => ⟨g s, s, runs_look.mpr ⟨hf.size_lt, rfl, rfl⟩, hf⟩

@[simp] theorem fails_look_bind {g : State → α} {f : α → Routine n β} :
    (look g >>= f).Fails s e ↔ (f (g s)).Fails s e := by
  rw [fails_bind]
  constructor
  · rintro (h | ⟨a, s₁, hl, hf⟩)
    · exact absurd h not_fails_look
    · obtain ⟨_, rfl, rfl⟩ := runs_look.mp hl
      exact hf
  · exact fun hf => .inr ⟨g s, s, runs_look.mpr ⟨hf.size_lt, rfl, rfl⟩, hf⟩

@[simp] theorem runs_peek_bind {f : Token → Routine n β} {b : β} :
    (peek >>= f).Runs s b s' ↔ (f s.cursor.peek).Runs s b s' := runs_look_bind

@[simp] theorem fails_peek_bind {f : Token → Routine n β} :
    (peek >>= f).Fails s e ↔ (f s.cursor.peek).Fails s e := fails_look_bind

@[simp] theorem runs_modify {f : State → State} {size_le : ∀ s, (f s).size ≤ s.size} {u : Unit} :
    (modify f size_le : Routine n Unit).Runs s u s' ↔ s.size < n ∧ s' = f s := by
  constructor
  · rintro ⟨h, _, hr⟩
    cases hr
    exact ⟨h, rfl⟩
  · rintro ⟨h, rfl⟩
    exact ⟨h, size_le s, rfl⟩

@[simp] theorem not_fails_modify {f : State → State} {size_le : ∀ s, (f s).size ≤ s.size} :
    ¬ (modify f size_le : Routine n Unit).Fails s e := by
  rintro ⟨_, h⟩
  cases h

theorem runs_addNotices {ns : List Notice} {u : Unit} :
    (addNotices ns : Routine n Unit).Runs s u s' ↔ s.size < n ∧ s' = s.addNotices ns := runs_modify

theorem not_fails_addNotices {ns : List Notice} : ¬ (addNotices ns : Routine n Unit).Fails s e :=
  not_fails_modify

@[simp] theorem runs_ofExcept {x : Except Fault α} :
    (ofExcept x : Routine n α).Runs s a s' ↔ s.size < n ∧ x = .ok a ∧ s' = s := by
  constructor
  · rintro ⟨h, _, hr⟩
    cases x with
    | error e => cases hr
    | ok a => cases hr; exact ⟨h, rfl, rfl⟩
  · rintro ⟨h, rfl, rfl⟩
    exact ⟨h, Nat.le_refl _, rfl⟩

@[simp] theorem fails_ofExcept {x : Except Fault α} :
    (ofExcept x : Routine n α).Fails s e ↔ s.size < n ∧ x = .error e := by
  constructor
  · rintro ⟨h, hr⟩
    cases x with
    | error e => cases hr; exact ⟨h, rfl⟩
    | ok a => cases hr
  · rintro ⟨h, rfl⟩
    exact ⟨h, rfl⟩

end Routine

/-! Reading tokens. -/

namespace State

/-- The state behind the next token. -/
def next (s : State) : State := { s with cursor := s.cursor.advance.2 }

/-- Nothing was put back. Routines put a token back only to read it again at once. -/
def Plain (s : State) : Prop := s.cursor.deferred = []

variable {s : State} {t : Token} {ts : List Token}

theorem cursor_eq (h : s.Plain) : s.cursor =
    ⟨[], s.cursor.tokens, s.cursor.consumed, s.cursor.line, s.cursor.endLine⟩ := by
  obtain ⟨⟨_, _, _, _, _⟩, _, _, _⟩ := s
  cases h
  rfl

theorem size_eq (h : s.Plain) : s.size = s.cursor.tokens.length := by
  rw [size, cursor_eq h]
  exact Nat.zero_add _

theorem peek_cons (h : s.Plain) (ht : s.cursor.tokens = t :: ts) : s.cursor.peek = t := by
  rw [cursor_eq h, ht]
  rfl

theorem peek_nil (h : s.Plain) (ht : s.cursor.tokens = []) : s.cursor.peek = s.cursor.eos := by
  rw [cursor_eq h, ht]
  rfl

theorem next_eq (h : s.Plain) (ht : s.cursor.tokens = t :: ts) : s.next =
    { s with cursor := ⟨[], ts, s.cursor.consumed + 1, t.line, s.cursor.endLine⟩ } := by
  rw [next, cursor_eq h, ht]
  rfl

theorem plain_next (h : s.Plain) (ht : s.cursor.tokens = t :: ts) : s.next.Plain := by
  rw [next_eq h ht]
  rfl

theorem size_next (h : s.Plain) (ht : s.cursor.tokens = t :: ts) : s.next.size + 1 = s.size := by
  rw [size_eq h, size_eq (plain_next h ht), next_eq h ht, ht]
  rfl

theorem peek_eq (hp : s.Plain) : s.cursor.peek = s.cursor.tokens.head?.getD s.cursor.eos := by
  rw [cursor_eq hp]
  cases s.cursor.tokens <;> rfl

theorem remaining_eq (hp : s.Plain) : s.cursor.remaining = s.cursor.tokens := by
  rw [cursor_eq hp]
  rfl

theorem peek_of_head? (hp : s.Plain) (h : s.cursor.tokens.head? = some t) : s.cursor.peek = t := by
  rw [peek_eq hp, h]
  rfl

/-- Only the end of the stream may be seen where no token is left. -/
theorem head?_of_peek (hp : s.Plain) (h : s.cursor.peek ≠ s.cursor.eos) :
    s.cursor.tokens.head? = some s.cursor.peek := by
  cases ht : s.cursor.tokens with
  | nil => exact absurd (peek_nil hp ht) h
  | cons t ts =>
    rw [peek_cons hp ht]
    rfl

theorem exists_cons_of_peek (hp : s.Plain) (h : s.cursor.peek.kind ≠ .eos) :
    ∃ ts, s.cursor.tokens = s.cursor.peek :: ts :=
  List.head?_eq_some_iff.mp (head?_of_peek hp fun he => h (by rw [he]; rfl))

theorem line_next (hp : s.Plain) (h : s.cursor.tokens.head? = some t) :
    s.next.cursor.line = t.line := by
  obtain ⟨ts, hts⟩ := List.head?_eq_some_iff.mp h
  rw [next_eq hp hts]

/-- The state behind several tokens. -/
def skip (k : Nat) (s : State) : State := { s with cursor := s.cursor.skip k }

theorem skip_zero : s.skip 0 = s := rfl

theorem skip_succ (k : Nat) : s.skip (k + 1) = s.next.skip k := rfl

theorem tokens_next (h : s.Plain) (ht : s.cursor.tokens = t :: ts) : s.next.cursor.tokens = ts := by
  rw [next_eq h ht]

/-- A head token that is put back behind itself changes nothing but what the run of head tokens
starts with. -/
theorem spanHead_defer (h : s.Plain) (hl : s.cursor.line = t.line) (ht : t.isHead = true) :
    (s.cursor.defer t).spanHead = (t :: s.cursor.tokens.takeWhile Token.isHead,
      s.cursor.skip (s.cursor.tokens.takeWhile Token.isHead).length) := by
  obtain ⟨⟨_, _, _, _, _⟩, _, _, _⟩ := s
  cases h
  cases hl
  simp only [Cursor.spanHead, Cursor.remaining, Cursor.defer, List.cons_append, List.nil_append,
    List.takeWhile_cons, ht, if_true, List.length_cons, Cursor.skip]
  rfl

theorem position_nil (h : s.Plain) (ht : s.cursor.tokens = []) : s.cursor.position 1 = none := by
  rw [cursor_eq h, ht]
  rfl

theorem position_cons (h : s.Plain) (ht : s.cursor.tokens = t :: ts) :
    s.cursor.position 1 = some s.cursor.consumed := by
  rw [cursor_eq h, ht]
  rfl

end State

/-- Three things can be next: a token that was put back, one of the list, or the end. -/
theorem Cursor.front_cases (c : Cursor) {motive : Cursor → Prop}
    (back : ∀ t ds ts consumed line endLine, motive ⟨t :: ds, ts, consumed, line, endLine⟩)
    (listed : ∀ t ts consumed line endLine, motive ⟨[], t :: ts, consumed, line, endLine⟩)
    (ended : ∀ consumed line endLine, motive ⟨[], [], consumed, line, endLine⟩) : motive c := by
  obtain ⟨ds, ts, consumed, line, endLine⟩ := c
  cases ds with
  | cons t ds => exact back t ds ts consumed line endLine
  | nil =>
    cases ts with
    | cons t ts => exact listed t ts consumed line endLine
    | nil => exact ended consumed line endLine

namespace Routine

variable {n : Nat} {α β : Type} {s s' : State} {a b : α} {e : Fault}

theorem advance_fst (c : Cursor) : c.advance.1 = c.peek := by
  cases c using Cursor.front_cases <;> rfl

@[simp] theorem runs_next {t : Token} : (next : Routine n Token).Runs s t s' ↔
    s.size < n ∧ t = s.cursor.peek ∧ s' = s.next := by
  rw [← advance_fst]
  constructor
  · rintro ⟨h, _, hr⟩
    cases hr
    exact ⟨h, rfl, rfl⟩
  · rintro ⟨h, rfl, rfl⟩
    exact ⟨h, Cursor.size_advance _, rfl⟩

@[simp] theorem not_fails_next : ¬ (next : Routine n Token).Fails s e := by
  rintro ⟨_, h⟩
  cases h

theorem runs_next_bind {f : Token → Routine n β} {b : β} :
    (next >>= f).Runs s b s' ↔ s.size < n ∧ (f s.cursor.peek).Runs s.next b s' := by
  rw [runs_bind]
  constructor
  · rintro ⟨t, m, hn, hf⟩
    obtain ⟨hlt, rfl, rfl⟩ := runs_next.mp hn
    exact ⟨hlt, hf⟩
  · exact fun ⟨hlt, hf⟩ => ⟨_, _, runs_next.mpr ⟨hlt, rfl, rfl⟩, hf⟩

theorem fails_next_bind {f : Token → Routine n β} :
    (next >>= f).Fails s e ↔ s.size < n ∧ (f s.cursor.peek).Fails s.next e := by
  rw [fails_bind]
  constructor
  · rintro (h | ⟨t, m, hn, hf⟩)
    · exact absurd h not_fails_next
    · obtain ⟨hlt, rfl, rfl⟩ := runs_next.mp hn
      exact ⟨hlt, hf⟩
  · exact fun ⟨hlt, hf⟩ => .inr ⟨_, _, runs_next.mpr ⟨hlt, rfl, rfl⟩, hf⟩

@[simp] theorem runs_acceptIf {test : Token → Bool} {o : Option Token} :
    (acceptIf test : Routine n (Option Token)).Runs s o s' ↔ s.size < n ∧
      (if test s.cursor.peek then o = some s.cursor.peek ∧ s' = s.next else o = none ∧ s' = s) := by
  rw [acceptIf, runs_peek_bind]
  split
  · rw [runs_bind]
    constructor
    · rintro ⟨t, s₁, hn, hp⟩
      obtain ⟨h, rfl, rfl⟩ := runs_next.mp hn
      obtain ⟨_, rfl, rfl⟩ := runs_pure.mp hp
      exact ⟨h, rfl, rfl⟩
    · rintro ⟨h, rfl, rfl⟩
      have hn : (next : Routine n Token).Runs s s.cursor.peek s.next := runs_next.mpr ⟨h, rfl, rfl⟩
      exact ⟨_, _, hn, runs_pure.mpr ⟨Nat.lt_of_le_of_lt hn.size_le h, rfl, rfl⟩⟩
  · exact runs_pure

@[simp] theorem not_fails_acceptIf {test : Token → Bool} :
    ¬ (acceptIf test : Routine n (Option Token)).Fails s e := by
  rw [acceptIf, fails_peek_bind]
  split
  · rw [fails_bind]
    rintro (h | ⟨t, s₁, _, h⟩)
    · exact not_fails_next h
    · exact not_fails_pure h
  · exact not_fails_pure

/-- The line of a cursor is that of the token read last. -/
theorem line_advance (c : Cursor) : c.advance.2.line = c.advance.1.line := by
  cases c using Cursor.front_cases <;> rfl

/-- A look at the line shows that of the token that was just read. -/
theorem accept_look_line {kind : TokenKind} {f : Line → Routine n β} {r : Routine n β} :
    (accept kind >>= fun
      | some _ => look (fun s => s.cursor.line) >>= f
      | none => r) =
    accept kind >>= fun
      | some t => f t.line
      | none => r := by
  funext s h
  by_cases hk : (s.cursor.peek.kind == kind) = true
  · have hread : (accept kind : Routine n (Option Token)) s h = .ok ⟨some s.cursor.advance.1,
        { s with cursor := s.cursor.advance.2 }, Cursor.size_advance _⟩ := by
      simp only [accept, acceptIf, peek, look, Bind.bind, Routine.bind, hk, if_true]
      rfl
    simp only [Bind.bind, Routine.bind, hread, look, line_advance]
    cases f s.cursor.advance.1.line { s with cursor := s.cursor.advance.2 }
      (Nat.lt_of_le_of_lt (Cursor.size_advance _) h) <;> rfl
  · have hleft : (accept kind : Routine n (Option Token)) s h = .ok ⟨none, s, Nat.le_refl _⟩ := by
      simp only [accept, acceptIf, peek, look, Bind.bind, Routine.bind, hk]
      rfl
    simp only [Bind.bind, Routine.bind, hleft]

@[simp] theorem runs_expect {kind : TokenKind} {t : Token} :
    (expect kind : Routine n Token).Runs s t s' ↔
      s.size < n ∧ s.cursor.peek.kind = kind ∧ t = s.cursor.peek ∧ s' = s.next := by
  rw [expect, runs_peek_bind]
  split
  · next hk => simp [hk]
  · next hk => simp [hk]

@[simp] theorem fails_expect {kind : TokenKind} :
    (expect kind : Routine n Token).Fails s e ↔ s.size < n ∧ s.cursor.peek.kind ≠ kind ∧
      e = ⟨.expected kind s.cursor.peek.kind, s.cursor.peek.line⟩ := by
  rw [expect, fails_peek_bind]
  split
  · next hk => simp [hk]
  · next hk => simp [hk]

@[simp] theorem runs_skipNewlines {u : Unit} : (skipNewlines : Routine n Unit).Runs s u s' ↔
    s.size < n ∧ s' = s.skip (s.cursor.remaining.takeWhile fun t => t.kind == .newline).length := by
  constructor
  · rintro ⟨h, _, hr⟩
    cases hr
    exact ⟨h, rfl⟩
  · rintro ⟨h, rfl⟩
    exact ⟨h, Cursor.size_skip _ _, rfl⟩

@[simp] theorem not_fails_skipNewlines : ¬ (skipNewlines : Routine n Unit).Fails s e := by
  rintro ⟨_, h⟩
  cases h

/-- The shorthand that opens a run of head tokens, if one does, was read last. -/
def OpenedBy (shorthand : Option { t : Token // t.isHead = true }) (s : State) : Prop :=
  ∀ t ∈ shorthand, s.cursor.line = t.1.line

theorem runs_headRun {shorthand : Option { t : Token // t.isHead = true }} {run : List Token}
    (h : s.Plain) (ho : OpenedBy shorthand s) :
    (headRun shorthand : Routine n (List Token)).Runs s run s' ↔ s.size < n ∧
      run = (shorthand.map Subtype.val).toList ++ s.cursor.tokens.takeWhile Token.isHead ∧
      s' = s.skip (s.cursor.tokens.takeWhile Token.isHead).length := by
  cases shorthand with
  | none =>
    have hr : s.cursor.remaining = s.cursor.tokens := by
      rw [State.cursor_eq h]
      rfl
    constructor
    · rintro ⟨hlt, _, hr'⟩
      cases hr'
      exact ⟨hlt, by simp [Cursor.spanHead, hr], by simp [Cursor.spanHead, hr, State.skip]⟩
    · rintro ⟨hlt, rfl, rfl⟩
      refine ⟨hlt, Cursor.size_skip _ _, ?_⟩
      simp [headRun, Cursor.spanHead, hr, State.skip]
  | some t =>
    have hs := State.spanHead_defer h (ho t rfl) t.2
    constructor
    · rintro ⟨hlt, _, hr'⟩
      cases hr'
      exact ⟨hlt, by simp [hs], by simp [hs, State.skip]⟩
    · rintro ⟨hlt, rfl, rfl⟩
      refine ⟨hlt, Cursor.size_skip _ _, ?_⟩
      simp [headRun, hs, State.skip]

@[simp] theorem not_fails_headRun {shorthand : Option { t : Token // t.isHead = true }} :
    ¬ (headRun shorthand : Routine n (List Token)).Fails s e := by
  rintro ⟨_, h⟩
  cases shorthand <;> cases h

/-- The run of head tokens that comes next, behind the shorthand that opens it. -/
def headsAt (shorthand : Option { t : Token // t.isHead = true }) (s : State) : List Token :=
  (shorthand.map Subtype.val).toList ++ s.cursor.tokens.takeWhile Token.isHead

theorem runs_head {shorthand : Option { t : Token // t.isHead = true }} {selfClosing : Bool}
    {v : Head} (h : s.Plain) (ho : OpenedBy shorthand s) :
    (Grammar.head selfClosing shorthand : Routine n Head).Runs s v s' ↔ s.size < n ∧
      Head.ofRun selfClosing (headsAt shorthand s) = .ok v ∧
        s' = (s.skip (s.cursor.tokens.takeWhile Token.isHead).length).addNotices
          (Head.notices false (headsAt shorthand s)) := by
  have hsize : (s.skip (s.cursor.tokens.takeWhile Token.isHead).length).size ≤ s.size :=
    Cursor.size_skip _ _
  simp only [Grammar.head, runs_bind, runs_headRun h ho, runs_ofExcept, runs_addNotices, runs_pure]
  constructor
  · rintro ⟨_, _, ⟨hlt, rfl, rfl⟩, _, _, ⟨_, hv, rfl⟩, _, _, ⟨_, rfl⟩, _, rfl, rfl⟩
    exact ⟨hlt, hv, rfl⟩
  · rintro ⟨hlt, hv, rfl⟩
    have hlt' := Nat.lt_of_le_of_lt hsize hlt
    exact ⟨_, _, ⟨hlt, rfl, rfl⟩, _, _, ⟨hlt', hv, rfl⟩, (), _, ⟨hlt', rfl⟩, hlt', rfl, rfl⟩

theorem fails_head {shorthand : Option { t : Token // t.isHead = true }} {selfClosing : Bool}
    (h : s.Plain) (ho : OpenedBy shorthand s) :
    (Grammar.head selfClosing shorthand : Routine n Head).Fails s e ↔ s.size < n ∧
      Head.ofRun selfClosing (headsAt shorthand s) = .error e := by
  have hsize : (s.skip (s.cursor.tokens.takeWhile Token.isHead).length).size ≤ s.size :=
    Cursor.size_skip _ _
  simp only [Grammar.head, fails_bind, runs_headRun h ho, not_fails_headRun, false_or,
    fails_ofExcept, not_fails_addNotices, not_fails_pure, and_false, exists_false, or_false]
  constructor
  · rintro ⟨_, _, ⟨hlt, rfl, rfl⟩, _, hv⟩
    exact ⟨hlt, hv⟩
  · rintro ⟨hlt, hv⟩
    exact ⟨_, _, ⟨hlt, rfl, rfl⟩, Nat.lt_of_le_of_lt hsize hlt, hv⟩

section Opening

variable {go : Option Nat → Token → Option (Routine n α)} {stop : Token → Routine (n + 1) α}
variable {t : Token} {ts : List Token}

/-- Where no token opens anything, what comes next is left to the other routine. -/
theorem opening_stop (h : s.Plain)
    (hg : ∀ t ∈ s.cursor.tokens.head?, go (s.cursor.position 1) t = none) :
    opening go stop s = stop s.cursor.peek s := by
  obtain ⟨⟨_, ts, _, _, _⟩, _, _, _⟩ := s
  cases h
  cases ts with
  | nil => rfl
  | cons t ts =>
    funext hlt
    simp only [opening, Cursor.next?]
    split
    · rfl
    · next hr => cases (hg t rfl).symm.trans hr

/-- Either nothing is opened, or the token that comes next opens something. -/
theorem opens_or_not (go : Option Nat → Token → Option (Routine n α)) (h : s.Plain) :
    (∀ t ∈ s.cursor.tokens.head?, go (s.cursor.position 1) t = none) ∨
      ∃ t ts r, s.cursor.tokens = t :: ts ∧ go (some s.cursor.consumed) t = some r := by
  cases ht : s.cursor.tokens with
  | nil => exact .inl nofun
  | cons t ts =>
    rw [State.position_cons h ht]
    cases hg : go (some s.cursor.consumed) t with
    | some r => exact .inr ⟨t, ts, r, rfl, hg⟩
    | none =>
      left
      rintro _ ⟨⟩
      exact hg

variable {r : Routine n α}

/-- What a token opens runs below, behind that token. -/
theorem runs_opening (h : s.Plain) (ht : s.cursor.tokens = t :: ts)
    (hg : go (some s.cursor.consumed) t = some r) :
    (opening go stop).Runs s a s' ↔ r.Runs s.next a s' := by
  have hs := State.size_next h ht
  obtain ⟨⟨_, _, _, _, _⟩, _, _, _⟩ := s
  cases h
  cases ht
  constructor
  · rintro ⟨hlt, _, hr⟩
    simp only [opening, Cursor.next?] at hr
    split at hr
    · next hn => cases hg.symm.trans hn
    · next r' hn =>
      cases hg.symm.trans hn
      split at hr
      · cases hr
      · next x hx =>
        cases hr
        exact ⟨by omega, x.size_le, hx⟩
  · rintro ⟨hlt, hle, hr⟩
    refine ⟨by omega, by omega, ?_⟩
    simp only [opening, Cursor.next?]
    split
    · next hn => cases hg.symm.trans hn
    · next r' hn =>
      cases hg.symm.trans hn
      split
      · next hx => cases hr.symm.trans hx
      · next x hx =>
        cases hr.symm.trans hx
        rfl

theorem fails_opening (h : s.Plain) (ht : s.cursor.tokens = t :: ts)
    (hg : go (some s.cursor.consumed) t = some r) :
    (opening go stop).Fails s e ↔ r.Fails s.next e := by
  have hs := State.size_next h ht
  obtain ⟨⟨_, _, _, _, _⟩, _, _, _⟩ := s
  cases h
  cases ht
  constructor
  · rintro ⟨hlt, hr⟩
    simp only [opening, Cursor.next?] at hr
    split at hr
    · next hn => cases hg.symm.trans hn
    · next r' hn =>
      cases hg.symm.trans hn
      split at hr
      · next hx =>
        cases hr
        exact ⟨by omega, hx⟩
      · cases hr
  · rintro ⟨hlt, hr⟩
    refine ⟨by omega, ?_⟩
    simp only [opening, Cursor.next?]
    split
    · next hn => cases hg.symm.trans hn
    · next r' hn =>
      cases hg.symm.trans hn
      split
      · next hx => cases hr.symm.trans hx; rfl
      · next hx => cases hr.symm.trans hx

end Opening

end Routine

end TemplateTree
