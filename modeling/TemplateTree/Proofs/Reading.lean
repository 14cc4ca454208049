import TemplateTree.Proofs.Phrase
import TemplateTree.Proofs.Runs

/-!
What the events of a phrase do to the state of a parse. A phrase is read from one state to another
when its events lead there and its choices fit what is seen behind it.
-/

namespace TemplateTree
set_option autoImplicit false

/-! Tokens and their kinds. -/

/-- The lexemes that are nothing but their kind. -/
def Lexeme.isBare : Lexeme → Bool
  | default => true
  | mixinBlock => true
  | yield => true
  | startInterpolation => true
  | endInterpolation => true
  | startPipeless => true
  | endPipeless => true
  | outdent => true
  | newline => true
  | colon => true
  | dot => true
  | eos => true
  | _ => false

theorem Lexeme.eq_of_kind_eq {l m : Lexeme} (hm : m.isBare = true) (h : l.kind = m.kind) :
    l = m := by
  cases m <;> cases hm <;> cases l <;> cases h <;> rfl

namespace Token

variable {t : Token}

theorem eq_of_kind_eq {l : Lexeme} (hl : l.isBare = true) (h : t.kind = l.kind) :
    ∃ line, t = ⟨line, l⟩ :=
  ⟨t.line, by rw [← Lexeme.eq_of_kind_eq hl h]⟩

theorem eq_indent (h : t.kind = .indent) : ∃ line width, t = ⟨line, .indent width⟩ := by
  obtain ⟨line, lexeme⟩ := t
  cases lexeme <;> cases h
  exact ⟨_, _, rfl⟩

theorem exists_newlines {ts : List Token} (h : ∀ t ∈ ts, (t.kind == .newline) = true) :
    ∃ lines : List Line, ts = lines.map fun line => ⟨line, .newline⟩ := by
  induction ts with
  | nil => exact ⟨[], rfl⟩
  | cons t ts ih =>
    obtain ⟨lines, rfl⟩ := ih fun u hu => h u (List.mem_cons_of_mem _ hu)
    obtain ⟨line, rfl⟩ := eq_of_kind_eq (l := .newline) rfl (beq_iff_eq.mp (h t List.mem_cons_self))
    exact ⟨line :: lines, rfl⟩

end Token

/-! Events and states. -/

namespace Event

/-- Whether a token that stood at the given position may be read the way the event says, seen
behind the token. -/
def Allowed (place : Option Nat) (s : State) : Event → Prop
  | code _ c => c.isElse = true → Linking.slot.admits s place c = true
  | mixinBlock _ => s.mixinDepth ≠ 0
  | _ => True

/-- What an event does to the state. -/
def Step (e : Event) (s s' : State) : Prop :=
  match e with
  | finish => s' = Linking.slot.finish s
  | enterMixin => s' = s.enterMixin
  | leaveMixin => s' = s.leaveMixin
  | notices ns => s' = s.addNotices ns
  | e => e.token? = s.cursor.tokens.head? ∧ s' = s.next ∧ e.Allowed (s.cursor.position 1) s'

variable {e : Event} {t : Token} {s s' : State}

theorem step_of_token (h : e.token? = some t) : e.Step s s' ↔
    s.cursor.tokens.head? = some t ∧ s' = s.next ∧ e.Allowed (s.cursor.position 1) s' := by
  cases e <;> cases h
  all_goals
    simp only [Step, token?]
    constructor
    · rintro ⟨ht, hs⟩
      exact ⟨ht.symm, hs⟩
    · rintro ⟨ht, hs⟩
      exact ⟨ht.symm, hs⟩

/-- An event without a token leaves the cursor where it is. -/
theorem cursor_of_step (h : e.token? = none) (hs : e.Step s s') : s'.cursor = s.cursor := by
  cases e <;> cases h
  all_goals simp only [Step] at hs; subst hs
  · simp only [Linking.slot, Linking.rememberElse]
    split
    · rfl
    · split <;> rfl
  all_goals rfl

theorem plain_of_step (hp : s.Plain) (h : e.Step s s') : s'.Plain := by
  cases ht : e.token? with
  | none => exact (congrArg Cursor.deferred (cursor_of_step ht h)).trans hp
  | some t =>
    obtain ⟨hh, rfl, _⟩ := (step_of_token ht).mp h
    obtain ⟨ts, hts⟩ := List.head?_eq_some_iff.mp hh
    exact State.plain_next hp hts

theorem size_of_step (hp : s.Plain) (h : e.Step s s') : s'.size ≤ s.size := by
  cases ht : e.token? with
  | none => exact Nat.le_of_eq (congrArg Cursor.size (cursor_of_step ht h))
  | some t =>
    obtain ⟨hh, rfl, _⟩ := (step_of_token ht).mp h
    obtain ⟨ts, hts⟩ := List.head?_eq_some_iff.mp hh
    have := State.size_next hp hts
    omega

end Event

/-- The events lead from one state to the other. -/
def Leads : List Event → State → State → Prop
  | [], s, s' => s' = s
  | e :: es, s, s' => ∃ m, e.Step s m ∧ Leads es m s'

namespace Leads

variable {es fs : List Event} {e : Event} {s s' m : State}

@[simp] theorem nil_iff : Leads [] s s' ↔ s' = s := Iff.rfl

@[simp] theorem cons_iff : Leads (e :: es) s s' ↔ ∃ m, e.Step s m ∧ Leads es m s' := Iff.rfl

@[simp] theorem append_iff : Leads (es ++ fs) s s' ↔ ∃ m, Leads es s m ∧ Leads fs m s' := by
  induction es generalizing s with
  | nil => simp
  | cons e es ih =>
    simp only [List.cons_append, cons_iff, ih]
    constructor
    · rintro ⟨k, he, m, hes, hfs⟩
      exact ⟨m, ⟨k, he, hes⟩, hfs⟩
    · rintro ⟨m, ⟨k, he, hes⟩, hfs⟩
      exact ⟨k, he, m, hes, hfs⟩

theorem plain (h : Leads es s s') (hp : s.Plain) : s'.Plain := by
  induction es generalizing s with
  | nil => exact h ▸ hp
  | cons e es ih =>
    obtain ⟨m, he, hes⟩ := h
    exact ih hes (Event.plain_of_step hp he)

theorem size_le (h : Leads es s s') (hp : s.Plain) : s'.size ≤ s.size := by
  induction es generalizing s with
  | nil => exact h ▸ Nat.le_refl _
  | cons e es ih =>
    obtain ⟨m, he, hes⟩ := h
    exact Nat.le_trans (ih hes (Event.plain_of_step hp he)) (Event.size_of_step hp he)

/-- The tokens of the events are those that the cursor moves over. -/
theorem tokens_eq (h : Leads es s s') (hp : s.Plain) :
    s.cursor.tokens = es.filterMap Event.token? ++ s'.cursor.tokens := by
  induction es generalizing s with
  | nil => cases h; rfl
  | cons e es ih =>
    obtain ⟨m, he, hes⟩ := h
    have hm := ih hes (Event.plain_of_step hp he)
    cases ht : e.token? with
    | none => rw [List.filterMap_cons_none ht, ← hm, Event.cursor_of_step ht he]
    | some t =>
      obtain ⟨hh, rfl, _⟩ := (Event.step_of_token ht).mp he
      obtain ⟨ts, hts⟩ := List.head?_eq_some_iff.mp hh
      rw [State.next_eq hp hts] at hm
      rw [List.filterMap_cons_some ht, List.cons_append, ← hm, hts]

end Leads

namespace Event

variable {s s' : State} {t : Token}

theorem step_read : (read t).Step s s' ↔ s.cursor.tokens.head? = some t ∧ s' = s.next := by
  rw [step_of_token (t := t) rfl]
  simp only [Allowed, and_true]

theorem peek_of_step_read (hp : s.Plain) (h : (read t).Step s s') : s.cursor.peek = t :=
  State.peek_of_head? hp (step_read.mp h).1

theorem step_read_of_peek (hp : s.Plain) (h : s.cursor.peek ≠ s.cursor.eos) :
    (read s.cursor.peek).Step s s.next :=
  step_read.mpr ⟨State.head?_of_peek hp h, rfl⟩

theorem line_of_step_read (hp : s.Plain) (h : (read t).Step s s') : s'.cursor.line = t.line := by
  obtain ⟨hh, rfl⟩ := step_read.mp h
  exact State.line_next hp hh

end Event

namespace Phrase

variable {g : Symbol} {s s' : State}

/-- What is seen where a phrase begins. -/
theorem lexeme_peek (t : Phrase g) (hp : s.Plain) (h : Leads t.trace s s') :
    s.cursor.peek.lexeme = t.lead s'.cursor.peek.lexeme := by
  rw [State.peek_eq hp, h.tokens_eq hp, State.peek_eq (h.plain hp), lead]
  change _ = ((t.trace.filterMap Event.token?).head?.map Token.lexeme).getD _
  cases t.trace.filterMap Event.token? with
  | nil =>
    cases s'.cursor.tokens <;> rfl
  | cons t ts => rfl

end Phrase

/-- A run of tokens that pass a test, as far as it goes. -/
theorem leads_takeWhile (p : Token → Bool) (run : List Token) (s' : State) {s : State}
    (he : ∀ line, p (.eos line) = false) (hp : s.Plain) :
    ((∀ t ∈ run, p t = true) ∧ Leads (run.map .read) s s' ∧ p s'.cursor.peek = false) ↔
      run = s.cursor.tokens.takeWhile p ∧ s' = s.skip run.length := by
  induction run generalizing s with
  | nil =>
    simp only [List.not_mem_nil, false_implies, implies_true, true_and, List.map_nil,
      Leads.nil_iff, List.length_nil, State.skip_zero]
    cases ht : s.cursor.tokens with
    | nil =>
      rw [List.takeWhile_nil]
      refine ⟨fun h => ⟨rfl, h.1⟩, fun h => ⟨h.2, ?_⟩⟩
      rw [h.2, State.peek_nil hp ht]
      exact he _
    | cons t ts =>
      rw [List.takeWhile_cons]
      constructor
      · rintro ⟨rfl, h⟩
        rw [State.peek_cons hp ht] at h
        simp [h]
      · rintro ⟨h, rfl⟩
        refine ⟨rfl, ?_⟩
        rw [State.peek_cons hp ht]
        by_contra hc
        simp [hc] at h
  | cons r run ih =>
    simp only [List.map_cons, Leads.cons_iff, List.mem_cons, forall_eq_or_imp, Event.step_read,
      List.length_cons, State.skip_succ]
    cases ht : s.cursor.tokens with
    | nil => simp
    | cons t ts =>
      have hs : s.next.cursor.tokens = ts := by rw [State.next_eq hp ht]
      have ih := ih (State.plain_next hp ht)
      rw [hs] at ih
      rw [List.takeWhile_cons]
      constructor
      · rintro ⟨⟨hr, hrun⟩, ⟨m, ⟨hh, rfl⟩, hl⟩, hstop⟩
        cases hh
        obtain ⟨rfl, rfl⟩ := ih.mp ⟨hrun, hl, hstop⟩
        simp [hr]
      · rintro ⟨heq, rfl⟩
        split at heq
        · next hr =>
          obtain ⟨rfl, hrun⟩ := List.cons.inj heq
          obtain ⟨hrun, hl, hstop⟩ := ih.mpr ⟨hrun, rfl⟩
          exact ⟨⟨hr, hrun⟩, ⟨_, ⟨rfl, rfl⟩, hl⟩, hstop⟩
        · cases heq

/-- A phrase of the symbol is read from one state to the other and stands for the value. -/
def Symbol.ReadBy (scope : Scope) (g : Symbol) (s : State) (v : g.Value) (s' : State) : Prop :=
  ∃ t : Phrase g, t.Fits s'.cursor.peek.lexeme ∧ v = t.value scope ∧ Leads t.trace s s'

end TemplateTree
