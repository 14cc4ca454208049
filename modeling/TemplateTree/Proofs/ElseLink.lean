import TemplateTree.Proofs.Runs

/-!
The slot that links an else branch to its conditional. A finished conditional lets the slot point
to the else token that directly follows, at most one newline further on; whatever it pointed to
before is either behind or the same.
-/

namespace TemplateTree
set_option autoImplicit false

/-- The position of the else token that directly follows, where the first token stands at the
given one. -/
def elseAhead (place : Nat) : List Token → Option Nat
  | [] => none
  | t :: ts =>
    if t.isElse then some place
    else if t.kind = .newline ∧ ts.head?.any Token.isElse then some (place + 1)
    else none

theorem Token.not_isElse_of_newline {t : Token} (h : t.kind = .newline) : ¬ t.isElse = true := by
  obtain ⟨line, lexeme⟩ := t
  cases lexeme <;> cases h
  nofun

theorem elseAhead_eq_some {place i : Nat} {ts : List Token} : elseAhead place ts = some i ↔
    (i = place ∧ ts.head?.any Token.isElse = true) ∨
      (i = place + 1 ∧ ∃ t us, ts = t :: us ∧ t.kind = .newline ∧
        us.head?.any Token.isElse = true) := by
  cases ts with
  | nil => simp [elseAhead]
  | cons t us =>
    simp only [elseAhead, List.head?_cons, Option.any_some]
    split
    · next ht =>
      constructor
      · rintro ⟨⟩
        exact .inl ⟨rfl, ht⟩
      · rintro (⟨rfl, _⟩ | ⟨rfl, _, _, heq, hn, _⟩)
        · rfl
        · cases heq
          exact absurd ht (Token.not_isElse_of_newline hn)
    · next ht =>
      split
      · next hn =>
        constructor
        · rintro ⟨⟩
          exact .inr ⟨rfl, t, us, rfl, hn⟩
        · rintro (⟨_, he⟩ | ⟨rfl, _⟩)
          · exact absurd he ht
          · rfl
      · next hn =>
        constructor
        · nofun
        · rintro (⟨_, he⟩ | ⟨_, _, _, heq, h⟩)
          · exact absurd he ht
          · cases heq
            exact absurd h hn

/-- Two tokens decide. -/
theorem elseAhead_congr {place : Nat} {ts us : List Token} (h : us.take 2 = ts.take 2) :
    elseAhead place us = elseAhead place ts := by
  have htake (ts : List Token) : elseAhead place (ts.take 2) = elseAhead place ts := by
    rcases ts with - | ⟨t, - | ⟨u, ts⟩⟩ <;> rfl
  rw [← htake us, h, htake]

namespace State

variable {s : State} {t : Token} {ts : List Token}

theorem head?_of_isElse (hp : s.Plain) (h : s.cursor.peek.isElse = true) :
    s.cursor.tokens.head? = some s.cursor.peek :=
  head?_of_peek hp fun he => by rw [he] at h; cases h

/-- What is looked ahead at stands behind the next token. -/
theorem lookahead_two (hp : s.Plain) (hh : s.cursor.tokens.head? = some t) :
    s.cursor.lookahead 2 = s.next.cursor.peek := by
  obtain ⟨ts, hts⟩ := List.head?_eq_some_iff.mp hh
  rw [cursor_eq hp, next_eq hp hts, hts]
  rfl

/-- What a finished conditional remembers. -/
theorem rememberElse_eq (hp : s.Plain) : Linking.rememberElse s =
    { s with elseLink := (elseAhead s.cursor.consumed s.cursor.tokens).or s.elseLink } := by
  obtain ⟨⟨_, ts, _, _, _⟩, _, _, _⟩ := s
  cases hp
  rcases ts with - | ⟨t, - | ⟨u, us⟩⟩
  · rfl
  · change (if t.isElse then _ else if t.kind = .newline ∧ false = true then _ else _) = _
    cases ht : t.isElse
    · simp [elseAhead, ht]
    · simp [elseAhead, ht]
      rfl
  · change (if t.isElse then _ else if t.kind = .newline ∧ u.isElse = true then _ else _) = _
    cases ht : t.isElse
    · by_cases hu : t.kind = .newline ∧ u.isElse = true
      · simp [elseAhead, ht, hu]
        rfl
      · simp [elseAhead, ht, hu]
    · simp [elseAhead, ht]
      rfl

theorem plain_rememberElse (hp : s.Plain) : (Linking.rememberElse s).Plain := by
  rw [rememberElse_eq hp]
  exact hp

/-- The slot points no further than over the newline that comes next. -/
def LinkNear (s : State) : Prop := ∀ i ∈ s.elseLink, i ≤ s.cursor.consumed + 1 ∧
  (i = s.cursor.consumed + 1 → s.cursor.peek.kind = .newline)

theorem LinkNear.next (h : s.LinkNear) (hp : s.Plain) (ht : s.cursor.tokens = t :: ts) :
    s.next.LinkNear := by
  intro i hi
  have hle := (h i hi).1
  have hc : s.next.cursor.consumed = s.cursor.consumed + 1 := by rw [next_eq hp ht]
  exact ⟨by omega, fun hi => by omega⟩

theorem LinkNear.rememberElse (h : s.LinkNear) (hp : s.Plain) :
    (Linking.rememberElse s).LinkNear := by
  rw [rememberElse_eq hp]
  intro i hi
  rcases Option.or_eq_some_iff.mp hi with hi | ⟨_, hi⟩
  · obtain ⟨rfl, _⟩ | ⟨rfl, t, us, hts, ht, _⟩ := elseAhead_eq_some.mp hi
    · exact ⟨Nat.le_succ _, fun hi => absurd hi (Nat.ne_of_lt (Nat.lt_succ_self _))⟩
    · exact ⟨Nat.le_refl _, fun _ => (peek_cons hp hts).symm ▸ ht⟩
  · exact h i hi

end State

end TemplateTree
