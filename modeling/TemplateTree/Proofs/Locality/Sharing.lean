import Mathlib.Data.List.TakeWhile
import TemplateTree.Proofs.Runs

/-!
States that share a past and some of the tokens ahead, and what stays shared when tokens are read.
-/

namespace TemplateTree
set_option autoImplicit false

namespace State

/-- The states have the same past, and the given number of tokens ahead are the same. A link that
points further ahead may differ. -/
structure Shares (k : Nat) (s u : State) : Prop where
  plain : s.Plain
  plain' : u.Plain
  tokens : u.cursor.tokens.take k = s.cursor.tokens.take k
  endLine : s.cursor.tokens.length < k → u.cursor.endLine = s.cursor.endLine
  consumed : u.cursor.consumed = s.cursor.consumed
  line : u.cursor.line = s.cursor.line
  mixinDepth : u.mixinDepth = s.mixinDepth
  link : ∀ i t, i < k → s.cursor.tokens[i]? = some t → t.isElse = true →
    (u.elseLink = some (s.cursor.consumed + i) ↔ s.elseLink = some (s.cursor.consumed + i))

/-- The second state stands the given number of tokens behind the first one, and none of these
is an end of the stream. -/
structure Passes (k : Nat) (s s' : State) : Prop where
  le : k ≤ s.cursor.tokens.length
  tokens : s'.cursor.tokens = s.cursor.tokens.drop k
  endLine : s'.cursor.endLine = s.cursor.endLine
  proper : ∀ t ∈ s.cursor.tokens.take k, t.kind ≠ .eos

variable {j k : Nat} {s s' u u' m : State} {t : Token} {ts : List Token}

namespace Shares

theorem refl (k : Nat) (hp : s.Plain) : Shares k s s where
  plain := hp
  plain' := hp
  tokens := rfl
  endLine _ := rfl
  consumed := rfl
  line := rfl
  mixinDepth := rfl
  link _ _ _ _ _ := Iff.rfl

theorem mono (h : Shares k s u) (hj : j ≤ k) : Shares j s u where
  plain := h.plain
  plain' := h.plain'
  tokens := by
    have ht := congrArg (List.take j) h.tokens
    rwa [List.take_take, List.take_take, Nat.min_eq_left hj] at ht
  endLine hlt := h.endLine (Nat.lt_of_lt_of_le hlt hj)
  consumed := h.consumed
  line := h.line
  mixinDepth := h.mixinDepth
  link i t hi := h.link i t (Nat.lt_of_lt_of_le hi hj)

theorem next (h : Shares (k + 1) s u) (ht : s.cursor.tokens = t :: ts) :
    ∃ us, u.cursor.tokens = t :: us ∧ Shares k s.next u.next := by
  have htokens := h.tokens
  rw [ht, List.take_succ_cons] at htokens
  cases hu : u.cursor.tokens with
  | nil =>
    rw [hu] at htokens
    cases htokens
  | cons v us =>
    rw [hu, List.take_succ_cons] at htokens
    obtain ⟨rfl, hrest⟩ := List.cons.inj htokens
    refine ⟨us, rfl, plain_next h.plain ht, plain_next h.plain' hu, ?_, ?_, ?_, ?_, ?_, ?_⟩
    all_goals rw [next_eq h.plain ht, next_eq h.plain' hu]
    · exact hrest
    · intro hlt
      exact h.endLine (by rw [ht]; exact Nat.succ_lt_succ hlt)
    · exact congrArg (· + 1) h.consumed
    · exact h.mixinDepth
    · intro i w hi hw he
      have hlink := h.link (i + 1) w (Nat.succ_lt_succ hi) (by rw [ht]; exact hw) he
      rwa [Nat.add_assoc, Nat.add_comm 1 i]

/-- What comes next is seen in both, also when it is the end. -/
theorem peek (h : Shares (k + 1) s u) :
    u.cursor.peek = s.cursor.peek ∧ u.cursor.position 1 = s.cursor.position 1 := by
  cases ht : s.cursor.tokens with
  | nil =>
    have htokens := h.tokens
    rw [ht, List.take_nil] at htokens
    have hu : u.cursor.tokens = [] := by
      cases hu : u.cursor.tokens with
      | nil => rfl
      | cons v us =>
        rw [hu] at htokens
        cases htokens
    rw [peek_nil h.plain ht, peek_nil h.plain' hu, position_nil h.plain ht,
      position_nil h.plain' hu, Cursor.eos, Cursor.eos,
      h.endLine (by rw [ht]; exact Nat.succ_pos k)]
    exact ⟨rfl, rfl⟩
  | cons t ts =>
    obtain ⟨us, hu, _⟩ := h.next ht
    rw [peek_cons h.plain ht, peek_cons h.plain' hu, position_cons h.plain ht,
      position_cons h.plain' hu, h.consumed]
    exact ⟨rfl, rfl⟩

theorem skip (h : Shares (k + j) s u) (hk : k ≤ s.cursor.tokens.length) :
    Shares j (s.skip k) (u.skip k) := by
  induction k generalizing s u with
  | zero => rwa [Nat.zero_add] at h
  | succ k ih =>
    obtain ⟨t, ts, ht⟩ := List.exists_cons_of_length_pos (Nat.lt_of_lt_of_le (Nat.succ_pos k) hk)
    rw [Nat.add_right_comm] at h
    obtain ⟨us, _, hn⟩ := h.next ht
    refine ih hn ?_
    rw [tokens_next h.plain ht]
    rw [ht] at hk
    exact Nat.le_of_succ_le_succ hk

end Shares

namespace Passes

theorem refl (s : State) : Passes 0 s s := ⟨Nat.zero_le _, rfl, rfl, nofun⟩

theorem trans (h : Passes j s m) (h' : Passes k m s') : Passes (j + k) s s' where
  le := by
    have hle := h'.le
    rw [h.tokens, List.length_drop] at hle
    have := h.le
    omega
  tokens := by rw [h'.tokens, h.tokens, List.drop_drop]
  endLine := h'.endLine.trans h.endLine
  proper t ht := by
    rw [List.take_add] at ht
    rcases List.mem_append.mp ht with ht | ht
    · exact h.proper t ht
    · exact h'.proper t (by rwa [h.tokens])

theorem next (hp : s.Plain) (ht : s.cursor.tokens = t :: ts) (hk : t.kind ≠ .eos) :
    Passes 1 s s.next where
  le := by rw [ht]; exact Nat.succ_le_succ (Nat.zero_le _)
  tokens := by rw [tokens_next hp ht, ht]; rfl
  endLine := by rw [next_eq hp ht]
  proper v hv := by
    rw [ht] at hv
    cases List.mem_singleton.mp hv
    exact hk

theorem skip (hp : s.Plain) (hk : k ≤ s.cursor.tokens.length)
    (he : ∀ t ∈ s.cursor.tokens.take k, t.kind ≠ .eos) :
    (s.skip k).Plain ∧ Passes k s (s.skip k) := by
  induction k generalizing s with
  | zero => exact ⟨hp, refl s⟩
  | succ k ih =>
    obtain ⟨t, ts, ht⟩ := List.exists_cons_of_length_pos (Nat.lt_of_lt_of_le (Nat.succ_pos k) hk)
    rw [ht, List.take_succ_cons, List.forall_mem_cons] at he
    have hnext := next hp ht he.1
    obtain ⟨hplain, hpasses⟩ := ih (plain_next hp ht)
      (by rw [tokens_next hp ht]; rw [ht] at hk; exact Nat.le_of_succ_le_succ hk)
      (by rw [tokens_next hp ht]; exact he.2)
    rw [skip_succ]
    exact ⟨hplain, Nat.add_comm 1 k ▸ hnext.trans hpasses⟩

end Passes

end State

/-! Runs of tokens that pass a test. -/

section TakeWhile

variable {p : Token → Bool} {ts us : List Token}

/-- A run is seen to end by the token behind it. -/
theorem takeWhile_of_take (h : us.take ((ts.takeWhile p).length + 1) =
    ts.take ((ts.takeWhile p).length + 1)) : us.takeWhile p = ts.takeWhile p := by
  induction ts generalizing us with
  | nil =>
    rw [List.take_nil] at h
    cases us with
    | nil => rfl
    | cons u us => cases h
  | cons t ts ih =>
    cases us with
    | nil => cases h
    | cons u us =>
      rw [List.take_succ_cons, List.take_succ_cons] at h
      obtain ⟨rfl, hrest⟩ := List.cons.inj h
      rw [List.takeWhile_cons] at hrest
      rw [List.takeWhile_cons, List.takeWhile_cons]
      split
      · next hu =>
        rw [if_pos hu] at hrest
        rw [ih hrest]
      · rfl

/-- A stream that breaks off within a run ends with it. -/
theorem takeWhile_of_short {d : Nat} (hd : d ≤ (ts.takeWhile p).length)
    (h : us.take d = ts.take d) (hl : us.length ≤ d) :
    us = (ts.takeWhile p).take d ∧ us.takeWhile p = us := by
  have hus : us = (ts.takeWhile p).take d := by
    rw [List.take_of_length_le hl] at h
    rw [h, List.prefix_iff_eq_take.mp (List.takeWhile_prefix p), List.take_take,
      Nat.min_eq_left hd]
  refine ⟨hus, List.takeWhile_eq_self_iff.mpr fun t ht => ?_⟩
  rw [hus] at ht
  exact List.mem_takeWhile_imp (List.mem_of_mem_take ht)

end TakeWhile

namespace State

variable {p : Token → Bool} {s u : State} {d j : Nat}

/-- The state behind the run that comes next. -/
def behindRun (p : Token → Bool) (s : State) : State :=
  s.skip (s.cursor.tokens.takeWhile p).length

theorem passes_run (hp : s.Plain) (he : ∀ t : Token, p t = true → t.kind ≠ .eos) :
    (s.behindRun p).Plain ∧ Passes (s.cursor.tokens.takeWhile p).length s (s.behindRun p) := by
  have hprefix := List.takeWhile_prefix p (l := s.cursor.tokens)
  refine Passes.skip hp hprefix.length_le fun t ht => he t ?_
  rw [← List.prefix_iff_eq_take.mp hprefix] at ht
  exact List.mem_takeWhile_imp ht

theorem replay_run (he : ∀ t : Token, p t = true → t.kind ≠ .eos)
    (hu : Shares ((s.cursor.tokens.takeWhile p).length + (j + 1)) s u) :
    u.cursor.tokens.takeWhile p = s.cursor.tokens.takeWhile p ∧
      Shares (j + 1) (s.behindRun p) (u.behindRun p) ∧
        Passes (s.cursor.tokens.takeWhile p).length u (u.behindRun p) := by
  have hrun := takeWhile_of_take (p := p)
    (hu.mono (show (s.cursor.tokens.takeWhile p).length + 1 ≤ _ by omega)).tokens
  have hpass := (passes_run hu.plain' he).2
  rw [hrun] at hpass
  refine ⟨hrun, ?_, hpass⟩
  rw [behindRun, behindRun, hrun]
  exact hu.skip (List.takeWhile_prefix p).length_le

theorem breaks_run (he : ∀ t : Token, p t = true → t.kind ≠ .eos)
    (hd : d ≤ (s.cursor.tokens.takeWhile p).length) (hu : Shares d s u)
    (hl : u.cursor.tokens.length ≤ d) :
    u.cursor.tokens.takeWhile p = (s.cursor.tokens.takeWhile p).take d ∧
      (u.behindRun p).Plain ∧ (u.behindRun p).cursor.tokens = [] ∧
        (u.behindRun p).cursor.endLine = u.cursor.endLine := by
  obtain ⟨heq, hall⟩ := takeWhile_of_short hd hu.tokens hl
  obtain ⟨hplain, hpass⟩ := passes_run hu.plain' he
  refine ⟨hall.trans heq, hplain, ?_, hpass.endLine⟩
  rw [hpass.tokens, hall, List.drop_length]

end State

end TemplateTree
