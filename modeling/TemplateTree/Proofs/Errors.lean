import Mathlib.Data.Finset.Lattice.Fold
import TemplateTree.Proofs.Locality.Rules
import TemplateTree.Proofs.Simulation

/-!
Where errors are found. Every error stands at one token of the stream, or at its end: up to there
nothing is wrong, and nothing that follows can change the error.
-/

namespace TemplateTree
set_option autoImplicit false

/-- The bound of a routine makes no difference within it. -/
def unbounded : Simulation .same .slot .slot where
  Rel s u := s.Plain ∧ u = s
  plain := by
    rintro s _ ⟨h, rfl⟩
    exact ⟨h, h⟩
  streams := by
    rintro s _ ⟨_, rfl⟩
    exact .of_alike (List.forall₂_same.mpr fun t _ => .refl t) rfl
  consumed h := by rw [h.2]
  mixinDepth h := by rw [h.2]
  notices := by
    rintro s _ ⟨_, rfl⟩
    exact (Relabelling.map_notice_same _).symm
  next := by
    rintro s _ t ts v us ⟨h, rfl⟩ ht _ _ _
    exact ⟨State.plain_next h ht, rfl⟩
  admits := by
    rintro s _ line d ts d' us ⟨_, rfl⟩ ht hu _
    cases ht.symm.trans hu
    rfl
  finish := by
    rintro s _ ⟨h, rfl⟩
    exact ⟨State.plain_rememberElse h, rfl⟩
  addNotices := by
    rintro s _ ns ⟨h, rfl⟩
    rw [Relabelling.map_notice_same]
    exact ⟨h, rfl⟩
  enterMixin := by
    rintro s _ ⟨h, rfl⟩
    exact ⟨h, rfl⟩
  leaveMixin := by
    rintro s _ ⟨h, rfl⟩
    exact ⟨h, rfl⟩

namespace Template

variable {file : Option String} {ts : List Token} {d : Diagnostic}

/-- The error stands at the token with the given index, or at the end of the stream. -/
structure ErrorAt (file : Option String) (ts : List Token) (d : Diagnostic) (p : Nat) : Prop where
  le : p ≤ ts.length
  line : d.line = (ts[p]?.map Token.line).getD (Cursor.lastLine ts)
  found : ∀ kind ∈ d.found, kind = (ts[p]?.map Token.kind).getD .eos
  /-- Only three kinds of errors do without the token found. -/
  absent : d.found = none →
    d.kind = .duplicateAttribute ∨ d.kind = .elseWithoutIf ∨ d.kind = .anonymousBlock
  /-- No end of the stream stands before the token. -/
  proper : ∀ t ∈ ts.take p, t.kind ≠ .eos
  /-- The tokens before are accepted, or are only found to break off. -/
  before : (∃ tree, parse file (ts.take p) = .ok tree) ∨
    ∃ d', parse file (ts.take p) = .error d' ∧ d'.found = some .eos ∧
      d'.line = Cursor.lastLine (ts.take p)

theorem parse_error_iff : parse file ts = .error d ↔ ∃ e,
    (Grammar.answer .slot ⟨file⟩ ((Cursor.ofTokens ts).size + 1) (.items false)).Fails
      (.start (.ofTokens ts)) e ∧ d = e.diagnostic file := by
  rw [parse, parseLinking_error]
  simp only [readItems_error]

theorem plain_start (ts : List Token) : (State.start (.ofTokens ts)).Plain := rfl

theorem size_start (ts : List Token) : (State.start (.ofTokens ts)).size = ts.length :=
  Nat.zero_add _

/-- Streams that agree so far are the same so far. -/
theorem shares_start {k : Nat} {us : List Token} (h : us.take k = ts.take k) :
    State.Shares k (.start (.ofTokens ts)) (.start (.ofTokens us)) where
  plain := rfl
  plain' := rfl
  tokens := h
  endLine hlt := by
    change ts.length < k at hlt
    have hlen := congrArg List.length h
    rw [List.take_of_length_le (Nat.le_of_lt hlt)] at h hlen
    rw [List.length_take] at hlen
    rw [List.take_of_length_le (by omega)] at h
    rw [h]
  consumed := rfl
  line := rfl
  mixinDepth := rfl
  link _ _ _ _ _ := Iff.rfl

variable {n p : Nat} {e : Fault}

/-- What the question for the items of a stream answers, asked with any bound. -/
theorem parse_of_fails {us : List Token} (hf : (Grammar.answer .slot ⟨file⟩ n (.items false)).Fails
    (.start (.ofTokens us)) e) : parse file us = .error (e.diagnostic file) :=
  parse_error_iff.mpr ⟨e, (unbounded.answer_follows ⟨file⟩ n _ _).fails ⟨plain_start us, rfl⟩
    trivial (Nat.lt_succ_self _) hf, rfl⟩

theorem parse_of_runs {us : List Token} {nodes : List Node} {s' : State}
    (hr : (Grammar.answer .slot ⟨file⟩ n (.items false)).Runs (.start (.ofTokens us)) nodes s') :
    ∃ tree, parse file us = .ok tree := by
  obtain ⟨_, u', hr', _⟩ := (unbounded.answer_follows ⟨file⟩ n _ _).runs ⟨plain_start us, rfl⟩
    trivial (Nat.lt_succ_self _) hr
  exact ⟨_, parseLinking_ok.mpr ⟨_, _, readItems_ok.mpr ⟨u', hr', rfl⟩, rfl⟩⟩

theorem errorAt_of_failsAt (hn : ts.length < n) (h : FailsAt .anywhere Eq
    (Grammar.answer .slot ⟨file⟩ n (.items false)) p (.start (.ofTokens ts)) e) :
    ErrorAt file ts (e.diagnostic file) p := by
  have hfound : e.At (ts[p]?.getD (.eos (Cursor.lastLine ts))) := h.found
  refine ⟨h.le, ?_, ?_, ?_, h.proper, ?_⟩
  · rw [Fault.diagnostic, hfound.1]
    cases ts[p]? <;> rfl
  · intro kind hk
    rw [hfound.2 kind hk]
    cases ts[p]? <;> rfl
  · intro hnone
    obtain ⟨cause, line⟩ := e
    cases cause with
    | duplicateAttribute => exact .inl rfl
    | elseWithoutIf => exact .inr (.inl rfl)
    | anonymousBlock => exact .inr (.inr rfl)
    | _ => cases hnone
  · have hlen : (ts.take p).length ≤ p := List.length_take_le p ts
    have htake : (ts.take p).take p = ts.take p := List.take_of_length_le hlen
    obtain ⟨_, _, _, hr, _⟩ | ⟨e', hf, hk, hl⟩ := h.breaks p (Nat.le_refl p)
      (.start (.ofTokens (ts.take p))) (shares_start htake) hlen trivial
      (by rw [size_start]; exact Nat.lt_of_le_of_lt (List.length_take_le' p ts) hn)
    · exact .inl (parse_of_runs hr)
    · exact .inr ⟨_, parse_of_fails hf, hk, hl⟩

/-- An error stands at a place up to which it stays the same in streams of a given length. -/
theorem exists_errorAt (h : parse file ts = .error d) (n : Nat) : ∃ p, ErrorAt file ts d p ∧
    ∀ us : List Token, us.length ≤ n → us.take (p + 1) = ts.take (p + 1) →
      parse file us = .error d := by
  obtain ⟨e, hf, rfl⟩ := parse_error_iff.mp h
  have hlt : ts.length < ts.length + n + 1 := by omega
  have hlocal := (Parallel.answer_same ⟨file⟩ ((Cursor.ofTokens ts).size + 1) (ts.length + n + 1)
    (.items false)).local
  obtain ⟨p, hp⟩ | hb := hlocal.fails (plain_start ts) trivial (by rwa [size_start]) hf
  · refine ⟨p, errorAt_of_failsAt hlt hp, fun us hus htake => ?_⟩
    exact parse_of_fails (hp.replay _ (shares_start htake) trivial (by rw [size_start]; omega))
  · exact absurd hb (Local.not_failsBehind fun _ _ _ h => by cases h)

/-- Among finitely many places that serve ever longer streams one serves them all. -/
theorem exists_forall_of_bounded {m : Nat} {P : Nat → Prop} {Q : Nat → Nat → Prop}
    (hQ : ∀ {p n n'}, n ≤ n' → Q p n' → Q p n) (h : ∀ n, ∃ p ≤ m, P p ∧ Q p n) :
    ∃ p ≤ m, P p ∧ ∀ n, Q p n := by
  by_contra hno
  push Not at hno
  choose! f hf using hno
  obtain ⟨p, hp, hP, hq⟩ := h ((Finset.range (m + 1)).sup f)
  have hle := Finset.le_sup (f := f) (Finset.mem_range.mpr (Nat.lt_succ_of_le hp))
  exact hf p hp hP (hQ hle hq)

/-- Every error stands at one token or at the end of the stream, and a stream that agrees up to
and including that token has the same error. -/
theorem parse_error_local (h : parse file ts = .error d) : ∃ p, ErrorAt file ts d p ∧
    ∀ us : List Token, us.take (p + 1) = ts.take (p + 1) → parse file us = .error d := by
  have hbounded (n : Nat) : ∃ p ≤ ts.length, ErrorAt file ts d p ∧
      ∀ us : List Token, us.length ≤ n → us.take (p + 1) = ts.take (p + 1) →
        parse file us = .error d := by
    obtain ⟨p, hp, hus⟩ := exists_errorAt h n
    exact ⟨p, hp.le, hp, hus⟩
  obtain ⟨p, _, hp, hus⟩ := exists_forall_of_bounded
    (fun hle hq us hus => hq us (Nat.le_trans hus hle)) hbounded
  exact ⟨p, hp, fun us htake => hus us.length us (Nat.le_refl _) htake⟩

/-- A tag that is given an id in two ways, and text that is never looked at. -/
def idGivenTwice : List Token :=
  [⟨1, .tag "p" false⟩, ⟨1, .idName "a"⟩, ⟨2, .attrs [⟨"id", .expression "b", true⟩] false⟩,
    ⟨3, .text "x"⟩]

theorem parse_error_local_idGivenTwice : ∃ d, parse none idGivenTwice = .error d ∧
    d.kind = .duplicateAttribute ∧ d.line = 2 ∧ ∃ p, ErrorAt none idGivenTwice d p ∧
      ∀ us : List Token, us.take (p + 1) = idGivenTwice.take (p + 1) →
        parse none us = .error d := by
  have hd : (diagnostic? none idGivenTwice).map (fun d => (d.kind, d.line)) =
      some (.duplicateAttribute, 2) := by decide +kernel
  obtain ⟨d, hp, hd⟩ := Option.map_eq_some_iff.mp hd
  obtain ⟨hkind, hline⟩ := Prod.mk.inj hd
  have hp : parse none idGivenTwice = .error d := diagnostic?_eq_some.mp hp
  exact ⟨d, hp, hkind, hline, parse_error_local hp⟩

end Template

end TemplateTree
