import TemplateTree.Proofs.Runs
import TemplateTree.Template

/-!
A parse as a run. Whether a stream parses, and to what, is whether the question for its items runs
or fails at its beginning.
-/

namespace TemplateTree
set_option autoImplicit false

namespace Template

variable {file : Option String} {ts : List Token} {p : Parsed} {linking : Linking}

theorem readItems_ok {c : Cursor} {nodes : List Node} {ns : List Notice} :
    readItems linking file c = .ok (nodes, ns) ↔ ∃ s',
      (Grammar.answer linking ⟨file⟩ (c.size + 1) (.items false)).Runs (.start c) nodes s' ∧
        ns = s'.notices := by
  simp only [readItems]
  constructor
  · intro h
    split at h
    · cases h
    · next a ha =>
      cases h
      exact ⟨a.state, ⟨_, a.size_le, ha⟩, rfl⟩
  · rintro ⟨s', ⟨_, _, hr⟩, rfl⟩
    rw [hr]

theorem readItems_error {c : Cursor} {e : Fault} : readItems linking file c = .error e ↔
    (Grammar.answer linking ⟨file⟩ (c.size + 1) (.items false)).Fails (.start c) e := by
  simp only [readItems]
  constructor
  · intro h
    split at h
    · next he =>
      cases h
      exact ⟨_, he⟩
    · cases h
  · rintro ⟨_, hf⟩
    rw [hf]

theorem parseLinking_ok : parseLinking linking file ts = .ok p ↔
    ∃ nodes ns, readItems linking file (.ofTokens ts) = .ok (nodes, ns) ∧
      p = ⟨.ofNodes ⟨0, file⟩ nodes, ns.map (Notice.warning file)⟩ := by
  unfold parseLinking
  cases readItems linking file (.ofTokens ts) with
  | error e => simp
  | ok r =>
    obtain ⟨nodes, ns⟩ := r
    constructor
    · intro h
      cases h
      exact ⟨nodes, ns, rfl, rfl⟩
    · rintro ⟨_, _, h, rfl⟩
      cases h
      rfl

theorem parseLinking_error {d : Diagnostic} : parseLinking linking file ts = .error d ↔
    ∃ e, readItems linking file (.ofTokens ts) = .error e ∧ d = e.diagnostic file := by
  unfold parseLinking
  cases readItems linking file (.ofTokens ts) with
  | error e =>
    constructor
    · intro h
      cases h
      exact ⟨e, rfl, rfl⟩
    · rintro ⟨_, h, rfl⟩
      cases h
      rfl
  | ok r => simp

/-- What a stream that does not parse is refused with. -/
def diagnostic? (file : Option String) (ts : List Token) : Option Diagnostic :=
  match parse file ts with
  | .error d => some d
  | .ok _ => none

theorem diagnostic?_eq_some {d : Diagnostic} :
    diagnostic? file ts = some d ↔ parse file ts = .error d := by
  unfold diagnostic?
  cases parse file ts <;> simp

/-- A stream parses when something can be computed from its tree. -/
theorem exists_parsed {α : Type} {f : Parsed → α} {a : α}
    (h : (parse file ts).toOption.map f = some a) : ∃ p, parse file ts = .ok p ∧ f p = a := by
  cases hp : parse file ts with
  | error d =>
    rw [hp] at h
    cases h
  | ok p =>
    rw [hp] at h
    exact ⟨p, rfl, Option.some.inj h⟩

end Template

end TemplateTree
