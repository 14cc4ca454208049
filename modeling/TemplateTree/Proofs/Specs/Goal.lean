import TemplateTree.Proofs.Meets

/-!
What the answers of the grammar mean, and the specifications of the parts that only frame a smaller
question: bodies, expansions, interpolations and pipeless text.
-/

namespace TemplateTree
set_option autoImplicit false

/-- What an answer to a question about the grammar means. -/
def Goal.ReadBy (scope : Scope) : (goal : Goal) → State → goal.Result → State → Prop
  | .expression, s, v, s' => Symbol.expression.ReadBy scope s v s'
  | .items inBody, s, v, s' => Symbol.items.ReadBy scope s v s' ∧
    (s'.cursor.peek.kind = .eos ∨ inBody = true ∧ s'.cursor.peek.kind = .outdent)
  | .textRun spansLines, s, v, s' =>
    (Symbol.text (if spansLines then .lines else .inLine)).ReadBy scope s v s'
  | .pipeless, s, v, s' => ∃ m line, (Symbol.text .pipeless).ReadBy scope s v m ∧
    (Event.read ⟨line, .endPipeless⟩).Step m s'
  | .htmlRun, s, v, s' => Symbol.html.ReadBy scope s v s'
  | .branches, s, v, s' => Symbol.branches.ReadBy scope s v s' ∧ s'.cursor.peek.kind = .outdent

/-- What an interpolation is behind its opening token. -/
def Interpolation.ReadBy (scope : Scope) (s : State) (v : Node) (s' : State) : Prop :=
  ∃ e : Phrase .expression, ∃ m closing, e.Fits .endInterpolation ∧ v = e.value scope ∧
    Leads e.trace s m ∧ (Event.read ⟨closing, .endInterpolation⟩).Step m s'

theorem Leads.peek_eq {es : List Event} {s m s' : State} {t : Token} (hp : s.Plain)
    (hl : Leads es s m) (h : (Event.read t).Step m s') : m.cursor.peek = t :=
  Event.peek_of_step_read (hl.plain hp) h

theorem Phrase.kind_peek {s s' : State} (b : Phrase .body) (hp : s.Plain)
    (hl : Leads b.trace s s') : s.cursor.peek.kind = .indent := by
  have h := b.lexeme_peek hp hl
  cases b
  exact congrArg Lexeme.kind h

namespace Grammar

open Routine

variable {n : Nat} {scope : Scope} {below : Below n}
variable (hb : ∀ goal, Meets Anywhere (below goal) (goal.ReadBy scope))
include hb

theorem expression_meets : Meets Anywhere (expression below) (Symbol.expression.ReadBy scope) :=
  hb .expression

theorem body_meets : Meets Anywhere (body scope below) (Symbol.body.ReadBy scope) := by
  refine ((Meets.expect (by decide)).bind fun indent => (hb (.items true)).bind fun nodes =>
    (Meets.expect (by decide)).map fun _ => scope.block indent.line nodes).congr ?_
  intro s b s' hp _
  constructor
  · rintro ⟨indent, s₁, ⟨hi, h₁⟩, nodes, s₂, ⟨⟨items, hf, rfl, h₂⟩, _⟩, outdent, ⟨ho, h₃⟩, rfl⟩
    obtain ⟨opening, width, rfl⟩ := Token.eq_indent hi
    obtain ⟨closing, rfl⟩ := Token.eq_of_kind_eq (l := .outdent) rfl ho
    rw [Leads.peek_eq (Event.plain_of_step hp h₁) h₂ h₃] at hf
    exact ⟨.body opening width items closing, hf, rfl, by simpa [Phrase.trace] using ⟨s₁, h₁, s₂, h₂, h₃⟩⟩
  · rintro ⟨t, hf, rfl, hl⟩
    cases t with
    | body opening width items closing =>
      simp only [Phrase.trace, List.cons_append, Leads.cons_iff, Leads.append_iff,
        Leads.nil_iff] at hl
      obtain ⟨s₁, h₁, s₂, h₂, _, h₃, rfl⟩ := hl
      have ho := Leads.peek_eq (Event.plain_of_step hp h₁) h₂ h₃
      exact ⟨_, s₁, ⟨rfl, h₁⟩, _, s₂, ⟨⟨items, by rwa [ho], rfl, h₂⟩, .inr ⟨rfl, by rw [ho]; rfl⟩⟩,
        _, ⟨rfl, h₃⟩, rfl⟩

theorem body?_meets : Meets Anywhere (body? scope below) (Symbol.optionalBody.ReadBy scope) := by
  have hbody (t : Token) : Meets (fun s => Anywhere s ∧ s.cursor.peek = t)
      (if t.kind = .indent then (do return some (← body scope below)) else return none)
      (Symbol.optionalBody.ReadBy scope) := by
    split
    · next ht =>
      refine (((body_meets hb).map some).weaken fun _ _ => trivial).congr ?_
      intro s b s' hp hc
      constructor
      · rintro ⟨_, ⟨b, hf, rfl, hl⟩, rfl⟩
        exact ⟨.someBody b, hf, rfl, hl⟩
      · rintro ⟨t, hf, rfl, hl⟩
        cases t with
        | noBody =>
          cases hl
          exact absurd (hc.2 ▸ ht) hf
        | someBody b => exact ⟨_, ⟨b, hf, rfl, hl⟩, rfl⟩
    · next ht =>
      refine (Meets.pure none).congr ?_
      intro s b s' hp hc
      constructor
      · rintro ⟨rfl, rfl⟩
        exact ⟨.noBody, hc.2 ▸ ht, rfl, rfl⟩
      · rintro ⟨t, hf, rfl, hl⟩
        cases t with
        | noBody => exact ⟨rfl, hl⟩
        | someBody b =>
          exact absurd (hc.2 ▸ b.kind_peek hp hl) ht
  exact Meets.peek hbody

/-- A branch of a case may also do without an expansion. -/
theorem expansion_meets : Meets Anywhere (expansion scope below) fun s b s' =>
    ∃ x : Phrase .expansion, x.Fits s'.cursor.peek.lexeme ∧ x.value scope = some b ∧
      Leads x.trace s s' := by
  refine (Meets.acceptIf_bind (fun _ => rfl)
    (fun t => Meets.look fun line => ((expression_meets hb).map
      fun node => scope.block line [node]).weaken fun _ _ => trivial) (body_meets hb)).congr ?_
  intro s b s' hp _
  constructor
  · rintro (⟨t, m, ht, h, _, ⟨e, hf, rfl, hl⟩, rfl⟩ | ⟨_, ⟨b, hf, rfl, hl⟩⟩)
    · obtain ⟨colon, rfl⟩ := Token.eq_of_kind_eq (l := .colon) rfl (beq_iff_eq.mp ht)
      rw [Event.line_of_step_read hp h]
      exact ⟨.expansionColon colon e, hf, rfl, m, h, hl⟩
    · exact ⟨.expansionBody b, hf, rfl, hl⟩
  · rintro ⟨x, hf, hv, hl⟩
    cases x with
    | fallThrough => cases hv
    | expansionColon colon e =>
      obtain ⟨m, h, hl⟩ := hl
      refine .inl ⟨_, m, rfl, h, _, ⟨e, hf, rfl, hl⟩, ?_⟩
      rw [Event.line_of_step_read hp h]
      exact (Option.some.inj hv).symm
    | expansionBody b =>
      refine .inr ⟨?_, b, hf, (Option.some.inj hv).symm, hl⟩
      rw [b.kind_peek hp hl]
      rfl

theorem interpolation_meets :
    Meets Anywhere (interpolation below) (Interpolation.ReadBy scope) := by
  refine ((expression_meets hb).bind fun node => (Meets.expect (by decide)).map
    fun _ => node).congr ?_
  intro s b s' hp _
  constructor
  · rintro ⟨_, m, ⟨e, hf, rfl, hl⟩, t, ⟨ht, h⟩, rfl⟩
    obtain ⟨closing, rfl⟩ := Token.eq_of_kind_eq (l := .endInterpolation) rfl ht
    rw [Leads.peek_eq hp hl h] at hf
    exact ⟨e, m, closing, hf, rfl, hl, h⟩
  · rintro ⟨e, m, closing, hf, rfl, hl, h⟩
    exact ⟨_, m, ⟨e, by rwa [Leads.peek_eq hp hl h], rfl, hl⟩, _, ⟨rfl, h⟩, rfl⟩

theorem pipelessBody?_meets :
    Meets Anywhere (pipelessBody? scope below) (Symbol.optionalPipeless.ReadBy scope) := by
  refine (Meets.acceptIf_bind (fun _ => rfl)
    (fun t => (hb .pipeless).map fun nodes => some (scope.block t.line nodes))
    (Meets.pure none)).congr ?_
  intro s b s' hp _
  constructor
  · rintro (⟨t, m, ht, h, _, ⟨k, closing, ⟨pieces, hf, rfl, hl⟩, hk⟩, rfl⟩ | ⟨hs, rfl, rfl⟩)
    · obtain ⟨opening, rfl⟩ := Token.eq_of_kind_eq (l := .startPipeless) rfl (beq_iff_eq.mp ht)
      rw [Leads.peek_eq (Event.plain_of_step hp h) hl hk] at hf
      exact ⟨.somePipeless opening pieces closing, hf, rfl,
        by simpa [Phrase.trace] using ⟨m, h, k, hl, hk⟩⟩
    · exact ⟨.noPipeless, beq_eq_false_iff_ne.mp hs, rfl, rfl⟩
  · rintro ⟨t, hf, rfl, hl⟩
    cases t with
    | noPipeless =>
      cases hl
      exact .inr ⟨beq_eq_false_iff_ne.mpr hf, rfl, rfl⟩
    | somePipeless opening pieces closing =>
      simp only [Phrase.trace, List.cons_append, Leads.cons_iff, Leads.append_iff,
        Leads.nil_iff] at hl
      obtain ⟨m, h, k, hl, _, hk, rfl⟩ := hl
      refine .inl ⟨_, m, rfl, h, _, ⟨k, closing, ⟨pieces, ?_, rfl, hl⟩, hk⟩, rfl⟩
      rwa [Leads.peek_eq (Event.plain_of_step hp h) hl hk]

theorem pipelessBody_meets (line : Line) : Meets Anywhere (pipelessBody scope below line)
    fun s v s' => ∃ b, Symbol.optionalPipeless.ReadBy scope s b s' ∧
      v = b.getD (scope.block line []) :=
  (pipelessBody?_meets hb).map _

end Grammar

end TemplateTree
