import TemplateTree.Proofs.Specs.Goal

/-!
Specifications of the routines that read runs of text and HTML.
-/

namespace TemplateTree
set_option autoImplicit false

namespace Event

variable {s m : State} {t u : Token}

theorem step_read_head (hh : s.cursor.tokens.head? = some t) :
    (read u).Step s m ↔ u = t ∧ m = s.next := by
  rw [step_read, hh, Option.some.injEq, eq_comm]

end Event

theorem Phrase.opensWithText_iff_lead {p : TextPlace} (t : Phrase (.text p)) {next : Lexeme}
    (hf : t.Fits next) : t.opensWithText = true ↔ (t.lead next).kind = .text := by
  cases t with
  | textEnd =>
    change false = true ↔ next.kind = .text
    have hf : p.takes next.kind = false := hf
    constructor
    · intro hc
      cases hc
    · intro hc
      rw [hc] at hf
      cases hf
  | textPiece => exact ⟨fun _ => rfl, fun _ => rfl⟩
  | textBreak => exact ⟨nofun, nofun⟩
  | textInterpolation => exact ⟨nofun, nofun⟩

theorem Phrase.opensWithText_iff {p : TextPlace} {s s' : State} (t : Phrase (.text p))
    (hp : s.Plain) (hf : t.Fits s'.cursor.peek.lexeme) (hl : Leads t.trace s s') :
    t.opensWithText = true ↔ s.cursor.peek.kind = .text := by
  rw [t.opensWithText_iff_lead hf, ← t.lexeme_peek hp hl]
  rfl

/-! What a run of text is, by the token in front. -/

namespace TextPlace

variable {scope : Scope} {p : TextPlace} {s s' : State} {v : List Node} {line : Line}

theorem readBy_text {content : String} (hp : s.Plain)
    (hh : s.cursor.tokens.head? = some ⟨line, .text content⟩) :
    (Symbol.text p).ReadBy scope s v s' ↔
      ∃ more, (Symbol.text p).ReadBy scope s.next more s' ∧ v = scope.text line content :: more := by
  constructor
  · rintro ⟨t, hf, rfl, hl⟩
    have h := t.lexeme_peek hp hl
    rw [State.peek_of_head? hp hh] at h
    cases t with
    | textEnd =>
      cases hl
      rw [State.peek_of_head? hp hh] at hf
      cases hf
    | textPiece _ _ more =>
      obtain ⟨_, hr, hl⟩ := hl
      obtain ⟨he, rfl⟩ := (Event.step_read_head hh).mp hr
      cases he
      exact ⟨_, ⟨more, hf, rfl, hl⟩, rfl⟩
    | textBreak => cases h
    | textInterpolation => cases h
  · rintro ⟨_, ⟨more, hf, rfl, hl⟩, rfl⟩
    exact ⟨.textPiece line content more, hf, rfl, _,
      (Event.step_read_head hh).mpr ⟨rfl, rfl⟩, hl⟩

/-- A line break counts within pipeless text and in front of text. -/
theorem readBy_newline (hi : p ≠ .inLine) (hp : s.Plain)
    (hh : s.cursor.tokens.head? = some ⟨line, .newline⟩) :
    (Symbol.text p).ReadBy scope s v s' ↔
      ∃ more, (Symbol.text p).ReadBy scope s.next more s' ∧
        v = if p = .pipeless ∨ s.next.cursor.peek.kind = .text then
          scope.text line "\n" :: more else more := by
  have hn : s.next.Plain := Event.plain_of_step hp (Event.step_read.mpr ⟨hh, rfl⟩)
  constructor
  · rintro ⟨t, hf, rfl, hl⟩
    have h := t.lexeme_peek hp hl
    rw [State.peek_of_head? hp hh] at h
    cases t with
    | textEnd =>
      cases hl
      rw [State.peek_of_head? hp hh] at hf
      cases p with
      | inLine => exact absurd rfl hi
      | lines => cases hf
      | pipeless => cases hf
    | textPiece => cases h
    | textBreak _ more =>
      obtain ⟨_, hr, hl⟩ := hl
      obtain ⟨he, rfl⟩ := (Event.step_read_head hh).mp hr
      cases he
      refine ⟨_, ⟨more, hf.2, rfl, hl⟩, ?_⟩
      simp only [← more.opensWithText_iff hn hf.2 hl]
      rfl
    | textInterpolation => cases h
  · rintro ⟨_, ⟨more, hf, rfl, hl⟩, rfl⟩
    refine ⟨.textBreak line more, ⟨hi, hf⟩, ?_, _, (Event.step_read_head hh).mpr ⟨rfl, rfl⟩, hl⟩
    simp only [← more.opensWithText_iff hn hf hl]
    rfl

theorem readBy_interpolation (hp : s.Plain)
    (hh : s.cursor.tokens.head? = some ⟨line, .startInterpolation⟩) :
    (Symbol.text p).ReadBy scope s v s' ↔
      ∃ node m, Interpolation.ReadBy scope s.next node m ∧
        ∃ more, (Symbol.text p).ReadBy scope m more s' ∧ v = node :: more := by
  constructor
  · rintro ⟨t, hf, rfl, hl⟩
    have h := t.lexeme_peek hp hl
    rw [State.peek_of_head? hp hh] at h
    cases t with
    | textEnd =>
      cases hl
      rw [State.peek_of_head? hp hh] at hf
      cases hf
    | textPiece => cases h
    | textBreak => cases h
    | textInterpolation _ e closing more =>
      simp only [Phrase.trace, List.cons_append, Leads.cons_iff, Leads.append_iff] at hl
      obtain ⟨_, hr, k, hl, m, hk, hm⟩ := hl
      obtain ⟨he, rfl⟩ := (Event.step_read_head hh).mp hr
      cases he
      exact ⟨_, m, ⟨e, k, closing, hf.1, rfl, hl, hk⟩, _, ⟨more, hf.2, rfl, hm⟩, rfl⟩
  · rintro ⟨_, m, ⟨e, k, closing, he, rfl, hl, hk⟩, _, ⟨more, hf, rfl, hm⟩, rfl⟩
    refine ⟨.textInterpolation line e closing more, ⟨he, hf⟩, rfl, ?_⟩
    simp only [Phrase.trace, List.cons_append, Leads.cons_iff, Leads.append_iff]
    exact ⟨_, (Event.step_read_head hh).mpr ⟨rfl, rfl⟩, k, hl, m, hk, hm⟩

theorem readBy_end (hp : s.Plain) (ht : p.takes s.cursor.peek.kind = false) :
    (Symbol.text p).ReadBy scope s v s' ↔ v = [] ∧ s' = s := by
  constructor
  · rintro ⟨t, hf, rfl, hl⟩
    have h := congrArg (fun l => p.takes l.kind) (t.lexeme_peek hp hl)
    change p.takes s.cursor.peek.kind = _ at h
    rw [ht] at h
    cases t with
    | textEnd => exact ⟨rfl, hl⟩
    | textPiece => cases h
    | textBreak =>
      cases p with
      | inLine => exact absurd rfl hf.1
      | lines => cases h
      | pipeless => cases h
    | textInterpolation => cases h
  · rintro ⟨rfl, rfl⟩
    exact ⟨.textEnd, ht, rfl, rfl⟩

end TextPlace

/-- What a line of HTML is behind its token, with the lines that follow. -/
def HtmlLine.ReadBy (scope : Scope) (line : Line) (content : String) (s : State) (v : List Node)
    (s' : State) : Prop :=
  ∃ (nested : Phrase .nested) (lines : Phrase .html),
    nested.Fits (lines.lead s'.cursor.peek.lexeme) ∧ lines.Fits s'.cursor.peek.lexeme ∧
      v = scope.htmlText line content :: (nested.value scope ++ lines.value scope) ∧
        ∃ m, Leads nested.trace s m ∧ Leads lines.trace m s'

namespace Grammar

open Routine

variable {n : Nat} {scope : Scope} {below : Below n}
variable (hb : ∀ goal, Meets Anywhere (below goal) (goal.ReadBy scope))
include hb

theorem textRun_meets (spansLines : Bool) : Meets Anywhere (textRun scope below spansLines)
    ((Goal.textRun spansLines).ReadBy scope) := by
  have hrec := hb (.textRun spansLines)
  refine Meets.opening ?_ ?_
  · rintro _ ⟨line, lexeme⟩ r hr
    cases lexeme with
    | text content =>
      cases hr
      refine ⟨_, (hrec.map fun more => scope.text line content :: more).weaken
        fun _ _ => trivial, ?_⟩
      intro s a s' hp _ hh
      exact TextPlace.readBy_text hp hh
    | startInterpolation =>
      cases hr
      refine ⟨_, ((interpolation_meets hb).bind fun node => hrec.map
        fun more => node :: more).weaken fun _ _ => trivial, ?_⟩
      intro s a s' hp _ hh
      exact TextPlace.readBy_interpolation hp hh
    | newline =>
      cases spansLines with
      | false => cases hr
      | true =>
        cases hr
        refine ⟨_, Meets.peek fun following => (hrec.map fun more =>
          if following.kind = .text then scope.text line "\n" :: more else more).weaken
          fun _ _ => trivial, ?_⟩
        intro s a s' hp _ hh
        refine (TextPlace.readBy_newline (by decide) hp hh).trans ?_
        simp
        rfl
    | _ => cases hr
  · rintro ⟨line, lexeme⟩
    refine (Meets.pure []).congr ?_
    rintro s a s' hp ⟨hpeek, hnone⟩
    refine (TextPlace.readBy_end hp ?_).symm
    rw [hpeek]
    cases lexeme with
    | text => rcases hnone with h | h <;> cases h
    | startInterpolation => rcases hnone with h | h <;> cases h
    | newline =>
      cases spansLines with
      | false => rfl
      | true => rcases hnone with h | h <;> cases h
    | _ => rfl

theorem pipeless_meets : Meets Anywhere (pipeless scope below) (Goal.pipeless.ReadBy scope) := by
  have hrec := hb .pipeless
  refine Meets.opening ?_ ?_
  · rintro _ ⟨line, lexeme⟩ r hr
    cases lexeme with
    | endPipeless =>
      cases hr
      refine ⟨_, Meets.pure [], ?_⟩
      intro s a s' hp _ hh
      have hend (m : State) : (Symbol.text .pipeless).ReadBy scope s a m ↔ a = [] ∧ m = s :=
        TextPlace.readBy_end hp (by rw [State.peek_of_head? hp hh]; rfl)
      simp only [Goal.ReadBy, hend]
      constructor
      · rintro ⟨_, _, ⟨rfl, rfl⟩, h⟩
        exact ⟨rfl, ((Event.step_read_head hh).mp h).2⟩
      · rintro ⟨rfl, rfl⟩
        exact ⟨s, line, ⟨rfl, rfl⟩, (Event.step_read_head hh).mpr ⟨rfl, rfl⟩⟩
    | text content =>
      cases hr
      refine ⟨_, (hrec.map fun more => scope.text line content :: more).weaken
        fun _ _ => trivial, ?_⟩
      intro s a s' hp _ hh
      simp only [Goal.ReadBy, TextPlace.readBy_text hp hh]
      constructor
      · rintro ⟨m, closing, ⟨more, h, rfl⟩, hk⟩
        exact ⟨more, ⟨m, closing, h, hk⟩, rfl⟩
      · rintro ⟨more, ⟨m, closing, h, hk⟩, rfl⟩
        exact ⟨m, closing, ⟨more, h, rfl⟩, hk⟩
    | newline =>
      cases hr
      refine ⟨_, (hrec.map fun more => scope.text line "\n" :: more).weaken
        fun _ _ => trivial, ?_⟩
      intro s a s' hp _ hh
      have hi : TextPlace.pipeless ≠ .inLine := by decide
      simp only [Goal.ReadBy, TextPlace.readBy_newline hi hp hh, true_or, if_true]
      constructor
      · rintro ⟨m, closing, ⟨more, h, rfl⟩, hk⟩
        exact ⟨more, ⟨m, closing, h, hk⟩, rfl⟩
      · rintro ⟨more, ⟨m, closing, h, hk⟩, rfl⟩
        exact ⟨m, closing, ⟨more, h, rfl⟩, hk⟩
    | startInterpolation =>
      cases hr
      refine ⟨_, ((interpolation_meets hb).bind fun node => hrec.map
        fun more => node :: more).weaken fun _ _ => trivial, ?_⟩
      intro s a s' hp _ hh
      simp only [Goal.ReadBy, TextPlace.readBy_interpolation hp hh]
      constructor
      · rintro ⟨m, closing, ⟨node, k, hi, more, h, rfl⟩, hk⟩
        exact ⟨node, k, hi, more, ⟨m, closing, h, hk⟩, rfl⟩
      · rintro ⟨node, k, hi, more, ⟨m, closing, h, hk⟩, rfl⟩
        exact ⟨m, closing, ⟨node, k, hi, more, h, rfl⟩, hk⟩
    | _ => cases hr
  · rintro ⟨line, lexeme⟩
    refine (Meets.fail _ _).congr ?_
    rintro s a s' hp ⟨hpeek, hnone⟩
    refine ⟨False.elim, ?_⟩
    rintro ⟨m, closing, h, hk⟩
    have ht : TextPlace.pipeless.takes s.cursor.peek.kind = false := by
      rw [hpeek]
      cases lexeme with
      | text => rcases hnone with h | h <;> cases h
      | newline => rcases hnone with h | h <;> cases h
      | startInterpolation => rcases hnone with h | h <;> cases h
      | _ => rfl
    obtain ⟨_, rfl⟩ := (TextPlace.readBy_end hp ht).mp h
    rw [Event.peek_of_step_read hp hk] at hpeek
    cases hpeek
    rcases hnone with h | h <;> cases h

/-! Lines of HTML. -/

omit hb in
/-- Behind the place of a nested body, where a line of HTML without one may end with a newline. -/
theorem htmlBody_meets (o : Option Block) : Meets Anywhere (n := n)
    (match o with
      | some nested => return nested.nodes
      | none => do
        let _ ← Routine.accept .newline
        return [])
    fun s v s' => match o with
      | some nested => v = nested.nodes ∧ s' = s
      | none => v = [] ∧ ((∃ line, (Event.newline line).Step s s') ∨
        s.cursor.peek.kind ≠ .newline ∧ s' = s) := by
  cases o with
  | some nested => exact Meets.pure nested.nodes
  | none =>
    refine ((Meets.acceptIf fun _ => rfl).map fun _ => []).congr ?_
    intro s v s' _ _
    constructor
    · rintro ⟨_, ⟨t, rfl, ht, h⟩ | ⟨rfl, ht, rfl⟩, rfl⟩
      · obtain ⟨line, rfl⟩ := Token.eq_of_kind_eq (l := .newline) rfl (beq_iff_eq.mp ht)
        exact ⟨rfl, .inl ⟨line, h⟩⟩
      · exact ⟨rfl, .inr ⟨beq_eq_false_iff_ne.mp ht, rfl⟩⟩
    · rintro ⟨rfl, ⟨line, h⟩ | ⟨ht, rfl⟩⟩
      · exact ⟨_, .inl ⟨_, rfl, rfl, h⟩, rfl⟩
      · exact ⟨_, .inr ⟨rfl, beq_eq_false_iff_ne.mpr ht, rfl⟩, rfl⟩

theorem htmlNested_meets :
    Meets Anywhere (htmlNested scope below) (Symbol.nested.ReadBy scope) := by
  refine ((body?_meets hb).bind htmlBody_meets).congr ?_
  intro s v s' hp _
  constructor
  · rintro ⟨o, m, ⟨b, hf, rfl, hl⟩, hv⟩
    cases b with
    | noBody =>
      cases hl
      obtain ⟨rfl, ⟨line, h⟩ | ⟨ht, rfl⟩⟩ := hv
      · exact ⟨.nestedNewline line, trivial, rfl, _, h, rfl⟩
      · exact ⟨.nestedNone, ⟨hf, ht⟩, rfl, rfl⟩
    | someBody b =>
      obtain ⟨rfl, rfl⟩ := hv
      exact ⟨.nestedBody b, hf, rfl, hl⟩
  · rintro ⟨t, hf, rfl, hl⟩
    cases t with
    | nestedNone =>
      cases hl
      exact ⟨none, s, ⟨.noBody, hf.1, rfl, rfl⟩, rfl, .inr ⟨hf.2, rfl⟩⟩
    | nestedBody b => exact ⟨_, s', ⟨.someBody b, hf, rfl, hl⟩, rfl, rfl⟩
    | nestedNewline line =>
      obtain ⟨_, h, rfl⟩ := hl
      have ht := Event.peek_of_step_read hp h
      exact ⟨none, s, ⟨.noBody, by rw [ht]; nofun, rfl, rfl⟩, rfl, .inl ⟨line, h⟩⟩

theorem htmlLine_meets (line : Line) (content : String) :
    Meets Anywhere (htmlLine scope below line content) (HtmlLine.ReadBy scope line content) := by
  refine ((htmlNested_meets hb).bind fun nested => (hb .htmlRun).map
    fun more => scope.htmlText line content :: (nested ++ more)).congr ?_
  intro s v s' hp _
  constructor
  · rintro ⟨_, m, ⟨nested, hn, rfl, h₁⟩, _, ⟨lines, hf, rfl, h₂⟩, rfl⟩
    rw [lines.lexeme_peek (h₁.plain hp) h₂] at hn
    exact ⟨nested, lines, hn, hf, rfl, m, h₁, h₂⟩
  · rintro ⟨nested, lines, hn, hf, rfl, m, h₁, h₂⟩
    exact ⟨_, m, ⟨nested, by rwa [lines.lexeme_peek (h₁.plain hp) h₂], rfl, h₁⟩, _,
      ⟨lines, hf, rfl, h₂⟩, rfl⟩

theorem htmlRun_meets : Meets Anywhere (htmlRun scope below) (Goal.htmlRun.ReadBy scope) := by
  refine Meets.opening ?_ ?_
  · rintro _ ⟨line, lexeme⟩ r hr
    cases lexeme with
    | textHtml content =>
      cases hr
      refine ⟨_, (htmlLine_meets hb line content).weaken fun _ _ => trivial, ?_⟩
      intro s v s' hp _ hh
      constructor
      · rintro ⟨t, hf, rfl, hl⟩
        cases t with
        | htmlEnd =>
          cases hl
          exact absurd (congrArg Token.kind (State.peek_of_head? hp hh)) hf
        | htmlLine _ _ nested lines =>
          simp only [Phrase.trace, List.cons_append, Leads.cons_iff, Leads.append_iff] at hl
          obtain ⟨_, h, m, h₁, h₂⟩ := hl
          obtain ⟨he, rfl⟩ := (Event.step_read_head hh).mp h
          cases he
          exact ⟨nested, lines, hf.1, hf.2, rfl, m, h₁, h₂⟩
      · rintro ⟨nested, lines, hn, hf, rfl, m, h₁, h₂⟩
        refine ⟨.htmlLine line content nested lines, ⟨hn, hf⟩, rfl, ?_⟩
        simp only [Phrase.trace, List.cons_append, Leads.cons_iff, Leads.append_iff]
        exact ⟨_, (Event.step_read_head hh).mpr ⟨rfl, rfl⟩, m, h₁, h₂⟩
    | _ => cases hr
  · rintro ⟨line, lexeme⟩
    refine (Meets.pure []).congr ?_
    rintro s v s' hp ⟨hpeek, hnone⟩
    have hk : s.cursor.peek.kind ≠ .textHtml := by
      rw [hpeek]
      cases lexeme with
      | textHtml => rcases hnone with h | h <;> cases h
      | _ =>
        intro h
        cases h
    constructor
    · rintro ⟨rfl, rfl⟩
      exact ⟨.htmlEnd, hk, rfl, rfl⟩
    · rintro ⟨t, hf, rfl, hl⟩
      cases t with
      | htmlEnd => exact ⟨rfl, hl⟩
      | htmlLine =>
        obtain ⟨_, h, _⟩ := hl
        exact absurd (congrArg Token.kind (Event.peek_of_step_read hp h)) hk

theorem htmlFrom_meets (line : Line) (content : String) :
    Meets Anywhere (htmlFrom scope below line content) fun s v s' =>
      ∃ lines, HtmlLine.ReadBy scope line content s lines s' ∧ v = Node.joinHtml lines := by
  simp only [← Node.mergeHtml_eq]
  exact (htmlLine_meets hb line content).map Node.mergeHtml

theorem textFrom_meets (line : Line) (first : Node) :
    Meets Anywhere (textFrom scope below line first) fun s v s' =>
      ∃ more, (Symbol.text .lines).ReadBy scope s more s' ∧
        v = scope.collapse line (first :: more) :=
  (hb (.textRun true)).map fun more => scope.collapse line (first :: more)

end Grammar

end TemplateTree
