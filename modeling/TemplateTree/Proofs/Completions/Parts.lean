import TemplateTree.Proofs.Acceptance
import TemplateTree.Proofs.Endings

/-!
Streams that break off can be completed. Where a routine finds the end of the stream too early,
what it read so far is the beginning of a phrase: the constructs that are open can be closed, from
the innermost outwards, and each takes the end of the one within it.
-/

namespace TemplateTree
set_option autoImplicit false

namespace Routine

variable {n : Nat} {α β : Type} {s : State}

/-- The routine fails because it finds the end of the stream. -/
def BreaksOff (r : Routine n α) (s : State) : Prop :=
  ∃ e, r.Fails s e ∧ e.cause.found? = some .eos

theorem breaksOff_bind {r : Routine n α} {f : α → Routine n β} : (r >>= f).BreaksOff s ↔
    r.BreaksOff s ∨ ∃ a m, r.Runs s a m ∧ (f a).BreaksOff m := by
  constructor
  · rintro ⟨e, hf, he⟩
    rcases fails_bind.mp hf with hf | ⟨a, m, hr, hf⟩
    · exact .inl ⟨e, hf, he⟩
    · exact .inr ⟨a, m, hr, e, hf, he⟩
  · rintro (⟨e, hf, he⟩ | ⟨a, m, hr, e, hf, he⟩)
    · exact ⟨e, fails_bind.mpr (.inl hf), he⟩
    · exact ⟨e, fails_bind.mpr (.inr ⟨a, m, hr, hf⟩), he⟩

theorem not_breaksOff {r : Routine n α} (h : ∀ e, ¬ r.Fails s e) : ¬ r.BreaksOff s :=
  fun ⟨e, hf, _⟩ => h e hf

theorem not_breaksOff_pure (a : α) : ¬ (pure a : Routine n α).BreaksOff s :=
  not_breaksOff fun _ => not_fails_pure

theorem Meets.of_runs {r : Routine n α} {R : State → α → State → Prop} {a : α} {m : State}
    (h : Meets Anywhere r R) (hp : s.Plain) (hr : r.Runs s a m) : R s a m :=
  ((h.runs hp trivial).mp hr).2

/-- What is done with what a routine answers does not break off. -/
theorem breaksOff_map {r : Routine n α} {f : α → β} :
    (r >>= fun a => pure (f a)).BreaksOff s ↔ r.BreaksOff s := by
  rw [breaksOff_bind]
  exact ⟨fun h => h.resolve_right fun ⟨_, _, _, h⟩ => not_breaksOff_pure _ h, .inl⟩

theorem breaksOff_look_bind {g : State → α} {f : α → Routine n β} :
    (look g >>= f).BreaksOff s ↔ (f (g s)).BreaksOff s :=
  exists_congr fun _ => and_congr_left fun _ => fails_look_bind

theorem breaksOff_peek_bind {f : Token → Routine n β} :
    (peek >>= f).BreaksOff s ↔ (f s.cursor.peek).BreaksOff s := breaksOff_look_bind

theorem breaksOff_fail {cause : Cause} {line : Line}
    (h : (fail cause line : Routine n α).BreaksOff s) : cause.found? = some .eos := by
  obtain ⟨e, hf, he⟩ := h
  rw [(fails_fail.mp hf).2] at he
  exact he

theorem breaksOff_expect {kind : TokenKind} (h : (expect kind : Routine n Token).BreaksOff s) :
    s.cursor.peek.kind = .eos := by
  obtain ⟨e, hf, he⟩ := h
  rw [(fails_expect.mp hf).2.2] at he
  exact Option.some.inj he

/-- A token opens what breaks off, or what is not opened breaks off. -/
theorem breaksOff_opening {go : Option Nat → Token → Option (Routine n α)}
    {stop : Token → Routine (n + 1) α} (hp : s.Plain) (h : (opening go stop).BreaksOff s) :
    (∃ t r, s.cursor.tokens.head? = some t ∧ go (s.cursor.position 1) t = some r ∧
      r.BreaksOff s.next) ∨ (stop s.cursor.peek).BreaksOff s := by
  obtain ⟨e, hf, he⟩ := h
  obtain hg | ⟨t, ts, r, ht, hg⟩ := opens_or_not go hp
  · rw [Fails, opening_stop hp hg] at hf
    exact .inr ⟨e, hf, he⟩
  · refine .inl ⟨t, r, by rw [ht]; rfl, ?_, e, (fails_opening hp ht hg).mp hf, he⟩
    rwa [State.position_cons hp ht]

end Routine

/-- A phrase completes what is left of the stream. -/
def Symbol.Completed (g : Symbol) (before : List Event) (s : State) : Prop :=
  ∃ t : Phrase g, t.Fits .eos ∧ Completes before s t.trace

/-- A phrase completes what is left of the stream and begins where the stream goes on, if only
with the end. -/
def Symbol.Continued (g : Symbol) (before : List Event) (s : State) : Prop :=
  ∃ t : Phrase g, t.Fits .eos ∧ t.lead .eos = s.cursor.peek.lexeme ∧ Completes before s t.trace

/-- What completes the answer to a question about the grammar. -/
def Goal.Completed (before : List Event) (s : State) : Goal → Prop
  | .expression => Symbol.expression.Completed before s
  | .items _ => Symbol.items.Continued before s
  | .textRun spansLines =>
    (Symbol.text (if spansLines then .lines else .inLine)).Continued before s
  | .pipeless => ∃ (t : Phrase (.text .pipeless)) (closing : Line), t.Fits .endPipeless ∧
    Completes before s (t.trace ++ [.read ⟨closing, .endPipeless⟩])
  | .htmlRun => Symbol.html.Continued before s
  | .branches => Symbol.branches.Continued before s

/-- What completes a stream continues it where it is not at its end. -/
theorem Symbol.Completed.continued {g : Symbol} {before : List Event} {s : State} {t : Token}
    (h : g.Completed before s) (hp : s.Plain) (hh : s.cursor.tokens.head? = some t) :
    g.Continued before s := by
  obtain ⟨p, hf, hc⟩ := h
  refine ⟨p, hf, hc.lead_eq hp (fun hnil => ?_) _, hc⟩
  rw [hnil] at hh
  cases hh

namespace Grammar

open Routine

/-- What is below answers questions with phrases, and wherever it breaks off a phrase completes
what is left of the stream. -/
structure Completable (scope : Scope) {n : Nat} (below : Below n) : Prop where
  meets (goal : Goal) : Meets Anywhere (below goal) (goal.ReadBy scope)
  completed {goal : Goal} {before : List Event} {s : State} (hs : Unended before s)
    (h : (below goal).BreaksOff s) : goal.Completed before s

variable {n : Nat} {scope : Scope} {below : Below n} {before : List Event} {s : State}
variable (hb : Completable scope below)
include hb

theorem body_completed (hs : Unended before s) (h : (body scope below).BreaksOff s) :
    Symbol.body.Completed before s := by
  rcases breaksOff_bind.mp h with h | ⟨indent, m, hr, h⟩
  · have hnil := hs.tokens_eq_nil (breaksOff_expect h)
    exact ⟨.body 0 0 .done 0, trivial, .of_nil hnil (by simp [Phrase.trace, Event.Free])⟩
  obtain ⟨hi, h₁⟩ := (Meets.expect (by decide)).of_runs hs.plain hr
  obtain ⟨opening, width, rfl⟩ := Token.eq_indent hi
  have hm := hs.step h₁
  rcases breaksOff_bind.mp h with h | ⟨nodes, k, hr, h⟩
  · obtain ⟨t, hf, _, ht⟩ := hb.completed hm h
    exact ⟨.body opening width t 0, t.fits_of_ends rfl hf,
      hs.completes_step h₁ (ht.append (by simp [Event.Free]))⟩
  · rw [breaksOff_map] at h
    obtain ⟨⟨t, hf, _, h₂⟩, _⟩ := (hb.meets (.items true)).of_runs hm.plain hr
    have hnil := (hm.leads h₂).tokens_eq_nil (breaksOff_expect h)
    rw [State.peek_nil (hm.leads h₂).plain hnil] at hf
    exact ⟨.body opening width t 0, t.fits_of_ends rfl hf, hs.completes_step h₁
      (hm.completes_leads h₂ (.of_nil hnil (by simp [Event.Free])))⟩

/-- A body that may be absent only breaks off once it is begun. -/
theorem body?_completed (hs : Unended before s) (h : (body? scope below).BreaksOff s) :
    Symbol.body.Continued before s := by
  rw [body?, breaksOff_peek_bind] at h
  split at h
  · next hk =>
    rw [breaksOff_map] at h
    refine (body_completed hb hs h).continued hs.plain (State.head?_of_peek hs.plain fun he => ?_)
    rw [he] at hk
    cases hk
  · exact absurd h (not_breaksOff_pure _)

theorem expansion_completed (hs : Unended before s) (h : (expansion scope below).BreaksOff s) :
    Symbol.expansion.Completed before s := by
  rw [expansion, breaksOff_bind] at h
  rcases h with h | ⟨colon, m, hr, h⟩
  · exact absurd h (not_breaksOff fun _ => not_fails_acceptIf)
  rcases (Meets.acceptIf fun _ => rfl).of_runs hs.plain hr with ⟨t, rfl, ht, h₁⟩ | ⟨rfl, _, rfl⟩
  · obtain ⟨colon, rfl⟩ := Token.eq_of_kind_eq (l := .colon) rfl (beq_iff_eq.mp ht)
    rw [breaksOff_look_bind, breaksOff_map] at h
    obtain ⟨e, hf, he⟩ := hb.completed (hs.step h₁) h
    exact ⟨.expansionColon colon e, hf, hs.completes_step h₁ he⟩
  · obtain ⟨b, hf, hbody⟩ := body_completed hb hs h
    exact ⟨.expansionBody b, hf, hbody⟩

theorem interpolation_completed (hs : Unended before s) (h : (interpolation below).BreaksOff s) :
    ∃ (e : Phrase .expression) (closing : Line), e.Fits .endInterpolation ∧
      Completes before s (e.trace ++ [.read ⟨closing, .endInterpolation⟩]) := by
  rcases breaksOff_bind.mp h with h | ⟨node, m, hr, h⟩
  · obtain ⟨e, hf, he⟩ := hb.completed hs h
    exact ⟨e, 0, e.fits_of_ends rfl hf, he.append (by simp [Event.Free])⟩
  · rw [breaksOff_map] at h
    obtain ⟨e, hf, _, h₁⟩ := (hb.meets .expression).of_runs hs.plain hr
    have hnil := (hs.leads h₁).tokens_eq_nil (breaksOff_expect h)
    rw [State.peek_nil (hs.leads h₁).plain hnil] at hf
    exact ⟨e, 0, e.fits_of_ends rfl hf,
      hs.completes_leads h₁ (.of_nil hnil (by simp [Event.Free]))⟩

/-- Pipeless text that may be absent only breaks off once it is begun. -/
theorem pipelessBody?_completed (hs : Unended before s)
    (h : (pipelessBody? scope below).BreaksOff s) :
    Symbol.optionalPipeless.Continued before s := by
  rw [pipelessBody?, breaksOff_bind] at h
  rcases h with h | ⟨start, m, hr, h⟩
  · exact absurd h (not_breaksOff fun _ => not_fails_acceptIf)
  rcases (Meets.acceptIf fun _ => rfl).of_runs hs.plain hr with ⟨t, rfl, ht, h₁⟩ | ⟨rfl, _, rfl⟩
  · obtain ⟨opening, rfl⟩ := Token.eq_of_kind_eq (l := .startPipeless) rfl (beq_iff_eq.mp ht)
    obtain ⟨t, closing, hf, ht⟩ := hb.completed (hs.step h₁) (breaksOff_map.mp h)
    have hc : Symbol.optionalPipeless.Completed before s :=
      ⟨.somePipeless opening t closing, hf, hs.completes_step h₁ ht⟩
    exact hc.continued hs.plain (Event.step_read.mp h₁).1
  · exact absurd h (not_breaksOff_pure _)

theorem pipelessBody_completed {line : Line} (hs : Unended before s)
    (h : (pipelessBody scope below line).BreaksOff s) :
    Symbol.optionalPipeless.Continued before s :=
  pipelessBody?_completed hb hs (breaksOff_map.mp h)

/-! Runs of text and HTML. -/

theorem textRun_completed {spansLines : Bool} (hs : Unended before s)
    (h : (textRun scope below spansLines).BreaksOff s) :
    (Goal.textRun spansLines).Completed before s := by
  rcases breaksOff_opening hs.plain h with ⟨⟨line, lexeme⟩, r, hh, hg, h⟩ | h
  · have h₁ := Event.step_read.mpr ⟨hh, rfl⟩
    refine Symbol.Completed.continued ?_ hs.plain hh
    cases lexeme with
    | text content =>
      cases hg
      obtain ⟨t, hf, _, ht⟩ := hb.completed (hs.step h₁) (breaksOff_map.mp h)
      exact ⟨.textPiece line content t, hf, hs.completes_step h₁ ht⟩
    | startInterpolation =>
      cases hg
      rcases breaksOff_bind.mp h with h | ⟨node, m, hr, h⟩
      · obtain ⟨e, closing, hf, he⟩ := interpolation_completed hb (hs.step h₁) h
        refine ⟨.textInterpolation line e closing .textEnd, ⟨hf, ?_⟩, hs.completes_step h₁ he⟩
        cases spansLines <;> rfl
      · obtain ⟨e, k, closing, hf, _, h₂, h₃⟩ :=
          (interpolation_meets hb.meets).of_runs (hs.step h₁).plain hr
        have hk := (hs.step h₁).leads h₂
        obtain ⟨t, ht, _, hc⟩ := hb.completed (hk.step h₃) (breaksOff_map.mp h)
        exact ⟨.textInterpolation line e closing t, ⟨hf, ht⟩, hs.completes_step h₁
          ((hs.step h₁).completes_leads h₂ (hk.completes_step h₃ hc))⟩
    | newline =>
      cases spansLines with
      | false => cases hg
      | true =>
        cases hg
        rw [breaksOff_peek_bind] at h
        obtain ⟨t, hf, _, ht⟩ := hb.completed (hs.step h₁) (breaksOff_map.mp h)
        exact ⟨.textBreak line t, ⟨by decide, hf⟩, hs.completes_step h₁ ht⟩
    | _ => cases hg
  · exact absurd h (not_breaksOff_pure _)

theorem pipeless_completed (hs : Unended before s) (h : (pipeless scope below).BreaksOff s) :
    Goal.pipeless.Completed before s := by
  rcases breaksOff_opening hs.plain h with ⟨⟨line, lexeme⟩, r, hh, hg, h⟩ | h
  · have h₁ := Event.step_read.mpr ⟨hh, rfl⟩
    cases lexeme with
    | endPipeless =>
      cases hg
      exact absurd h (not_breaksOff_pure _)
    | text content =>
      cases hg
      obtain ⟨t, closing, hf, ht⟩ := hb.completed (hs.step h₁) (breaksOff_map.mp h)
      exact ⟨.textPiece line content t, closing, hf, hs.completes_step h₁ ht⟩
    | newline =>
      cases hg
      obtain ⟨t, closing, hf, ht⟩ := hb.completed (hs.step h₁) (breaksOff_map.mp h)
      exact ⟨.textBreak line t, closing, ⟨by decide, hf⟩, hs.completes_step h₁ ht⟩
    | startInterpolation =>
      cases hg
      rcases breaksOff_bind.mp h with h | ⟨node, m, hr, h⟩
      · obtain ⟨e, closing, hf, he⟩ := interpolation_completed hb (hs.step h₁) h
        refine ⟨.textInterpolation line e closing .textEnd, 0, ⟨hf, rfl⟩, hs.completes_step h₁ ?_⟩
        exact he.append (by simp [Event.Free])
      · obtain ⟨e, k, closing, hf, _, h₂, h₃⟩ :=
          (interpolation_meets hb.meets).of_runs (hs.step h₁).plain hr
        have hk := (hs.step h₁).leads h₂
        obtain ⟨t, last, ht, hc⟩ := hb.completed (hk.step h₃) (breaksOff_map.mp h)
        have hall := (hs.step h₁).completes_leads h₂ (hk.completes_step h₃ hc)
        exact ⟨.textInterpolation line e closing t, last, ⟨hf, ht⟩, hs.completes_step h₁
          (by simpa [Phrase.trace] using hall)⟩
    | _ => cases hg
  · have hnil := hs.tokens_eq_nil (Option.some.inj (breaksOff_fail h))
    exact ⟨.textEnd, 0, rfl, .of_nil hnil (by simp [Phrase.trace, Event.Free])⟩

theorem htmlNested_completed (hs : Unended before s) (h : (htmlNested scope below).BreaksOff s) :
    Symbol.nested.Completed before s := by
  rw [htmlNested, breaksOff_bind] at h
  rcases h with h | ⟨nested, m, _, h⟩
  · obtain ⟨b, hf, _, hbody⟩ := body?_completed hb hs h
    exact ⟨.nestedBody b, hf, hbody⟩
  · cases nested with
    | some nested => exact absurd h (not_breaksOff_pure _)
    | none => exact absurd (breaksOff_map.mp h) (not_breaksOff fun _ => not_fails_acceptIf)

theorem htmlLine_completed {line : Line} {content : String} (hs : Unended before s)
    (h : (htmlLine scope below line content).BreaksOff s) :
    ∃ (nested : Phrase .nested) (lines : Phrase .html), nested.Fits (lines.lead .eos) ∧
      lines.Fits .eos ∧ Completes before s (nested.trace ++ lines.trace) := by
  rcases breaksOff_bind.mp h with h | ⟨_, m, hr, h⟩
  · obtain ⟨nested, hf, hc⟩ := htmlNested_completed hb hs h
    exact ⟨nested, .htmlEnd, hf, by nofun, hc.append (by simp [Phrase.trace])⟩
  · obtain ⟨nested, hf, _, h₁⟩ := (htmlNested_meets hb.meets).of_runs hs.plain hr
    obtain ⟨lines, hl, hlead, hc⟩ := hb.completed (hs.leads h₁) (breaksOff_map.mp h)
    exact ⟨nested, lines, hlead ▸ hf, hl, hs.completes_leads h₁ hc⟩

theorem htmlRun_completed (hs : Unended before s) (h : (htmlRun scope below).BreaksOff s) :
    Goal.htmlRun.Completed before s := by
  rcases breaksOff_opening hs.plain h with ⟨⟨line, lexeme⟩, r, hh, hg, h⟩ | h
  · have h₁ := Event.step_read.mpr ⟨hh, rfl⟩
    refine Symbol.Completed.continued ?_ hs.plain hh
    cases lexeme with
    | textHtml content =>
      cases hg
      obtain ⟨nested, lines, hn, hl, hc⟩ := htmlLine_completed hb (hs.step h₁) h
      exact ⟨.htmlLine line content nested lines, ⟨hn, hl⟩, hs.completes_step h₁ hc⟩
    | _ => cases hg
  · exact absurd h (not_breaksOff_pure _)

/-! Cases, loops and what may carry pipeless text. -/

theorem caseFrom_completed {line : Line} {source : String} (hs : Unended before s)
    (h : (caseFrom scope below line source).BreaksOff s) :
    ∃ (opening : Line) (width : UInt64) (bs : Phrase .branches) (closing : Line),
      bs.Fits .outdent ∧ Completes before s (.read ⟨opening, .indent width⟩ :: bs.trace ++
        [.read ⟨closing, .outdent⟩]) := by
  rcases breaksOff_bind.mp h with h | ⟨indent, m, hr, h⟩
  · have hnil := hs.tokens_eq_nil (breaksOff_expect h)
    exact ⟨0, 0, .noBranches, 0, trivial, .of_nil hnil (by simp [Phrase.trace, Event.Free])⟩
  obtain ⟨hi, h₁⟩ := (Meets.expect (by decide)).of_runs hs.plain hr
  obtain ⟨opening, width, rfl⟩ := Token.eq_indent hi
  have hm := hs.step h₁
  rcases breaksOff_bind.mp h with h | ⟨nodes, k, hr, h⟩
  · obtain ⟨bs, hf, _, hc⟩ := hb.completed hm h
    exact ⟨opening, width, bs, 0, bs.fits_of_ends rfl hf,
      hs.completes_step h₁ (hc.append (by simp [Event.Free]))⟩
  · -- the branches only end where the case ends
    have hk := ((hb.meets .branches).of_runs hm.plain hr).2
    rw [breaksOff_expect (breaksOff_map.mp h)] at hk
    cases hk

theorem branchFrom_completed {line : Line} {source : String} (hs : Unended before s)
    (h : (branchFrom scope below line source).BreaksOff s) :
    Symbol.expansion.Completed before s := by
  rw [branchFrom, breaksOff_peek_bind] at h
  dsimp only at h
  split at h
  · exact expansion_completed hb hs (breaksOff_map.mp h)
  · exact absurd h (not_breaksOff_pure _)

theorem eachFrom_completed {line : Line} {head : LoopHead} (hs : Unended before s)
    (h : (eachFrom scope below line head).BreaksOff s) :
    ∃ (b : Phrase .body) (a : Phrase .alternative), b.Fits (a.lead .eos) ∧ a.Fits .eos ∧
      Completes before s (b.trace ++ a.trace) := by
  rcases breaksOff_bind.mp h with h | ⟨_, m, hr, h⟩
  · obtain ⟨b, hf, hc⟩ := body_completed hb hs h
    exact ⟨b, .noAlternative, hf, rfl, hc.append (by simp [Phrase.trace])⟩
  · obtain ⟨b, hf, _, h₁⟩ := (body_meets hb.meets).of_runs hs.plain hr
    have hm := hs.leads h₁
    rw [breaksOff_map, alternative?, breaksOff_bind] at h
    rcases h with h | ⟨_, k, hr, h⟩
    · exact absurd h (not_breaksOff fun _ => not_fails_acceptIf)
    rcases (Meets.acceptIf fun _ => rfl).of_runs hm.plain hr with ⟨t, rfl, ht, h₂⟩ | ⟨rfl, _, rfl⟩
    · obtain ⟨line, lexeme⟩ := t
      cases lexeme with
      | code c =>
        obtain ⟨d, hd, hc⟩ := body_completed hb (hm.step h₂) (breaksOff_map.mp h)
        have ha : Completes (before ++ b.trace) m (Phrase.someAlternative line c d).trace :=
          hm.completes_step h₂ hc
        refine ⟨b, .someAlternative line c d, ?_, ⟨ht, hd⟩, hs.completes_leads h₁ ha⟩
        cases b
        exact hf
      | _ => cases ht
    · exact absurd h (not_breaksOff_pure _)

theorem filterFrom_completed {line : Line} {name : String} (hs : Unended before s)
    (h : (filterFrom scope below line name).BreaksOff s) :
    ∃ (group : Option (Line × List Attribute × Bool)) (b : Phrase .optionalPipeless),
      (group = none → (b.lead .eos).kind ≠ .attrs) ∧ b.Fits .eos ∧ Completes before s
        ((group.map fun g => .read (groupToken g)).toList ++ b.trace) := by
  rw [filterFrom, breaksOff_bind] at h
  rcases h with h | ⟨_, m, hr, h⟩
  · exact absurd h (not_breaksOff fun _ => not_fails_acceptIf)
  rw [breaksOff_map] at h
  rcases (Meets.acceptIf fun _ => rfl).of_runs hs.plain hr with ⟨t, rfl, ht, h₁⟩ | ⟨rfl, ht, rfl⟩
  · obtain ⟨b, hf, _, hc⟩ := pipelessBody_completed hb (hs.step h₁) h
    obtain ⟨opening, lexeme⟩ := t
    cases lexeme with
    | attrs list closing =>
      exact ⟨some ⟨opening, list, closing⟩, b, nofun, hf, hs.completes_step h₁ hc⟩
    | _ => cases ht
  · obtain ⟨b, hf, hlead, hc⟩ := pipelessBody_completed hb hs h
    exact ⟨none, b, fun _ => by rw [hlead]; exact beq_eq_false_iff_ne.mp ht, hf, hc⟩

theorem commentFrom_completed {line : Line} {text : String} {buffered : Bool}
    (hs : Unended before s) (h : (commentFrom scope below line text buffered).BreaksOff s) :
    Symbol.optionalPipeless.Completed before s := by
  rcases breaksOff_bind.mp h with h | ⟨body, m, _, h⟩
  · obtain ⟨b, hf, _, hc⟩ := pipelessBody?_completed hb hs h
    exact ⟨b, hf, hc⟩
  · cases body <;> exact absurd h (not_breaksOff_pure _)

/-! Code, and the content of tags and calls. -/

omit hb in
/-- A line of code that breaks off does so in its body, so it was found to be allowed. -/
theorem codeFrom_breaksOff {place : Option Nat} {line : Line} {c : CodeLine} (hp : s.Plain)
    (h : (codeFrom .slot scope below place line c).BreaksOff s) :
    (Event.code line c).Allowed place s ∧ (body? scope below).BreaksOff s := by
  rw [codeFrom, breaksOff_bind] at h
  rcases h with ⟨e, hf, he⟩ | ⟨_, m, hr, h⟩
  · rw [checkElse, fails_look_bind] at hf
    split at hf
    · rw [(fails_fail.mp hf).2] at he
      cases he
    · exact absurd hf not_fails_pure
  obtain ⟨ha, rfl⟩ := (checkElse_meets place line c).of_runs hp hr
  refine ⟨ha, (breaksOff_bind.mp h).resolve_right ?_⟩
  rintro ⟨_, k, _, h⟩
  refine not_breaksOff (fun e hf => ?_) (breaksOff_map.mp h)
  unfold finishBranch at hf
  split at hf
  · exact not_fails_modify hf
  · exact not_fails_pure hf

theorem code_completed {line : Line} {c : CodeLine} (hs : Unended before s)
    (hh : s.cursor.tokens.head? = some ⟨line, .code c⟩)
    (h : (codeFrom .slot scope below (s.cursor.position 1) line c).BreaksOff s.next) :
    Symbol.code.Completed before s := by
  have hread : (Event.read ⟨line, .code c⟩).Step s s.next := Event.step_read.mpr ⟨hh, rfl⟩
  obtain ⟨ha, h⟩ := codeFrom_breaksOff (Event.plain_of_step hs.plain hread) h
  have h₁ : (Event.code line c).Step s s.next := (Event.step_of_token rfl).mpr ⟨hh, rfl, ha⟩
  obtain ⟨b, hf, _, hc⟩ := body?_completed hb (hs.step h₁) h
  refine ⟨.code line c (.someBody b), hf, hs.completes_step h₁ (hc.append ?_)⟩
  split <;> simp [Event.Free]

theorem lineContent_completed {line : Line} (hs : Unended before s)
    (h : (lineContent .slot scope below line).BreaksOff s) :
    Symbol.line.Completed before s := by
  rw [lineContent, breaksOff_peek_bind] at h
  have hhead (hk : s.cursor.peek.kind ≠ .eos) : s.cursor.tokens.head? = some s.cursor.peek :=
    State.head?_of_peek hs.plain fun he => hk (by rw [he]; rfl)
  cases hpeek : s.cursor.peek with
  | mk first lexeme =>
  rw [hpeek] at h hhead
  cases lexeme with
  | text content | startInterpolation =>
    obtain ⟨t, hf, hlead, hc⟩ := hb.completed hs (breaksOff_map.mp h)
    refine ⟨.lineText t, ⟨?_, hf⟩, hc⟩
    rw [hlead, hpeek]
    rfl
  | newline | indent | outdent | eos | startPipeless | endInterpolation =>
    exact absurd h (not_breaksOff_pure _)
  | code c =>
    rw [breaksOff_look_bind, breaksOff_bind] at h
    rcases h with h | ⟨t, m, hr, h⟩
    · exact absurd h (not_breaksOff fun _ => not_fails_next)
    obtain ⟨_, rfl, rfl⟩ := runs_next.mp hr
    rw [breaksOff_map, hpeek] at h
    obtain ⟨t, hf, hc⟩ := code_completed hb hs (hhead nofun) h
    exact ⟨.lineCode t, hf, hc⟩
  | colon =>
    rw [breaksOff_map, expansion, breaksOff_bind] at h
    rcases h with h | ⟨t, m, hr, h⟩
    · exact absurd h (not_breaksOff fun _ => not_fails_acceptIf)
    have hr := (runs_acceptIf.mp hr).2
    rw [hpeek, if_pos (by rfl)] at hr
    obtain ⟨rfl, rfl⟩ := hr
    have h₁ : (Event.read ⟨first, .colon⟩).Step s s.next := Event.step_read.mpr ⟨hhead nofun, rfl⟩
    rw [breaksOff_look_bind, breaksOff_map] at h
    obtain ⟨e, hf, hc⟩ := hb.completed (hs.step h₁) h
    exact ⟨.lineColon first e, hf, hs.completes_step h₁ hc⟩
  | _ => cases breaksOff_fail h

end Grammar

end TemplateTree
