import TemplateTree.Proofs.Lawful
import TemplateTree.Proofs.Specs.Answer

/-!
Endings of streams. Whatever ends an open construct is as good as the end of the stream to the
phrase before it, so a phrase that fits the end of a stream fits whatever closes the constructs
around it.
-/

namespace TemplateTree
set_option autoImplicit false

/-- The lexemes that end what stands in a body or in an interpolation, or all that stands. -/
def Lexeme.ends : Lexeme → Bool
  | outdent => true
  | endInterpolation => true
  | eos => true
  | _ => false

/-- The same lexeme, or two that end. -/
def Lexeme.EndsLike (a b : Lexeme) : Prop := a = b ∨ a.ends = true ∧ b.ends = true

namespace Lexeme.EndsLike

variable {a b : Lexeme} {P : Lexeme → Prop}

/-- What holds of all lexemes that end holds of both or of none. -/
theorem imp (h : a.EndsLike b) (hP : ∀ c : Lexeme, c.ends = true → P c) (ha : P a) : P b := by
  rcases h with rfl | ⟨_, hb⟩
  · exact ha
  · exact hP b hb

theorem imp_not (h : a.EndsLike b) (hP : ∀ c : Lexeme, c.ends = true → ¬ P c) (ha : P a) : P b := by
  rcases h with rfl | ⟨hends, _⟩
  · exact ha
  · exact absurd ha (hP a hends)

theorem lead (h : a.EndsLike b) {g : Symbol} (t : Phrase g) : (t.lead a).EndsLike (t.lead b) := by
  rw [Phrase.lead, Phrase.lead]
  cases t.tokens.head? with
  | none => exact h
  | some u => exact .inl rfl

theorem kind_ne (h : a.EndsLike b) {k : TokenKind} (ha : a.kind ≠ k)
    (hk : k ≠ .outdent ∧ k ≠ .endInterpolation ∧ k ≠ .eos) : b.kind ≠ k := by
  refine h.imp (P := fun c => c.kind ≠ k) (fun c hc he => ?_) ha
  subst he
  cases c <;> cases hc <;> simp [Lexeme.kind] at hk

end Lexeme.EndsLike

namespace Phrase

theorem fits_endsLike {g : Symbol} (t : Phrase g) {a b : Lexeme} (h : a.EndsLike b)
    (hf : t.Fits a) : t.Fits b := by
  induction t generalizing a b with
  | done | nestedNewline | noBranches | mixinBlock | inherit | doctype | yield => trivial
  | newline _ _ ih | someBody _ ih | textPiece _ _ _ ih | nestedBody _ ih | code _ _ _ ih
    | lineCode _ ih | lineColon _ _ ih | branchNewline _ _ ih | expansionColon _ _ ih
    | expansionBody _ ih | tag _ _ _ _ ih | buffered _ _ _ ih | call _ _ _ _ ih
    | definition _ _ _ _ ih | namedBlock _ _ _ _ ih | inclusion _ _ _ _ _ ih | statement _ ih
    | comment _ _ _ _ ih | dot _ _ ih => exact ih h hf
  | body | somePipeless | case => exact hf
  | html line content nested lines more ihn ihl ih =>
    exact ⟨ihn ((h.lead more).lead lines) hf.1, ihl (h.lead more) hf.2.1, ih h hf.2.2⟩
  | item e more ihe ih =>
    exact ⟨((h.lead more).lead e).kind_ne hf.1 (by decide), ihe (h.lead more) hf.2.1, ih h hf.2.2⟩
  | noBody | noPipeless | htmlEnd | oldCall => exact h.kind_ne hf (by decide)
  | nestedNone | fallThrough =>
    exact ⟨h.kind_ne hf.1 (by decide), h.kind_ne hf.2 (by decide)⟩
  | textEnd =>
    refine h.imp (P := fun c => TextPlace.takes _ c.kind = false) (fun c hc => ?_) hf
    cases c <;> cases hc <;> rfl
  | lineEnd =>
    refine h.imp (P := fun c => c.kind.endsLine = true) (fun c hc => ?_) hf
    cases c <;> cases hc <;> rfl
  | noAlternative =>
    refine h.imp (P := fun c => Grammar.isAlternative c = false) (fun c hc => ?_) hf
    cases c <;> cases hc <;> rfl
  | textBreak _ _ ih | someAlternative _ _ _ ih | division _ ih => exact ⟨hf.1, ih h hf.2⟩
  | textInterpolation _ _ _ _ _ ih => exact ⟨hf.1, ih h hf.2⟩
  | htmlLine _ _ nested lines ihn ih | rawHtml _ _ nested lines ihn ih =>
    exact ⟨ihn (h.lead lines) hf.1, ih h hf.2⟩
  | lineText pieces ih | textLines pieces ih =>
    refine ⟨(h.lead pieces).imp_not (P := fun c => TextPlace.inLine.takes c.kind = true)
      (fun c hc ht => ?_) hf.1, ih h hf.2⟩
    cases c <;> cases hc <;> cases ht
  | plain heads l newlines body ihl ihb | dotted heads dotLine l newlines body ihl ihb =>
    obtain ⟨hheads, hn, hl, hk, hb⟩ := hf
    refine ⟨hheads, hn, ?_, (h.lead body).kind_ne hk (by decide), ihb h hb⟩
    split at hl
    · next hnil =>
      rw [if_pos hnil]
      exact ihl (h.lead body) hl
    · next hnil =>
      rw [if_neg hnil]
      exact hl
  | branch _ _ x more ihx ih => exact ⟨ihx (h.lead more) hf.1, ih h hf.2⟩
  | each _ _ body alternative ihb iha => exact ⟨ihb (h.lead alternative) hf.1, iha h hf.2⟩
  | filter _ _ group body ih =>
    exact ⟨fun hg => (h.lead body).kind_ne (hf.1 hg) (by decide), ih h hf.2⟩

theorem fits_of_ends {g : Symbol} {t : Phrase g} {next : Lexeme} (hn : next.ends = true)
    (hf : t.Fits .eos) : t.Fits next :=
  t.fits_endsLike (.inr ⟨rfl, hn⟩) hf

end Phrase

/-! Events that complete what is left of a stream. -/

/-- A state that the given events lead to, in a stream that has no explicit end. -/
structure Unended (before : List Event) (s : State) : Prop extends Traced before s where
  proper : ∀ t ∈ s.cursor.tokens, t.isEos = false

/-- What is left of the stream, together with some tokens that may follow it, is read by the
events. -/
structure Completes (before : List Event) (s : State) (es : List Event) : Prop where
  tokens : s.cursor.tokens <+: es.filterMap Event.token?
  lawful : LawfulAfter before es

/-- An event that may always happen. -/
def Event.Free : Event → Prop
  | code .. => False
  | mixinBlock _ => False
  | _ => True

theorem Event.Free.granted {e : Event} (h : e.Free) (before : List Event) : e.Granted before := by
  cases e <;> trivial

theorem lawfulAfter_of_free {before es : List Event} (h : ∀ e ∈ es, e.Free) :
    LawfulAfter before es := by
  rintro mid e rest rfl
  exact (h e (by simp)).granted _

namespace Unended

variable {before es : List Event} {e : Event} {s m : State}

theorem start {ts : List Token} (h : ∀ t ∈ ts, t.isEos = false) :
    Unended [] (.start (.ofTokens ts)) where
  toTraced := Traced.start _ rfl
  proper := h

theorem step (h : Unended before s) (hs : e.Step s m) : Unended (before ++ [e]) m where
  toTraced := h.toTraced.step hs
  proper t ht := by
    have hl : Leads [e] s m := ⟨m, hs, rfl⟩
    exact h.proper t (by rw [hl.tokens_eq h.plain]; exact List.mem_append_right _ ht)

theorem leads (h : Unended before s) (hl : Leads es s m) : Unended (before ++ es) m := by
  induction es generalizing before s with
  | nil =>
    cases hl
    rwa [List.append_nil]
  | cons e es ih =>
    obtain ⟨k, hs, hl⟩ := hl
    rw [List.append_cons]
    exact ih (h.step hs) hl

/-- Only where nothing is left is the end seen. -/
theorem tokens_eq_nil (h : Unended before s) (hk : s.cursor.peek.kind = .eos) :
    s.cursor.tokens = [] := by
  cases ht : s.cursor.tokens with
  | nil => rfl
  | cons t ts =>
    rw [State.peek_cons h.plain ht] at hk
    have hp := h.proper t (by rw [ht]; exact List.mem_cons_self)
    rw [Token.isEos, hk] at hp
    cases hp

theorem completes_leads (h : Unended before s) (hl : Leads es s m) {fs : List Event}
    (hc : Completes (before ++ es) m fs) : Completes before s (es ++ fs) where
  tokens := by
    rw [hl.tokens_eq h.plain, List.filterMap_append]
    exact List.prefix_append_right_inj _ |>.mpr hc.tokens
  lawful := lawfulAfter_append.mpr ⟨(h.exists_leads_iff.mp ⟨m, hl⟩).2, hc.lawful⟩

theorem completes_step (h : Unended before s) (hs : e.Step s m) {fs : List Event}
    (hc : Completes (before ++ [e]) m fs) : Completes before s (e :: fs) := by
  have hl : Leads [e] s m := ⟨m, hs, rfl⟩
  exact h.completes_leads hl hc

end Unended

namespace Completes

variable {before es fs : List Event} {s : State}

/-- What completes a stream may go on. -/
theorem append (h : Completes before s es) (hf : ∀ e ∈ fs, e.Free) :
    Completes before s (es ++ fs) where
  tokens := by
    rw [List.filterMap_append]
    exact h.tokens.trans (List.prefix_append _ _)
  lawful := lawfulAfter_append.mpr ⟨h.lawful, lawfulAfter_of_free hf⟩

/-- Anything may follow where nothing is left. -/
theorem of_nil (hs : s.cursor.tokens = []) (hf : ∀ e ∈ fs, e.Free) : Completes before s fs where
  tokens := by
    rw [hs]
    exact List.nil_prefix
  lawful := lawfulAfter_of_free hf

/-- What completes a stream begins with what is seen of it. -/
theorem lead_eq {g : Symbol} {t : Phrase g} (h : Completes before s t.trace) (hp : s.Plain)
    (hs : s.cursor.tokens ≠ []) (next : Lexeme) : t.lead next = s.cursor.peek.lexeme := by
  obtain ⟨u, us, hu⟩ := List.exists_cons_of_ne_nil hs
  obtain ⟨rest, hrest⟩ := h.tokens
  rw [State.peek_cons hp hu, Phrase.lead, Phrase.tokens, ← hrest, hu]
  rfl

end Completes

end TemplateTree
