import TemplateTree.Proofs.Acceptance
import TemplateTree.Proofs.Rebuilding

/-!
What happens while a phrase is read, piece by piece. A property of sequences of events that is
closed under putting pieces together holds of every phrase's events. Most tokens are alike for
that; those in a head, mixins, filters and the marks around text are not.
-/

namespace TemplateTree
set_option autoImplicit false

/-- A token that is the same wherever it stands. -/
def Token.isCommon (t : Token) : Bool :=
  match t.lexeme with
  | .mixin .. => false
  | .filter _ => false
  | .startPipeless => false
  | .endPipeless => false
  | .startInterpolation => false
  | .endInterpolation => false
  | l => !l.isHead

/-- The property of events in front of a lexeme is closed under every way in which a phrase puts
them together. -/
structure TraceClosed (Q : List Event → Lexeme → Prop) : Prop where
  nil (next : Lexeme) : Q [] next
  append {es fs : List Event} {next : Lexeme} :
    Q es (.following (fs.filterMap Event.token?) next) → Q fs next → Q (es ++ fs) next
  common {e : Event} {t : Token} (next : Lexeme) :
    e.token? = some t → t.isCommon = true → Q [e] next
  quiet {e : Event} (next : Lexeme) : e.token? = none → e.noted = [] → Q [e] next
  heads {heads : List Token} {next : Lexeme} : (∀ t ∈ heads, t.isHead = true) →
    next.isHead = false → Q (heads.map .read ++ [.notices (Head.notices false heads)]) next
  pipeless {es : List Event} (opening closing : Line) (next : Lexeme) : Q es .endPipeless →
    Q (.read ⟨opening, .startPipeless⟩ :: es ++ [.read ⟨closing, .endPipeless⟩]) next
  interpolation {es : List Event} (opening closing : Line) (next : Lexeme) :
    Q es .endInterpolation →
    Q (.read ⟨opening, .startInterpolation⟩ :: es ++ [.read ⟨closing, .endInterpolation⟩]) next
  definition {next : Lexeme} (line : Line) (name : String) (args : Option String) :
    next.kind = .indent → Q [.read ⟨line, .mixin name args⟩] next
  oldCall {next : Lexeme} (line : Line) (name : String) (args : Option String) :
    next.kind ≠ .indent →
    Q [.read ⟨line, .mixin name args⟩, .notices [⟨.deprecatedMixinCall name, line⟩]] next
  filter {next : Lexeme} (line : Line) (name : String) :
    next.kind ≠ .attrs → Q [.read ⟨line, .filter name⟩] next
  filterGroup {next : Lexeme} (line : Line) (name : String)
    (group : Line × List Attribute × Bool) : Q [.read ⟨line, .filter name⟩, .read (groupToken group)] next

namespace TraceClosed

variable {Q : List Event → Lexeme → Prop} (h : TraceClosed Q)
variable {es : List Event} {e : Event} {t : Token} {next : Lexeme}
include h

theorem cons (ht : e.token? = some t) (hc : t.isCommon = true) (hes : Q es next) :
    Q (e :: es) next :=
  h.append (h.common _ ht hc) hes

theorem newlines (lines : List Line) (hes : Q es next) : Q (lines.map .newline ++ es) next := by
  induction lines with
  | nil => exact hes
  | cons line lines ih => exact h.cons rfl rfl ih

/-- What is closed under putting events together holds of the events of every phrase that fits. -/
theorem trace {g : Symbol} (t : Phrase g) (hf : t.Fits next) : Q t.trace next := by
  induction t generalizing next with
  | done | noBody | textEnd | noPipeless | htmlEnd | nestedNone | lineEnd | noBranches
  | fallThrough | noAlternative => exact h.nil next
  | nestedNewline | mixinBlock | inherit | doctype | yield => exact h.common next rfl rfl
  | someBody _ ih | nestedBody _ ih | lineCode _ ih | expansionBody _ ih | statement _ ih =>
    exact ih hf
  | lineText _ ih | division _ ih | textLines _ ih => exact ih hf.2
  | newline _ _ ih | textPiece _ _ _ ih | lineColon _ _ ih | branchNewline _ _ ih
  | expansionColon _ _ ih | tag _ _ _ _ ih | buffered _ _ _ ih | call _ _ _ _ ih
  | namedBlock _ _ _ _ ih | inclusion _ _ _ _ _ ih | comment _ _ _ _ ih | dot _ _ ih =>
    exact h.cons rfl rfl (ih hf)
  | textBreak _ _ ih | someAlternative _ _ _ ih => exact h.cons rfl rfl (ih hf.2)
  | body _ _ _ _ ih => exact h.append (h.cons rfl rfl (ih hf)) (h.common next rfl rfl)
  | somePipeless opening _ closing ih => exact h.pipeless opening closing next (ih hf)
  | case _ _ _ _ _ _ ih =>
    exact h.append (h.cons rfl rfl (h.cons rfl rfl (ih hf))) (h.common next rfl rfl)
  | item _ _ ihe ih => exact h.append (ihe hf.2.1) (ih hf.2.2)
  | htmlLine _ _ _ _ ihe ih | rawHtml _ _ _ _ ihe ih | each _ _ _ _ ihe ih =>
    exact h.append (h.cons rfl rfl (ihe hf.1)) (ih hf.2)
  | branch _ source _ _ ihe ih =>
    exact h.append (h.cons rfl (by cases source <;> rfl) (ihe hf.1)) (ih hf.2)
  | html _ _ _ _ _ ihn ihl ih =>
    exact h.append (h.append (h.cons rfl rfl (ihn hf.1)) (ihl hf.2.1)) (ih hf.2.2)
  | textInterpolation opening _ closing _ ihe ih =>
    rw [Phrase.trace, List.append_cons, List.cons_append]
    exact h.append (h.interpolation opening closing _ (ihe hf.1)) (ih hf.2)
  | code _ c _ ih =>
    by_cases hc : c.isIf = true
    · rw [Phrase.trace, if_pos hc]
      exact h.append (h.cons rfl rfl (ih hf)) (h.quiet next rfl rfl)
    · rw [Phrase.trace, if_neg hc]
      exact h.append (h.cons rfl rfl (ih hf)) (h.nil next)
  | definition line name args b ih =>
    have hmixin : Q [.read ⟨line, .mixin name args⟩] (b.lead next) := by
      cases b
      exact h.definition line name args rfl
    have hbody : Q (.enterMixin :: b.trace) next := h.append (h.quiet _ rfl rfl) (ih hf)
    have hboth : Q ([.read ⟨line, .mixin name args⟩] ++ .enterMixin :: b.trace) next :=
      h.append hmixin hbody
    exact h.append hboth (h.quiet next rfl rfl)
  | oldCall line name args => exact h.oldCall line name args hf
  | filter line name group _ ih =>
    cases group with
    | none => exact h.append (h.filter line name (hf.1 rfl)) (ih hf.2)
    | some group => exact h.append (h.filterGroup line name group) (ih hf.2)
  | plain heads l newlines b ihl ihb =>
    obtain ⟨hheads, -, hl, -, hb⟩ := hf
    replace hl : l.Fits (.following ((newlines.map Event.newline ++ b.trace).filterMap
        Event.token?) next) := by cases newlines <;> exact hl
    rw [Phrase.trace, List.append_cons, List.append_assoc]
    exact h.append (h.append (h.heads hheads (Phrase.isHead_lead_line hl)) (ihl hl))
      (h.newlines newlines (ihb hb))
  | dotted heads dotLine l newlines b ihl ihb =>
    obtain ⟨hheads, -, hl, -, hb⟩ := hf
    replace hl : l.Fits (.following ((newlines.map Event.newline ++ b.trace).filterMap
        Event.token?) next) := by cases newlines <;> exact hl
    rw [Phrase.trace, List.append_cons, List.append_assoc]
    exact h.append (h.append (h.heads hheads rfl) (h.cons rfl rfl (ihl hl)))
      (h.newlines newlines (ihb hb))

end TraceClosed

end TemplateTree
