import TemplateTree.Proofs.Completions.Parts
import TemplateTree.Proofs.Errors

/-!
What breaks off within a tag, a call or any other expression can be completed, and so can items and
branches. So a stream that fails only because it ends is the beginning of one that parses.
-/

namespace TemplateTree
set_option autoImplicit false

open Routine

variable {before : List Event} {s : State}

/-- A line, the newlines behind it and what may stand below complete what is left of the stream. -/
def Symbol.CompletedAfterLine (g : Symbol) (before : List Event) (s : State) : Prop :=
  ∃ (l : Phrase .line) (newlines : List Line) (b : Phrase g),
    l.Fits (if newlines = [] then b.lead .eos else .newline) ∧ (b.lead .eos).kind ≠ .newline ∧
      b.Fits .eos ∧ Completes before s (l.trace ++ newlines.map .newline ++ b.trace)

namespace Symbol

variable {g : Symbol}

theorem completedAfterLine_of_line (b : Phrase g) (hb : b.trace = []) (hf : b.Fits .eos)
    (h : Symbol.line.Completed before s) : g.CompletedAfterLine before s := by
  obtain ⟨l, hl, hc⟩ := h
  have hlead : b.lead .eos = .eos := by rw [Phrase.lead, Phrase.tokens, hb]; rfl
  refine ⟨l, [], b, ?_, ?_, hf, ?_⟩
  · rwa [if_pos rfl, hlead]
  · rw [hlead]
    decide
  · rw [hb]
    simpa using hc

/-- What stands below a line begins where the newlines end. -/
theorem completedAfterLine_of_below {l : Phrase .line} {newlines : List Line} {m k : State}
    (hs : Unended before s) (hl : l.Fits m.cursor.peek.lexeme) (h₁ : Leads l.trace s m)
    (h₂ : Leads (newlines.map .newline) m k) (hk : k.cursor.peek.kind ≠ .newline)
    (h : g.Continued (before ++ (l.trace ++ newlines.map .newline)) k) :
    g.CompletedAfterLine before s := by
  obtain ⟨b, hf, hlead, hc⟩ := h
  refine ⟨l, newlines, b, ?_, ?_, hf, ?_⟩
  · rwa [hlead, ← Phrase.lexeme_peek_newlines (hs.leads h₁).plain h₂]
  · rwa [hlead]
  · exact hs.completes_leads (Leads.append_iff.mpr ⟨m, h₁, h₂⟩) hc

end Symbol

namespace Grammar

section Parts

variable {n : Nat} {scope : Scope} {below : Below n}

theorem openedBy_none : OpenedBy none s := by
  rintro _ ⟨⟩

/-- A run of head tokens never ends too early. -/
theorem not_breaksOff_head {selfClosing : Bool}
    {shorthand : Option { t : Token // t.isHead = true }} (hp : s.Plain)
    (ho : OpenedBy shorthand s) :
    ¬ (Grammar.head selfClosing shorthand : Routine n Head).BreaksOff s := by
  rintro ⟨e, hf, he⟩
  obtain ⟨_, t, _, _, _, _, ht⟩ := Head.foldlM_error.mp ((fails_head hp ho).mp hf).2
  rw [(Head.addToken_error ht).2] at he
  cases he

variable (hb : Completable scope below)
include hb

theorem afterLine_completed {line : Line} {textOnly : Bool}
    {rest : Block × Option Node → Block → Content}
    (hs : Unended before s)
    (h : (do
      let inLine ← lineContent .slot scope below line
      Routine.skipNewlines
      let body ← bodyAfter scope below line textOnly inLine.1
      return rest inLine body : Routine n Content).BreaksOff s) :
    (if textOnly then Symbol.optionalPipeless else .optionalBody).CompletedAfterLine before s := by
  rcases breaksOff_bind.mp h with h | ⟨inLine, m, hr, h⟩
  · have hl := lineContent_completed hb hs h
    cases textOnly with
    | true => exact Symbol.completedAfterLine_of_line .noPipeless rfl nofun hl
    | false => exact Symbol.completedAfterLine_of_line .noBody rfl nofun hl
  obtain ⟨l, hl, -, h₁⟩ := (lineContent_meets hb.meets line).of_runs hs.plain hr
  rcases breaksOff_bind.mp h with h | ⟨_, k, hr, h⟩
  · exact absurd h (not_breaksOff fun _ => not_fails_skipNewlines)
  obtain ⟨newlines, h₂, hk⟩ := Meets.skipNewlines.of_runs (hs.leads h₁).plain hr
  refine Symbol.completedAfterLine_of_below hs hl h₁ h₂ hk ?_
  have hs' := hs.leads (Leads.append_iff.mpr ⟨m, h₁, h₂⟩)
  have h := breaksOff_map.mp h
  unfold bodyAfter at h
  cases textOnly with
  | true => exact pipelessBody_completed hb hs' h
  | false =>
    obtain ⟨b, hf, hlead, hc⟩ := body?_completed hb hs' (breaksOff_map.mp h)
    exact ⟨.someBody b, hf, hlead, hc⟩

theorem content_completed {line : Line} {selfClosing : Bool}
    {shorthand : Option { t : Token // t.isHead = true }} (hs : Unended before s)
    (ho : OpenedBy shorthand s)
    (h : (content .slot scope below line selfClosing shorthand).BreaksOff s) :
    ∃ c : Phrase .content, c.Fits .eos ∧ ∃ es,
      c.trace = (shorthand.map Subtype.val).toList.map .read ++ es ∧ Completes before s es := by
  rcases breaksOff_bind.mp h with h | ⟨_, _, hr, h⟩
  · exact absurd h (not_breaksOff_head hs.plain ho)
  obtain ⟨more, m, hmore, h₁, -, hn, -, rfl⟩ :=
    ((head_meets selfClosing shorthand).runs hs.plain ho |>.mp hr).2
  generalize hheads : (shorthand.map Subtype.val).toList ++ more = heads at *
  have hhead : ∀ t ∈ heads, t.isHead = true := by
    subst hheads
    simp only [List.mem_append, Option.mem_toList, Option.map_eq_some_iff]
    rintro t (⟨u, -, rfl⟩ | ht)
    · exact u.2
    · exact hmore t ht
  have h₂ : Leads (more.map .read ++ [.notices (Head.notices false heads)]) s
      (m.addNotices (Head.notices false heads)) :=
    Leads.append_iff.mpr ⟨m, h₁, _, rfl, rfl⟩
  have hm := hs.leads h₂
  rcases breaksOff_bind.mp h with h | ⟨_, k, hr, h⟩
  · exact absurd h (not_breaksOff fun _ => not_fails_acceptIf)
  rcases (Meets.acceptIf fun _ => rfl).of_runs hm.plain hr with ⟨t, rfl, ht, h₃⟩ | ⟨rfl, _, rfl⟩
  · obtain ⟨dotLine, rfl⟩ := Token.eq_of_kind_eq (l := .dot) rfl (beq_iff_eq.mp ht)
    obtain ⟨l, newlines, b, hl, hk, hf, hc⟩ := afterLine_completed hb (hm.step h₃) h
    refine ⟨.dotted heads dotLine l newlines b, ⟨hhead, hn, hl, hk, hf⟩, _,
      Phrase.trace_content_iff.mpr ⟨more, hheads.symm, rfl⟩, ?_⟩
    have hall := hs.completes_leads h₂ (hm.completes_step h₃ hc)
    simpa [Phrase.heads, Phrase.afterHeads] using hall
  · obtain ⟨l, newlines, b, hl, hk, hf, hc⟩ := afterLine_completed hb hm h
    refine ⟨.plain heads l newlines b, ⟨hhead, hn, hl, hk, hf⟩, _,
      Phrase.trace_content_iff.mpr ⟨more, hheads.symm, rfl⟩, ?_⟩
    have hall := hs.completes_leads h₂ hc
    simpa [Phrase.heads, Phrase.afterHeads] using hall

theorem mixinFrom_completed {line : Line} {name : String} {args : Option String}
    (hs : Unended before s) (h : (mixinFrom scope below line name args).BreaksOff s) :
    ∃ b : Phrase .body, b.Fits .eos ∧
      Completes before s (.enterMixin :: b.trace ++ [.leaveMixin]) := by
  rw [mixinFrom, breaksOff_peek_bind] at h
  split at h
  · rcases breaksOff_bind.mp h with h | ⟨_, m, hr, h⟩
    · exact absurd h (not_breaksOff fun _ => not_fails_modify)
    have h₁ : Event.enterMixin.Step s m := (runs_modify.mp hr).2
    rcases breaksOff_bind.mp h with h | ⟨_, _, _, h⟩
    · obtain ⟨b, hf, hc⟩ := body_completed hb (hs.step h₁) h
      exact ⟨b, hf, hs.completes_step h₁ (hc.append (by simp [Event.Free]))⟩
    · exact absurd (breaksOff_map.mp h) (not_breaksOff fun _ => not_fails_modify)
  · exact absurd (breaksOff_map.mp h) (not_breaksOff fun _ => not_fails_addNotices)

/-- An expression that breaks off behind its first token can be completed. -/
theorem expressionFrom_completed {t : Token} (hs : Unended before s)
    (hh : s.cursor.tokens.head? = some t)
    (h : (expressionFrom .slot scope below (s.cursor.position 1) t).BreaksOff s.next) :
    Symbol.expression.Completed before s := by
  have h₁ : (Event.read t).Step s s.next := Event.step_read.mpr ⟨hh, rfl⟩
  have hm := hs.step h₁
  have hline : s.next.cursor.line = t.line := State.line_next hs.plain hh
  have hproper := hs.proper t (List.mem_of_mem_head? hh)
  obtain ⟨line, lexeme⟩ := t
  cases lexeme with
  | tag name selfClosing =>
    obtain ⟨c, hf, _, rfl, hc⟩ := content_completed hb hm openedBy_none (breaksOff_map.mp h)
    exact ⟨.tag line name selfClosing c, hf, hs.completes_step h₁ hc⟩
  | interpolation source =>
    obtain ⟨c, hf, _, rfl, hc⟩ := content_completed hb hm openedBy_none (breaksOff_map.mp h)
    exact ⟨.buffered line source c, hf, hs.completes_step h₁ hc⟩
  | idName name | className name =>
    obtain ⟨c, hf, es, htrace, hc⟩ := content_completed hb hm
      (by rintro _ ⟨⟩; exact hline) (breaksOff_map.mp h)
    obtain ⟨more, hheads, -⟩ := Phrase.trace_content_iff.mp htrace
    refine ⟨.division c, ⟨⟨_, by rw [hheads]; rfl, by simp [Token.kind, Lexeme.kind]⟩, hf⟩, ?_⟩
    rw [Phrase.trace, htrace]
    exact hs.completes_step h₁ hc
  | mixin name args =>
    obtain ⟨b, hf, hc⟩ := mixinFrom_completed hb hm h
    exact ⟨.definition line name args b, hf, hs.completes_step h₁ hc⟩
  | call name args =>
    obtain ⟨c, hf, _, rfl, hc⟩ := content_completed hb hm openedBy_none (breaksOff_map.mp h)
    exact ⟨.call line name args c, hf, hs.completes_step h₁ hc⟩
  | mixinBlock =>
    rw [expressionFrom, mixinBlockFrom, breaksOff_look_bind] at h
    split at h
    · cases breaksOff_fail h
    · exact absurd h (not_breaksOff_pure _)
  | block name mode =>
    obtain ⟨b, hf, -, hc⟩ := body?_completed hb hm (breaksOff_map.mp h)
    exact ⟨.namedBlock line name mode (.someBody b), hf, hs.completes_step h₁ hc⟩
  | case source =>
    obtain ⟨opening, width, bs, closing, hf, hc⟩ := caseFrom_completed hb hm h
    exact ⟨.case line source opening width bs closing, hf, hs.completes_step h₁ hc⟩
  | each head =>
    obtain ⟨b, a, hbf, ha, hc⟩ := eachFrom_completed hb hm h
    exact ⟨.each line head b a, ⟨hbf, ha⟩, hs.completes_step h₁ hc⟩
  | code c =>
    obtain ⟨t, hf, hc⟩ := code_completed hb hs hh h
    exact ⟨.statement t, hf, hc⟩
  | inclusion path via attrs =>
    obtain ⟨b, hf, -, hc⟩ := body?_completed hb hm (breaksOff_map.mp h)
    exact ⟨.inclusion line path via attrs (.someBody b), hf, hs.completes_step h₁ hc⟩
  | filter name =>
    obtain ⟨group, b, hg, hf, hc⟩ := filterFrom_completed hb hm h
    exact ⟨.filter line name group b, ⟨hg, hf⟩, hs.completes_step h₁ hc⟩
  | comment content buffered =>
    obtain ⟨b, hf, hc⟩ := commentFrom_completed hb hm h
    exact ⟨.comment line content buffered b, hf, hs.completes_step h₁ hc⟩
  | dot =>
    obtain ⟨b, hf, -, hc⟩ := pipelessBody_completed hb hm (breaksOff_map.mp h)
    exact ⟨.dot line b, hf, hs.completes_step h₁ hc⟩
  | text content =>
    obtain ⟨more, hf, -, hc⟩ := hb.completed hm (breaksOff_map.mp h)
    exact ⟨.textLines (.textPiece line content more), ⟨rfl, hf⟩, hs.completes_step h₁ hc⟩
  | startInterpolation =>
    rcases breaksOff_bind.mp h with h | ⟨_, k, hr, h⟩
    · obtain ⟨e, closing, hf, hc⟩ := interpolation_completed hb hm h
      exact ⟨.textLines (.textInterpolation line e closing .textEnd), ⟨rfl, hf, rfl⟩,
        hs.completes_step h₁ hc⟩
    · obtain ⟨e, m, closing, he, -, h₂, h₃⟩ :=
        (interpolation_meets hb.meets).of_runs hm.plain hr
      have hk := hm.leads h₂
      obtain ⟨more, hf, -, hc⟩ := hb.completed (hk.step h₃) (breaksOff_map.mp h)
      exact ⟨.textLines (.textInterpolation line e closing more), ⟨rfl, he, hf⟩,
        hs.completes_step h₁ (hm.completes_leads h₂ (hk.completes_step h₃ hc))⟩
  | textHtml content =>
    obtain ⟨nested, lines, hn, hf, hc⟩ :=
      htmlLine_completed hb hm (breaksOff_map.mp (breaksOff_map.mp h))
    exact ⟨.rawHtml line content nested lines, ⟨hn, hf⟩, hs.completes_step h₁ hc⟩
  | inherit | doctype | yield => exact absurd h (not_breaksOff_pure _)
  | eos => cases hproper
  | _ => cases breaksOff_fail h

theorem anyExpression_completed (hs : Unended before s)
    (h : (anyExpression .slot scope below).BreaksOff s) :
    Symbol.expression.Completed before s := by
  rcases breaksOff_opening hs.plain h with ⟨t, r, hh, hg, h⟩ | h
  · cases hg
    exact expressionFrom_completed hb hs hh h
  · have hnil := hs.tokens_eq_nil (Option.some.inj (breaksOff_fail h))
    exact ⟨.yield 0, trivial, .of_nil hnil (by simp [Phrase.trace, Event.Free])⟩

/-- An expression in front of what breaks off, or one that breaks off, is continued by items. -/
theorem item_completed {inBody : Bool} {t : Token} (hs : Unended before s)
    (hh : s.cursor.tokens.head? = some t) (hk : t.kind ≠ .textHtml)
    (h : (do
      let node ← expressionFrom .slot scope below (s.cursor.position 1) t
      return node :: (← below (.items inBody)) : Routine n (List Node)).BreaksOff s.next) :
    Symbol.items.Completed before s := by
  have hpeek : s.cursor.peek.lexeme = t.lexeme := by rw [State.peek_of_head? hs.plain hh]
  rcases breaksOff_bind.mp h with h | ⟨v, m, hr, h⟩
  · obtain ⟨e, hf, hc⟩ := expressionFrom_completed hb hs hh h
    have hne : s.cursor.tokens ≠ [] := fun hnil => by rw [hnil] at hh; cases hh
    refine ⟨.item e .done, ⟨?_, hf, trivial⟩, hc.append (by simp [Phrase.trace])⟩
    rw [hc.lead_eq hs.plain hne, hpeek]
    exact hk
  · have hr := ((expressionFrom_meets hb.meets _ t).runs
      (Event.plain_of_step hs.plain (Event.step_read.mpr ⟨hh, rfl⟩))
      (State.line_next hs.plain hh) |>.mp hr).2
    obtain ⟨e, hf, -, hl⟩ := (Expression.readBy_iff hh).mpr hr
    obtain ⟨more, hmore, hlead, hc⟩ := hb.completed (hs.leads hl) (breaksOff_map.mp h)
    refine ⟨.item e more, ⟨?_, hlead ▸ hf, hmore⟩, hs.completes_leads hl hc⟩
    rw [hlead, ← e.lexeme_peek hs.plain hl, hpeek]
    exact hk

theorem items_completed {inBody : Bool} (hs : Unended before s)
    (h : (items .slot scope below inBody).BreaksOff s) : Symbol.items.Continued before s := by
  rcases breaksOff_opening hs.plain h with ⟨⟨line, lexeme⟩, r, hh, hg, h⟩ | h
  · have h₁ := Event.step_read.mpr ⟨hh, rfl⟩
    refine Symbol.Completed.continued ?_ hs.plain hh
    cases lexeme with
    | eos => cases hg
    | outdent =>
      cases inBody with
      | true => cases hg
      | false =>
        cases hg
        cases breaksOff_fail h
    | newline =>
      cases hg
      obtain ⟨more, hf, -, hc⟩ := hb.completed (hs.step h₁) h
      exact ⟨.newline line more, hf, hs.completes_step h₁ hc⟩
    | textHtml content =>
      cases hg
      rcases breaksOff_bind.mp h with h | ⟨_, m, hr, h⟩
      · obtain ⟨nested, lines, hn, hf, hc⟩ :=
          htmlLine_completed hb (hs.step h₁) (breaksOff_map.mp h)
        refine ⟨.html line content nested lines .done, ⟨hn, hf, trivial⟩, ?_⟩
        have hall := hs.completes_step h₁ hc
        simpa [Phrase.trace] using hall
      · obtain ⟨_, ⟨nested, lines, hn, hf, -, k, h₂, h₃⟩, -⟩ :=
          (htmlFrom_meets hb.meets line content).of_runs (hs.step h₁).plain hr
        have hl := Leads.append_iff.mpr ⟨k, h₂, h₃⟩
        obtain ⟨more, hmore, hlead, hc⟩ :=
          hb.completed ((hs.step h₁).leads hl) (breaksOff_map.mp h)
        refine ⟨.html line content nested lines more, ⟨hlead ▸ hn, hlead ▸ hf, hmore⟩, ?_⟩
        have hall := hs.completes_step h₁ ((hs.step h₁).completes_leads hl hc)
        simpa [Phrase.trace] using hall
    | _ =>
      cases hg
      exact item_completed hb hs hh nofun h
  · exact absurd h (not_breaksOff_pure _)

/-- A branch in front of what breaks off, or one that breaks off, is continued by branches. -/
theorem branch_completed {line : Line} (source : Option String) (hs : Unended before s)
    (hh : s.cursor.tokens.head? = some ⟨line, branchLexeme source⟩)
    (h : (do
      let branch ← branchFrom scope below line (source.getD "default")
      return branch :: (← below .branches) : Routine n (List Node)).BreaksOff s.next) :
    Symbol.branches.Completed before s := by
  have h₁ := Event.step_read.mpr ⟨hh, rfl⟩
  rcases breaksOff_bind.mp h with h | ⟨_, m, hr, h⟩
  · obtain ⟨x, hf, hc⟩ := branchFrom_completed hb (hs.step h₁) h
    refine ⟨.branch line source x .noBranches, ⟨hf, trivial⟩, hs.completes_step h₁ ?_⟩
    exact hc.append (by simp [Phrase.trace])
  · obtain ⟨x, hf, -, hl⟩ :=
      (branchFrom_meets hb.meets line (source.getD "default")).of_runs (hs.step h₁).plain hr
    obtain ⟨more, hmore, hlead, hc⟩ := hb.completed ((hs.step h₁).leads hl) (breaksOff_map.mp h)
    exact ⟨.branch line source x more, ⟨hlead ▸ hf, hmore⟩,
      hs.completes_step h₁ ((hs.step h₁).completes_leads hl hc)⟩

theorem branches_completed (hs : Unended before s)
    (h : (branches scope below).BreaksOff s) : Symbol.branches.Continued before s := by
  rcases breaksOff_opening hs.plain h with ⟨⟨line, lexeme⟩, r, hh, hg, h⟩ | h
  · have h₁ := Event.step_read.mpr ⟨hh, rfl⟩
    have hproper := hs.proper _ (List.mem_of_mem_head? hh)
    refine Symbol.Completed.continued ?_ hs.plain hh
    cases lexeme with
    | outdent => cases hg
    | newline =>
      cases hg
      obtain ⟨more, hf, -, hc⟩ := hb.completed (hs.step h₁) h
      exact ⟨.branchNewline line more, hf, hs.completes_step h₁ hc⟩
    | when source =>
      cases hg
      exact branch_completed hb (some source) hs hh h
    | default =>
      cases hg
      exact branch_completed hb none hs hh h
    | eos => cases hproper
    | _ =>
      cases hg
      cases breaksOff_fail h
  · split at h
    · exact absurd h (not_breaksOff_pure _)
    · have hnil := hs.tokens_eq_nil (Option.some.inj (breaksOff_fail h))
      refine ⟨.noBranches, trivial, ?_, .of_nil hnil (by simp [Phrase.trace])⟩
      rw [State.peek_nil hs.plain hnil]
      rfl

theorem extend_completed {goal : Goal} (hs : Unended before s)
    (h : (extend .slot scope below goal).BreaksOff s) : goal.Completed before s := by
  cases goal with
  | expression => exact anyExpression_completed hb hs h
  | items inBody => exact items_completed hb hs h
  | textRun spansLines => exact textRun_completed hb hs h
  | pipeless => exact pipeless_completed hb hs h
  | htmlRun => exact htmlRun_completed hb hs h
  | branches => exact branches_completed hb hs h

end Parts

/-- Wherever the grammar breaks off, a phrase completes what is left of the stream. -/
theorem answer_completable (scope : Scope) (n : Nat) :
    Completable scope (answer .slot scope n) where
  meets := answer_meets n
  completed {goal before s} hs h := by
    induction n generalizing goal before s with
    | zero =>
      obtain ⟨_, hf, _⟩ := h
      exact absurd hf.size_lt (Nat.not_lt_zero _)
    | succ n ih => exact extend_completed ⟨answer_meets n, ih⟩ hs h

end Grammar

namespace Template

variable {file : Option String} {ts : List Token} {d : Diagnostic}

/-- What fails only because it ends is the beginning of a phrase. -/
theorem exists_completion (hts : ∀ t ∈ ts, t.isEos = false) (h : parse file ts = .error d)
    (hd : d.found = some .eos) :
    ∃ t : Phrase .items, t.Fits .eos ∧ Lawful t.trace ∧ ∃ rest, t.tokens = ts ++ rest := by
  obtain ⟨e, hf, rfl⟩ := parse_error_iff.mp h
  obtain ⟨t, ht, _, hc⟩ := (Grammar.answer_completable ⟨file⟩ _).completed
    (.start hts) ⟨e, hf, hd⟩
  obtain ⟨rest, hrest⟩ := hc.tokens
  exact ⟨t, ht, hc.lawful, rest, hrest.symm⟩

/-- A stream that fails only because it ends is the beginning of one that parses. -/
theorem parse_completed (hts : ∀ t ∈ ts, t.isEos = false) (h : parse file ts = .error d)
    (hd : d.found = some .eos) : ∃ rest p, parse file (ts ++ rest) = .ok p := by
  obtain ⟨t, ht, hlaw, rest, htokens⟩ := exists_completion hts h hd
  exact ⟨rest, parsed file t, htokens ▸ parse_tokens ht hlaw⟩

/-- Reading the tokens goes wrong only because they end. -/
def Reads (file : Option String) (ts : List Token) : Prop :=
  ∀ d, parse file ts = .error d → d.found = some .eos

instance (file : Option String) (ts : List Token) : Decidable (Reads file ts) :=
  decidable_of_iff (∀ d ∈ diagnostic? file ts, d.found = some .eos)
    (forall_congr' fun _ => imp_congr diagnostic?_eq_some Iff.rfl)

theorem Reads.exists_parse (h : Reads file ts) (hts : ∀ t ∈ ts, t.isEos = false) :
    ∃ rest p, parse file (ts ++ rest) = .ok p := by
  cases hp : parse file ts with
  | ok p => exact ⟨[], p, by rw [List.append_nil, hp]⟩
  | error d => exact parse_completed hts hp (h d hp)

variable {rest : List Token} {p : Parsed}

/-- Where a stream parses, its proper beginning is read. -/
theorem exists_runs_beyond {n : Nat} (hts : ∀ t ∈ ts, t.isEos = false)
    (hp : parse file (ts ++ rest) = .ok p) (hn : (ts ++ rest).length < n) :
    ∃ nodes s', (Grammar.answer .slot ⟨file⟩ n (.items false)).Runs
      (.start (.ofTokens (ts ++ rest))) nodes s' ∧
        s'.cursor.tokens.length ≤ rest.length := by
  obtain ⟨t, hf, htokens, hlaw, -⟩ := parse_ok.mp hp
  rw [← size_start] at hn
  obtain ⟨s', hl, hr⟩ := exists_runs (Traced.start _ rfl) hn hf htokens hlaw
  refine ⟨_, s', hr, ?_⟩
  rw [List.takeWhile_append_of_pos (by simpa using hts)] at htokens
  have hlen := congrArg List.length (hl.tokens_eq (plain_start (ts ++ rest)))
  change (ts ++ rest).length = (t.tokens ++ s'.cursor.tokens).length at hlen
  rw [htokens, List.length_append, List.length_append, List.length_append] at hlen
  omega

/-- Nothing goes wrong in the beginning of a stream that parses. -/
theorem reads_of_parse (hts : ∀ t ∈ ts, t.isEos = false)
    (hp : parse file (ts ++ rest) = .ok p) : Reads file ts := by
  have hn := Nat.lt_succ_self (ts ++ rest).length
  obtain ⟨nodes, s', hr, hle⟩ := exists_runs_beyond hts hp hn
  obtain ⟨k, _, _, hk⟩ := (Parallel.answer_same ⟨file⟩ _ _ (.items false)).local.runs
    (plain_start _) trivial (by rwa [size_start]) hr
  have hbeyond : ts.length ≤ k := by
    have hdrop : s'.cursor.tokens = (ts ++ rest).drop k := hk.passes.tokens
    rw [hdrop, List.length_drop, List.length_append] at hle
    omega
  have htake : ts.take ts.length = (ts ++ rest).take ts.length := by simp
  have hsize : (State.start (.ofTokens ts)).size < (ts ++ rest).length + 1 := by
    rw [size_start, List.length_append]
    omega
  intro d hd
  rcases hk.breaks ts.length hbeyond (.start (.ofTokens ts)) (shares_start htake) (Nat.le_refl _)
    trivial hsize with ⟨_, _, _, hr, _⟩ | ⟨e, he, hfound, _⟩
  · obtain ⟨tree, htree⟩ := parse_of_runs hr
    cases htree.symm.trans hd
  · cases (parse_of_fails he).symm.trans hd
    exact hfound

/-- A case with a branch that is expanded on its line, in the content of a call in a tag's text. -/
def brokenOff : List Token :=
  [⟨1, .tag "p" false⟩, ⟨1, .text "a"⟩, ⟨1, .startInterpolation⟩, ⟨1, .call "m" none⟩,
    ⟨2, .indent 2⟩, ⟨2, .case "x"⟩, ⟨3, .indent 4⟩, ⟨3, .when "1"⟩, ⟨3, .colon⟩]

theorem parse_completed_brokenOff : (∀ t ∈ brokenOff, t.isEos = false) ∧
    ∃ d, parse none brokenOff = .error d ∧ d.found = some .eos ∧
      ∃ rest p, parse none (brokenOff ++ rest) = .ok p := by
  have hproper : ∀ t ∈ brokenOff, t.isEos = false := by decide
  have hd : (diagnostic? none brokenOff).map Diagnostic.found = some (some .eos) := by
    decide +kernel
  obtain ⟨d, hp, hfound⟩ := Option.map_eq_some_iff.mp hd
  have hp : parse none brokenOff = .error d := diagnostic?_eq_some.mp hp
  exact ⟨hproper, d, hp, hfound, parse_completed hproper hp hfound⟩

end Template

end TemplateTree
