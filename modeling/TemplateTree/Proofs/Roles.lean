import TemplateTree.Proofs.Places

/-!
The tokens of a phrase have the roles that the phrase gives them: going through them from a spot
where the phrase may begin finds the same roles, and ends where what follows may begin.
-/

namespace TemplateTree
set_option autoImplicit false

/-- A spot where what begins with a lexeme continues nothing. -/
def Spot.Before : Spot → Lexeme → Prop
  | head, next => next.kind.endsLine = true
  | headDot, next => next.kind.endsLine = true
  | loop, _ => False
  | loopEnd, next => Grammar.isAlternative next = false
  | text p, next => p.takes next.kind = false
  | elsewhere, _ => True

namespace Symbol

/-- The spots where a phrase of a symbol begins, given its first lexeme. -/
def BeginsAt (g : Symbol) (spot : Spot) (lead : Lexeme) : Prop :=
  match g with
  | .body => True
  | .content => spot = .head
  | .line => spot = .head ∨ spot = .headDot
  | .code => spot = .loopEnd → Grammar.isAlternative lead = false
  | .text p => spot.textPlace = p ∧ (spot = .text p ∨ TextPlace.inLine.takes lead.kind = true)
  | .alternative => spot = .loopEnd
  | _ => spot.Before lead

/-- How things stand behind a phrase of a symbol and in front of a lexeme, if it began in the first
situation. -/
def EndsAt (g : Symbol) (p q : Situation) (next : Lexeme) : Prop :=
  q.frames = p.frames ∧
    match g with
    | .body => q.spot = if p.spot = .loop then .loopEnd else .elsewhere
    | _ => q.spot.Before next

end Symbol

namespace Spot.Before

variable {spot : Spot} {next : Lexeme}

theorem ne_loop (h : spot.Before next) : spot ≠ .loop := by
  rintro rfl
  exact h

theorem ne_head (h : spot.Before next) (hn : next.kind.endsLine = false) : spot ≠ .head := by
  rintro rfl
  cases hn.symm.trans h

/-- Text that continues nothing spans lines. -/
theorem textPlace (h : spot.Before next) (hn : TextPlace.inLine.takes next.kind = true) :
    spot.textPlace = .lines := by
  have hne : next.kind.endsLine ≠ true := by
    intro he
    cases hk : next.kind <;> rw [hk] at he hn <;> cases he <;> cases hn
  cases spot with
  | head | headDot => exact absurd h hne
  | text p => cases (TextPlace.takes_of_inLine hn).symm.trans h
  | _ => rfl

theorem not_text (h : spot.Before .newline) :
    spot ≠ .text .pipeless ∧ spot ≠ .text .lines := by
  constructor <;> rintro rfl <;> cases h

end Spot.Before

theorem Spot.elsewhere_ne_loop : Spot.elsewhere ≠ .loop := by decide

namespace Situation

/-- Going through the tokens closes what it opens and ends where the lexeme continues nothing. -/
def PassesOver (p : Situation) (ts : List Token) (next : Lexeme) (ps : List Placed) : Prop :=
  ∃ q, p.Passes ts next ps q ∧ q.frames = p.frames ∧ q.spot.Before next

variable {p : Situation} {t : Token} {ts us : List Token} {ps qs : List Placed} {next : Lexeme}

theorem role_of_isHead (hs : p.spot = .head) (ht : t.isHead = true) (next : Lexeme) :
    p.role t next = .plain := by
  obtain ⟨line, lexeme⟩ := t
  cases lexeme <;> cases ht <;> first | rfl | exact if_pos hs

theorem after_of_isHead (hs : p.spot = .head) (ht : t.isHead = true) : p.after t = p := by
  obtain ⟨spot, frames⟩ := p
  obtain ⟨line, lexeme⟩ := t
  cases hs
  cases lexeme <;> cases ht <;> rfl

/-- The head tokens behind a name. -/
theorem Passes.heads {heads : List Token} (hs : p.spot = .head)
    (hh : ∀ t ∈ heads, t.isHead = true) : p.Passes heads next (heads.map Token.plain) p := by
  induction heads with
  | nil => exact .nil
  | cons t heads ih =>
    obtain ⟨ht, hrest⟩ := List.forall_mem_cons.mp hh
    exact .cons_plain (role_of_isHead hs ht) ((after_of_isHead hs ht).symm ▸ ih hrest)

namespace PassesOver

theorem nil (hs : p.spot.Before next) : p.PassesOver [] next [] := ⟨p, .nil, rfl, hs⟩

theorem cons {ro : Role} (hr : p.role t ((ts.head?.map Token.lexeme).getD next) = ro)
    (hf : (p.after t).frames = p.frames) (h : (p.after t).PassesOver ts next ps) :
    p.PassesOver (t :: ts) next (⟨t, ro⟩ :: ps) := by
  obtain ⟨q, hq, hframes, hspot⟩ := h
  exact ⟨q, .cons hr hq, hframes.trans hf, hspot⟩

theorem cons_plain (hr : ∀ l, p.role t l = .plain) (hf : (p.after t).frames = p.frames)
    (h : (p.after t).PassesOver ts next ps) : p.PassesOver (t :: ts) next (t.plain :: ps) :=
  .cons (hr _) hf h

theorem append (h₁ : p.PassesOver ts ((us.head?.map Token.lexeme).getD next) ps)
    (h₂ : ∀ q : Situation, q.spot.Before ((us.head?.map Token.lexeme).getD next) →
      q.PassesOver us next qs) : p.PassesOver (ts ++ us) next (ps ++ qs) := by
  obtain ⟨q, hq, hframes, hspot⟩ := h₁
  obtain ⟨r, hr, hframes', hspot'⟩ := h₂ q hspot
  exact ⟨r, hq.append hr, hframes'.trans hframes, hspot'⟩

/-- Head tokens that continue a head, in front of what else belongs to it. -/
theorem heads {heads : List Token} (hs : p.spot = .head) (hh : ∀ t ∈ heads, t.isHead = true)
    (h : p.PassesOver ts next ps) :
    p.PassesOver (heads ++ ts) next (heads.map Token.plain ++ ps) := by
  obtain ⟨q, hq, hframes, hspot⟩ := h
  exact ⟨q, (Passes.heads hs hh).append hq, hframes, hspot⟩

/-- A newline that is not within text. -/
theorem newline {line : Line} (hb : p.spot.Before .newline)
    (h : PassesOver ⟨.elsewhere, p.frames⟩ ts next ps) :
    p.PassesOver (⟨line, .newline⟩ :: ts) next (Token.plain ⟨line, .newline⟩ :: ps) := by
  have hnot := hb.not_text
  have hrole (l : Lexeme) : p.role ⟨line, .newline⟩ l = .plain := by simp [role_newline, hnot]
  have hafter : p.after ⟨line, .newline⟩ = ⟨.elsewhere, p.frames⟩ := by simp [after_newline, hnot]
  exact cons_plain hrole (by rw [hafter]) (hafter ▸ h)

theorem newlines {lines : List Line} (hb : p.spot.Before (if lines = [] then next else .newline)) :
    p.PassesOver (lines.map fun line => ⟨line, .newline⟩) next
      (lines.map fun line => Token.plain ⟨line, .newline⟩) := by
  induction lines generalizing p with
  | nil => exact nil hb
  | cons line lines ih => exact newline hb (ih (p := ⟨.elsewhere, p.frames⟩) trivial)

/-- A body that is not a loop's ends where anything may follow. -/
theorem of_body (h : ∃ q, p.Passes ts next ps q ∧ Symbol.body.EndsAt p q next)
    (hp : p.spot ≠ .loop) : p.PassesOver ts next ps := by
  obtain ⟨q, hq, hframes, hspot⟩ := h
  rw [if_neg hp] at hspot
  exact ⟨q, hq, hframes, by rw [hspot]; trivial⟩

end PassesOver

end Situation

namespace Phrase

variable {g h k : Symbol} {next : Lexeme}

/-- The tokens of a phrase, without the head of a content. -/
def ownTokens : {g : Symbol} → Phrase g → List Token
  | .content, c => c.afterHeads.filterMap Event.token?
  | _, t => t.tokens

theorem tokens_content (c : Phrase .content) : c.tokens = c.heads ++ c.ownTokens := by
  simp [tokens, trace_content, ownTokens, List.filterMap_map, List.filterMap_cons,
    Function.comp_def]

theorem startLine_of_heads {c : Phrase .content} {t : Token} {more : List Token}
    (h : c.heads = t :: more) : c.startLine = t.line := by
  rw [startLine, tokens_content, h]
  rfl

theorem lead_append {t : Phrase g} {a : Phrase h} {b : Phrase k}
    (ht : t.tokens = a.tokens ++ b.tokens) : t.lead next = a.lead (b.lead next) := by
  rw [lead, lead, lead, ht]
  cases a.tokens <;> rfl

theorem tokens_line (l : Phrase .line) (newlines : List Line) (b : Phrase g) :
    (l.trace ++ newlines.map Event.newline ++ b.trace).filterMap Event.token? =
      l.tokens ++ ((newlines.map fun line => ⟨line, .newline⟩) ++ b.tokens) := by
  have hlines : newlines.filterMap (fun line => (Event.newline line).token?) =
      newlines.map fun line => ⟨line, .newline⟩ :=
    congrFun (List.filterMap_eq_map (f := fun line => (⟨line, .newline⟩ : Token))) newlines
  rw [List.append_assoc, List.filterMap_append, List.filterMap_append, List.filterMap_map,
    ← hlines]
  rfl

open Situation (PassesOver)

variable {p : Situation}

theorem passes_line {l : Phrase .line} {newlines : List Line} {b : Phrase g}
    (hl : ∀ next, l.Fits next → p.PassesOver l.tokens next l.placed)
    (hb : ∀ q : Situation, q.spot.Before (b.lead next) → q.PassesOver b.tokens next b.placed)
    (hf : l.Fits (if newlines = [] then b.lead next else .newline)) :
    p.PassesOver (l.tokens ++ ((newlines.map fun line => ⟨line, .newline⟩) ++ b.tokens)) next
      (l.placed ++ ((newlines.map fun line => Token.plain ⟨line, .newline⟩) ++ b.placed)) := by
  have hlead : ((((newlines.map fun line => (⟨line, .newline⟩ : Token)) ++ b.tokens).head?.map
      Token.lexeme).getD next) = if newlines = [] then b.lead next else .newline := by
    cases newlines <;> rfl
  refine PassesOver.append ?_ ?_
  · rw [hlead]
    exact hl _ hf
  · rw [hlead]
    exact fun q hq => (PassesOver.newlines hq).append hb

theorem passes_content {c : Phrase .content} (hs : p.spot = .head) (hf : c.Fits next)
    (hc : p.PassesOver c.ownTokens next c.placed) :
    p.PassesOver c.tokens next (c.heads.map Token.plain ++ c.placed) := by
  rw [tokens_content]
  exact hc.heads hs (isHead_heads hf)

/-- A newline within text leaves things as they stand. -/
theorem passes_textBreak {place : TextPlace} {line : Line} {more : Phrase (.text place)}
    (hs : p.spot = .text place) (hne : place ≠ .inLine) (hf : more.Fits next)
    (hmore : p.PassesOver more.tokens next more.placed) :
    p.PassesOver (⟨line, .newline⟩ :: more.tokens) next (textBreak line more).placed := by
  have hrole : p.role ⟨line, .newline⟩ (more.lead next) =
      if place = .pipeless ∨ more.opensWithText then .lineBreak else .plain := by
    simp only [Situation.role_newline, hs, more.opensWithText_iff_lead hf]
    cases place with
    | inLine => exact absurd rfl hne
    | lines => simp
    | pipeless => simp
  have hafter : p.after ⟨line, .newline⟩ = p := by
    obtain ⟨spot, frames⟩ := p
    cases hs
    cases place with
    | inLine => exact absurd rfl hne
    | lines => rfl
    | pipeless => rfl
  exact PassesOver.cons hrole (by rw [hafter]) (hafter.symm ▸ hmore)

theorem passes_html {line : Line} {content : String} {nested : Phrase .nested}
    {lines : Phrase .html} {more : Phrase .items}
    (hn : PassesOver ⟨.elsewhere, p.frames⟩ nested.tokens (lines.lead (more.lead next)) nested.placed)
    (hl : ∀ q : Situation, q.spot.Before (lines.lead (more.lead next)) →
      q.PassesOver lines.tokens (more.lead next) lines.placed)
    (hm : ∀ q : Situation, q.spot.Before (more.lead next) →
      q.PassesOver more.tokens next more.placed) :
    p.PassesOver (html line content nested lines more).tokens next
      (html line content nested lines more).placed := by
  have hlead : ((lines.tokens ++ more.tokens).head?.map Token.lexeme).getD next =
      lines.lead (more.lead next) := by
    rw [lead, lead]
    cases lines.tokens <;> rfl
  rw [← hlead] at hn
  rw [tokens_html, placed, List.cons_append, List.cons_append, List.append_assoc]
  exact PassesOver.cons_plain (fun _ => rfl) rfl (PassesOver.append hn
    fun q hs => PassesOver.append (hl q (hlead ▸ hs)) hm)

/-- The shorthand that opens a division stands for its name, the other head tokens continue it. -/
theorem passes_division {c : Phrase .content} (hf : (division c).Fits next)
    (hb : p.spot.Before ((division c).lead next))
    (hc : PassesOver ⟨.head, p.frames⟩ c.ownTokens next c.placed) :
    p.PassesOver (division c).ownTokens next (division c).placed := by
  obtain ⟨t, more, hheads, hk, hmore⟩ := exists_heads_of_division hf
  have htokens : (division c).ownTokens = t :: (more ++ c.ownTokens) := by
    rw [← List.cons_append, ← hheads]
    exact c.tokens_content
  have hlead : (division c).lead next = t.lexeme := by
    rw [lead, show (division c).tokens = _ from htokens]
    rfl
  have hb : p.spot.Before t.lexeme := hlead ▸ hb
  have hne : p.spot ≠ .head := hb.ne_head (by
    rcases hk with hk | hk <;> exact congrArg TokenKind.endsLine hk)
  have hrole (l : Lexeme) : p.role t l = .division := by
    obtain ⟨line, lexeme⟩ := t
    rcases hk with hk | hk <;> cases lexeme <;> cases hk <;> exact if_neg hne
  have hafter : p.after t = ⟨.head, p.frames⟩ := by
    obtain ⟨line, lexeme⟩ := t
    rcases hk with hk | hk <;> cases lexeme <;> cases hk <;> rfl
  rw [htokens, placed, hheads]
  exact PassesOver.cons (hrole _) (by rw [hafter]) (hafter.symm ▸ hc.heads rfl hmore)

/-- Going through the tokens of a phrase, from where it may begin, finds the roles that the phrase
gives them, and ends where what follows may begin. -/
theorem passes (t : Phrase g) (hf : t.Fits next) (hb : g.BeginsAt p.spot (t.lead next)) :
    ∃ q, p.Passes t.ownTokens next t.placed q ∧ g.EndsAt p q next := by
  induction t generalizing next p with
  | done | noBody | noPipeless | htmlEnd | nestedNone | noBranches | fallThrough =>
    exact PassesOver.nil hb
  | lineEnd =>
    refine PassesOver.nil ?_
    rcases hb with hs | hs <;> rw [hs] <;> exact hf
  | noAlternative =>
    refine PassesOver.nil ?_
    rw [show p.spot = .loopEnd from hb]
    exact hf
  | textEnd =>
    refine PassesOver.nil ?_
    obtain ⟨rfl, hs | ht⟩ := hb
    · rw [hs]
      rwa [hs] at hf
    · cases (TextPlace.takes_of_inLine ht).symm.trans hf
  | newline line more ih => exact PassesOver.newline hb (ih hf trivial)
  | branchNewline line more ih => exact PassesOver.newline hb (ih hf trivial)
  | nestedNewline line => exact PassesOver.newline hb (.nil trivial)
  | item e more ihe ih =>
    obtain ⟨-, he, hmore⟩ := hf
    have ht : (item e more).ownTokens = _ := tokens_item e more
    have hb : p.spot.Before (e.lead (more.lead next)) := lead_append ht ▸ hb
    rw [ht]
    exact PassesOver.append (ihe he hb) fun q hs => ih hmore hs
  | body opening width items closing ih =>
    -- The items close whatever they open, so the outdent closes the frame of this body.
    obtain ⟨q, hq, hframes, -⟩ :=
      ih (p := ⟨.elsewhere, .body (p.spot == .loop) :: p.frames⟩) hf trivial
    have ht : (body opening width items closing).ownTokens = _ := tokens_body ..
    have hframes : q.frames = .body (p.spot == .loop) :: p.frames := hframes
    rw [ht]
    refine ⟨q.after ⟨closing, .outdent⟩, .cons_plain (fun _ => rfl)
      (hq.append (.cons_plain (fun _ => rfl) .nil)), ?_, ?_⟩
    · simp [Situation.after_outdent, hframes]
    · simp [Situation.after_outdent, hframes]
  | someBody b ih | nestedBody b ih | expansionBody b ih =>
    exact PassesOver.of_body (ih hf trivial) hb.ne_loop
  | textPiece line content more ih =>
    obtain ⟨rfl, -⟩ := hb
    exact PassesOver.cons_plain (fun _ => rfl) rfl (ih hf ⟨rfl, .inl rfl⟩)
  | @textBreak place line more ih =>
    obtain ⟨hne, hf⟩ := hf
    have hs : p.spot = .text place := hb.2.resolve_right Bool.false_ne_true
    exact passes_textBreak hs hne hf (ih hf ⟨by rw [hs]; rfl, .inl hs⟩)
  | @textInterpolation place opening e closing more ihe ih =>
    obtain ⟨rfl, -⟩ := hb
    obtain ⟨q, hq, hframes, -⟩ :=
      ihe (p := ⟨.elsewhere, .interpolation p.spot.textPlace :: p.frames⟩) hf.1 trivial
    obtain ⟨r, hr, hframes', hspot⟩ := ih (p := ⟨.text p.spot.textPlace, p.frames⟩) hf.2
      ⟨rfl, .inl rfl⟩
    have hafter : q.after ⟨closing, .endInterpolation⟩ = ⟨.text p.spot.textPlace, p.frames⟩ :=
      q.after_endInterpolation closing hframes
    have ht : (textInterpolation opening e closing more).ownTokens = _ :=
      tokens_textInterpolation ..
    rw [ht]
    exact ⟨r, .cons_plain (fun _ => rfl)
      (hq.append (.cons_plain (fun _ => rfl) (hafter.symm ▸ hr))), hframes', hspot⟩
  | somePipeless opening pieces closing ih =>
    obtain ⟨q, hq, hframes, -⟩ := ih (p := ⟨.text .pipeless, p.frames⟩) hf ⟨rfl, .inl rfl⟩
    have ht : (somePipeless opening pieces closing).ownTokens = _ := tokens_somePipeless ..
    rw [ht]
    exact ⟨⟨.elsewhere, q.frames⟩, .cons_plain (fun _ => rfl)
      (hq.append (.cons_plain (fun _ => rfl) .nil)), hframes, trivial⟩
  | htmlLine line content nested lines ihn ih | rawHtml line content nested lines ihn ih =>
    have ht : (htmlLine line content nested lines).ownTokens = _ := tokens_htmlLine ..
    have hlines : PassesOver ⟨.elsewhere, p.frames⟩ (nested.tokens ++ lines.tokens) next
        (nested.placed ++ lines.placed) :=
      PassesOver.append (ihn hf.1 trivial) fun q hs => ih hf.2 hs
    have hall : p.PassesOver (⟨line, .textHtml content⟩ :: (nested.tokens ++ lines.tokens)) next
        (Token.plain ⟨line, .textHtml content⟩ :: (nested.placed ++ lines.placed)) :=
      PassesOver.cons_plain (fun _ => rfl) rfl hlines
    rw [← ht] at hall
    exact hall
  | html line content nested lines more ihn ihl ih =>
    obtain ⟨hn, hl, hm⟩ := hf
    exact passes_html (ihn (p := ⟨.elsewhere, p.frames⟩) hn trivial) (fun q hs => ihl hl hs)
      fun q hs => ih hm hs
  | code line c b ih =>
    have ht : (code line c b).ownTokens = _ := tokens_code ..
    have hrole (l : Lexeme) : p.role ⟨line, .code c⟩ l = .plain := by
      refine if_neg fun h => ?_
      have hn : (c.source == "else") = false := hb h.1
      simp [h.2] at hn
    rw [ht]
    exact PassesOver.cons_plain hrole rfl (ih hf trivial)
  | lineText pieces ih =>
    have hplace : p.spot.textPlace = .inLine := by
      rcases hb with hs | hs <;> rw [hs] <;> rfl
    exact ih hf.2 ⟨hplace, .inr hf.1⟩
  | lineCode c ih =>
    refine ih hf fun hs => ?_
    rcases hb with hb | hb <;> cases hb.symm.trans hs
  | plain heads l newlines b ihl ih =>
    obtain ⟨-, -, hl, -, hf⟩ := hf
    have ht : (Phrase.plain heads l newlines b).ownTokens =
        l.tokens ++ ((newlines.map fun line => ⟨line, .newline⟩) ++ b.tokens) :=
      tokens_line l newlines b
    rw [ht, placed, List.append_assoc]
    exact passes_line (fun next hl => ihl hl (.inl hb)) (fun q hs => ih hf hs) hl
  | dotted heads dotLine l newlines b ihl ih =>
    obtain ⟨-, -, hl, -, hf⟩ := hf
    have hs : p.spot = .head := hb
    have ht : (dotted heads dotLine l newlines b).ownTokens = ⟨dotLine, .dot⟩ ::
        (l.tokens ++ ((newlines.map fun line => ⟨line, .newline⟩) ++ b.tokens)) :=
      congrArg (_ :: ·) (tokens_line l newlines b)
    have hafter : p.after ⟨dotLine, .dot⟩ = ⟨.headDot, p.frames⟩ := by
      simp [Situation.after_dot, hs]
    have hline := passes_line (p := ⟨.headDot, p.frames⟩) (fun next hl => ihl hl (.inr rfl))
      (fun q hs => ih hf hs) hl
    rw [ht, placed, List.cons_append, List.cons_append, List.append_assoc]
    exact PassesOver.cons (if_pos hs) (by rw [hafter]) (hafter.symm ▸ hline)
  | branch line source x more ihx ih =>
    have ht : (branch line source x more).ownTokens = _ := tokens_branch ..
    have h := PassesOver.append (ihx (p := ⟨.elsewhere, p.frames⟩) hf.1 trivial)
      fun q hs => ih hf.2 hs
    rw [ht]
    cases source <;> exact PassesOver.cons_plain (fun _ => rfl) rfl h
  | someAlternative line c b ih =>
    exact PassesOver.cons (if_pos ⟨hb, beq_iff_eq.mp hf.1⟩) rfl
      (.of_body (ih hf.2 trivial) Spot.elsewhere_ne_loop)
  | tag line name selfClosing c ih | buffered line source c ih | call line name args c ih =>
    exact PassesOver.cons_plain (fun _ => rfl) rfl (passes_content rfl hf (ih hf rfl))
  | division c ih => exact passes_division hf hb (ih hf.2 rfl)
  | definition line name args b ih =>
    have ht : (definition line name args b).ownTokens = _ := tokens_definition ..
    rw [ht]
    exact PassesOver.cons_plain (fun _ => rfl) rfl
      (.of_body (ih hf trivial) Spot.elsewhere_ne_loop)
  | oldCall | mixinBlock | inherit | doctype | yield =>
    exact PassesOver.cons_plain (fun _ => rfl) rfl (.nil trivial)
  | lineColon _ _ ih | expansionColon _ _ ih | namedBlock _ _ _ _ ih | inclusion _ _ _ _ _ ih
    | comment _ _ _ _ ih =>
    exact PassesOver.cons_plain (fun _ => rfl) rfl (ih hf trivial)
  | statement c ih =>
    refine ih hf fun hs => ?_
    have hb : p.spot.Before (c.lead next) := hb
    rwa [hs] at hb
  | each line head b a ihb iha =>
    obtain ⟨q, hq, hframes, hspot⟩ := ihb (p := ⟨.loop, p.frames⟩) hf.1 trivial
    obtain ⟨r, hr, hframes', hspot'⟩ := iha (p := q) hf.2 hspot
    have ht : (each line head b a).ownTokens = _ := tokens_each ..
    rw [ht]
    exact ⟨r, .cons_plain (fun _ => rfl) (hq.append hr), hframes'.trans hframes, hspot'⟩
  | case line source opening width bs closing ih =>
    obtain ⟨q, hq, hframes, -⟩ := ih (p := ⟨.elsewhere, .body false :: p.frames⟩) hf trivial
    have hframes : q.frames = .body false :: p.frames := hframes
    have ht : (Phrase.case line source opening width bs closing).ownTokens = _ := tokens_case ..
    rw [ht]
    refine ⟨q.after ⟨closing, .outdent⟩, .cons_plain (fun _ => rfl) (.cons_plain (fun _ => rfl)
      (hq.append (.cons_plain (fun _ => rfl) .nil))), ?_, ?_⟩
    · simp [Situation.after_outdent, hframes]
    · simp [Situation.after_outdent, hframes, Spot.Before]
  | filter line name group b ih =>
    have ht : (filter line name group b).ownTokens = _ := tokens_filter ..
    have hbody : PassesOver ⟨.elsewhere, p.frames⟩ b.tokens next b.placed := ih hf.2 trivial
    rw [ht]
    refine PassesOver.cons_plain (fun _ => rfl) rfl ?_
    cases group with
    | none => exact hbody
    | some g => exact .cons_plain (fun _ => rfl) rfl hbody
  | dot line b ih =>
    have hb : p.spot.Before .dot := hb
    have hafter : p.after ⟨line, .dot⟩ = ⟨.elsewhere, p.frames⟩ := by
      simp [Situation.after_dot, hb.ne_head rfl]
    have hbody : PassesOver ⟨.elsewhere, p.frames⟩ b.tokens next b.placed := ih hf trivial
    exact PassesOver.cons_plain (fun _ => if_neg (hb.ne_head rfl)) (by rw [hafter])
      (hafter.symm ▸ hbody)
  | textLines pieces ih => exact ih hf.2 ⟨Spot.Before.textPlace hb hf.1, .inr hf.1⟩

end Phrase

end TemplateTree
