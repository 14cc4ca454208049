import TemplateTree.Proofs.Specs.Head

/-!
Specifications of the routines that read expressions, items and branches, and of the answers to
all questions about the grammar.
-/

namespace TemplateTree
set_option autoImplicit false

/-- What continues a line continues text anywhere. -/
theorem TextPlace.takes_of_inLine {p : TextPlace} {k : TokenKind}
    (h : TextPlace.inLine.takes k = true) : p.takes k = true := by
  cases k with
  | text => rfl
  | startInterpolation => rfl
  | _ => cases h

namespace Phrase

variable {s s' : State}

/-- Only a branch that does not fall through begins with a colon or an indented body. -/
theorem eq_fallThrough_iff (x : Phrase .expansion) (hp : s.Plain)
    (hf : x.Fits s'.cursor.peek.lexeme) (hl : Leads x.trace s s') :
    x = fallThrough ↔ ¬ (s.cursor.peek.kind = .colon ∨ s.cursor.peek.kind = .indent) := by
  cases x with
  | fallThrough =>
    cases hl
    exact ⟨fun _ => not_or.mpr hf, fun _ => rfl⟩
  | expansionColon colon e =>
    have h := congrArg Lexeme.kind (lexeme_peek _ hp hl)
    exact ⟨nofun, fun hk => absurd (.inl h) hk⟩
  | expansionBody b => exact ⟨nofun, fun hk => absurd (.inr (b.kind_peek hp hl)) hk⟩

/-- The kinds of tokens that open an expression. -/
inductive Starts : Phrase .expression → TokenKind → Prop where
  | tag {line name selfClosing c} : Starts (.tag line name selfClosing c) .tag
  | buffered {line source c} : Starts (.buffered line source c) .interpolation
  | id {c} : Starts (.division c) .idName
  | class {c} : Starts (.division c) .className
  | call {line name args c} : Starts (.call line name args c) .call
  | definition {line name args b} : Starts (.definition line name args b) .mixin
  | oldCall {line name args} : Starts (.oldCall line name args) .mixin
  | mixinBlock {line} : Starts (.mixinBlock line) .mixinBlock
  | namedBlock {line name mode b} : Starts (.namedBlock line name mode b) .block
  | inclusion {line path via attrs b} : Starts (.inclusion line path via attrs b) .inclusion
  | statement {c} : Starts (.statement c) .code
  | each {line head b a} : Starts (.each line head b a) .each
  | case {line source opening width bs closing} :
    Starts (.case line source opening width bs closing) .case
  | inherit {line path} : Starts (.inherit line path) .inherit
  | doctype {line name} : Starts (.doctype line name) .doctype
  | yield {line} : Starts (.yield line) .yield
  | filter {line name group b} : Starts (.filter line name group b) .filter
  | comment {line text buffered b} : Starts (.comment line text buffered b) .comment
  | dot {line b} : Starts (.dot line b) .dot
  | text {pieces} : Starts (.textLines pieces) .text
  | interpolation {pieces} : Starts (.textLines pieces) .startInterpolation
  | rawHtml {line content nested lines} : Starts (.rawHtml line content nested lines) .textHtml

/-- Every expression begins with reading a token that opens it. -/
theorem exists_opener (e : Phrase .expression) {next : Lexeme} (hf : e.Fits next) :
    ∃ ev es t, e.trace = ev :: es ∧ ev.token? = some t ∧ e.Starts t.kind := by
  cases e with
  | division c =>
    obtain ⟨t, ts, hts, hk, -⟩ := exists_heads_of_division hf
    refine ⟨.read t, _, t, by rw [trace, trace_content, hts]; rfl, rfl, ?_⟩
    rcases hk with hk | hk <;> rw [hk] <;> constructor
  | statement c =>
    cases c
    exact ⟨_, _, _, rfl, rfl, .statement⟩
  | textLines pieces =>
    cases pieces with
    | textEnd => cases (TextPlace.takes_of_inLine hf.1).symm.trans hf.2
    | textPiece => exact ⟨_, _, _, rfl, rfl, .text⟩
    | textBreak => cases hf.1
    | textInterpolation => exact ⟨_, _, _, rfl, rfl, .interpolation⟩
  | _ => exact ⟨_, _, _, rfl, rfl, by constructor⟩

/-- A statement behind a code token is that code. -/
theorem eq_code {line : Line} {c : CodeLine} (e : Phrase .expression) (next : Lexeme) (ev : Event)
    (es : List Event) (_ : e.Fits next) (hs : e.Starts .code) (htrace : e.trace = ev :: es)
    (hu : ev.token? = some ⟨line, .code c⟩) : ∃ b, e = .statement (.code line c b) := by
  cases hs with
  | @statement code =>
    cases code with
    | code _ _ b =>
      cases htrace
      cases hu
      exact ⟨b, rfl⟩

/-- A text behind a text token begins with what that token holds. -/
theorem eq_textPiece {line : Line} {content : String} (e : Phrase .expression) (next : Lexeme)
    (ev : Event) (es : List Event) (hf : e.Fits next) (hs : e.Starts .text)
    (htrace : e.trace = ev :: es) (hu : ev.token? = some ⟨line, .text content⟩) :
    ∃ more, e = .textLines (.textPiece line content more) := by
  cases hs with
  | @text pieces =>
    cases pieces with
    | textPiece _ _ more =>
      cases htrace
      cases hu
      exact ⟨more, rfl⟩
    | textEnd => cases (TextPlace.takes_of_inLine hf.1).symm.trans hf.2
    | textBreak => cases hf.1
    | textInterpolation =>
      cases htrace
      cases hu

/-- A text behind an opening interpolation begins with that interpolation. -/
theorem eq_textInterpolation {line : Line} (e : Phrase .expression) (next : Lexeme) (ev : Event)
    (es : List Event) (hf : e.Fits next) (hs : e.Starts .startInterpolation)
    (htrace : e.trace = ev :: es) (hu : ev.token? = some ⟨line, .startInterpolation⟩) :
    ∃ p : Phrase .expression × Line × Phrase (.text .lines),
      e = .textLines (.textInterpolation line p.1 p.2.1 p.2.2) := by
  cases hs with
  | @interpolation pieces =>
    cases pieces with
    | textInterpolation _ inner closing more =>
      cases htrace
      cases hu
      exact ⟨(inner, closing, more), rfl⟩
    | textEnd => cases (TextPlace.takes_of_inLine hf.1).symm.trans hf.2
    | textBreak => cases hf.1
    | textPiece =>
      cases htrace
      cases hu

end Phrase

/-- What an expression is behind its first token, which stood at the given position. -/
def Expression.ReadBy (scope : Scope) (place : Option Nat) (t : Token) (s : State) (v : Node)
    (s' : State) : Prop :=
  ∃ e : Phrase .expression, e.Fits s'.cursor.peek.lexeme ∧ v = e.value scope ∧ e.Starts t.kind ∧
    ∃ ev es, e.trace = ev :: es ∧ ev.token? = some t ∧ ev.Allowed place s ∧ Leads es s s'

theorem Expression.readBy_iff {scope : Scope} {t : Token} {s s' : State} {v : Node}
    (hh : s.cursor.tokens.head? = some t) : Symbol.expression.ReadBy scope s v s' ↔
      Expression.ReadBy scope (s.cursor.position 1) t s.next v s' := by
  constructor
  · rintro ⟨e, hf, rfl, hl⟩
    obtain ⟨ev, es, u, htrace, hu, hs⟩ := e.exists_opener hf
    rw [htrace] at hl
    obtain ⟨m, h, hl⟩ := hl
    obtain ⟨hc, rfl, ha⟩ := (Event.step_of_token hu).mp h
    cases hh.symm.trans hc
    exact ⟨e, hf, rfl, hs, ev, es, htrace, hu, ha, hl⟩
  · rintro ⟨e, hf, rfl, _, ev, es, htrace, hu, ha, hl⟩
    refine ⟨e, hf, rfl, ?_⟩
    rw [htrace]
    exact ⟨_, (Event.step_of_token hu).mpr ⟨hh, rfl, ha⟩, hl⟩

/-- Where the first token settles the shape of an expression, its parts are still to be read. -/
theorem Expression.readBy_iff_of_shape {scope : Scope} {place : Option Nat} {t : Token}
    {s s' : State} {v : Node} {α : Type} (shape : α → Phrase .expression) (ev : Event)
    (rest : α → List Event) (hev : ev.token? = some t) (hrest : ∀ a, (shape a).trace = ev :: rest a)
    (hstarts : ∀ a, (shape a).Starts t.kind)
    (hshape : ∀ (e : Phrase .expression) next ev es, e.Fits next → e.Starts t.kind →
      e.trace = ev :: es → ev.token? = some t → ∃ a, e = shape a) :
    Expression.ReadBy scope place t s v s' ↔ ev.Allowed place s ∧ ∃ a,
      (shape a).Fits s'.cursor.peek.lexeme ∧ v = (shape a).value scope ∧ Leads (rest a) s s' := by
  constructor
  · rintro ⟨e, hf, rfl, hs, ev', es, htrace, hu, ha, hl⟩
    obtain ⟨a, rfl⟩ := hshape e _ ev' es hf hs htrace hu
    obtain ⟨rfl, rfl⟩ := List.cons.inj ((hrest a).symm.trans htrace)
    exact ⟨ha, a, hf, rfl, hl⟩
  · rintro ⟨ha, a, hf, rfl, hl⟩
    exact ⟨shape a, hf, rfl, hstarts a, ev, rest a, hrest a, hev, ha, hl⟩

/-- A first token that may be read anywhere leaves nothing to check. -/
theorem Expression.readBy_iff_of_read {scope : Scope} {place : Option Nat} {t : Token}
    {s s' : State} {v : Node} {α : Type} (shape : α → Phrase .expression) (rest : α → List Event)
    (hrest : ∀ a, (shape a).trace = .read t :: rest a) (hstarts : ∀ a, (shape a).Starts t.kind)
    (hshape : ∀ (e : Phrase .expression) next ev es, e.Fits next → e.Starts t.kind →
      e.trace = ev :: es → ev.token? = some t → ∃ a, e = shape a) :
    Expression.ReadBy scope place t s v s' ↔ ∃ a,
      (shape a).Fits s'.cursor.peek.lexeme ∧ v = (shape a).value scope ∧ Leads (rest a) s s' :=
  (readBy_iff_of_shape shape (.read t) rest rfl hrest hstarts hshape).trans (iff_of_eq (true_and _))

theorem Expression.readBy_iff_of_single {scope : Scope} {place : Option Nat} {t : Token}
    {s s' : State} {v : Node} (e : Phrase .expression) (hfits : ∀ next, e.Fits next)
    (htrace : e.trace = [.read t]) (hstarts : e.Starts t.kind)
    (hshape : ∀ (e' : Phrase .expression) next ev es, e'.Fits next → e'.Starts t.kind →
      e'.trace = ev :: es → ev.token? = some t → e' = e) :
    Expression.ReadBy scope place t s v s' ↔ v = e.value scope ∧ s' = s := by
  rw [readBy_iff_of_read (fun _ : Unit => e) (fun _ => []) (fun _ => htrace) (fun _ => hstarts)
    fun e' next ev es hf hs ht hu => ⟨(), hshape e' next ev es hf hs ht hu⟩]
  constructor
  · rintro ⟨_, _, hv, hl⟩
    exact ⟨hv, hl⟩
  · rintro ⟨hv, hl⟩
    exact ⟨(), hfits _, hv, hl⟩

namespace Grammar

open Routine

variable {n : Nat} {scope : Scope} {below : Below n}
variable (hb : ∀ goal, Meets Anywhere (below goal) (goal.ReadBy scope))
include hb

theorem caseFrom_meets (line : Line) (source : String) :
    Meets Anywhere (caseFrom scope below line source) fun s v s' =>
      ∃ (opening : Line) (width : UInt64) (bs : Phrase .branches) (closing : Line),
        bs.Fits .outdent ∧ v = scope.node line (.case source (scope.block opening (bs.value scope))) ∧
          ∃ m k, (Event.read ⟨opening, .indent width⟩).Step s m ∧ Leads bs.trace m k ∧
            (Event.read ⟨closing, .outdent⟩).Step k s' := by
  refine ((Meets.expect (by decide)).bind fun indent => (hb .branches).bind fun nodes =>
    (Meets.expect (by decide)).map fun _ =>
      scope.node line (.case source (scope.block indent.line nodes))).congr ?_
  intro s v s' hp _
  constructor
  · rintro ⟨_, m, ⟨hi, h₁⟩, _, k, ⟨⟨bs, hf, rfl, h₂⟩, _⟩, _, ⟨ho, h₃⟩, rfl⟩
    obtain ⟨opening, width, rfl⟩ := Token.eq_indent hi
    obtain ⟨closing, rfl⟩ := Token.eq_of_kind_eq (l := .outdent) rfl ho
    rw [Leads.peek_eq (Event.plain_of_step hp h₁) h₂ h₃] at hf
    exact ⟨opening, width, bs, closing, hf, rfl, m, k, h₁, h₂, h₃⟩
  · rintro ⟨opening, width, bs, closing, hf, rfl, m, k, h₁, h₂, h₃⟩
    have ho := Leads.peek_eq (Event.plain_of_step hp h₁) h₂ h₃
    exact ⟨_, m, ⟨rfl, h₁⟩, _, k, ⟨⟨bs, by rwa [ho], rfl, h₂⟩, by rw [ho]; rfl⟩, _, ⟨rfl, h₃⟩, rfl⟩

/-- A branch without an expansion falls through. -/
theorem branchFrom_meets (line : Line) (source : String) :
    Meets Anywhere (branchFrom scope below line source) fun s v s' =>
      ∃ x : Phrase .expansion, x.Fits s'.cursor.peek.lexeme ∧
        v = scope.node line (.when source (x.value scope)) ∧ Leads x.trace s s' := by
  refine Meets.peek (S := fun _ s v s' => ∃ x : Phrase .expansion, x.Fits s'.cursor.peek.lexeme ∧
    v = scope.node line (.when source (x.value scope)) ∧ Leads x.trace s s') ?_
  intro first
  dsimp only
  split
  · next hk =>
    refine (((expansion_meets hb).map fun b => scope.node line (.when source (some b))).weaken
      fun _ _ => trivial).congr ?_
    rintro s v s' hp ⟨_, rfl⟩
    constructor
    · rintro ⟨b, ⟨x, hf, hv, hl⟩, rfl⟩
      exact ⟨x, hf, by rw [hv], hl⟩
    · rintro ⟨x, hf, rfl, hl⟩
      have hx := mt (x.eq_fallThrough_iff hp hf hl).mp (not_not_intro hk)
      cases x with
      | fallThrough => exact absurd rfl hx
      | expansionColon => exact ⟨_, ⟨_, hf, rfl, hl⟩, rfl⟩
      | expansionBody => exact ⟨_, ⟨_, hf, rfl, hl⟩, rfl⟩
  · next hk =>
    refine (Meets.pure _).congr ?_
    rintro s v s' hp ⟨_, rfl⟩
    constructor
    · rintro ⟨rfl, rfl⟩
      exact ⟨.fallThrough, not_or.mp hk, rfl, rfl⟩
    · rintro ⟨x, hf, rfl, hl⟩
      cases (x.eq_fallThrough_iff hp hf hl).mpr hk
      exact ⟨rfl, hl⟩

theorem alternative?_meets :
    Meets Anywhere (alternative? scope below) (Symbol.alternative.ReadBy scope) := by
  refine (Meets.acceptIf_bind (fun _ => rfl)
    (fun _ => (body_meets hb).map some) (Meets.pure none)).congr ?_
  intro s v s' hp _
  constructor
  · rintro (⟨⟨line, lexeme⟩, m, ht, h, _, ⟨b, hf, rfl, hl⟩, rfl⟩ | ⟨ht, rfl, rfl⟩)
    · cases lexeme with
      | code c => exact ⟨.someAlternative line c b, ⟨ht, hf⟩, rfl, m, h, hl⟩
      | _ => cases ht
    · exact ⟨.noAlternative, ht, rfl, rfl⟩
  · rintro ⟨a, hf, rfl, hl⟩
    cases a with
    | noAlternative =>
      cases hl
      exact .inr ⟨hf, rfl, rfl⟩
    | someAlternative line c b =>
      obtain ⟨m, h, hl⟩ := hl
      exact .inl ⟨_, m, hf.1, h, _, ⟨b, hf.2, rfl, hl⟩, rfl⟩

theorem eachFrom_meets (line : Line) (head : LoopHead) :
    Meets Anywhere (eachFrom scope below line head) fun s v s' =>
      ∃ (b : Phrase .body) (a : Phrase .alternative), b.Fits (a.lead s'.cursor.peek.lexeme) ∧
        a.Fits s'.cursor.peek.lexeme ∧ v = scope.node line (.each head (b.value scope) (a.value scope)) ∧
          ∃ m, Leads b.trace s m ∧ Leads a.trace m s' := by
  refine ((body_meets hb).bind fun main => (alternative?_meets hb).map
    fun alternative => scope.node line (.each head main alternative)).congr ?_
  intro s v s' hp _
  constructor
  · rintro ⟨_, m, ⟨b, hbf, rfl, h₁⟩, _, ⟨a, ha, rfl, h₂⟩, rfl⟩
    rw [a.lexeme_peek (h₁.plain hp) h₂] at hbf
    exact ⟨b, a, hbf, ha, rfl, m, h₁, h₂⟩
  · rintro ⟨b, a, hbf, ha, rfl, m, h₁, h₂⟩
    exact ⟨_, m, ⟨b, by rwa [a.lexeme_peek (h₁.plain hp) h₂], rfl, h₁⟩, _, ⟨a, ha, rfl, h₂⟩, rfl⟩

theorem filterFrom_meets (line : Line) (name : String) :
    Meets Anywhere (filterFrom scope below line name) fun s v s' =>
      ∃ (group : Option (Line × List Attribute × Bool)) (b : Phrase .optionalPipeless),
        (group = none → (b.lead s'.cursor.peek.lexeme).kind ≠ .attrs) ∧
          b.Fits s'.cursor.peek.lexeme ∧ v = scope.node line (.filter name
            ((group.map fun g => g.2.1).getD []) ((b.value scope).getD (scope.block line []))) ∧
          Leads ((group.map fun g => .read (groupToken g)).toList ++ b.trace) s s' := by
  refine ((Meets.acceptIf fun _ => rfl).bind fun group => (pipelessBody_meets hb line).map
    fun b => scope.node line (.filter name (groupAttrs group) b)).congr ?_
  intro s v s' hp _
  constructor
  · rintro ⟨_, m, ⟨⟨opening, lexeme⟩, rfl, ht, h⟩ | ⟨rfl, ht, rfl⟩, _, ⟨_, ⟨b, hf, rfl, hl⟩, rfl⟩, rfl⟩
    · cases lexeme with
      | attrs list closing => exact ⟨some ⟨opening, list, closing⟩, b, nofun, hf, rfl, m, h, hl⟩
      | _ => cases ht
    · have hk := beq_eq_false_iff_ne.mp ht
      refine ⟨none, b, fun _ => ?_, hf, rfl, hl⟩
      rwa [← b.lexeme_peek hp hl]
  · rintro ⟨group, b, hg, hf, rfl, hl⟩
    cases group with
    | none =>
      have hk := hg rfl
      rw [← b.lexeme_peek hp hl] at hk
      exact ⟨none, s, .inr ⟨rfl, beq_eq_false_iff_ne.mpr hk, rfl⟩, _, ⟨_, ⟨b, hf, rfl, hl⟩, rfl⟩, rfl⟩
    | some g =>
      obtain ⟨m, h, hl⟩ := hl
      exact ⟨some _, m, .inl ⟨_, rfl, rfl, h⟩, _, ⟨_, ⟨b, hf, rfl, hl⟩, rfl⟩, rfl⟩

omit hb in
theorem commentNode_meets (line : Line) (text : String) (buffered : Bool) (b : Option Block) :
    Meets Anywhere (n := n)
      (match b with
        | some nested => return scope.node line (.blockComment text buffered nested)
        | none => return scope.node line (.comment text buffered))
      fun s v s' => v = scope.node line (match b with
        | some nested => .blockComment text buffered nested
        | none => .comment text buffered) ∧ s' = s := by
  cases b with
  | none => exact Meets.pure _
  | some nested => exact Meets.pure _

theorem commentFrom_meets (line : Line) (text : String) (buffered : Bool) :
    Meets Anywhere (commentFrom scope below line text buffered) fun s v s' =>
      ∃ b, Symbol.optionalPipeless.ReadBy scope s b s' ∧ v = scope.node line (match b with
        | some nested => .blockComment text buffered nested
        | none => .comment text buffered) := by
  refine ((pipelessBody?_meets hb).bind (commentNode_meets line text buffered)).congr ?_
  intro s v s' _ _
  constructor
  · rintro ⟨b, m, h, hv, rfl⟩
    exact ⟨b, h, hv⟩
  · rintro ⟨b, h, hv⟩
    exact ⟨b, s', h, hv, rfl⟩

omit hb in
theorem mixinBlockFrom_meets {n : Nat} {scope : Scope} (line : Line) :
    Meets Anywhere (mixinBlockFrom scope line : Routine n Node) fun s v s' =>
      s.mixinDepth ≠ 0 ∧ v = scope.node line .mixinBlock ∧ s' = s := by
  refine Meets.look (S := fun depth s v s' =>
    depth ≠ 0 ∧ v = scope.node line .mixinBlock ∧ s' = s) ?_
  intro depth
  split
  · next hd => exact (Meets.fail _ _).congr fun _ _ => ⟨False.elim, fun h => h.1 hd⟩
  · next hd => exact (Meets.pure _).congr fun _ _ => ⟨fun h => ⟨hd, h⟩, fun h => h.2⟩

omit hb in
/-- A shorthand that opens an expression opens a tag with it. -/
theorem division_readBy {scope : Scope} {place : Option Nat} {t : Token} {s s' : State} {v : Node}
    (ht : t.kind = .idName ∨ t.kind = .className) :
    Expression.ReadBy scope place t s v s' ↔
      ∃ c, Content.ReadBy scope t.line false (some t) s c s' ∧
        v = c.tag scope t.line "div" false := by
  constructor
  · rintro ⟨e, hf, rfl, hs, ev, es, htrace, hu, _, hl⟩
    have he : ∃ c, e = .division c := by
      rcases ht with ht | ht <;> rw [ht] at hs <;> cases hs <;> exact ⟨_, rfl⟩
    obtain ⟨c, rfl⟩ := he
    obtain ⟨⟨u, hu', _⟩, hf⟩ := hf
    obtain ⟨more, hmore⟩ := List.head?_eq_some_iff.mp hu'
    have hfirst := htrace.symm.trans c.trace_content
    rw [hmore] at hfirst
    obtain ⟨rfl, rfl⟩ := List.cons.inj hfirst
    cases hu
    have hline : c.startLine = t.line := by
      rw [Phrase.startLine, Phrase.tokens, show c.trace = _ from htrace]
      rfl
    refine ⟨_, ⟨c, hf, rfl, _, htrace, hl⟩, ?_⟩
    rw [Phrase.value, hline]
  · rintro ⟨_, ⟨c, hf, rfl, es, htrace, hl⟩, rfl⟩
    obtain ⟨more, hheads, _⟩ := Phrase.trace_content_iff.mp htrace
    have hline : c.startLine = t.line := by
      rw [Phrase.startLine, Phrase.tokens, htrace]
      rfl
    refine ⟨.division c, ⟨⟨t, by rw [hheads]; rfl, ht⟩, hf⟩, ?_, ?_, .read t, es, htrace, rfl,
      trivial, hl⟩
    · rw [Phrase.value, hline]
    · rcases ht with ht | ht <;> rw [ht] <;> constructor

omit hb in
/-- What is made of a content is made of the phrase that was read. -/
theorem content_readBy_map {scope : Scope} {line : Line} {selfClosing : Bool} {s s' : State}
    {v : Node} {f : Content → Node} :
    (∃ c, Content.ReadBy scope line selfClosing none s c s' ∧ v = f c) ↔
      ∃ c : Phrase .content, c.Fits s'.cursor.peek.lexeme ∧ v = f (c.value scope line selfClosing) ∧
        Leads c.trace s s' := by
  constructor
  · rintro ⟨_, ⟨c, hf, rfl, es, htrace, hl⟩, rfl⟩
    exact ⟨c, hf, rfl, by rwa [show c.trace = es from htrace]⟩
  · rintro ⟨c, hf, rfl, hl⟩
    exact ⟨_, ⟨c, hf, rfl, _, rfl, hl⟩, rfl⟩

omit hb in
/-- What is made of an answer is made of the phrase that was read. -/
theorem readBy_map {scope : Scope} (g : Symbol) {s s' : State} {v : Node} {f : g.Value → Node} :
    (∃ w, g.ReadBy scope s w s' ∧ v = f w) ↔
      ∃ e : Phrase g, e.Fits s'.cursor.peek.lexeme ∧ v = f (e.value scope) ∧ Leads e.trace s s' := by
  constructor
  · rintro ⟨_, ⟨e, hf, rfl, hl⟩, rfl⟩
    exact ⟨e, hf, rfl, hl⟩
  · rintro ⟨e, hf, rfl, hl⟩
    exact ⟨_, ⟨e, hf, rfl, hl⟩, rfl⟩

/-! What each kind of first token opens. -/

section Productions

variable (place : Option Nat) (line : Line)

theorem tag_meets (name : String) (selfClosing : Bool) :
    Meets Anywhere (expressionFrom .slot scope below place ⟨line, .tag name selfClosing⟩)
      (Expression.ReadBy scope place ⟨line, .tag name selfClosing⟩) := by
  refine ((tagFrom_meets hb line name selfClosing false none).weaken
    fun _ _ _ h => by cases h).congr ?_
  intro s v s' _ _
  rw [Expression.readBy_iff_of_read (.tag line name selfClosing) Phrase.trace
    (fun _ => rfl) (fun _ => .tag) (by rintro _ _ _ _ _ ⟨⟩ ⟨⟩ ⟨⟩; exact ⟨_, rfl⟩)]
  exact content_readBy_map

theorem buffered_meets (source : String) :
    Meets Anywhere (expressionFrom .slot scope below place ⟨line, .interpolation source⟩)
      (Expression.ReadBy scope place ⟨line, .interpolation source⟩) := by
  refine ((tagFrom_meets hb line source false true none).weaken fun _ _ _ h => by cases h).congr ?_
  intro s v s' _ _
  rw [Expression.readBy_iff_of_read (.buffered line source) Phrase.trace
    (fun _ => rfl) (fun _ => .buffered) (by rintro _ _ _ _ _ ⟨⟩ ⟨⟩ ⟨⟩; exact ⟨_, rfl⟩)]
  exact content_readBy_map

theorem call_meets (name : String) (args : Option String) :
    Meets Anywhere (expressionFrom .slot scope below place ⟨line, .call name args⟩)
      (Expression.ReadBy scope place ⟨line, .call name args⟩) := by
  refine (callFrom_meets hb line name args).congr ?_
  intro s v s' _ _
  rw [Expression.readBy_iff_of_read (.call line name args) Phrase.trace
    (fun _ => rfl) (fun _ => .call) (by rintro _ _ _ _ _ ⟨⟩ ⟨⟩ ⟨⟩; exact ⟨_, rfl⟩)]
  exact content_readBy_map

theorem mixin_meets (name : String) (args : Option String) :
    Meets Anywhere (expressionFrom .slot scope below place ⟨line, .mixin name args⟩)
      (Expression.ReadBy scope place ⟨line, .mixin name args⟩) := by
  refine (mixinFrom_meets hb line name args).congr ?_
  intro s v s' _ _
  constructor
  · rintro (⟨b, hf, rfl, m, hl, rfl⟩ | ⟨hk, rfl, rfl⟩)
    · exact ⟨.definition line name args b, hf, rfl, .definition, _, _, rfl, rfl, trivial, _, rfl,
        Leads.append_iff.mpr ⟨m, hl, _, rfl, rfl⟩⟩
    · exact ⟨.oldCall line name args, hk, rfl, .oldCall, _, _, rfl, rfl, trivial, _, rfl, rfl⟩
  · rintro ⟨e, hf, rfl, hs, ev, es, htrace, hu, _, hl⟩
    cases hs with
    | definition =>
      cases htrace
      cases hu
      obtain ⟨_, rfl, hl⟩ := hl
      obtain ⟨m, h, _, rfl, rfl⟩ := Leads.append_iff.mp hl
      exact .inl ⟨_, hf, rfl, m, h, rfl⟩
    | oldCall =>
      cases htrace
      cases hu
      obtain ⟨_, rfl, rfl⟩ := hl
      exact .inr ⟨hf, rfl, rfl⟩

omit hb in
theorem mixinBlock_meets :
    Meets Anywhere (expressionFrom .slot scope below place ⟨line, .mixinBlock⟩)
      (Expression.ReadBy scope place ⟨line, .mixinBlock⟩) := by
  refine (mixinBlockFrom_meets line).congr ?_
  intro s v s' _ _
  rw [Expression.readBy_iff_of_shape (fun _ : Unit => .mixinBlock line) (.mixinBlock line)
    (fun _ => []) rfl (fun _ => rfl) (fun _ => .mixinBlock)
    (by rintro _ _ _ _ _ ⟨⟩ ⟨⟩ ⟨⟩; exact ⟨(), rfl⟩)]
  constructor
  · rintro ⟨hd, rfl, rfl⟩
    exact ⟨hd, (), trivial, rfl, rfl⟩
  · rintro ⟨hd, _, _, rfl, hl⟩
    exact ⟨hd, rfl, hl⟩

theorem namedBlock_meets (name : String) (mode : BlockMode) :
    Meets Anywhere (expressionFrom .slot scope below place ⟨line, .block name mode⟩)
      (Expression.ReadBy scope place ⟨line, .block name mode⟩) := by
  refine ((body?_meets hb).map fun nested => scope.node line
    (.namedBlock (Text.trim name) mode ((nested.map BlockOf.nodes).getD []))).congr ?_
  intro s v s' _ _
  rw [Expression.readBy_iff_of_read (.namedBlock line name mode) Phrase.trace
    (fun _ => rfl) (fun _ => .namedBlock) (by rintro _ _ _ _ _ ⟨⟩ ⟨⟩ ⟨⟩; exact ⟨_, rfl⟩)]
  exact readBy_map .optionalBody

theorem inclusion_meets (path : String) (via : Option String) (attrs : List Attribute) :
    Meets Anywhere (expressionFrom .slot scope below place ⟨line, .inclusion path via attrs⟩)
      (Expression.ReadBy scope place ⟨line, .inclusion path via attrs⟩) := by
  refine ((body?_meets hb).map fun nested => scope.node line
    (.inclusion (Text.trim path) via attrs (nested.getD (scope.block line [])))).congr ?_
  intro s v s' _ _
  rw [Expression.readBy_iff_of_read (.inclusion line path via attrs) Phrase.trace
    (fun _ => rfl) (fun _ => .inclusion) (by rintro _ _ _ _ _ ⟨⟩ ⟨⟩ ⟨⟩; exact ⟨_, rfl⟩)]
  exact readBy_map .optionalBody

theorem case_meets (source : String) :
    Meets Anywhere (expressionFrom .slot scope below place ⟨line, .case source⟩)
      (Expression.ReadBy scope place ⟨line, .case source⟩) := by
  refine (caseFrom_meets hb line source).congr ?_
  intro s v s' _ _
  rw [Expression.readBy_iff_of_read (fun c : Line × UInt64 × Phrase .branches × Line =>
    .case line source c.1 c.2.1 c.2.2.1 c.2.2.2) _ (fun _ => rfl) (fun _ => .case)
    (by rintro _ _ _ _ _ ⟨⟩ ⟨⟩ ⟨⟩; exact ⟨(_, _, _, _), rfl⟩)]
  constructor
  · rintro ⟨opening, width, bs, closing, hf, rfl, m, k, h₁, h₂, h₃⟩
    exact ⟨⟨opening, width, bs, closing⟩, hf, rfl, m, h₁, Leads.append_iff.mpr ⟨k, h₂, _, h₃, rfl⟩⟩
  · rintro ⟨⟨opening, width, bs, closing⟩, hf, rfl, m, h₁, hl⟩
    obtain ⟨k, h₂, _, h₃, rfl⟩ := Leads.append_iff.mp hl
    exact ⟨opening, width, bs, closing, hf, rfl, m, k, h₁, h₂, h₃⟩

theorem each_meets (head : LoopHead) :
    Meets Anywhere (expressionFrom .slot scope below place ⟨line, .each head⟩)
      (Expression.ReadBy scope place ⟨line, .each head⟩) := by
  refine (eachFrom_meets hb line head).congr ?_
  intro s v s' _ _
  rw [Expression.readBy_iff_of_read (fun p : Phrase .body × Phrase .alternative =>
    .each line head p.1 p.2) _ (fun _ => rfl) (fun _ => .each)
    (by rintro _ _ _ _ _ ⟨⟩ ⟨⟩ ⟨⟩; exact ⟨(_, _), rfl⟩)]
  constructor
  · rintro ⟨b, a, hb, ha, rfl, m, h₁, h₂⟩
    exact ⟨⟨b, a⟩, ⟨hb, ha⟩, rfl, Leads.append_iff.mpr ⟨m, h₁, h₂⟩⟩
  · rintro ⟨⟨b, a⟩, ⟨hb, ha⟩, rfl, hl⟩
    obtain ⟨m, h₁, h₂⟩ := Leads.append_iff.mp hl
    exact ⟨b, a, hb, ha, rfl, m, h₁, h₂⟩

theorem code_meets (c : CodeLine) :
    Meets Anywhere (expressionFrom .slot scope below place ⟨line, .code c⟩)
      (Expression.ReadBy scope place ⟨line, .code c⟩) := by
  refine (codeFrom_meets hb place line c).congr ?_
  intro s v s' _ _
  rw [Expression.readBy_iff_of_shape (fun b => .statement (.code line c b)) (.code line c) _ rfl
    (fun _ => rfl) (fun _ => .statement) Phrase.eq_code]
  constructor
  · rintro ⟨b, hf, rfl, ha, m, h₁, h₂⟩
    exact ⟨ha, b, hf, rfl, Leads.append_iff.mpr ⟨m, h₁, h₂⟩⟩
  · rintro ⟨ha, b, hf, rfl, hl⟩
    obtain ⟨m, h₁, h₂⟩ := Leads.append_iff.mp hl
    exact ⟨b, hf, rfl, ha, m, h₁, h₂⟩

omit hb in
theorem inherit_meets (path : String) :
    Meets Anywhere (expressionFrom .slot scope below place ⟨line, .inherit path⟩)
      (Expression.ReadBy scope place ⟨line, .inherit path⟩) := by
  refine (Meets.pure _).congr ?_
  intro s v s' _ _
  rw [Expression.readBy_iff_of_single (.inherit line path) (fun _ => trivial) rfl .inherit
    (by rintro _ _ _ _ _ ⟨⟩ ⟨⟩ ⟨⟩; rfl)]
  rfl

omit hb in
theorem doctype_meets (name : String) :
    Meets Anywhere (expressionFrom .slot scope below place ⟨line, .doctype name⟩)
      (Expression.ReadBy scope place ⟨line, .doctype name⟩) := by
  refine (Meets.pure _).congr ?_
  intro s v s' _ _
  rw [Expression.readBy_iff_of_single (.doctype line name) (fun _ => trivial) rfl .doctype
    (by rintro _ _ _ _ _ ⟨⟩ ⟨⟩ ⟨⟩; rfl)]
  rfl

omit hb in
theorem yield_meets :
    Meets Anywhere (expressionFrom .slot scope below place ⟨line, .yield⟩)
      (Expression.ReadBy scope place ⟨line, .yield⟩) := by
  refine (Meets.pure _).congr ?_
  intro s v s' _ _
  rw [Expression.readBy_iff_of_single (.yield line) (fun _ => trivial) rfl .yield
    (by rintro _ _ _ _ _ ⟨⟩ ⟨⟩ ⟨⟩; rfl)]
  rfl

theorem filter_meets (name : String) :
    Meets Anywhere (expressionFrom .slot scope below place ⟨line, .filter name⟩)
      (Expression.ReadBy scope place ⟨line, .filter name⟩) := by
  refine (filterFrom_meets hb line name).congr ?_
  intro s v s' _ _
  rw [Expression.readBy_iff_of_read
    (fun p : Option (Line × List Attribute × Bool) × Phrase .optionalPipeless =>
      .filter line name p.1 p.2) _ (fun _ => rfl) (fun _ => .filter)
    (by rintro _ _ _ _ _ ⟨⟩ ⟨⟩ ⟨⟩; exact ⟨(_, _), rfl⟩)]
  constructor
  · rintro ⟨group, b, hg, hf, rfl, hl⟩
    exact ⟨⟨group, b⟩, ⟨hg, hf⟩, rfl, hl⟩
  · rintro ⟨⟨group, b⟩, ⟨hg, hf⟩, rfl, hl⟩
    exact ⟨group, b, hg, hf, rfl, hl⟩

theorem comment_meets (content : String) (buffered : Bool) :
    Meets Anywhere (expressionFrom .slot scope below place ⟨line, .comment content buffered⟩)
      (Expression.ReadBy scope place ⟨line, .comment content buffered⟩) := by
  refine (commentFrom_meets hb line content buffered).congr ?_
  intro s v s' _ _
  rw [Expression.readBy_iff_of_read (.comment line content buffered) Phrase.trace
    (fun _ => rfl) (fun _ => .comment) (by rintro _ _ _ _ _ ⟨⟩ ⟨⟩ ⟨⟩; exact ⟨_, rfl⟩)]
  exact readBy_map .optionalPipeless

theorem dot_meets :
    Meets Anywhere (expressionFrom .slot scope below place ⟨line, .dot⟩)
      (Expression.ReadBy scope place ⟨line, .dot⟩) := by
  refine ((pipelessBody_meets hb line).map Node.ofBlock).congr ?_
  intro s v s' _ _
  rw [Expression.readBy_iff_of_read (.dot line) Phrase.trace (fun _ => rfl) (fun _ => .dot)
    (by rintro _ _ _ _ _ ⟨⟩ ⟨⟩ ⟨⟩; exact ⟨_, rfl⟩)]
  constructor
  · rintro ⟨_, ⟨_, ⟨b, hf, rfl, hl⟩, rfl⟩, rfl⟩
    exact ⟨b, hf, rfl, hl⟩
  · rintro ⟨b, hf, rfl, hl⟩
    exact ⟨_, ⟨_, ⟨b, hf, rfl, hl⟩, rfl⟩, rfl⟩

theorem text_meets (content : String) :
    Meets Anywhere (expressionFrom .slot scope below place ⟨line, .text content⟩)
      (Expression.ReadBy scope place ⟨line, .text content⟩) := by
  refine (textFrom_meets hb line (scope.text line content)).congr ?_
  intro s v s' _ _
  rw [Expression.readBy_iff_of_read (fun more => .textLines (.textPiece line content more))
    Phrase.trace (fun _ => rfl) (fun _ => .text) Phrase.eq_textPiece]
  constructor
  · rintro ⟨_, ⟨more, hf, rfl, hl⟩, rfl⟩
    exact ⟨more, ⟨rfl, hf⟩, rfl, hl⟩
  · rintro ⟨more, ⟨_, hf⟩, rfl, hl⟩
    exact ⟨_, ⟨more, hf, rfl, hl⟩, rfl⟩

theorem interpolated_meets :
    Meets Anywhere (expressionFrom .slot scope below place ⟨line, .startInterpolation⟩)
      (Expression.ReadBy scope place ⟨line, .startInterpolation⟩) := by
  refine ((interpolation_meets hb).bind fun first => textFrom_meets hb line first).congr ?_
  intro s v s' _ _
  rw [Expression.readBy_iff_of_read (fun p : Phrase .expression × Line × Phrase (.text .lines) =>
    .textLines (.textInterpolation line p.1 p.2.1 p.2.2)) _ (fun _ => rfl) (fun _ => .interpolation)
    Phrase.eq_textInterpolation]
  constructor
  · rintro ⟨_, m, ⟨e, k, closing, he, rfl, h₁, h₂⟩, _, ⟨more, hf, rfl, hl⟩, rfl⟩
    exact ⟨⟨e, closing, more⟩, ⟨rfl, he, hf⟩, rfl, Leads.append_iff.mpr ⟨k, h₁, m, h₂, hl⟩⟩
  · rintro ⟨⟨e, closing, more⟩, ⟨_, he, hf⟩, rfl, hl⟩
    obtain ⟨k, h₁, m, h₂, hl⟩ := Leads.append_iff.mp hl
    exact ⟨_, m, ⟨e, k, closing, he, rfl, h₁, h₂⟩, _, ⟨more, hf, rfl, hl⟩, rfl⟩

theorem rawHtml_meets (content : String) :
    Meets Anywhere (expressionFrom .slot scope below place ⟨line, .textHtml content⟩)
      (Expression.ReadBy scope place ⟨line, .textHtml content⟩) := by
  refine ((htmlFrom_meets hb line content).map fun nodes =>
    Node.ofBlock (scope.block line nodes)).congr ?_
  intro s v s' _ _
  rw [Expression.readBy_iff_of_read (fun p : Phrase .nested × Phrase .html =>
    .rawHtml line content p.1 p.2) _ (fun _ => rfl) (fun _ => .rawHtml)
    (by rintro _ _ _ _ _ ⟨⟩ ⟨⟩ ⟨⟩; exact ⟨(_, _), rfl⟩)]
  constructor
  · rintro ⟨_, ⟨_, ⟨nested, lines, hn, hf, rfl, m, h₁, h₂⟩, rfl⟩, rfl⟩
    exact ⟨⟨nested, lines⟩, ⟨hn, hf⟩, rfl, Leads.append_iff.mpr ⟨m, h₁, h₂⟩⟩
  · rintro ⟨⟨nested, lines⟩, ⟨hn, hf⟩, rfl, hl⟩
    obtain ⟨m, h₁, h₂⟩ := Leads.append_iff.mp hl
    exact ⟨_, ⟨_, ⟨nested, lines, hn, hf, rfl, m, h₁, h₂⟩, rfl⟩, rfl⟩

end Productions

/-- An expression is read on from its first token, which was read last. -/
theorem expressionFrom_meets (place : Option Nat) (t : Token) :
    Meets (fun s => s.cursor.line = t.line) (expressionFrom .slot scope below place t)
      (Expression.ReadBy scope place t) := by
  obtain ⟨line, lexeme⟩ := t
  -- Only shorthands depend on the line that the cursor is on.
  have anywhere {R : State → Node → State → Prop}
      (h : Meets Anywhere (expressionFrom .slot scope below place ⟨line, lexeme⟩) R) :
      Meets (·.cursor.line = line) (expressionFrom .slot scope below place ⟨line, lexeme⟩) R :=
    h.weaken fun _ _ => trivial
  cases lexeme with
  | tag name selfClosing => exact anywhere (tag_meets hb place line name selfClosing)
  | interpolation source => exact anywhere (buffered_meets hb place line source)
  | idName name =>
    exact ((tagFrom_meets hb line "div" false false (some ⟨⟨line, .idName name⟩, rfl⟩)).weaken
      fun _ hs _ h => by cases h; exact hs).congr fun _ _ =>
        (division_readBy (t := ⟨line, .idName name⟩) (.inl rfl)).symm
  | className name =>
    exact ((tagFrom_meets hb line "div" false false (some ⟨⟨line, .className name⟩, rfl⟩)).weaken
      fun _ hs _ h => by cases h; exact hs).congr fun _ _ =>
        (division_readBy (t := ⟨line, .className name⟩) (.inr rfl)).symm
  | mixin name args => exact anywhere (mixin_meets hb place line name args)
  | call name args => exact anywhere (call_meets hb place line name args)
  | mixinBlock => exact anywhere (mixinBlock_meets place line)
  | block name mode => exact anywhere (namedBlock_meets hb place line name mode)
  | case source => exact anywhere (case_meets hb place line source)
  | each head => exact anywhere (each_meets hb place line head)
  | code c => exact anywhere (code_meets hb place line c)
  | inherit path => exact anywhere (inherit_meets place line path)
  | doctype name => exact anywhere (doctype_meets place line name)
  | yield => exact anywhere (yield_meets place line)
  | inclusion path via attrs => exact anywhere (inclusion_meets hb place line path via attrs)
  | filter name => exact anywhere (filter_meets hb place line name)
  | comment content buffered => exact anywhere (comment_meets hb place line content buffered)
  | dot => exact anywhere (dot_meets hb place line)
  | text content => exact anywhere (text_meets hb place line content)
  | startInterpolation => exact anywhere (interpolated_meets hb place line)
  | textHtml content => exact anywhere (rawHtml_meets hb place line content)
  | _ =>
    refine (Meets.fail _ _).congr ?_
    intro s v s' _ _
    refine ⟨False.elim, ?_⟩
    rintro ⟨e, _, _, hs, _⟩
    cases hs

end Grammar

end TemplateTree
