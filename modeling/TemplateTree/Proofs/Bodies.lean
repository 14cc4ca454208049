import TemplateTree.Proofs.Acceptance
import TemplateTree.Proofs.Endings

/-!
The ways of giving a body. What reads as a whole template reads in the same way indented under any
token that takes a body, and a colon does for one expression what an indentation does for many.
-/

namespace TemplateTree
set_option autoImplicit false

/-- Tokens as an indented body. -/
def indented (opening : Line) (width : UInt64) (ts : List Token) (closing : Line) : List Token :=
  ⟨opening, .indent width⟩ :: ts ++ [⟨closing, .outdent⟩]

/-- A template of one node. -/
def Parsed.single (file : Option String) (line : Line) (shape : Shape Node)
    (warnings : List Warning) : Parsed :=
  ⟨.ofNodes ⟨0, file⟩ [⟨⟨line, file⟩, shape⟩], warnings⟩

theorem Node.consHtml_ne_nil (n : Node) (ns : List Node) : Node.consHtml n ns ≠ [] := by
  unfold Node.consHtml
  split
  · nofun
  · split <;> nofun

/-- An event that may happen at any time and that nothing is said about. -/
def Event.Quiet (e : Event) : Prop := e.noted = [] ∧ ∀ before, e.Granted before

namespace Event

@[simp] theorem quiet_read (t : Token) : (read t).Quiet := ⟨rfl, fun _ => trivial⟩

@[simp] theorem quiet_silence : (notices []).Quiet := ⟨rfl, fun _ => trivial⟩

@[simp] theorem quiet_finish : finish.Quiet := ⟨rfl, fun _ => trivial⟩

@[simp] theorem quiet_enterMixin : enterMixin.Quiet := ⟨rfl, fun _ => trivial⟩

@[simp] theorem quiet_leaveMixin : leaveMixin.Quiet := ⟨rfl, fun _ => trivial⟩

theorem quiet_code {line : Line} {c : CodeLine} (h : c.isElse = false) : (code line c).Quiet := by
  refine ⟨rfl, fun _ he => ?_⟩
  rw [h] at he
  cases he

end Event

/-- An expression that a phrase makes up but for some events before and behind it, and some tokens
among these. -/
structure Phrase.Framed {g : Symbol} (t : Phrase g) (front back : List Token)
    (e : Phrase .expression) : Prop where
  trace_eq : ∃ pre post, e.trace = pre ++ t.trace ++ post ∧ (∀ f ∈ pre ++ post, f.Quiet) ∧
    pre.filterMap Event.token? = front ∧ post.filterMap Event.token? = back
  fits : e.Fits .eos

namespace Phrase.Framed

variable {g : Symbol} {t : Phrase g} {front back : List Token} {e : Phrase .expression}

theorem tokens_eq (h : t.Framed front back e) : e.tokens = front ++ t.tokens ++ back := by
  obtain ⟨pre, post, htrace, _, rfl, rfl⟩ := h.trace_eq
  rw [tokens, htrace, List.filterMap_append, List.filterMap_append, tokens]

theorem noted_eq (h : t.Framed front back e) :
    e.trace.flatMap Event.noted = t.trace.flatMap Event.noted := by
  obtain ⟨pre, post, htrace, hquiet, _⟩ := h.trace_eq
  have hpre : pre.flatMap Event.noted = [] :=
    List.flatMap_eq_nil_iff.mpr fun f hf => (hquiet f (List.mem_append_left _ hf)).1
  have hpost : post.flatMap Event.noted = [] :=
    List.flatMap_eq_nil_iff.mpr fun f hf => (hquiet f (List.mem_append_right _ hf)).1
  rw [htrace, List.flatMap_append, List.flatMap_append, hpre, hpost, List.nil_append,
    List.append_nil]

/-- Nothing that stands in front forbids what stands in the frame. -/
theorem lawful (h : t.Framed front back e) (ht : Lawful t.trace) : Lawful e.trace := by
  obtain ⟨pre, post, htrace, hquiet, _⟩ := h.trace_eq
  have hof {before es : List Event} (hes : ∀ f ∈ es, f.Quiet) : LawfulAfter before es := by
    rintro mid f rest rfl
    exact (hes f (by simp)).2 _
  rw [htrace, Lawful, lawfulAfter_append, lawfulAfter_append]
  refine ⟨⟨hof fun f hf => hquiet f (List.mem_append_left _ hf), ?_⟩,
    hof fun f hf => hquiet f (List.mem_append_right _ hf)⟩
  have hbehind : LawfulAfter (pre ++ []) t.trace := ht.behind
  rwa [List.append_nil] at hbehind

/-- An expression parses to its node, with the warnings of what is in the frame. -/
theorem parse_eq {u : Token} (h : t.Framed (u :: front) back e) (hu : u.kind ≠ .textHtml)
    (ht : Lawful t.trace) (file : Option String) :
    Template.parse file (u :: front ++ t.tokens ++ back) =
      .ok ⟨.ofNodes ⟨0, file⟩ [e.value ⟨file⟩],
        (t.trace.flatMap Event.noted).map (Notice.warning file)⟩ := by
  have htrace : (Phrase.item e .done).trace = e.trace := List.append_nil _
  have hparse : Template.parse file (Phrase.item e .done).tokens = _ :=
    Template.parse_tokens ⟨by rwa [lead, h.tokens_eq], h.fits, trivial⟩ (htrace ▸ h.lawful ht)
  rwa [tokens, Template.parsed, htrace, ← tokens, h.tokens_eq, h.noted_eq] at hparse

end Phrase.Framed

namespace Phrase

variable {t : Phrase .items} (line opening closing : Line) (width : UInt64)

/-- What stands under a line. -/
def under (t : Phrase .items) : Phrase .optionalBody := .someBody (.body opening width t closing)

/-- What stands under the name of a tag or call. -/
def underHead (t : Phrase .items) : Phrase .content :=
  .plain [] .lineEnd [] (t.under opening closing width)

theorem fits_outdent (hf : t.Fits .eos) : t.Fits .outdent := fits_of_ends rfl hf

theorem fits_underHead (hf : t.Fits .eos) : (t.underHead opening closing width).Fits .eos :=
  ⟨nofun, List.nodup_nil, rfl, nofun, fits_outdent hf⟩

theorem value_underHead (scope : Scope) (selfClosing : Bool) :
    (t.underHead opening closing width).value scope line selfClosing =
      ⟨⟨selfClosing, [], []⟩, false, scope.block line (t.value scope), none⟩ := by
  simp [underHead, under, Block.followedBy, Scope.block, BlockOf.ofNodes]

theorem value_call_underHead (scope : Scope) (name : String) (args : Option String) :
    (Phrase.call line name args (t.underHead opening closing width)).value scope =
      scope.node line (.mixin ⟨name, args, true, [], []⟩
        (if t.value scope = [] then none else some (scope.block line (t.value scope)))) := by
  rw [value, value_underHead]
  cases t.value scope <;> simp [Content.call, BlockOf.isEmpty, Scope.block, BlockOf.ofNodes]

theorem framed_tag (hf : t.Fits .eos) (name : String) (selfClosing : Bool) :
    t.Framed [⟨line, .tag name selfClosing⟩, ⟨opening, .indent width⟩] [⟨closing, .outdent⟩]
      (.tag line name selfClosing (t.underHead opening closing width)) where
  trace_eq := ⟨[.read _, .notices [], .read _], [.read _], rfl, by simp, rfl, rfl⟩
  fits := fits_underHead opening closing width hf

theorem framed_call (hf : t.Fits .eos) (name : String) (args : Option String) :
    t.Framed [⟨line, .call name args⟩, ⟨opening, .indent width⟩] [⟨closing, .outdent⟩]
      (.call line name args (t.underHead opening closing width)) where
  trace_eq := ⟨[.read _, .notices [], .read _], [.read _], rfl, by simp, rfl, rfl⟩
  fits := fits_underHead opening closing width hf

theorem framed_namedBlock (hf : t.Fits .eos) (name : String) (mode : BlockMode) :
    t.Framed [⟨line, .block name mode⟩, ⟨opening, .indent width⟩] [⟨closing, .outdent⟩]
      (.namedBlock line name mode (t.under opening closing width)) where
  trace_eq := ⟨[.read _, .read _], [.read _], rfl, by simp, rfl, rfl⟩
  fits := fits_outdent hf

theorem framed_inclusion (hf : t.Fits .eos) (path : String) (via : Option String)
    (attrs : List Attribute) :
    t.Framed [⟨line, .inclusion path via attrs⟩, ⟨opening, .indent width⟩] [⟨closing, .outdent⟩]
      (.inclusion line path via attrs (t.under opening closing width)) where
  trace_eq := ⟨[.read _, .read _], [.read _], rfl, by simp, rfl, rfl⟩
  fits := fits_outdent hf

theorem framed_each (hf : t.Fits .eos) (head : LoopHead) :
    t.Framed [⟨line, .each head⟩, ⟨opening, .indent width⟩] [⟨closing, .outdent⟩]
      (.each line head (.body opening width t closing) .noAlternative) where
  trace_eq := ⟨[.read _, .read _], [.read _], List.append_nil _, by simp, rfl, rfl⟩
  fits := ⟨fits_outdent hf, rfl⟩

theorem framed_definition (hf : t.Fits .eos) (name : String) (args : Option String) :
    t.Framed [⟨line, .mixin name args⟩, ⟨opening, .indent width⟩] [⟨closing, .outdent⟩]
      (.definition line name args (.body opening width t closing)) where
  trace_eq := ⟨[.read _, .enterMixin, .read _], [.read _, .leaveMixin], by simp, by simp, rfl, rfl⟩
  fits := fits_outdent hf

theorem framed_code (hf : t.Fits .eos) {c : CodeLine} (hc : c.isElse = false) :
    t.Framed [⟨line, .code c⟩, ⟨opening, .indent width⟩] [⟨closing, .outdent⟩]
      (.statement (.code line c (t.under opening closing width))) where
  trace_eq := by
    refine ⟨[.code _ _, .read _], .read ⟨closing, .outdent⟩ :: if c.isIf then [.finish] else [],
      ?_, ?_, rfl, ?_⟩
    · simp [under]
    · simp only [List.cons_append, List.nil_append, List.forall_mem_cons]
      refine ⟨Event.quiet_code hc, Event.quiet_read _, Event.quiet_read _, ?_⟩
      split <;> simp
    · split <;> rfl
  fits := fits_outdent hf

/-- Items that stand for nothing are newlines. -/
theorem newlines_of_value_nil {scope : Scope} : (t : Phrase .items) → t.value scope = [] →
    ∃ lines : List Line, t.trace = lines.map .newline
  | .done, _ => ⟨[], rfl⟩
  | .newline line more, h => by
    obtain ⟨lines, hlines⟩ := newlines_of_value_nil more h
    exact ⟨line :: lines, by rw [trace, hlines, List.map_cons]⟩
  | .html line content nested lines more, h => by
    have hjoin := (List.append_eq_nil_iff.mp h).1
    exact absurd hjoin (Node.consHtml_ne_nil _ _)

/-- A template that stands for one node and does not begin with a newline or with HTML is an
expression with newlines behind it. -/
theorem expression_of_value_single {scope : Scope} {node : Node} (hf : t.Fits .eos)
    (hvalue : t.value scope = [node])
    (hfirst : ∀ u ∈ t.tokens.head?, u.kind ≠ .newline ∧ u.kind ≠ .textHtml) :
    ∃ (e : Phrase .expression) (lines : List Line),
      e.Fits (if lines = [] then .eos else .newline) ∧ e.value scope = node ∧
        t.trace = e.trace ++ lines.map .newline := by
  cases t with
  | done => cases hvalue
  | newline line more => exact absurd rfl (hfirst _ rfl).1
  | html line content nested lines more => exact absurd rfl (hfirst _ rfl).2
  | item e more =>
    obtain ⟨hnode, hmore⟩ := List.cons_eq_cons.mp hvalue
    obtain ⟨lines, hlines⟩ := newlines_of_value_nil more hmore
    refine ⟨e, lines, ?_, hnode, by rw [trace, hlines]⟩
    have hlead : more.lead .eos = if lines = [] then .eos else .newline := by
      rw [lead, tokens, hlines]
      cases lines <;> rfl
    rw [← hlead]
    exact hf.2.1

/-- An expression behind a colon. The newlines it ends with stand behind the line of the tag. -/
theorem framed_colon {e : Phrase .expression} {lines : List Line}
    (hf : e.Fits (if lines = [] then .eos else .newline))
    (htrace : t.trace = e.trace ++ lines.map .newline) (name : String) (selfClosing : Bool)
    (colon : Line) :
    t.Framed [⟨line, .tag name selfClosing⟩, ⟨colon, .colon⟩] []
      (.tag line name selfClosing (.plain [] (.lineColon colon e) lines .noBody)) where
  trace_eq := by
    refine ⟨[.read _, .notices [], .read _], [], ?_, by simp, rfl, rfl⟩
    rw [htrace, List.append_nil]
    exact congrArg _ (List.append_nil _)
  fits := ⟨nofun, List.nodup_nil, hf, nofun, nofun⟩

theorem value_colon (scope : Scope) (colon : Line) (e : Phrase .expression) (lines : List Line)
    (selfClosing : Bool) :
    (Phrase.plain [] (.lineColon colon e) lines .noBody).value scope line selfClosing =
      ⟨⟨selfClosing, [], []⟩, false, scope.block colon [e.value scope], none⟩ := by
  simp [Block.followedBy, Scope.block, BlockOf.ofNodes]

end Phrase

/-- The head of a tag of which nothing but the name is given. -/
def TagHead.bare (name : String) (selfClosing : Bool) : TagHead :=
  ⟨name, selfClosing, [], [], Head.isInline name, false, false⟩

namespace Template

variable {file : Option String} {ts : List Token} {p : Parsed}

/-- All ways of giving a body agree. Indented under a token that takes a body, a template parses
to the node of that token with the template's nodes as its body, and with the template's warnings;
and where the template is one expression, so it does behind a colon. -/
theorem bodies_agree (hts : ∀ t ∈ ts, t.isEos = false) (hp : parse file ts = .ok p) (line : Line) :
    (∀ opening width closing,
      let body : Block := .ofNodes ⟨opening, file⟩ p.root.nodes
      let onLine : Block := .ofNodes ⟨line, file⟩ p.root.nodes
      let ParsesUnder (l : Lexeme) (shape : Shape Node) : Prop :=
        parse file (⟨line, l⟩ :: indented opening width ts closing) =
          .ok (.single file line shape p.warnings)
      (∀ name selfClosing,
        ParsesUnder (.tag name selfClosing) (.tag (.bare name selfClosing) onLine none)) ∧
      (∀ name mode,
        ParsesUnder (.block name mode) (.namedBlock (Text.trim name) mode p.root.nodes)) ∧
      (∀ path via attrs,
        ParsesUnder (.inclusion path via attrs) (.inclusion (Text.trim path) via attrs body)) ∧
      (∀ c : CodeLine, c.isElse = false →
        ParsesUnder (.code c)
          (.code ⟨c.source, c.buffered, c.escaped, Grammar.codeDebug c.source⟩ (some body))) ∧
      (∀ head, ParsesUnder (.each head) (.each head body none)) ∧
      (∀ name args,
        ParsesUnder (.mixin name args) (.mixin ⟨name, args, false, [], []⟩ (some body))) ∧
      ∀ name args,
        ParsesUnder (.call name args)
          (.mixin ⟨name, args, true, [], []⟩ (if p.root.nodes = [] then none else some onLine))) ∧
    ∀ node, p.root.nodes = [node] →
      (∀ t ∈ ts.head?, t.kind ≠ .newline ∧ t.kind ≠ .textHtml) →
      ∀ colon name selfClosing,
        parse file (⟨line, .tag name selfClosing⟩ :: ⟨colon, .colon⟩ :: ts) =
          .ok (.single file line
            (.tag (.bare name selfClosing) (.ofNodes ⟨colon, file⟩ p.root.nodes) none)
            p.warnings) := by
  obtain ⟨t, hf, rfl, hlaw, rfl⟩ := (parse_ok_of_proper hts).mp hp
  refine ⟨fun opening width closing => ⟨?_, ?_, ?_, ?_, ?_, ?_, ?_⟩, ?_⟩
  · intro name selfClosing
    have h := (Phrase.framed_tag line opening closing width hf name selfClosing).parse_eq nofun
      hlaw file
    rwa [Phrase.value, Phrase.value_underHead] at h
  · intro name mode
    exact (Phrase.framed_namedBlock line opening closing width hf name mode).parse_eq nofun hlaw file
  · intro path via attrs
    exact (Phrase.framed_inclusion line opening closing width hf path via attrs).parse_eq nofun hlaw file
  · intro c hc
    exact (Phrase.framed_code line opening closing width hf hc).parse_eq nofun hlaw file
  · intro head
    exact (Phrase.framed_each line opening closing width hf head).parse_eq nofun hlaw file
  · intro name args
    exact (Phrase.framed_definition line opening closing width hf name args).parse_eq nofun hlaw file
  · intro name args
    have h := (Phrase.framed_call line opening closing width hf name args).parse_eq nofun hlaw file
    rwa [Phrase.value_call_underHead] at h
  · intro node hnode hfirst colon name selfClosing
    obtain ⟨e, lines, hfe, rfl, htrace⟩ := Phrase.expression_of_value_single hf hnode hfirst
    have h := (Phrase.framed_colon line hfe htrace name selfClosing colon).parse_eq nofun hlaw file
    rw [Phrase.value, Phrase.value_colon, List.append_nil] at h
    rwa [hnode]

/-- A call in the old way, which is warned about, and a newline. -/
def oldCall : List Token := [⟨2, .mixin "m" none⟩, ⟨3, .newline⟩]

theorem bodies_agree_oldCall :
    ∃ p, (∀ t ∈ oldCall, t.isEos = false) ∧ parse none oldCall = .ok p ∧
      p.root.nodes = [⟨⟨2, none⟩, .mixin ⟨"m", none, true, [], []⟩ none⟩] ∧
      parse none (⟨1, .call "n" none⟩ :: indented 2 4 oldCall 4) =
        .ok (.single none 1
          (.mixin ⟨"n", none, true, [], []⟩ (some (.ofNodes ⟨1, none⟩ p.root.nodes)))
          p.warnings) ∧
      parse none (⟨1, .tag "a" true⟩ :: ⟨1, .colon⟩ :: oldCall) =
        .ok (.single none 1 (.tag (.bare "a" true) (.ofNodes ⟨1, none⟩ p.root.nodes) none)
          p.warnings) := by
  have hproper : ∀ t ∈ oldCall, t.isEos = false := by decide
  have hp : parse none oldCall = .ok ⟨.ofNodes ⟨0, none⟩
      [⟨⟨2, none⟩, .mixin ⟨"m", none, true, [], []⟩ none⟩],
      [Notice.warning none ⟨.deprecatedMixinCall "m", 2⟩]⟩ := rfl
  obtain ⟨hunder, hcolon⟩ := bodies_agree hproper hp 1
  obtain ⟨-, -, -, -, -, -, hcall⟩ := hunder 2 4 4
  exact ⟨_, hproper, hp, rfl, hcall "n" none, hcolon _ rfl (by decide) 1 "a" true⟩

end Template

end TemplateTree
