import TemplateTree.Proofs.Acceptance
import TemplateTree.Proofs.Rebuilding
import TemplateTree.Proofs.Trees

/-!
Places for content as yields. A mixin's place for the content of its call and the place that an
including template fills are read alike, wherever the first may stand. Streams, phrases and trees
can exchange one for the other, and what a phrase stands for goes along.
-/

namespace TemplateTree
set_option autoImplicit false

/-! Everything that names a place for content names a yield instead. -/

def Lexeme.yielding : Lexeme → Lexeme
  | .mixinBlock => .yield
  | l => l

def Token.yielding (t : Token) : Token := ⟨t.line, t.lexeme.yielding⟩

def Event.yielding : Event → Event
  | read t => read t.yielding
  | mixinBlock line => read ⟨line, .yield⟩
  | e => e

namespace Phrase

@[simp] def yielding : {g : Symbol} → Phrase g → Phrase g
  | _, done => done
  | _, newline line more => newline line more.yielding
  | _, html line content nested lines more =>
    html line content nested.yielding lines.yielding more.yielding
  | _, item e more => item e.yielding more.yielding
  | _, body opening width items closing => body opening width items.yielding closing
  | _, noBody => noBody
  | _, someBody b => someBody b.yielding
  | _, textEnd => textEnd
  | _, textPiece line content more => textPiece line content more.yielding
  | _, textBreak line more => textBreak line more.yielding
  | _, textInterpolation opening e closing more =>
    textInterpolation opening e.yielding closing more.yielding
  | _, noPipeless => noPipeless
  | _, somePipeless opening pieces closing => somePipeless opening pieces.yielding closing
  | _, htmlEnd => htmlEnd
  | _, htmlLine line content nested lines => htmlLine line content nested.yielding lines.yielding
  | _, nestedNone => nestedNone
  | _, nestedBody b => nestedBody b.yielding
  | _, nestedNewline line => nestedNewline line
  | _, code line c b => code line c b.yielding
  | _, lineEnd => lineEnd
  | _, lineText pieces => lineText pieces.yielding
  | _, lineCode c => lineCode c.yielding
  | _, lineColon colon e => lineColon colon e.yielding
  | _, plain heads l newlines b => plain (heads.map .yielding) l.yielding newlines b.yielding
  | _, dotted heads dotLine l newlines b =>
    dotted (heads.map .yielding) dotLine l.yielding newlines b.yielding
  | _, noBranches => noBranches
  | _, branchNewline line more => branchNewline line more.yielding
  | _, branch line source x more => branch line source x.yielding more.yielding
  | _, fallThrough => fallThrough
  | _, expansionColon colon e => expansionColon colon e.yielding
  | _, expansionBody b => expansionBody b.yielding
  | _, noAlternative => noAlternative
  | _, someAlternative line c b => someAlternative line c b.yielding
  | _, tag line name selfClosing c => tag line name selfClosing c.yielding
  | _, buffered line source c => buffered line source c.yielding
  | _, division c => division c.yielding
  | _, call line name args c => call line name args c.yielding
  | _, definition line name args b => definition line name args b.yielding
  | _, oldCall line name args => oldCall line name args
  | _, mixinBlock line => yield line
  | _, namedBlock line name mode b => namedBlock line name mode b.yielding
  | _, inclusion line path via attrs b => inclusion line path via attrs b.yielding
  | _, statement c => statement c.yielding
  | _, each line head b a => each line head b.yielding a.yielding
  | _, case line source opening width bs closing =>
    case line source opening width bs.yielding closing
  | _, inherit line path => inherit line path
  | _, doctype line name => doctype line name
  | _, yield line => yield line
  | _, filter line name group b => filter line name group b.yielding
  | _, comment line content isBuffered b => comment line content isBuffered b.yielding
  | _, dot line b => dot line b.yielding
  | _, textLines pieces => textLines pieces.yielding
  | _, rawHtml line content nested lines => rawHtml line content nested.yielding lines.yielding

end Phrase

namespace Node

mutual

def yielding : Node → Node
  | ⟨origin, shape⟩ => ⟨origin, shapeYielding shape⟩

@[simp] def shapeYielding : Shape Node → Shape Node
  | .block nodes isYield => .block (nodesYielding nodes) isYield
  | .namedBlock name mode nodes => .namedBlock name mode (nodesYielding nodes)
  | .tag head body code => .tag head (blockYielding body) (node?Yielding code)
  | .text content isHtml => .text content isHtml
  | .mixin head body => .mixin head (block?Yielding body)
  | .mixinBlock => .block [] true
  | .code head body => .code head (block?Yielding body)
  | .case source body => .case source (blockYielding body)
  | .when source body => .when source (block?Yielding body)
  | .each head body alternative => .each head (blockYielding body) (block?Yielding alternative)
  | .inherit path => .inherit path
  | .inclusion path via attrs body => .inclusion path via attrs (blockYielding body)
  | .comment content buffered => .comment content buffered
  | .blockComment content buffered body => .blockComment content buffered (blockYielding body)
  | .doctype name => .doctype name
  | .filter name attrs body => .filter name attrs (blockYielding body)

def blockYielding : BlockOf Node → BlockOf Node
  | ⟨origin, nodes, isYield⟩ => ⟨origin, nodesYielding nodes, isYield⟩

def block?Yielding : Option (BlockOf Node) → Option (BlockOf Node)
  | none => none
  | some b => some (blockYielding b)

def node?Yielding : Option Node → Option Node
  | none => none
  | some n => some (yielding n)

def nodesYielding : List Node → List Node
  | [] => []
  | n :: rest => yielding n :: nodesYielding rest

end

@[simp] theorem nodesYielding_eq (nodes : List Node) :
    nodesYielding nodes = nodes.map yielding := by
  induction nodes with
  | nil => rfl
  | cons n rest ih => exact congrArg (yielding n :: ·) ih

end Node

def Block.yielding (b : Block) : Block := { b with nodes := b.nodes.map Node.yielding }

namespace Node

@[simp] theorem blockYielding_eq (b : Block) : blockYielding b = b.yielding := by
  obtain ⟨origin, nodes, isYield⟩ := b
  simp only [blockYielding, nodesYielding_eq, Block.yielding]

@[simp] theorem block?Yielding_eq (b : Option Block) : block?Yielding b = b.map Block.yielding := by
  cases b with
  | none => rfl
  | some b => exact congrArg some (blockYielding_eq b)

@[simp] theorem node?Yielding_eq (n : Option Node) : node?Yielding n = n.map yielding := by
  cases n <;> rfl

end Node

/-! Tokens and events. -/

namespace Lexeme

theorem kind_yielding_eq {k : TokenKind} (hk : k ≠ .mixinBlock) (hk' : k ≠ .yield) (l : Lexeme) :
    l.yielding.kind = k ↔ l.kind = k := by
  cases l with
  | mixinBlock => exact ⟨fun h => absurd h.symm hk', fun h => absurd h.symm hk⟩
  | _ => rfl

theorem takes_yielding (p : TextPlace) (l : Lexeme) :
    p.takes l.yielding.kind = p.takes l.kind := by
  cases l <;> rfl

theorem endsLine_yielding (l : Lexeme) : l.yielding.kind.endsLine = l.kind.endsLine := by
  cases l <;> rfl

theorem isAlternative_yielding (l : Lexeme) :
    Grammar.isAlternative l.yielding = Grammar.isAlternative l := by
  cases l <;> rfl

end Lexeme

namespace Token

theorem kind_yielding_eq {k : TokenKind} (hk : k ≠ .mixinBlock) (hk' : k ≠ .yield) (t : Token) :
    t.yielding.kind = k ↔ t.kind = k := t.lexeme.kind_yielding_eq hk hk'

/-- No place for content is left. -/
theorem kind_yielding_ne (t : Token) : t.yielding.kind ≠ .mixinBlock := by
  obtain ⟨line, lexeme⟩ := t
  cases lexeme <;> nofun

theorem yielding_yielding (t : Token) : t.yielding.yielding = t.yielding := by
  obtain ⟨line, lexeme⟩ := t
  cases lexeme <;> rfl

@[simp] theorem line_yielding (t : Token) : t.yielding.line = t.line := rfl

@[simp] theorem isHead_yielding (t : Token) : t.yielding.isHead = t.isHead := by
  obtain ⟨line, lexeme⟩ := t
  cases lexeme <;> rfl

@[simp] theorem isEos_yielding (t : Token) : t.yielding.isEos = t.isEos := by
  obtain ⟨line, lexeme⟩ := t
  cases lexeme <;> rfl

@[simp] theorem attributes_yielding (t : Token) : t.yielding.attributes = t.attributes := by
  obtain ⟨line, lexeme⟩ := t
  cases lexeme <;> rfl

theorem flatMap_attributes_yielding (ts : List Token) :
    (ts.map yielding).flatMap attributes = ts.flatMap attributes := by
  rw [List.flatMap_map]
  exact congrArg (ts.flatMap ·) (funext attributes_yielding)

@[simp] theorem attributeBlock?_yielding (t : Token) :
    t.yielding.attributeBlock? = t.attributeBlock? := by
  obtain ⟨line, lexeme⟩ := t
  cases lexeme <;> rfl

@[simp] theorem isClosing_yielding (t : Token) : t.yielding.isClosing = t.isClosing := by
  obtain ⟨line, lexeme⟩ := t
  cases lexeme <;> rfl

end Token

namespace Head

@[simp] theorem gather_yielding (selfClosing : Bool) (heads : List Token) :
    gather selfClosing (heads.map Token.yielding) = gather selfClosing heads := by
  simp only [gather, extendedBy, List.any_map, List.flatMap_map, List.filterMap_map,
    Function.comp_def, Token.isClosing_yielding, Token.attributes_yielding,
    Token.attributeBlock?_yielding]

@[simp] theorem notices_yielding (grouped : Bool) (heads : List Token) :
    notices grouped (heads.map Token.yielding) = notices grouped heads := by
  induction heads generalizing grouped with
  | nil => rfl
  | cons t heads ih =>
    simp (disch := decide) only [List.map_cons, notices, Token.kind_yielding_eq, ih,
      Token.line_yielding]

end Head

namespace Event

theorem token?_yielding (e : Event) : e.yielding.token? = e.token?.map Token.yielding := by
  cases e <;> rfl

theorem noted_yielding (e : Event) : e.yielding.noted = e.noted := by
  cases e <;> rfl

theorem map_read_yielding (heads : List Token) :
    (heads.map read).map yielding = (heads.map Token.yielding).map read := by
  simp only [List.map_map, Function.comp_def, yielding]

theorem map_newline_yielding (lines : List Line) :
    (lines.map newline).map yielding = lines.map newline := by
  simp only [List.map_map, Function.comp_def]
  rfl

end Event

namespace Phrase

variable {g : Symbol}

theorem trace_yielding (t : Phrase g) : t.yielding.trace = t.trace.map Event.yielding := by
  induction t with
  | plain heads l newlines b ihl ihb | dotted heads _ l newlines b ihl ihb =>
    simp only [yielding, trace, ihl, ihb, Head.notices_yielding, List.map_append, List.map_cons,
      Event.map_read_yielding, Event.map_newline_yielding]
    rfl
  | code line c b ih =>
    simp only [yielding, trace, ih, List.map_append, List.map_cons,
      apply_ite (List.map Event.yielding)]
    rfl
  | branch line source x more ihx ih =>
    simp only [yielding, trace, ihx, ih, List.map_append, List.map_cons]
    cases source <;> rfl
  | filter line name group b ih =>
    simp only [yielding, trace, ih, List.map_append, List.map_cons]
    cases group <;> rfl
  | _ =>
    simp [*, Event.yielding, Event.newline, Token.yielding, Lexeme.yielding]

theorem tokens_yielding (t : Phrase g) : t.yielding.tokens = t.tokens.map Token.yielding := by
  simp only [tokens, trace_yielding, List.filterMap_map, List.map_filterMap, Function.comp_def,
    Event.token?_yielding]

theorem lead_yielding (t : Phrase g) (next : Lexeme) :
    t.yielding.lead next.yielding = (t.lead next).yielding := by
  rw [lead, lead, tokens_yielding, List.head?_map]
  cases t.tokens.head? <;> rfl

@[simp] theorem startLine_yielding (t : Phrase g) : t.yielding.startLine = t.startLine := by
  rw [startLine, startLine, tokens_yielding, List.head?_map]
  cases t.tokens.head? <;> rfl

theorem heads_yielding (c : Phrase .content) :
    c.yielding.heads = c.heads.map Token.yielding := by
  cases c <;> rfl

@[simp] theorem opensWithText_yielding {p : TextPlace} (t : Phrase (.text p)) :
    t.yielding.opensWithText = t.opensWithText := by
  cases t <;> rfl

end Phrase

namespace Phrase

variable {g : Symbol}

/-- The choices in a phrase do not tell a place for content from a yield. -/
theorem fits_yielding (t : Phrase g) (next : Lexeme) :
    t.yielding.Fits next.yielding ↔ t.Fits next := by
  induction t generalizing next with
  | body opening width items closing ih => exact ih .outdent
  | case line source opening width bs closing ih => exact ih .outdent
  | somePipeless opening pieces closing ih => exact ih .endPipeless
  | textInterpolation opening e closing more ihe ih =>
    exact and_congr (ihe .endInterpolation) (ih next)
  | plain heads l newlines b ihl ihb | dotted heads _ l newlines b ihl ihb =>
    have hl : l.yielding.Fits (if newlines = [] then (b.lead next).yielding else .newline) ↔
        l.Fits (if newlines = [] then b.lead next else .newline) := by
      split
      · exact ihl _
      · exact ihl .newline
    simp (disch := decide) only [yielding, Fits, hl, ihb, lead_yielding, List.forall_mem_map,
      Token.isHead_yielding, Token.flatMap_attributes_yielding, ne_eq, Lexeme.kind_yielding_eq]
  | division c ih =>
    have hopen : (∃ t ∈ c.yielding.heads.head?, t.kind = .idName ∨ t.kind = .className) ↔
        ∃ t ∈ c.heads.head?, t.kind = .idName ∨ t.kind = .className := by
      rw [heads_yielding, List.head?_map]
      simp (disch := decide) only [Option.mem_def, Option.map_eq_some_iff,
        exists_exists_and_eq_and, Token.kind_yielding_eq]
    exact and_congr hopen (ih next)
  | _ =>
    simp (disch := decide) only [yielding, Fits, *, lead_yielding, ne_eq,
      Lexeme.kind_yielding_eq, Lexeme.takes_yielding, Lexeme.endsLine_yielding,
      Lexeme.isAlternative_yielding]

end Phrase

/-! What phrases stand for. -/

def Content.yielding (c : Content) : Content :=
  { c with body := c.body.yielding, code := c.code.map Node.yielding }

/-- The value of a phrase whose places for content are yields. -/
def Symbol.yielding : (g : Symbol) → g.Value → g.Value
  | .items, nodes => nodes.map Node.yielding
  | .body, b => b.yielding
  | .optionalBody, b => b.map Block.yielding
  | .expression, n => n.yielding
  | .content, c => fun line selfClosing => (c line selfClosing).yielding
  | .line, l => fun line => ((l line).1.yielding, (l line).2.map Node.yielding)
  | .code, n => n.yielding
  | .text _, nodes => nodes.map Node.yielding
  | .optionalPipeless, b => b.map Block.yielding
  | .html, nodes => nodes.map Node.yielding
  | .nested, nodes => nodes.map Node.yielding
  | .branches, nodes => nodes.map Node.yielding
  | .expansion, b => b.map Block.yielding
  | .alternative, b => b.map Block.yielding

namespace Node

theorem htmlText?_yielding (n : Node) : n.yielding.htmlText? = n.htmlText? := by
  obtain ⟨origin, shape⟩ := n
  cases shape <;> rfl

theorem map_consHtml_yielding (n : Node) (nodes : List Node) :
    (consHtml n nodes).map yielding = consHtml n.yielding (nodes.map yielding) := by
  cases nodes with
  | nil => rfl
  | cons m rest =>
    simp only [List.map_cons, consHtml, htmlText?_yielding]
    split
    · obtain ⟨origin, shape⟩ := n
      rfl
    · rfl

@[simp] theorem map_joinHtml_yielding (nodes : List Node) :
    (joinHtml nodes).map yielding = joinHtml (nodes.map yielding) := by
  induction nodes with
  | nil => rfl
  | cons n rest ih =>
    change (consHtml n (joinHtml rest)).map yielding =
      consHtml n.yielding (joinHtml (rest.map yielding))
    rw [map_consHtml_yielding, ih]

@[simp] theorem ofBlock_yielding (b : Block) : (ofBlock b).yielding = ofBlock b.yielding :=
  congrArg (fun nodes => ofBlock { b with nodes := nodes }) (nodesYielding_eq b.nodes)

end Node

namespace Scope

variable (scope : Scope) (line : Line)

@[simp] theorem node_yielding (shape : Shape Node) :
    (scope.node line shape).yielding = scope.node line (Node.shapeYielding shape) := rfl

@[simp] theorem block_yielding (nodes : List Node) :
    (scope.block line nodes).yielding = scope.block line (nodes.map Node.yielding) := rfl

@[simp] theorem text_yielding (content : String) :
    (scope.text line content).yielding = scope.text line content := rfl

@[simp] theorem htmlText_yielding (content : String) :
    (scope.htmlText line content).yielding = scope.htmlText line content := rfl

@[simp] theorem getD_yielding (b : Option Block) :
    (b.getD (scope.block line [])).yielding =
      (b.map Block.yielding).getD (scope.block line []) := by
  cases b <;> rfl

@[simp] theorem collapse_yielding (nodes : List Node) :
    (scope.collapse line nodes).yielding = scope.collapse line (nodes.map Node.yielding) := by
  match nodes with
  | [] => rfl
  | [n] => rfl
  | m :: n :: rest => exact Node.ofBlock_yielding (scope.block line (m :: n :: rest))

end Scope

@[simp] theorem Block.followedBy_yielding (b : Block) (nested : Option Block) :
    (b.followedBy nested).yielding = b.yielding.followedBy (nested.map Block.yielding) := by
  cases nested <;> simp [Block.followedBy, Block.yielding]

namespace Content

variable (scope : Scope) (line : Line) (name : String) (c : Content)

@[simp] theorem tag_yielding (isBuffered : Bool) :
    (c.tag scope line name isBuffered).yielding = c.yielding.tag scope line name isBuffered := by
  simp [tag, yielding]

@[simp] theorem call_yielding (args : Option String) :
    (c.call scope line name args).yielding = c.yielding.call scope line name args := by
  have hcode : (c.code.map Node.yielding).toList = c.code.toList.map Node.yielding := by
    cases c.code <;> rfl
  simp only [call, yielding, Block.yielding, BlockOf.isEmpty, hcode, ← List.map_append,
    List.isEmpty_map, Scope.node_yielding, Node.shapeYielding, Node.block?Yielding_eq]
  split <;> simp [*, Block.yielding]

end Content

@[simp] theorem Grammar.codeNode_yielding (scope : Scope) (line : Line) (c : CodeLine)
    (nested : Option Block) : (codeNode scope line c nested).yielding =
      codeNode scope line c (nested.map Block.yielding) := by
  simp only [codeNode, Scope.node_yielding, Node.shapeYielding, Node.block?Yielding_eq]
  cases nested with
  | some b => rfl
  | none => split <;> rfl

namespace Phrase

variable {g : Symbol}

theorem value_yielding (scope : Scope) (t : Phrase g) :
    t.yielding.value scope = g.yielding (t.value scope) := by
  induction t with
  | textBreak line more ih =>
    simp only [yielding, value, ih, opensWithText_yielding]
    split <;> rfl
  | nestedBody b ih => exact congrArg BlockOf.nodes ih
  | plain heads l newlines b ihl ihb | dotted heads _ l newlines b ihl ihb =>
    funext line selfClosing
    simp [ihl, ihb, Symbol.yielding, Content.yielding]
  | mixinBlock line => rfl
  | yield line => rfl
  | namedBlock line name mode b ih =>
    simp only [yielding, value, ih, Symbol.yielding]
    cases b.value scope <;> simp [Block.yielding]
  | comment line content isBuffered b ih =>
    simp only [yielding, value, ih, Symbol.yielding]
    cases b.value scope <;> simp
  | _ => simp [Symbol.yielding, *]

end Phrase

/-! Every replacement of places for content can be undone in the phrase. -/

namespace Token

/-- Only a yield can come from something else. -/
theorem eq_of_yielding {t u : Token} (h : t.yielding = u) (hu : u.kind ≠ .yield) : t = u := by
  subst h
  obtain ⟨line, lexeme⟩ := t
  cases lexeme with
  | mixinBlock => exact absurd rfl hu
  | _ => rfl

theorem yielding_of_kind {t : Token} (h : t.kind ≠ .mixinBlock) : t.yielding = t := by
  obtain ⟨line, lexeme⟩ := t
  cases lexeme with
  | mixinBlock => exact absurd rfl h
  | _ => rfl

theorem eq_of_map_yielding {ts us : List Token} (h : ts.map yielding = us)
    (hu : us.all isFixed = true) : ts = us := by
  subst h
  induction ts with
  | nil => rfl
  | cons t ts ih =>
    rw [List.map_cons, List.all_cons, Bool.and_eq_true_iff] at hu
    have hne : t.yielding.kind ≠ .yield := by
      intro hk
      simp [isFixed, hk] at hu
    exact congrArg₂ List.cons (eq_of_yielding rfl hne) (ih hu.2)

end Token

namespace Phrase

variable {g : Symbol}

theorem yielding_yielding (t : Phrase g) : t.yielding.yielding = t.yielding := by
  induction t with
  | plain | dotted =>
    simp only [yielding, *, List.map_map, Function.comp_def, Token.yielding_yielding]
  | _ => simp only [yielding, *]

/-- Phrases keep their yields when places for content are put back among their tokens. -/
theorem rebuilding_yielding : Rebuilding (fun _ us ws => us.map Token.yielding = ws)
    fun ⦃_⦄ => yielding where
  split h := by
    obtain ⟨us₁, us₂, rfl, h₁, h₂⟩ := List.map_eq_append_iff.mp h
    exact ⟨us₁, us₂, rfl, h₁, h₂⟩
  keep h hw := Token.eq_of_map_yielding h hw
  parts t := by
    cases t <;> simp only [mapParts, yielding, yielding_yielding]

/-- A phrase for the tokens before places for content were replaced. -/
theorem exists_unyielding {us : List Token} {t : Phrase g} {next : Lexeme} (hf : t.Fits next)
    (hus : us.map Token.yielding = t.tokens) :
    ∃ t' : Phrase g, t'.tokens = us ∧ t'.yielding = t.yielding := by
  have hfits : t.Fits (.following [] next) := hf
  apply rebuilding_yielding.rebuilt _ _ _ t hfits hus
  · intro line name selfClosing c hc behind us next hf hus
    obtain ⟨u, us, rfl, hu, hus⟩ := List.map_eq_cons_iff.mp hus
    obtain ⟨c', rfl, hc'⟩ := hc hf hus
    have htag : u = ⟨line, .tag name selfClosing⟩ := Token.eq_of_yielding hu nofun
    subst htag
    exact ⟨.tag line name selfClosing c', rfl, congrArg (tag line name selfClosing) hc'⟩
  · intro line behind us next _ hus
    -- No replacement leads to a place for content.
    obtain ⟨u, _, rfl, hu, _⟩ := List.map_eq_cons_iff.mp hus
    exact absurd (congrArg Token.kind hu) u.kind_yielding_ne
  · intro line behind us next _ hus
    obtain ⟨⟨line, lexeme⟩, rest, rfl, hu, hrest⟩ := List.map_eq_cons_iff.mp hus
    cases List.map_eq_nil_iff.mp hrest
    cases lexeme with
    | mixinBlock =>
      cases hu
      exact ⟨.mixinBlock line, rfl, rfl⟩
    | yield =>
      cases hu
      exact ⟨.yield line, rfl, rfl⟩
    | _ => cases hu

end Phrase

/-! What the past permits. -/

section

variable {es before : List Event} {since : List Token}

theorem exists_finishedBefore_of_yielding (h : FinishedBefore since (es.map Event.yielding)) :
    ∃ ts : List Token, ts.map Token.yielding = since ∧ FinishedBefore ts es := by
  obtain ⟨front, gap, hes, rfl⟩ := h
  obtain ⟨earlier, back, rfl, rfl, hback⟩ := List.map_eq_append_iff.mp hes
  obtain ⟨e, later, rfl, he, rfl⟩ := List.map_eq_cons_iff.mp hback
  have hfinish : e = .finish := by
    cases e <;> cases he
    rfl
  subst hfinish
  refine ⟨later.filterMap Event.token?, ?_, earlier, later, rfl, rfl⟩
  simp only [List.filterMap_map, List.map_filterMap, Function.comp_def, Event.token?_yielding]

theorem AfterConditional.of_yielding (h : AfterConditional (es.map Event.yielding)) :
    AfterConditional es := by
  obtain h | ⟨line, h⟩ := h
  · obtain ⟨ts, hts, h⟩ := exists_finishedBefore_of_yielding h
    cases List.map_eq_nil_iff.mp hts
    exact .inl h
  · obtain ⟨ts, hts, h⟩ := exists_finishedBefore_of_yielding h
    cases Token.eq_of_map_yielding hts rfl
    exact .inr ⟨line, h⟩

/-- Only the places for content may be refused where yields are not. -/
theorem LawfulAfter.of_yielding (h : Lawful (es.map Event.yielding))
    (hm : ∀ mid line rest, es = mid ++ .mixinBlock line :: rest → openMixins (before ++ mid) ≠ 0) :
    LawfulAfter before es := by
  rintro mid e rest rfl
  cases e with
  | mixinBlock line => exact hm mid line rest rfl
  | code line c =>
    intro he
    have hgranted := h (mid.map Event.yielding) (.code line c) (rest.map Event.yielding) (by
      rw [List.map_append, List.map_cons]
      rfl)
    exact (hgranted he).imp_right fun hafter => AfterConditional.behind hafter.of_yielding
  | _ => trivial

end

namespace Template

variable {file : Option String} {ts : List Token} {p : Parsed}

/-- What is parsed with places for content is parsed with yields in their stead. -/
theorem parsed_yielding (file : Option String) (t : Phrase .items) : parsed file t.yielding =
    ⟨(parsed file t).root.yielding, (parsed file t).warnings⟩ := by
  simp only [parsed, Phrase.value_yielding, Phrase.trace_yielding, List.flatMap_map,
    Event.noted_yielding]
  rfl

/-- What reads no place for content reads no yield in its stead. -/
theorem map_yielding_of_tokens {es : List Event}
    (h : ∀ u ∈ es.filterMap Event.token?, u.kind ≠ .mixinBlock) : es.map Event.yielding = es := by
  have hyield (e : Event) (he : e ∈ es) : e.yielding = e := by
    cases e with
    | read t =>
      have ht : t.kind ≠ .mixinBlock := h t (List.mem_filterMap.mpr ⟨_, he, rfl⟩)
      exact congrArg Event.read (Token.yielding_of_kind ht)
    | mixinBlock line => exact absurd rfl (h _ (List.mem_filterMap.mpr ⟨_, he, rfl⟩))
    | _ => rfl
  rw [List.map_congr_left hyield, List.map_id']

/-- A stream with yields for its places for content comes from a phrase that has them. -/
theorem exists_phrase_of_yielding (h : parse file (ts.map Token.yielding) = .ok p) :
    ∃ t : Phrase .items, t.Fits .eos ∧ t.tokens = ts.takeWhile (fun u => !u.isEos) ∧
      Lawful (t.trace.map Event.yielding) ∧ p = parsed file t.yielding := by
  obtain ⟨t', hf, htokens, hlaw, rfl⟩ := parse_ok.mp h
  have hmap : (ts.takeWhile fun u => !u.isEos).map Token.yielding = t'.tokens := by
    rw [htokens, List.takeWhile_map]
    simp only [Function.comp_def, Token.isEos_yielding]
  obtain ⟨t, ht, hy⟩ := Phrase.exists_unyielding hf hmap
  have htrace : t.trace.map Event.yielding = t'.trace := by
    rw [← t.trace_yielding, hy, t'.trace_yielding]
    apply map_yielding_of_tokens
    intro u hu
    change u ∈ t'.tokens at hu
    rw [← hmap] at hu
    obtain ⟨v, _, rfl⟩ := List.mem_map.mp hu
    exact v.kind_yielding_ne
  have hfits : t.yielding.Fits .eos := by
    rw [hy]
    exact (t'.fits_yielding .eos).mpr hf
  refine ⟨t, (t.fits_yielding .eos).mp hfits, ht, htrace ▸ hlaw, ?_⟩
  -- The stream has one reading only.
  have hparse : parse file (ts.map Token.yielding) = .ok (parsed file t.yielding) := by
    refine parse_ok.mpr ⟨t.yielding, hfits, ?_, ?_, rfl⟩
    · rw [t.tokens_yielding, ht, hmap, htokens]
    · rw [t.trace_yielding, htrace]
      exact hlaw
  exact Except.ok.inj (h.symm.trans hparse)

end Template

end TemplateTree
