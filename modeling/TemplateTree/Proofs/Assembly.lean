import TemplateTree.Proofs.Roles
import TemplateTree.Proofs.Trees

/-!
How trees are put together. A relation between tokens and nodes that every way of putting nodes
together keeps holds between the tokens of a phrase and the nodes that it stands for. So what is
said of all trees is proved once for each of these few ways.
-/

namespace TemplateTree
set_option autoImplicit false

/-- What a token or a node says, apart from its line and from raw HTML. -/
inductive Piece where
  | tag (name : String) (buffered : Bool)
  | code (source : String) (buffered escaped : Bool)
  | mixin (name : String) (args : Option String)
  | mixinBlock
  | case (source : String)
  | when (source : String)
  | each (head : LoopHead)
  | inherit (path : String)
  | inclusion (path : String) (via : Option String) (attrs : List Attribute)
  | namedBlock (name : String) (mode : BlockMode)
  | yield
  | doctype (name : String)
  | filter (name : String)
  | comment (content : String) (buffered : Bool)
  | text (content : String)
deriving DecidableEq, Repr, Inhabited

/-- What a lexeme says wherever it stands. -/
def Lexeme.piece? : Lexeme → Option Piece
  | tag name _ => some (.tag name false)
  | interpolation source => some (.tag source true)
  | code c => some (.code c.source c.buffered c.escaped)
  | mixin name args => some (.mixin name args)
  | call name args => some (.mixin name args)
  | mixinBlock => some .mixinBlock
  | case source => some (.case source)
  | when source => some (.when source)
  | default => some (.when "default")
  | each head => some (.each head)
  | inherit path => some (.inherit (Text.trim path))
  | inclusion path via list => some (.inclusion (Text.trim path) via list)
  | block name mode => some (.namedBlock (Text.trim name) mode)
  | yield => some .yield
  | doctype name => some (.doctype name)
  | filter name => some (.filter name)
  | comment content buffered => some (.comment content buffered)
  | text content => some (.text content)
  | _ => none

namespace Placed

def line (p : Placed) : Line := p.token.line

/-- What a token says in its role. -/
def piece? (p : Placed) : Option Piece :=
  match p.role with
  | .plain => p.token.lexeme.piece?
  | .division => some (.tag "div" false)
  | .lineBreak => some (.text "\n")
  | .alternative => none
  | .textOnly => none

/-- The content of a line of HTML. -/
def html? (p : Placed) : Option String :=
  match p.role, p.token.lexeme with
  | .plain, .textHtml content => some content
  | _, _ => none

/-- A token that says nothing. -/
def Silent (p : Placed) : Prop := p.piece? = none ∧ p.html? = none

/-- A token with which a head goes on. -/
def isHead (p : Placed) : Bool := p.role == .plain && p.token.isHead

/-- The head that a token begins, when the given head tokens follow. A mixin has none of its own,
and no call is ever closed. -/
def head? (p : Placed) (run : List Token) : Option Head :=
  match p.role, p.token.lexeme with
  | .plain, .tag _ selfClosing => some (.gather selfClosing run)
  | .plain, .interpolation _ => some (.gather false run)
  | .plain, .call .. => some { Head.gather false run with selfClosing := false }
  | .plain, .mixin .. => some ⟨false, [], []⟩
  | .division, _ => some (.gather false (p.token :: run))
  | _, _ => none

/-- What stands between the dot of a head and the next line is dropped, unless it is code. -/
def Drops (dot next : Placed) : Prop :=
  dot.role = .textOnly ∧ (next.token.kind = .text ∨ next.token.kind = .startInterpolation ∨
    next.token.kind = .colon)

end Placed

/-- What a node of a shape says. Blocks only hold others together, unless something else is to be
put there. -/
def Shape.piece? {ν : Type} : Shape ν → Option Piece
  | .block _ isYield => if isYield then some .yield else none
  | .namedBlock name mode _ => some (.namedBlock name mode)
  | .tag head _ _ => some (.tag head.name head.buffered)
  | .text content isHtml => if isHtml then none else some (.text content)
  | .mixin head _ => some (.mixin head.name head.args)
  | .mixinBlock => some .mixinBlock
  | .code head _ => some (.code head.source head.buffered head.escaped)
  | .case source _ => some (.case source)
  | .when source _ => some (.when source)
  | .each head _ _ => some (.each head)
  | .inherit path => some (.inherit path)
  | .inclusion path via attrs _ => some (.inclusion path via attrs)
  | .comment content buffered => some (.comment content buffered)
  | .blockComment content buffered _ => some (.comment content buffered)
  | .doctype name => some (.doctype name)
  | .filter name _ _ => some (.filter name)

/-- The head of a node of a shape. -/
def Shape.head? {ν : Type} : Shape ν → Option Head
  | .tag head _ _ => some ⟨head.selfClosing, head.attrs, head.attributeBlocks⟩
  | .mixin head _ => some ⟨false, head.attrs, head.attributeBlocks⟩
  | _ => none

namespace Node

def line (n : Node) : Line := n.origin.line

/-- Nodes, and the same nodes with some adjacent HTML joined. -/
inductive Joins : List Node → List Node → Prop where
  | nil : Joins [] []
  | cons (n : Node) {ns js : List Node} : Joins ns js → Joins (n :: ns) (n :: js)
  | join (origin other : Origin) (a b : String) {ns js : List Node} :
    Joins ns (⟨other, .text b true⟩ :: js) →
      Joins (⟨origin, .text a true⟩ :: ns) (⟨origin, .text (a ++ "\n" ++ b) true⟩ :: js)

theorem joins_consHtml (n : Node) {ns js : List Node} (h : Joins ns js) :
    Joins (n :: ns) (consHtml n js) := by
  cases js with
  | nil => exact h.cons n
  | cons m js =>
    unfold consHtml
    dsimp only
    split
    · next a b hn hm =>
      rw [eq_of_htmlText? hm] at h
      rw [eq_of_htmlText? hn]
      exact .join _ _ a b h
    · exact h.cons n

theorem joins_joinHtml (ns : List Node) : Joins ns (joinHtml ns) := by
  induction ns with
  | nil => exact .nil
  | cons n ns ih => exact joins_consHtml n ih

end Node

/-- The body of a call ends with the code on its line. -/
theorem Content.children_call (scope : Scope) (line : Line) (name : String) (args : Option String)
    (c : Content) : (c.call scope line name args).children = c.body.nodes ++ c.code.toList := by
  change BlockOf.nodesOf (if (c.body.nodes ++ c.code.toList).isEmpty then none
    else some { c.body with nodes := c.body.nodes ++ c.code.toList }) = _
  split
  · next h => exact (List.isEmpty_iff.mp h).symm
  · rfl

/-- Ways in which nodes are put together, as rules for a relation between tokens and nodes. -/
structure Composition (scope : Scope) (Q : List Placed → List Node → Prop) : Prop where
  nil : Q [] []
  append {ps qs : List Placed} {ms ns : List Node} : Q ps ms → Q qs ns → Q (ps ++ qs) (ms ++ ns)
  html (line : Line) (content : String) :
    Q [Token.plain ⟨line, .textHtml content⟩] [scope.htmlText line content]
  join {ps : List Placed} {ns js : List Node} : Node.Joins ns js → Q ps ns → Q ps js
  /-- Nodes are wrapped in a block on the line of their first token. -/
  group {p : Placed} {ps : List Placed} {ns : List Node} :
    Q (p :: ps) ns → Q (p :: ps) [.ofBlock (scope.block p.line ns)]
  drop {dot p : Placed} {ps : List Placed} : dot.Drops p → Q (dot :: p :: ps) []

/-- All ways, with the heads of the nodes. -/
structure HeadedAssembly (scope : Scope) (Q : List Placed → List Node → Prop) : Prop
    extends Composition scope Q where
  silent {p : Placed} : p.Silent → p.isHead = false → Q [p] []
  /-- A token with the head tokens behind it becomes a node, and what follows them becomes the
  children. -/
  node {p : Placed} {ps : List Placed} {shape : Shape Node} (piece : Piece) (heads : List Token) :
    (∀ t ∈ heads, t.isHead = true) → p.piece? = some piece → shape.piece? = some piece →
      shape.head? = p.head? heads → Q ps shape.children →
        Q (p :: (heads.map Token.plain ++ ps)) [scope.node p.line shape]
  /-- Code on the line of a call goes behind the call's other content. -/
  call {line : Line} {name : String} {args : Option String} {ps : List Placed} {c : Content}
    (heads : List Token) : (∀ t ∈ heads, t.isHead = true) → c.head = .gather false heads →
      Q ps (c.code.toList ++ c.body.nodes) → (∀ n ∈ c.code, n.kind = .code) →
        Q (Token.plain ⟨line, .call name args⟩ :: (heads.map Token.plain ++ ps))
          [c.call scope line name args]

/-- All ways, where heads do not matter: a head token is one that says nothing. -/
structure Assembly (scope : Scope) (Q : List Placed → List Node → Prop) : Prop
    extends Composition scope Q where
  silent {p : Placed} : p.Silent → Q [p] []
  /-- A token becomes a node, and what follows it becomes the children. -/
  node {p : Placed} {ps : List Placed} {shape : Shape Node} (piece : Piece) :
    p.piece? = some piece → shape.piece? = some piece → Q ps shape.children →
      Q (p :: ps) [scope.node p.line shape]
  /-- Code on the line of a call goes behind the call's other content. -/
  call {line : Line} {name : String} {args : Option String} {ps : List Placed} {c : Content} :
    Q ps (c.code.toList ++ c.body.nodes) → (∀ n ∈ c.code, n.kind = .code) →
      Q (Token.plain ⟨line, .call name args⟩ :: ps) [c.call scope line name args]

/-- Between the tokens of a phrase, without the head of a content, and what it stands for: code on
the line of a content comes before the rest. -/
def Symbol.AssembledBy (Q : List Placed → List Node → Prop) (ps : List Placed) :
    (g : Symbol) → g.Value → Prop
  | .items, nodes => Q ps nodes
  | .body, b => Q ps b.nodes
  | .optionalBody, b => Q ps (BlockOf.nodesOf b)
  | .expression, n => Q ps [n]
  | .content, c => ∀ line selfClosing, let c := c line selfClosing
    Q ps (c.code.toList ++ c.body.nodes) ∧ ∀ n ∈ c.code, n.kind = .code
  | .line, l => ∀ line, Q ps ((l line).2.toList ++ (l line).1.nodes) ∧
    ∀ n ∈ (l line).2, n.kind = .code
  | .code, n => Q ps [n] ∧ n.kind = .code
  | .text _, nodes => Q ps nodes
  | .optionalPipeless, b => Q ps (BlockOf.nodesOf b)
  | .html, nodes => Q ps nodes
  | .nested, nodes => Q ps nodes
  | .branches, nodes => Q ps nodes
  | .expansion, b => Q ps (BlockOf.nodesOf b)
  | .alternative, b => Q ps (BlockOf.nodesOf b)

namespace BlockOf

variable {ν : Type} {b : Option (BlockOf ν)}

theorem nodesOf_or_empty {origin : Origin} {c : Bool} :
    nodesOf (b.or (if c then some (.ofNodes origin []) else none)) = nodesOf b := by
  cases b <;> cases c <;> rfl

theorem nodes_getD_empty {origin : Origin} : (b.getD (.ofNodes origin [])).nodes = nodesOf b := by
  cases b <;> rfl

theorem map_nodes_getD : (b.map nodes).getD [] = nodesOf b := by
  cases b <;> rfl

end BlockOf

namespace Assembly

variable {scope : Scope} {Q : List Placed → List Node → Prop} (hQ : Assembly scope Q)
include hQ

theorem skipHeads {heads : List Token} {ps : List Placed} {ns : List Node}
    (hh : ∀ t ∈ heads, t.isHead = true) (h : Q ps ns) : Q (heads.map Token.plain ++ ps) ns := by
  induction heads with
  | nil => exact h
  | cons t heads ih =>
    obtain ⟨ht, hrest⟩ := List.forall_mem_cons.mp hh
    refine hQ.append (hQ.silent (p := t.plain) ?_) (ih hrest)
    obtain ⟨line, lexeme⟩ := t
    cases lexeme <;> cases ht <;> exact ⟨rfl, rfl⟩

theorem headed : HeadedAssembly scope Q where
  toComposition := hQ.toComposition
  silent hp _ := hQ.silent hp
  node piece _ hh hp hs _ h := hQ.node piece hp hs (hQ.skipHeads hh h)
  call _ hh _ h hk := hQ.call (hQ.skipHeads hh h) hk

end Assembly

namespace HeadedAssembly

variable {scope : Scope} {Q : List Placed → List Node → Prop} (hQ : HeadedAssembly scope Q)
variable {p : Placed} {ps : List Placed} {ns : List Node}
include hQ

theorem skip (hp : p.Silent) (hh : p.isHead = false) (h : Q ps ns) : Q (p :: ps) ns :=
  hQ.append (hQ.silent hp hh) h

theorem close (hp : p.Silent) (hh : p.isHead = false) (h : Q ps ns) : Q (ps ++ [p]) ns := by
  simpa using hQ.append h (hQ.silent hp hh)

theorem single {shape : Shape Node} (piece : Piece) (hp : p.piece? = some piece)
    (hs : shape.piece? = some piece) (hh : shape.head? = p.head? []) (h : Q ps shape.children) :
    Q (p :: ps) [scope.node p.line shape] :=
  hQ.node piece [] nofun hp hs hh h

theorem leaf {shape : Shape Node} (piece : Piece) (hp : p.piece? = some piece)
    (hs : shape.piece? = some piece) (hh : shape.head? = p.head? []) (hc : shape.children = []) :
    Q [p] [scope.node p.line shape] :=
  hQ.single piece hp hs hh (hc ▸ hQ.nil)

theorem text {content : String} (hp : p.piece? = some (.text content)) (hh : p.head? [] = none) :
    Q [p] [scope.text p.line content] :=
  hQ.leaf (.text content) hp rfl hh.symm rfl

theorem skipNewlines (lines : List Line) (h : Q ps ns) :
    Q ((lines.map fun line => Token.plain ⟨line, .newline⟩) ++ ps) ns := by
  induction lines with
  | nil => exact h
  | cons line lines ih => exact hQ.skip ⟨rfl, rfl⟩ rfl ih

theorem collapse (h : Q (p :: ps) ns) : Q (p :: ps) [scope.collapse p.line ns] := by
  unfold Scope.collapse
  split
  · exact h
  · exact hQ.group h

theorem htmlLine {line : Line} {content : String} {qs : List Placed} {ms : List Node}
    (hm : Q ps ms) (hn : Q qs ns) : Q (Token.plain ⟨line, .textHtml content⟩ :: ps ++ qs)
      (scope.htmlText line content :: (ms ++ ns)) :=
  hQ.append (hQ.html line content) (hQ.append hm hn)

end HeadedAssembly

namespace Phrase

variable {scope : Scope} {Q : List Placed → List Node → Prop}

/-- What stands in a head is gathered from its tokens. -/
theorem head_value (c : Phrase .content) (line : Line) (selfClosing : Bool) :
    (c.value scope line selfClosing).head = .gather selfClosing c.heads := by
  cases c <;> rfl

/-- A run of text that is not empty begins with the token whose line is that of the run. -/
theorem placed_text {p : TextPlace} {next : Lexeme} (pieces : Phrase (.text p))
    (ht : TextPlace.inLine.takes (pieces.lead next).kind = true) (hf : pieces.Fits next) :
    ∃ q qs, pieces.placed = q :: qs ∧ pieces.startLine = q.line ∧
      (q.token.kind = .text ∨ q.token.kind = .startInterpolation) := by
  cases pieces with
  | textEnd => cases (TextPlace.takes_of_inLine ht).symm.trans hf
  | textPiece => exact ⟨_, _, rfl, rfl, .inl rfl⟩
  | textBreak => cases ht
  | textInterpolation => exact ⟨_, _, rfl, rfl, .inr rfl⟩

section HeadedAssembly

variable (hQ : HeadedAssembly scope Q)
include hQ

/-- Only code is kept of what stands on a line behind the dot of a head. -/
theorem assembled_dotted {l : Phrase .line} {next : Lexeme} (dotLine line : Line)
    (hf : l.Fits next) (hl : Symbol.line.AssembledBy Q l.placed (l.value scope)) :
    Q (⟨⟨dotLine, .dot⟩, .textOnly⟩ :: l.placed) (l.value scope line).2.toList := by
  cases l with
  | lineEnd => exact hQ.silent ⟨rfl, rfl⟩ rfl
  | lineText pieces =>
    obtain ⟨q, qs, hq, -, hk⟩ := pieces.placed_text hf.1 hf.2
    rw [placed, hq]
    exact hQ.drop ⟨rfl, by rcases hk with hk | hk <;> simp [hk]⟩
  | lineCode c => exact hQ.skip ⟨rfl, rfl⟩ rfl (hl line).1
  | lineColon colon e => exact hQ.drop ⟨rfl, .inr (.inr rfl)⟩

/-- A run of text becomes one node. -/
theorem assembled_collapse {p : TextPlace} {pieces : Phrase (.text p)} {next : Lexeme}
    (ht : TextPlace.inLine.takes (pieces.lead next).kind = true) (hf : pieces.Fits next)
    (h : Q pieces.placed (pieces.value scope)) :
    Q pieces.placed [scope.collapse pieces.startLine (pieces.value scope)] := by
  obtain ⟨q, qs, hq, hline, -⟩ := pieces.placed_text ht hf
  rw [hq] at h
  rw [hq, hline]
  exact hQ.collapse h

/-- What all ways of putting nodes together keep holds of every phrase. -/
theorem headedAssembled {g : Symbol} (t : Phrase g) {next : Lexeme} (hf : t.Fits next) :
    g.AssembledBy Q t.placed (t.value scope) := by
  induction t generalizing next with
  | done | noBody | textEnd | noPipeless | htmlEnd | nestedNone | noBranches | fallThrough
    | noAlternative => exact hQ.nil
  | newline line more ih | branchNewline line more ih => exact hQ.skip ⟨rfl, rfl⟩ rfl (ih hf)
  | html line content nested lines more ihn ihl ih =>
    exact hQ.append (hQ.join (Node.joins_joinHtml _) (hQ.htmlLine (ihn hf.1) (ihl hf.2.1)))
      (ih hf.2.2)
  | htmlLine line content nested lines ihn ih => exact hQ.htmlLine (ihn hf.1) (ih hf.2)
  | rawHtml line content nested lines ihn ih =>
    exact hQ.group (p := Token.plain ⟨line, .textHtml content⟩)
      (hQ.join (Node.joins_joinHtml _) (hQ.htmlLine (ihn hf.1) (ih hf.2)))
  | item e more ihe ih => exact hQ.append (ihe hf.2.1) (ih hf.2.2)
  | body opening width items closing ih =>
    exact hQ.skip ⟨rfl, rfl⟩ rfl (hQ.close ⟨rfl, rfl⟩ rfl (ih hf))
  | someBody b ih | nestedBody b ih | expansionBody b ih => exact ih hf
  | textPiece line content more ih =>
    exact hQ.append (hQ.text (p := Token.plain ⟨line, .text content⟩) rfl rfl) (ih hf)
  | textBreak line more ih =>
    have hmore := ih hf.2
    rw [placed, value]
    split
    · exact hQ.append (hQ.text (p := ⟨⟨line, .newline⟩, .lineBreak⟩) rfl rfl) hmore
    · exact hQ.skip ⟨rfl, rfl⟩ rfl hmore
  | textInterpolation opening e closing more ihe ih =>
    exact hQ.skip ⟨rfl, rfl⟩ rfl (hQ.append (ihe hf.1) (hQ.skip ⟨rfl, rfl⟩ rfl (ih hf.2)))
  | somePipeless opening pieces closing ih =>
    exact hQ.skip ⟨rfl, rfl⟩ rfl (hQ.close ⟨rfl, rfl⟩ rfl (ih hf))
  | nestedNewline line => exact hQ.silent ⟨rfl, rfl⟩ rfl
  | code line c b ih =>
    refine ⟨hQ.single _ (p := Token.plain ⟨line, .code c⟩) rfl rfl rfl ?_, rfl⟩
    have hb : Q b.placed (BlockOf.nodesOf (b.value scope)) := ih hf
    rwa [← BlockOf.nodesOf_or_empty] at hb
  | lineEnd => exact fun _ => ⟨hQ.nil, nofun⟩
  | lineText pieces ih =>
    exact fun _ => ⟨assembled_collapse hQ hf.1 hf.2 (ih hf.2), nofun⟩
  | lineCode c ih =>
    obtain ⟨hc, hk⟩ := ih hf
    exact fun _ => ⟨hc, by rintro _ ⟨⟩; exact hk⟩
  | lineColon colon e ih => exact fun _ => ⟨hQ.skip ⟨rfl, rfl⟩ rfl (ih hf), nofun⟩
  | plain heads l newlines b ihl ih =>
    obtain ⟨-, -, hl, -, hb⟩ := hf
    intro line selfClosing
    obtain ⟨hline, hk⟩ := ihl hl line
    refine ⟨?_, hk⟩
    have hall := hQ.append hline (hQ.skipNewlines newlines (ih hb))
    rw [List.append_assoc, ← List.append_assoc l.placed, ← BlockOf.map_nodes_getD] at hall
    exact hall
  | dotted heads dotLine l newlines b ihl ih =>
    obtain ⟨-, -, hl, -, hb⟩ := hf
    intro line selfClosing
    have hline := ihl hl
    refine ⟨?_, (hline line).2⟩
    have hall := hQ.append (assembled_dotted hQ dotLine line hl hline)
      (hQ.skipNewlines newlines (ih hb))
    rw [← List.append_assoc, ← BlockOf.nodes_getD_empty] at hall
    exact hall
  | branch line source x more ihx ih =>
    have hx : Q x.placed (BlockOf.nodesOf (x.value scope)) := ihx hf.1
    refine hQ.append (hQ.single (.when (source.getD "default"))
      (p := Token.plain ⟨line, branchLexeme source⟩) ?_ rfl ?_ hx) (ih hf.2)
    · cases source <;> rfl
    · cases source <;> rfl
  | expansionColon colon e ih => exact hQ.skip ⟨rfl, rfl⟩ rfl (ih hf)
  | someAlternative line c b ih => exact hQ.skip ⟨rfl, rfl⟩ rfl (ih hf.2)
  | tag line name selfClosing c ih =>
    exact hQ.node _ c.heads (p := Token.plain ⟨line, .tag name selfClosing⟩) (isHead_heads hf)
      rfl rfl (congrArg some (c.head_value line selfClosing)) (ih hf line selfClosing).1
  | buffered line source c ih =>
    exact hQ.node _ c.heads (p := Token.plain ⟨line, .interpolation source⟩) (isHead_heads hf)
      rfl rfl (congrArg some (c.head_value line false)) (ih hf line false).1
  | division c ih =>
    -- The shorthand in front opens the node, with the other head tokens behind it.
    obtain ⟨t, more, hheads, -, hmore⟩ := exists_heads_of_division hf
    have hhead : (c.value scope t.line false).head = .gather false (t :: more) :=
      hheads ▸ c.head_value t.line false
    rw [placed, value, hheads, startLine_of_heads hheads]
    exact hQ.node _ more (p := ⟨t, .division⟩) hmore rfl rfl (congrArg some hhead)
      (ih hf.2 t.line false).1
  | call line name args c ih =>
    obtain ⟨hc, hk⟩ := ih hf line false
    exact hQ.call c.heads (isHead_heads hf) (c.head_value line false) hc hk
  | definition line name args b ih =>
    exact hQ.single _ (p := Token.plain ⟨line, .mixin name args⟩) rfl rfl rfl (ih hf)
  | oldCall line name args =>
    exact hQ.leaf _ (p := Token.plain ⟨line, .mixin name args⟩) rfl rfl rfl rfl
  | mixinBlock line => exact hQ.leaf _ (p := Token.plain ⟨line, .mixinBlock⟩) rfl rfl rfl rfl
  | namedBlock line name mode b ih =>
    refine hQ.single _ (p := Token.plain ⟨line, .block name mode⟩) rfl rfl rfl ?_
    have hb : Q b.placed (BlockOf.nodesOf (b.value scope)) := ih hf
    rwa [← BlockOf.map_nodes_getD] at hb
  | inclusion line path via attrs b ih =>
    refine hQ.single _ (p := Token.plain ⟨line, .inclusion path via attrs⟩) rfl rfl rfl ?_
    have hb : Q b.placed (BlockOf.nodesOf (b.value scope)) := ih hf
    rwa [← BlockOf.nodes_getD_empty] at hb
  | statement c ih => exact (ih hf).1
  | each line head b a ihb iha =>
    exact hQ.single _ (p := Token.plain ⟨line, .each head⟩) rfl rfl rfl
      (hQ.append (ihb hf.1) (iha hf.2))
  | case line source opening width bs closing ih =>
    exact hQ.single _ (p := Token.plain ⟨line, .case source⟩) rfl rfl rfl
      (hQ.skip ⟨rfl, rfl⟩ rfl (hQ.close ⟨rfl, rfl⟩ rfl (ih hf)))
  | inherit line path => exact hQ.leaf _ (p := Token.plain ⟨line, .inherit path⟩) rfl rfl rfl rfl
  | doctype line name => exact hQ.leaf _ (p := Token.plain ⟨line, .doctype name⟩) rfl rfl rfl rfl
  | yield line =>
    have hs : (Shape.block [] true : Shape Node).piece? = some .yield := rfl
    exact hQ.leaf .yield (p := Token.plain ⟨line, .yield⟩) rfl hs rfl rfl
  | filter line name group b ih =>
    have hb : Q b.placed (BlockOf.nodesOf (b.value scope)) := ih hf.2
    rw [← BlockOf.nodes_getD_empty] at hb
    have hgroup : ∀ t ∈ (group.map groupToken).toList, t.isHead = true := by
      cases group with
      | none => exact List.forall_mem_nil _
      | some g => exact List.forall_mem_singleton.mpr rfl
    have hplaced : (group.map fun g => (groupToken g).plain).toList =
        (group.map groupToken).toList.map Token.plain := by
      cases group <;> rfl
    rw [placed, hplaced, List.cons_append]
    exact hQ.node _ _ (p := Token.plain ⟨line, .filter name⟩) hgroup rfl rfl rfl hb
  | comment line content isBuffered b ih =>
    have hb : Q b.placed (BlockOf.nodesOf (b.value scope)) := ih hf
    rw [placed, value]
    refine hQ.single (.comment content isBuffered)
      (p := Token.plain ⟨line, .comment content isBuffered⟩) rfl ?_ ?_ ?_
    · cases b <;> rfl
    · cases b <;> rfl
    · cases b <;> exact hb
  | dot line b ih =>
    have hb : Q b.placed (BlockOf.nodesOf (b.value scope)) := ih hf
    cases b with
    | noPipeless => exact hQ.group (p := Token.plain ⟨line, .dot⟩) (hQ.skip ⟨rfl, rfl⟩ rfl hb)
    | somePipeless opening pieces closing =>
      exact hQ.skip ⟨rfl, rfl⟩ rfl (hQ.group (p := Token.plain ⟨opening, .startPipeless⟩) hb)
  | textLines pieces ih => exact assembled_collapse hQ hf.1 hf.2 (ih hf.2)

end HeadedAssembly

theorem assembled (hQ : Assembly scope Q) {g : Symbol} (t : Phrase g) {next : Lexeme}
    (hf : t.Fits next) : g.AssembledBy Q t.placed (t.value scope) :=
  headedAssembled hQ.headed t hf

end Phrase

end TemplateTree
