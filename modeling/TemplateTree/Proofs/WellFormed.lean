import TemplateTree.Proofs.Contents
import TemplateTree.Proofs.Provenance

/-!
What a tree may be relied on for. The types of trees let any node stand anywhere. In a tree that
the grammar makes, branches stand right under cases, code beside a body is code, definitions and
calls of mixins look different, places to fill are empty, and names of attributes are not repeated.
-/

namespace TemplateTree
set_option autoImplicit false

/-- Source that begins with an else, behind any number of spaces. -/
def BeginsWithElse (source : String) : Prop :=
  ∃ (spaces : Nat) (rest : List Char),
    source.toList = List.replicate spaces ' ' ++ "else".toList ++ rest

theorem Grammar.codeDebug_eq (source : String) :
    (Grammar.codeDebug source = some false ∧ BeginsWithElse source) ∨
      (Grammar.codeDebug source = none ∧ ¬ BeginsWithElse source) := by
  have hdrop : BeginsWithElse source ↔
      ['e', 'l', 's', 'e'] <+: source.toList.dropWhile (· == ' ') := by
    constructor
    · rintro ⟨spaces, rest, hs⟩
      refine ⟨rest, ?_⟩
      rw [hs, List.append_assoc, List.dropWhile_append_of_pos (by simp)]
      rfl
    · rintro ⟨rest, hrest⟩
      have hall : ∀ c ∈ source.toList.takeWhile (· == ' '), c = ' ' := by
        intro c hc
        simpa using List.mem_takeWhile_imp hc
      refine ⟨(source.toList.takeWhile (· == ' ')).length, rest, ?_⟩
      rw [← List.eq_replicate_of_mem hall, List.append_assoc]
      exact List.takeWhile_append_dropWhile.symm.trans (congrArg _ hrest.symm)
  rw [hdrop, Grammar.codeDebug, ← List.isPrefixOf_iff_prefix]
  split
  · next h => exact .inl ⟨rfl, h⟩
  · next h => exact .inr ⟨rfl, h⟩

/-- What a shape that the grammar makes says about its own fields. -/
def Shape.Sound : Shape Node → Prop
  | .block nodes isYield => isYield = true → nodes = []
  | .tag head _ beside => (Head.uniqueNames head.attrs).Nodup ∧ ∀ k ∈ beside, k.kind = .code
  | .mixin head body =>
    (Head.uniqueNames head.attrs).Nodup ∧
      if head.isCall then ∀ b ∈ body, b.nodes ≠ []
      else body.isSome = true ∧ head.attrs = [] ∧ head.attributeBlocks = []
  | .code head _ => head.debug = Grammar.codeDebug head.source
  | _ => True

/-- The kinds of cases and of their branches. -/
def NodeKind.isOfCase : NodeKind → Bool
  | case => true
  | when => true
  | _ => false

namespace Node

/-- What the grammar sees to at every node. -/
structure Made (n : Node) : Prop where
  branches : ∀ m ∈ n.children, m.kind = .when ↔ n.kind = .case
  blocks : ∀ b ∈ n.shape.blocks, b.isYield = false
  sound : n.shape.Sound

/-- What may be relied on at a node. -/
structure WellFormed (n : Node) : Prop where
  /-- Branches stand right under a case, and nothing else stands there. -/
  branches : ∀ m ∈ n.children, m.kind = .when ↔ n.kind = .case
  tagCode : ∀ {head body k}, n.shape = .tag head body (some k) → k.kind = .code
  definition : ∀ {head body}, n.shape = .mixin head body → head.isCall = false →
    body.isSome = true ∧ head.attrs = [] ∧ head.attributeBlocks = []
  call : ∀ {head body}, n.shape = .mixin head (some body) → head.isCall = true → body.nodes ≠ []
  /-- A place to fill is empty, be it a node or the block of one. -/
  yields : ∀ b ∈ n.toBlock?.toList ++ n.shape.blocks, b.isYield = true → b.nodes = []
  debug : ∀ {head body}, n.shape = .code head body →
    (head.debug = some false ∧ BeginsWithElse head.source) ∨
      (head.debug = none ∧ ¬ BeginsWithElse head.source)

theorem Made.wellFormed {n : Node} (h : n.Made) : n.WellFormed where
  branches := h.branches
  tagCode := by
    intro head body k hs
    have hsound := h.sound
    rw [hs] at hsound
    exact hsound.2 k rfl
  definition := by
    intro head body hs hcall
    have hsound := h.sound
    rw [hs, Shape.Sound, hcall] at hsound
    exact hsound.2
  call := by
    intro head body hs hcall
    have hsound := h.sound
    rw [hs, Shape.Sound, hcall] at hsound
    exact hsound.2 body rfl
  yields := by
    intro b hb hy
    rcases List.mem_append.mp hb with hb | hb
    · obtain ⟨origin, shape⟩ := n
      cases shape with
      | block nodes isYield =>
        cases List.mem_singleton.mp hb
        exact h.sound hy
      | _ => cases hb
    · rw [h.blocks b hb] at hy
      cases hy
  debug := by
    intro head body hs
    have hsound := h.sound
    rw [hs] at hsound
    rw [show head.debug = Grammar.codeDebug head.source from hsound]
    exact Grammar.codeDebug_eq head.source

/-- Nodes that may stand next to each other anywhere but in a case, over nodes as they should be. -/
def Items (ns : List Node) : Prop := (∀ n ∈ ns, n.kind ≠ .when) ∧ ∀ n ∈ preorder ns, n.Made

/-- The branches of a case, over nodes as they should be. -/
def Branches (ns : List Node) : Prop := (∀ n ∈ ns, n.kind = .when) ∧ ∀ n ∈ preorder ns, n.Made

variable {n : Node} {ms ns js : List Node}

theorem items_nil : Items [] := ⟨nofun, nofun⟩

theorem items_append : Items (ms ++ ns) ↔ Items ms ∧ Items ns := by
  rw [Items, preorder_append, List.forall_mem_append, List.forall_mem_append]
  exact and_and_and_comm

theorem items_cons : Items (n :: ns) ↔ Items [n] ∧ Items ns := by
  rw [← List.singleton_append, items_append]

theorem forall_preorder_singleton {P : Node → Prop} :
    (∀ m ∈ preorder [n], P m) ↔ P n ∧ ∀ m ∈ preorder n.children, P m := by
  rw [preorder_cons, preorder_nil, List.append_nil, List.forall_mem_cons]

theorem items_singleton :
    Items [n] ↔ n.kind ≠ .when ∧ n.Made ∧ ∀ m ∈ preorder n.children, m.Made := by
  rw [Items, forall_preorder_singleton, List.forall_mem_singleton]

theorem Items.node {scope : Scope} {line : Line} {shape : Shape Node}
    (hk : shape.kind.isOfCase = false) (hc : Items shape.children)
    (hb : ∀ b ∈ shape.blocks, b.isYield = false) (hs : shape.Sound) :
    Items [scope.node line shape] := by
  refine items_singleton.mpr ⟨?_, ⟨?_, hb, hs⟩, hc.2⟩
  · intro hw
    rw [show shape.kind = .when from hw] at hk
    cases hk
  · intro m hm
    refine iff_of_false (hc.1 m hm) ?_
    intro hcase
    rw [show shape.kind = .case from hcase] at hk
    cases hk

theorem Items.leaf {scope : Scope} {line : Line} {shape : Shape Node}
    (hk : shape.kind.isOfCase = false) (hc : shape.children = []) (hb : shape.blocks = [])
    (hs : shape.Sound) : Items [scope.node line shape] := by
  refine Items.node hk ?_ ?_ hs
  · rw [hc]
    exact items_nil
  · rw [hb]
    exact nofun

theorem Items.text (scope : Scope) (line : Line) (content : String) :
    Items [scope.text line content] :=
  .leaf rfl rfl rfl trivial

theorem Items.htmlText (scope : Scope) (line : Line) (content : String) :
    Items [scope.htmlText line content] :=
  .leaf rfl rfl rfl trivial

theorem Items.group {b : Block} (hy : b.isYield = false) (h : Items b.nodes) :
    Items [.ofBlock b] := by
  refine items_singleton.mpr ⟨nofun, ⟨?_, nofun, ?_⟩, h.2⟩
  · intro m hm
    exact iff_of_false (h.1 m hm) nofun
  · intro hyield
    rw [hy] at hyield
    cases hyield

theorem Items.collapse {scope : Scope} {line : Line} (h : Items ns) :
    Items [scope.collapse line ns] := by
  unfold Scope.collapse
  split
  · exact h
  · exact .group rfl h

theorem Joins.items (h : Joins ns js) (hn : Items ns) : Items js := by
  have htext (origin : Origin) (a : String) : Items [⟨origin, .text a true⟩] :=
    Items.htmlText ⟨origin.file⟩ origin.line a
  induction h with
  | nil => exact items_nil
  | cons n _ ih =>
    rw [items_cons] at hn ⊢
    exact ⟨hn.1, ih hn.2⟩
  | join origin other a b _ ih =>
    rw [items_cons] at hn ⊢
    exact ⟨htext _ _, (items_cons.mp (ih hn.2)).2⟩

theorem items_joinHtml (h : Items ns) : Items (joinHtml ns) := (joins_joinHtml ns).items h

theorem Branches.case {scope : Scope} {line : Line} {source : String} {origin : Origin}
    (h : Branches ns) : Items [scope.node line (.case source (.ofNodes origin ns))] := by
  refine items_singleton.mpr ⟨nofun, ⟨?_, ?_, trivial⟩, h.2⟩
  · intro m hm
    exact iff_of_true (h.1 m hm) rfl
  · exact List.forall_mem_singleton.mpr rfl

end Node

namespace BlockOf

/-- A block with items in it. -/
def Holds (b : Block) : Prop := b.isYield = false ∧ Node.Items b.nodes

variable {scope : Scope} {line : Line} {ns : List Node} {b : Block} {c : Option Block}

theorem holds_block (h : Node.Items ns) : (scope.block line ns).Holds := ⟨rfl, h⟩

theorem holds_empty : (scope.block line []).Holds := holds_block Node.items_nil

theorem holds_some (h : b.Holds) : ∀ b' ∈ some b, Holds b' := by
  rintro _ ⟨⟩
  exact h

theorem items_nodesOf (h : ∀ b ∈ c, Holds b) : Node.Items (nodesOf c) := by
  cases c with
  | none => exact Node.items_nil
  | some b => exact (h b rfl).2

theorem isYield_of_mem (h : ∀ b ∈ c, Holds b) : ∀ b ∈ c.toList, b.isYield = false := by
  intro b hb
  exact (h b (Option.mem_toList.mp hb)).1

theorem holds_getD (h : ∀ b ∈ c, Holds b) : (c.getD (scope.block line [])).Holds := by
  cases c with
  | none => exact holds_empty
  | some b => exact h b rfl

theorem holds_or {e : Option Block} (hc : ∀ b ∈ c, Holds b) (he : ∀ b ∈ e, Holds b) :
    ∀ b ∈ c.or e, Holds b := by
  cases c with
  | none => exact he
  | some b => exact hc

theorem holds_followedBy (hb : b.Holds) (hc : ∀ b ∈ c, Holds b) : (b.followedBy c).Holds := by
  refine ⟨hb.1, Node.items_append.mpr ⟨hb.2, ?_⟩⟩
  rw [map_nodes_getD]
  exact items_nodesOf hc

end BlockOf

/-- What a phrase stands for is as it should be. -/
def Symbol.Made : (g : Symbol) → g.Value → Prop
  | .items, nodes => Node.Items nodes
  | .body, b => b.Holds
  | .optionalBody, b => ∀ b' ∈ b, BlockOf.Holds b'
  | .expression, n => Node.Items [n]
  | .content, c => ∀ line selfClosing, let c := c line selfClosing
    (Head.uniqueNames c.head.attrs).Nodup ∧ c.body.Holds ∧
      ∀ k ∈ c.code, Node.Items [k] ∧ k.kind = .code
  | .line, l => ∀ line, (l line).1.Holds ∧ ∀ k ∈ (l line).2, Node.Items [k] ∧ k.kind = .code
  | .code, n => Node.Items [n] ∧ n.kind = .code
  | .text _, nodes => Node.Items nodes
  | .optionalPipeless, b => ∀ b' ∈ b, BlockOf.Holds b'
  | .html, nodes => Node.Items nodes
  | .nested, nodes => Node.Items nodes
  | .branches, nodes => Node.Branches nodes
  | .expansion, b => ∀ b' ∈ b, BlockOf.Holds b'
  | .alternative, b => ∀ b' ∈ b, BlockOf.Holds b'

namespace Content

variable {scope : Scope} {line : Line} {name : String} {c : Content}

theorem items_code (hk : ∀ k ∈ c.code, Node.Items [k] ∧ k.kind = .code) :
    Node.Items c.code.toList := by
  cases hc : c.code with
  | none => exact Node.items_nil
  | some k => exact (hk k hc).1

theorem items_tag {buffered : Bool} (hn : (Head.uniqueNames c.head.attrs).Nodup)
    (hb : c.body.Holds) (hk : ∀ k ∈ c.code, Node.Items [k] ∧ k.kind = .code) :
    Node.Items [c.tag scope line name buffered] := by
  refine Node.Items.node rfl ?_ ?_ ⟨hn, fun k hkc => (hk k hkc).2⟩
  · exact Node.items_append.mpr ⟨items_code hk, hb.2⟩
  · exact List.forall_mem_singleton.mpr hb.1

/-- The body of a call takes the code on its line in, and is none where it would be empty. -/
theorem items_call {args : Option String} (hn : (Head.uniqueNames c.head.attrs).Nodup)
    (hb : c.body.Holds) (hk : ∀ k ∈ c.code, Node.Items [k] ∧ k.kind = .code) :
    Node.Items [c.call scope line name args] := by
  have hchildren : Node.Items (c.call scope line name args).children := by
    rw [children_call]
    exact Node.items_append.mpr ⟨hb.2, items_code hk⟩
  refine Node.Items.node rfl hchildren ?_ ⟨hn, ?_⟩
  · intro b hbody
    rw [Shape.blocks] at hbody
    split at hbody
    · cases hbody
    · cases List.mem_singleton.mp hbody
      exact hb.1
  · intro b hbody
    split at hbody
    · cases hbody
    · next hempty =>
      cases hbody
      simpa [BlockOf.isEmpty] using hempty

end Content

namespace Phrase

variable (scope : Scope)

theorem made {g : Symbol} (t : Phrase g) {next : Lexeme} (hf : t.Fits next) :
    g.Made (t.value scope) := by
  induction t generalizing next with
  | done | textEnd | htmlEnd | nestedNone | nestedNewline => exact Node.items_nil
  | noBody | noPipeless | fallThrough | noAlternative => exact nofun
  | newline line more ih | branchNewline line more ih => exact ih hf
  | html line content nested lines more ihn ihl ih =>
    have hlines := Node.items_append.mpr ⟨ihn hf.1, ihl hf.2.1⟩
    exact Node.items_append.mpr
      ⟨Node.items_joinHtml (Node.items_cons.mpr ⟨.htmlText .., hlines⟩), ih hf.2.2⟩
  | htmlLine line content nested lines ihn ih =>
    exact Node.items_cons.mpr
      ⟨.htmlText .., Node.items_append.mpr ⟨ihn hf.1, ih hf.2⟩⟩
  | rawHtml line content nested lines ihn ih =>
    have hlines := Node.items_append.mpr ⟨ihn hf.1, ih hf.2⟩
    exact .group rfl (Node.items_joinHtml (Node.items_cons.mpr ⟨.htmlText .., hlines⟩))
  | item e more ihe ih => exact Node.items_cons.mpr ⟨ihe hf.2.1, ih hf.2.2⟩
  | body opening width items closing ih => exact BlockOf.holds_block (ih hf)
  | someBody b ih | expansionBody b ih => exact BlockOf.holds_some (ih hf)
  | nestedBody b ih => exact (ih hf).2
  | textPiece line content more ih => exact Node.items_cons.mpr ⟨.text .., ih hf⟩
  | textBreak line more ih =>
    rw [value]
    split
    · exact Node.items_cons.mpr ⟨.text .., ih hf.2⟩
    · exact ih hf.2
  | textInterpolation opening e closing more ihe ih =>
    exact Node.items_cons.mpr ⟨ihe hf.1, ih hf.2⟩
  | somePipeless opening pieces closing ih =>
    exact BlockOf.holds_some (BlockOf.holds_block (ih hf))
  | code line c b ih =>
    have hbody : ∀ body ∈ (b.value scope).or
        (if c.requiresBlock then some (scope.block line []) else none), BlockOf.Holds body := by
      refine BlockOf.holds_or (ih hf) ?_
      intro body hbody
      split at hbody
      · cases hbody
        exact BlockOf.holds_empty
      · cases hbody
    exact ⟨.node rfl (BlockOf.items_nodesOf hbody) (BlockOf.isYield_of_mem hbody) rfl, rfl⟩
  | lineEnd => exact fun line => ⟨BlockOf.holds_empty, nofun⟩
  | lineText pieces ih =>
    intro line
    exact ⟨BlockOf.holds_block (Node.Items.collapse (ih hf.2)), nofun⟩
  | lineCode c ih =>
    intro line
    refine ⟨BlockOf.holds_empty, ?_⟩
    intro k hk
    cases hk
    exact ih hf
  | lineColon colon e ih => exact fun line => ⟨BlockOf.holds_block (ih hf), nofun⟩
  | plain heads l newlines b ihl ih =>
    obtain ⟨-, hn, hl, -, hb⟩ := hf
    intro line selfClosing
    exact ⟨hn, BlockOf.holds_followedBy (ihl hl line).1 (ih hb), (ihl hl line).2⟩
  | dotted heads dotLine l newlines b ihl ih =>
    obtain ⟨-, hn, hl, -, hb⟩ := hf
    intro line selfClosing
    exact ⟨hn, BlockOf.holds_getD (ih hb), (ihl hl line).2⟩
  | noBranches => exact ⟨nofun, nofun⟩
  | branch line source x more ihx ih =>
    have hbody := BlockOf.items_nodesOf (ihx hf.1)
    have hmore := ih hf.2
    refine ⟨List.forall_mem_cons.mpr ⟨rfl, hmore.1⟩, ?_⟩
    rw [value, Node.preorder_cons, List.forall_mem_cons, List.forall_mem_append]
    refine ⟨⟨?_, BlockOf.isYield_of_mem (ihx hf.1), trivial⟩, hbody.2, hmore.2⟩
    intro m hm
    exact iff_of_false (hbody.1 m hm) nofun
  | expansionColon colon e ih => exact BlockOf.holds_some (BlockOf.holds_block (ih hf))
  | someAlternative line c b ih => exact BlockOf.holds_some (ih hf.2)
  | tag line name selfClosing c ih =>
    obtain ⟨hn, hb, hk⟩ := ih hf line selfClosing
    exact Content.items_tag hn hb hk
  | buffered line source c ih =>
    obtain ⟨hn, hb, hk⟩ := ih hf line false
    exact Content.items_tag hn hb hk
  | division c ih =>
    obtain ⟨hn, hb, hk⟩ := ih hf.2 c.startLine false
    exact Content.items_tag hn hb hk
  | call line name args c ih =>
    obtain ⟨hn, hb, hk⟩ := ih hf line false
    exact Content.items_call hn hb hk
  | definition line name args b ih =>
    have hb := ih hf
    exact .node rfl hb.2 (List.forall_mem_singleton.mpr hb.1)
      ⟨List.nodup_nil, rfl, rfl, rfl⟩
  | oldCall line name args => exact .leaf rfl rfl rfl ⟨List.nodup_nil, nofun⟩
  | mixinBlock line | inherit line path | doctype line name =>
    exact .leaf rfl rfl rfl trivial
  | namedBlock line name mode b ih =>
    refine .node rfl ?_ (List.forall_mem_nil _) trivial
    rw [Shape.children, BlockOf.map_nodes_getD]
    exact BlockOf.items_nodesOf (ih hf)
  | inclusion line path via attrs b ih =>
    have hb : BlockOf.Holds ((b.value scope).getD (scope.block line [])) :=
      BlockOf.holds_getD (ih hf)
    exact .node rfl hb.2 (List.forall_mem_singleton.mpr hb.1) trivial
  | statement c ih => exact (ih hf).1
  | each line head b a ihb iha =>
    have hb := ihb hf.1
    refine .node rfl ?_ ?_ trivial
    · exact Node.items_append.mpr ⟨hb.2, BlockOf.items_nodesOf (iha hf.2)⟩
    · exact List.forall_mem_cons.mpr ⟨hb.1, BlockOf.isYield_of_mem (iha hf.2)⟩
  | case line source opening width bs closing ih => exact (ih hf).case
  | yield line =>
    exact .node rfl Node.items_nil (List.forall_mem_nil _) fun _ => rfl
  | filter line name group b ih =>
    have hb : BlockOf.Holds ((b.value scope).getD (scope.block line [])) :=
      BlockOf.holds_getD (ih hf.2)
    exact .node rfl hb.2 (List.forall_mem_singleton.mpr hb.1) trivial
  | comment line content isBuffered b ih =>
    have hb := ih hf
    rw [value]
    cases hv : b.value scope with
    | none => exact .leaf rfl rfl rfl trivial
    | some nested =>
      have hn := hb nested hv
      exact .node rfl hn.2 (List.forall_mem_singleton.mpr hn.1) trivial
  | dot line b ih =>
    have hb : BlockOf.Holds ((b.value scope).getD (scope.block line [])) :=
      BlockOf.holds_getD (ih hf)
    exact .group hb.1 hb.2
  | textLines pieces ih => exact Node.Items.collapse (ih hf.2)

end Phrase

/-- A tree that may be relied on. -/
structure Parsed.WellFormed (p : Parsed) : Prop where
  root : p.root.isYield = false ∧ ∀ n ∈ p.root.nodes, n.kind ≠ .when
  nodes : ∀ n ∈ p.entered, n.WellFormed

namespace Template

variable {file : Option String} {ts : List Token} {p : Parsed}

theorem items_root (h : parse file ts = .ok p) :
    p.root.isYield = false ∧ Node.Items p.root.nodes := by
  obtain ⟨t, hf, -, -, rfl⟩ := parse_ok.mp h
  exact ⟨rfl, t.made ⟨file⟩ hf⟩

theorem made_of_entered (h : parse file ts = .ok p) : ∀ n ∈ p.entered, n.Made := by
  rw [Parsed.entered, Block.entered_trace]
  exact (items_root h).2.2

/-- Every tree of an accepted stream may be relied on. -/
theorem wellFormed_of_parse (h : parse file ts = .ok p) : p.WellFormed where
  root := ⟨(items_root h).1, (items_root h).2.1⟩
  nodes n hn := (made_of_entered h n hn).wellFormed

/-- A definition with a case in it, and a call with code on its line. -/
def caseInMixin : List Token :=
  [⟨1, .mixin "m" none⟩, ⟨2, .indent 2⟩, ⟨2, .case "x"⟩, ⟨3, .indent 4⟩, ⟨3, .when "1"⟩,
    ⟨3, .colon⟩, ⟨3, .yield⟩, ⟨4, .newline⟩, ⟨4, .default⟩, ⟨5, .outdent⟩, ⟨5, .outdent⟩,
    ⟨5, .call "m" none⟩, ⟨5, .idName "a"⟩,
    ⟨5, .code ⟨"  else y", false, false, false, false, false, false⟩⟩]

theorem wellFormed_caseInMixin : ∃ p, parse none caseInMixin = .ok p ∧
    p.entered.map Node.kind = [.mixin, .case, .when, .block, .when, .mixin, .code] ∧
      p.WellFormed := by
  obtain ⟨p, hp, hkinds⟩ : ∃ p, parse none caseInMixin = .ok p ∧
      p.entered.map Node.kind = [.mixin, .case, .when, .block, .when, .mixin, .code] :=
    exists_parsed (by decide +kernel)
  exact ⟨p, hp, hkinds, wellFormed_of_parse hp⟩

end Template

end TemplateTree
