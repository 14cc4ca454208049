import TemplateTree.Proofs.Acceptance
import TemplateTree.Proofs.SourceOrder

/-!
What stands behind the head of a tag or call, on its line and below, and where it ends up. All of
it ends up under the node of the head, but a dot promises text below and nothing else: behind a
dot only code is kept of the line.
-/

namespace TemplateTree
set_option autoImplicit false

/-- Nodes stand in a list as they are, or a block groups them. -/
def Node.Holds (held ns : List Node) : Prop :=
  held = ns ∨ ∃ origin, held = [.ofBlock (.ofNodes origin ns)]

theorem Node.holds_collapse (scope : Scope) (line : Line) (ns : List Node) :
    Node.Holds [scope.collapse line ns] ns := by
  unfold Scope.collapse
  split
  · exact .inl rfl
  · exact .inr ⟨_, rfl⟩

namespace Phrase

variable (scope : Scope)

/-- The nodes of the pieces of text and of the interpolations in a run of text. -/
def pieceNodes {p : TextPlace} : Phrase (.text p) → List Node
  | textEnd => []
  | textPiece line content more => scope.text line content :: more.pieceNodes
  | textBreak _ more => more.pieceNodes
  | textInterpolation _ e _ more => e.value scope :: more.pieceNodes

/-- The nodes of what stands on a line behind a head, apart from code. -/
def lineNodes : Phrase .line → List Node
  | lineEnd => []
  | lineText pieces => pieces.pieceNodes scope
  | lineCode _ => []
  | lineColon _ e => [e.value scope]

def lineCode? : Phrase .line → Option Node
  | lineCode c => some (c.value scope)
  | _ => none

def pipelessNodes : Phrase .optionalPipeless → List Node
  | noPipeless => []
  | somePipeless _ pieces _ => pieces.pieceNodes scope

/-- Given nodes and a node of code hold what stands behind a head. What stands on the line comes
first, and what stands below follows; the text that a dot promises stands alone. -/
def HeldBy (nodes : List Node) (beside : Option Node) : Phrase .content → Prop
  | plain _ l _ b => beside = l.lineCode? scope ∧ ∃ onLine,
    Node.Holds onLine (l.lineNodes scope) ∧ nodes = onLine ++ BlockOf.nodesOf (b.value scope)
  | dotted _ _ l _ b => beside = l.lineCode? scope ∧ (b.pipelessNodes scope).Sublist nodes ∧
    nodes = BlockOf.nodesOf (b.value scope)

/-- A tag holds what stands behind a head in its body and its code. -/
def HeldByTag (n : Node) (c : Phrase .content) : Prop :=
  ∃ head body beside, n.shape = .tag head body beside ∧ c.HeldBy scope body.nodes beside

/-- A mixin call holds what stands behind a head in its body, where the code comes last. -/
def HeldByCall (n : Node) (c : Phrase .content) : Prop :=
  ∃ head body nodes beside, n.shape = .mixin head body ∧
    BlockOf.nodesOf body = nodes ++ beside.toList ∧ c.HeldBy scope nodes beside

/-- The node of a head holds what stands behind the head. -/
def HoldsContent : {g : Symbol} → Phrase g → Prop
  | _, tag line name selfClosing c => c.HeldByTag scope ((tag line name selfClosing c).value scope)
  | _, buffered line source c => c.HeldByTag scope ((buffered line source c).value scope)
  | _, division c => c.HeldByTag scope ((division c).value scope)
  | _, call line name args c => c.HeldByCall scope ((call line name args c).value scope)
  | _, _ => True

variable {scope}

/-- Text keeps its pieces and interpolations, and may add line breaks to them. -/
theorem sublist_pieceNodes {p : TextPlace} (t : Phrase (.text p)) :
    (t.pieceNodes scope).Sublist (t.value scope) := by
  induction t using text_induction with
  | textEnd =>
    rw [value, pieceNodes]
  | textPiece line content more ih =>
    rw [value, pieceNodes]
    exact ih.cons_cons _
  | textBreak line more ih =>
    rw [value, pieceNodes]
    split
    · exact ih.cons _
    · exact ih
  | textInterpolation opening e closing more ih =>
    rw [value, pieceNodes]
    exact ih.cons_cons _

theorem value_inLine (t : Phrase (.text .inLine)) {next : Lexeme} (hf : t.Fits next) :
    t.value scope = t.pieceNodes scope := by
  induction t using text_induction with
  | textEnd => rw [value, pieceNodes]
  | textPiece line content more ih => rw [value, pieceNodes, ih hf]
  | textBreak line more ih => exact absurd rfl hf.1
  | textInterpolation opening e closing more ih => rw [value, pieceNodes, ih hf.2]

theorem sublist_pipelessNodes (b : Phrase .optionalPipeless) :
    (b.pipelessNodes scope).Sublist (BlockOf.nodesOf (b.value scope)) := by
  cases b with
  | noPipeless => exact List.Sublist.refl _
  | somePipeless opening pieces closing => exact pieces.sublist_pieceNodes

theorem code_line (l : Phrase .line) (line : Line) :
    (l.value scope line).2 = l.lineCode? scope := by
  cases l <;> rfl

theorem holds_line (l : Phrase .line) {next : Lexeme} (hf : l.Fits next) (line : Line) :
    Node.Holds (l.value scope line).1.nodes (l.lineNodes scope) := by
  cases l with
  | lineEnd | lineCode c | lineColon colon e => exact .inl rfl
  | lineText pieces =>
    rw [lineNodes, ← pieces.value_inLine hf.2]
    exact Node.holds_collapse _ _ _

theorem heldBy_value (c : Phrase .content) {next : Lexeme} (hf : c.Fits next) (line : Line)
    (selfClosing : Bool) : c.HeldBy scope (c.value scope line selfClosing).body.nodes
      (c.value scope line selfClosing).code := by
  cases c with
  | plain heads l newlines b =>
    refine ⟨l.code_line line, _, l.holds_line hf.2.2.1 line, ?_⟩
    rw [← BlockOf.map_nodes_getD]
    rfl
  | dotted heads dotLine l newlines b =>
    have hnodes : ((dotted heads dotLine l newlines b).value scope line selfClosing).body.nodes =
        BlockOf.nodesOf (b.value scope) := BlockOf.nodes_getD_empty
    refine ⟨l.code_line line, ?_, hnodes⟩
    rw [hnodes]
    exact b.sublist_pipelessNodes

theorem holdsContent {g : Symbol} (t : Phrase g) {next : Lexeme} (hf : t.Fits next) :
    t.HoldsContent scope := by
  cases t with
  | tag line name selfClosing c => exact ⟨_, _, _, rfl, c.heldBy_value hf line selfClosing⟩
  | buffered line source c => exact ⟨_, _, _, rfl, c.heldBy_value hf line false⟩
  | division c => exact ⟨_, _, _, rfl, c.heldBy_value hf.2 c.startLine false⟩
  | call line name args c =>
    refine ⟨_, _, _, _, rfl, ?_, c.heldBy_value hf line false⟩
    exact Content.children_call scope line name args _
  | _ => trivial

end Phrase

namespace Template

/-- In an accepted stream the node of every tag and call holds all that stands behind its head,
unless a dot comes first: then text or an expression on the line gives way to the text below. -/
theorem contents_held {file : Option String} {ts : List Token} {p : Parsed}
    (h : parse file ts = .ok p) : ∃ t : Phrase .items, t.Fits .eos ∧
      t.tokens = ts.takeWhile (fun u => !u.isEos) ∧ p = parsed file t ∧
        t.All (Phrase.HoldsContent ⟨file⟩) := by
  obtain ⟨t, hf, htokens, _, hp⟩ := parse_ok.mp h
  exact ⟨t, hf, htokens, hp, t.all_of_fits Phrase.holdsContent hf⟩

/-- A tag with a dot and text on its line. -/
def textBehindDot : List Token := [⟨1, .tag "p" false⟩, ⟨1, .dot⟩, ⟨1, .text "x"⟩]

theorem parse_textBehindDot : ∃ p, parse none textBehindDot = .ok p ∧
    p.entered.map Node.kind = [.tag] :=
  exists_parsed (by decide +kernel)

/-- A tag with text and an interpolation on its line, and a body, and a call with a dot, code and
text below. -/
def contentsOnLines : List Token :=
  [⟨1, .tag "p" false⟩, ⟨1, .text "x"⟩, ⟨1, .startInterpolation⟩, ⟨1, .tag "b" false⟩,
    ⟨1, .endInterpolation⟩, ⟨2, .newline⟩, ⟨2, .indent 2⟩, ⟨2, .tag "i" false⟩, ⟨3, .outdent⟩,
    ⟨3, .call "m" none⟩, ⟨3, .dot⟩, ⟨3, .code ⟨"y", true, true, false, false, false, false⟩⟩,
    ⟨4, .startPipeless⟩, ⟨4, .text "z"⟩, ⟨5, .endPipeless⟩]

theorem contents_held_onLines : ∃ p, parse none contentsOnLines = .ok p ∧
    p.entered.map Node.kind = [.tag, .block, .text, .tag, .tag, .mixin, .text, .code] ∧
      ∃ t : Phrase .items, t.Fits .eos ∧
        t.tokens = contentsOnLines.takeWhile (fun u => !u.isEos) ∧ p = parsed none t ∧
          t.All (Phrase.HoldsContent ⟨none⟩) := by
  obtain ⟨p, hp, hkinds⟩ : ∃ p, parse none contentsOnLines = .ok p ∧
      p.entered.map Node.kind = [.tag, .block, .text, .tag, .tag, .mixin, .text, .code] :=
    exists_parsed (by decide +kernel)
  exact ⟨p, hp, hkinds, contents_held hp⟩

end Template

end TemplateTree
