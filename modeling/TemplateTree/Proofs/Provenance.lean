import TemplateTree.Proofs.Mirroring

/-!
Files and lines. Everything that is reported about a template carries its file and the line of
some token. Neither decides anything: another file or other lines lead to the same tree and the
same warnings, or to the same error, in the other file or on the other lines.
-/

namespace TemplateTree
set_option autoImplicit false

/-- The blocks that are fields of a node of the shape. -/
def Shape.blocks {ν : Type} : Shape ν → List (BlockOf ν)
  | .tag _ body _ => [body]
  | .mixin _ body => body.toList
  | .code _ body => body.toList
  | .case _ body => [body]
  | .when _ body => body.toList
  | .each _ body alternative => body :: alternative.toList
  | .inclusion _ _ _ body => [body]
  | .blockComment _ _ body => [body]
  | .filter _ _ body => [body]
  | _ => []

/-- Where the nodes under a list of nodes were written, and the blocks in them. -/
def Node.origins (nodes : List Node) : List Origin :=
  (preorder nodes).flatMap fun n => n.origin :: n.shape.blocks.map BlockOf.origin

/-- Where everything was written that is reported about a template: its nodes and the blocks in
them, and the warnings, or the error. -/
def Template.reported : Except Diagnostic Parsed → List Origin
  | .error d => [⟨d.line, d.file⟩]
  | .ok p => Node.origins p.root.nodes ++ p.warnings.map fun w => ⟨w.line, w.file⟩

namespace Relabelling

variable (label : Relabelling)

theorem origin_block (b : Block) : (label.block b).origin = label.origin b.origin := by
  rw [block_eq]

theorem blocks_shape (s : Shape Node) : (label.shape s).blocks = s.blocks.map label.block := by
  cases s with
  | mixin _ body | code _ body | «when» _ body => cases body <;> rfl
  | each _ body alternative => cases alternative <;> rfl
  | _ => rfl

theorem origins_map (ns : List Node) :
    Node.origins (ns.map label.node) = (Node.origins ns).map label.origin := by
  have hnode (n : Node) :
      (label.node n).origin :: (label.node n).shape.blocks.map BlockOf.origin =
        (n.origin :: n.shape.blocks.map BlockOf.origin).map label.origin := by
    rw [origin_node, shape_node, blocks_shape, List.map_map, List.map_cons, List.map_map]
    exact congrArg _ (List.map_congr_left fun b _ => label.origin_block b)
  rw [Node.origins, preorder_map, List.flatMap_map, Node.origins, List.map_flatMap]
  exact congrArg (List.flatMap · (Node.preorder ns)) (funext hnode)

/-- What is reported is reported where the relabelling has it. -/
theorem reported_result (r : Except Diagnostic Parsed) :
    Template.reported (label.result r) = (Template.reported r).map label.origin := by
  cases r with
  | error d => rfl
  | ok p =>
    rw [result, Template.reported, Template.reported, List.map_append, List.map_map, parsed,
      origins_map, List.map_map]
    rfl

end Relabelling

namespace Template

variable {file : Option String} {ts : List Token}

theorem origin_root {p : Parsed} (h : parse file ts = .ok p) : p.root.origin = ⟨0, file⟩ := by
  obtain ⟨nodes, ns, _, rfl⟩ := parseLinking_ok.mp h
  rfl

/-- What is parsed from a relabelled stream is what is parsed from the stream, relabelled. -/
theorem parse_relabelled (label : Relabelling) (file : Option String) (ts : List Token) :
    parse (label.file file) (ts.map label.token) = label.result (parse file ts) := by
  rcases List.eq_nil_or_concat ts with rfl | ⟨front, last, rfl⟩
  · rfl
  · apply parse_mirrored
    have hend : Mirrored label (Cursor.lastLine (front.concat last))
        (Cursor.lastLine ((front.concat last).map label.token)) [] [] := by
      refine .ended rfl ?_
      simp [Cursor.lastLine, Relabelling.token]
    have h := hend.append (front.concat last)
    rwa [List.append_nil, List.append_nil] at h

/-- The file decides nothing and is missing nowhere. -/
theorem parse_within (file : Option String) (ts : List Token) :
    parse file ts = (Relabelling.within file).result (parse none ts) ∧
      (∀ o ∈ reported (parse file ts), o.file = file) ∧
      ∀ p, parse file ts = .ok p → p.root.origin.file = file := by
  have hparse : parse file ts = (Relabelling.within file).result (parse none ts) := by
    have h := parse_relabelled (.within file) none ts
    have htokens : ts.map (Relabelling.within file).token = ts := List.map_id' ts
    rwa [htokens] at h
  refine ⟨hparse, ?_, fun p hp => congrArg Origin.file (origin_root hp)⟩
  intro o ho
  rw [hparse, Relabelling.reported_result] at ho
  obtain ⟨o', _, rfl⟩ := List.mem_map.mp ho
  rfl

/-- Lines decide nothing, and no line is reported but those of tokens. -/
theorem parse_lines (file : Option String) (ts : List Token) :
    (∀ g : Line → Line, parse file (ts.map fun t => ⟨g t.line, t.lexeme⟩) =
      (Relabelling.lines g).result (parse file ts)) ∧
      (∀ o ∈ reported (parse file ts), ∃ t ∈ ts, o.line = t.line) ∧
      ∀ p, parse file ts = .ok p → p.root.origin.line = 0 := by
  have hparse (g : Line → Line) : parse file (ts.map fun t => ⟨g t.line, t.lexeme⟩) =
      (Relabelling.lines g).result (parse file ts) := parse_relabelled (.lines g) file ts
  refine ⟨hparse, ?_, fun p hp => congrArg Origin.line (origin_root hp)⟩
  intro o ho
  by_contra hno
  push Not at hno
  -- A line of no token could be moved elsewhere without a change to the stream.
  let g : Line → Line := fun line => if line = o.line then o.line + 1 else line
  have hts : ts.map (fun t => (⟨g t.line, t.lexeme⟩ : Token)) = ts := by
    have heq (t : Token) (ht : t ∈ ts) : (⟨g t.line, t.lexeme⟩ : Token) = t := by
      simp only [g, if_neg (hno t ht).symm]
    rw [List.map_congr_left heq, List.map_id']
  have hg := hparse g
  rw [hts] at hg
  have hreported : (reported (parse file ts)).map (Relabelling.lines g).origin =
      reported (parse file ts) := by
    rw [← Relabelling.reported_result, ← hg]
  have hkept : (Relabelling.lines g).origin o = o :=
    List.map_inj_left.mp (hreported.trans (List.map_id' _).symm) o ho
  have hline : g o.line = o.line := congrArg Origin.line hkept
  simp [g] at hline

end Template

end TemplateTree
