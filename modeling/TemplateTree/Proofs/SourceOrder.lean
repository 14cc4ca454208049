import TemplateTree.Proofs.Acceptance
import TemplateTree.Proofs.Assembly

/-!
Trees and the order of the source. A walk enters the nodes in the order of their lines, with one
exception: code on the line of a mixin call is entered behind the rest of the call's content, also
behind what stands on later lines.
-/

namespace TemplateTree
set_option autoImplicit false

namespace Node

/-- What a mixin call holds in front of code at its end is not from behind that code. -/
def CodeLast (n : Node) : Prop :=
  ∀ head body init last, n.shape = .mixin head (some body) → head.isCall = true →
    body.nodes = init ++ [last] → last.kind = .code → ∀ m ∈ preorder init, m.line ≤ last.line

/-- The lines never decrease. -/
def InOrder (nodes : List Node) : Prop := (nodes.map line).Pairwise (· ≤ ·)

variable {n m : Node} {ms ns js : List Node}

theorem inOrder_cons : InOrder (n :: ns) ↔ (∀ m ∈ ns, n.line ≤ m.line) ∧ InOrder ns := by
  simp [InOrder]

theorem inOrder_append :
    InOrder (ms ++ ns) ↔ InOrder ms ∧ InOrder ns ∧ ∀ m ∈ ms, ∀ n ∈ ns, m.line ≤ n.line := by
  simp [InOrder, List.pairwise_append]

/-- A node is entered together with what is under it. -/
theorem sublist_preorder (h : n ∈ preorder ns) :
    (n :: preorder n.children).Sublist (preorder ns) := by
  have hnodes {ms : List Node} (hms : ∀ m ∈ ms, ∀ n ∈ m :: preorder m.children,
      (n :: preorder n.children).Sublist (m :: preorder m.children)) {n : Node}
      (h : n ∈ preorder ms) : (n :: preorder n.children).Sublist (preorder ms) := by
    induction ms with
    | nil => cases h
    | cons m ms ih =>
      obtain ⟨hm, hms⟩ := List.forall_mem_cons.mp hms
      rw [preorder_cons, ← List.cons_append] at h ⊢
      rcases List.mem_append.mp h with h | h
      · exact (hm n h).trans (List.sublist_append_left _ _)
      · exact (ih hms h).trans (List.sublist_append_right _ _)
  have hnode (m : Node) : ∀ n ∈ m :: preorder m.children,
      (n :: preorder n.children).Sublist (m :: preorder m.children) := by
    induction m using Node.induction with
    | step m ih =>
      intro n hn
      rcases List.mem_cons.mp hn with rfl | hn
      · exact List.Sublist.refl _
      · exact (hnodes ih hn).cons m
  exact hnodes (fun m _ => hnode m) h

/-- Joining HTML takes lines away. -/
theorem Joins.sublist (h : Joins ns js) :
    ((preorder js).map line).Sublist ((preorder ns).map line) := by
  induction h with
  | nil => exact List.Sublist.refl _
  | cons n _ ih =>
    rw [preorder_cons, preorder_cons, List.map_cons, List.map_cons, List.map_append,
      List.map_append]
    exact ((List.Sublist.refl _).append ih).cons_cons _
  | join origin other a b _ ih =>
    rw [preorder_cons] at ih ⊢
    rw [preorder_cons]
    exact ((List.sublist_cons_self _ _).trans ih).cons_cons _

/-- Joining HTML leaves all other nodes as they are. -/
theorem Joins.codeLast (h : Joins ns js) (hj : ∀ n ∈ preorder js, n.CodeLast) :
    ∀ n ∈ preorder ns, n.CodeLast := by
  have htext (origin : Origin) (a : String) : CodeLast ⟨origin, .text a true⟩ := nofun
  induction h with
  | nil => exact hj
  | cons n _ ih =>
    rw [preorder_cons, List.forall_mem_cons, List.forall_mem_append] at hj ⊢
    exact ⟨hj.1, hj.2.1, ih hj.2.2⟩
  | join origin other a b _ ih =>
    rw [preorder_cons, List.forall_mem_cons, List.forall_mem_append] at hj ⊢
    refine ⟨htext _ _, hj.2.1, ih ?_⟩
    rw [preorder_cons, List.forall_mem_cons, List.forall_mem_append]
    exact ⟨htext _ _, hj.2⟩

end Node

/-- The nodes under a list of nodes are from the lines of the tokens, and in order if the tokens
are and no call puts code behind what follows it. -/
structure Ordered (ps : List Placed) (ns : List Node) : Prop where
  lines : ∀ n ∈ Node.preorder ns, n.line ∈ ps.map Placed.line
  inOrder : (ps.map Placed.line).Pairwise (· ≤ ·) → (∀ n ∈ Node.preorder ns, n.CodeLast) →
    Node.InOrder (Node.preorder ns)

namespace Ordered

variable {p : Placed} {ps qs : List Placed} {ms ns js : List Node} {n : Node}

theorem append (hm : Ordered ps ms) (hn : Ordered qs ns) : Ordered (ps ++ qs) (ms ++ ns) where
  lines := by
    rw [Node.preorder_append, List.map_append]
    rintro n h
    rcases List.mem_append.mp h with h | h
    · exact List.mem_append_left _ (hm.lines n h)
    · exact List.mem_append_right _ (hn.lines n h)
  inOrder := by
    rw [Node.preorder_append, List.map_append, List.pairwise_append, List.forall_mem_append,
      Node.inOrder_append]
    rintro ⟨hps, hqs, hlt⟩ ⟨hcm, hcn⟩
    exact ⟨hm.inOrder hps hcm, hn.inOrder hqs hcn,
      fun m h n h' => hlt _ (hm.lines m h) _ (hn.lines n h')⟩

/-- A node from the line of a token, over nodes from the lines of what follows the token. -/
theorem node (hl : n.line = p.line) (h : Ordered ps n.children) : Ordered (p :: ps) [n] where
  lines := by
    rw [Node.preorder_cons, Node.preorder_nil, List.append_nil, List.forall_mem_cons]
    exact ⟨hl ▸ List.mem_cons_self, fun m hm => List.mem_cons_of_mem _ (h.lines m hm)⟩
  inOrder := by
    rw [Node.preorder_cons, Node.preorder_nil, List.append_nil, List.forall_mem_cons,
      Node.inOrder_cons, List.map_cons, List.pairwise_cons]
    rintro ⟨hle, hps⟩ ⟨_, hc⟩
    exact ⟨fun m hm => hl ▸ hle _ (h.lines m hm), h.inOrder hps hc⟩

/-- Nodes may be wrapped in a block that is from the line of their first token. -/
theorem group {origin : Origin} (hl : origin.line = p.line) (h : Ordered (p :: ps) ns) :
    Ordered (p :: ps) [.ofBlock (.ofNodes origin ns)] where
  lines := by
    rw [Node.preorder_cons, Node.preorder_nil, List.append_nil, List.forall_mem_cons]
    exact ⟨List.mem_cons.mpr (.inl hl), h.lines⟩
  inOrder := by
    rw [Node.preorder_cons, Node.preorder_nil, List.append_nil, List.forall_mem_cons,
      Node.inOrder_cons]
    rintro hps ⟨_, hc⟩
    refine ⟨fun m hm => ?_, h.inOrder hps hc⟩
    have hline : origin.line ≤ m.line := by
      rcases List.mem_cons.mp (h.lines m hm) with hm | hm
      · exact UInt64.le_of_eq (hl.trans hm.symm)
      · exact hl ▸ (List.pairwise_cons.mp hps).1 _ hm
    exact hline

/-- Code at the end of a call is in order where nothing in front of it is from behind it. -/
theorem call {scope : Scope} {line : Line} {name : String} {args : Option String} {c : Content}
    (h : Ordered ps (c.code.toList ++ c.body.nodes)) (hk : ∀ n ∈ c.code, n.kind = .code) :
    Ordered (Token.plain ⟨line, .call name args⟩ :: ps) [c.call scope line name args] where
  lines := by
    rw [Node.preorder_cons, Node.preorder_nil, List.append_nil, List.forall_mem_cons,
      Content.children_call]
    refine ⟨List.mem_cons_self, fun m hm => List.mem_cons_of_mem _ (h.lines m ?_)⟩
    rw [Node.preorder_append, List.mem_append] at hm ⊢
    exact hm.symm
  inOrder := by
    obtain ⟨head, textOnly, body, code⟩ := c
    rw [Node.preorder_cons, Node.preorder_nil, List.append_nil, List.forall_mem_cons,
      Content.children_call, Node.inOrder_cons, List.map_cons, List.pairwise_cons]
    rintro ⟨hle, hps⟩ ⟨hcall, hc⟩
    rw [Node.preorder_append, List.forall_mem_append] at hc
    have hall : Node.InOrder (Node.preorder (code.toList ++ body.nodes)) := by
      refine h.inOrder hps ?_
      rw [Node.preorder_append, List.forall_mem_append]
      exact hc.symm
    rw [Node.preorder_append, Node.inOrder_append] at hall
    constructor
    · intro m hm
      refine hle _ (h.lines m ?_)
      rw [Node.preorder_append, List.mem_append] at hm ⊢
      exact hm.symm
    rw [Node.preorder_append, Node.inOrder_append]
    refine ⟨hall.2.1, hall.1, fun m hm n hn => ?_⟩
    cases code with
    | none => cases hn
    | some k =>
      have hshape : (Content.call scope line name args ⟨head, textOnly, body, some k⟩).shape =
          .mixin ⟨name, args, true, head.attrs, head.attributeBlocks⟩
            (some { body with nodes := body.nodes ++ [k] }) := by
        simp [Content.call, Scope.node, BlockOf.isEmpty]
      have hlast : m.line ≤ k.line := hcall _ _ _ k hshape rfl rfl (hk k rfl) m hm
      have htree := hall.1
      rw [Option.toList_some, Node.preorder_cons, Node.preorder_nil, List.append_nil] at htree hn
      rcases List.mem_cons.mp hn with rfl | hn
      · exact hlast
      · exact UInt64.le_trans hlast ((Node.inOrder_cons.mp htree).1 n hn)

theorem assembly (scope : Scope) : Assembly scope Ordered where
  nil := ⟨nofun, fun _ _ => List.Pairwise.nil⟩
  append := append
  silent _ := ⟨nofun, fun _ _ => List.Pairwise.nil⟩
  node _ _ _ h := node rfl h
  call := call
  html _ _ := node rfl ⟨nofun, fun _ _ => List.Pairwise.nil⟩
  join hj h := {
    lines := fun n hn => by
      obtain ⟨m, hm, heq⟩ := List.mem_map.mp (hj.sublist.mem (List.mem_map_of_mem hn))
      exact heq ▸ h.lines m hm
    inOrder := fun hps hc => (h.inOrder hps (hj.codeLast hc)).sublist hj.sublist }
  group h := group rfl h
  drop _ := ⟨nofun, fun _ _ => List.Pairwise.nil⟩

end Ordered

/-- The nodes of a tree in the order in which a walk enters them. -/
def Parsed.entered (p : Parsed) : List Node :=
  (p.root.trace fun _ => true).filterMap WalkEvent.entered?

namespace Template

variable {file : Option String} {ts : List Token} {p : Parsed}

/-- A walk over the tree of a stream whose lines never decrease enters the nodes in the order of
their lines just when no call holds code behind what follows that code. -/
theorem entered_inOrder_iff (hts : (ts.map Token.line).Pairwise (· ≤ ·))
    (hp : parse file ts = .ok p) :
    Node.InOrder p.entered ↔ ∀ n ∈ p.entered, n.CodeLast := by
  obtain ⟨t, hf, htokens, -, rfl⟩ := parse_ok.mp hp
  rw [Parsed.entered, Block.entered_trace]
  constructor
  · intro h n hn head body init last hshape _ hnodes _ m hm
    have hsub := (Node.sublist_preorder hn).map Node.line
    have hn := h.sublist hsub
    have hchildren : n.children = init ++ [last] := by
      rw [Node.children, hshape]
      exact hnodes
    rw [hchildren, Node.preorder_append] at hn
    exact (Node.inOrder_append.mp (Node.inOrder_cons.mp hn).2).2.2 m hm last
      (by rw [Node.preorder_cons]; exact List.mem_cons_self)
  · have ho : Ordered t.placed (t.value ⟨file⟩) := t.assembled (Ordered.assembly ⟨file⟩) hf
    refine ho.inOrder ?_
    obtain ⟨q, hq, -⟩ := t.passes (p := .start) hf trivial
    have hplaced : t.placed.map Placed.token = t.tokens := by
      rw [← hq.placed, Situation.map_token_placed]
      rfl
    have hlines : t.placed.map Placed.line = t.tokens.map Token.line := by
      rw [← hplaced, List.map_map]
      rfl
    rw [hlines, htokens]
    exact hts.sublist ((List.takeWhile_sublist _).map _)

/-- A call with code on its line and nothing below. -/
def codeAlone : List Token :=
  [⟨1, .call "m" none⟩, ⟨1, .code ⟨"x", true, true, false, false, false, false⟩⟩, ⟨2, .newline⟩,
    ⟨2, .tag "p" false⟩]

theorem entered_inOrder_iff_codeAlone : (codeAlone.map Token.line).Pairwise (· ≤ ·) ∧
    ∃ p, parse none codeAlone = .ok p ∧ p.entered.map Node.line = [1, 1, 2] ∧
      ∀ n ∈ p.entered, n.CodeLast := by
  have hts : (codeAlone.map Token.line).Pairwise (· ≤ ·) := by decide
  have hlines : (match parse none codeAlone with
      | .ok p => p.entered.map Node.line
      | .error _ => []) = [1, 1, 2] := by decide +kernel
  refine ⟨hts, ?_⟩
  cases hp : parse none codeAlone with
  | error d =>
    rw [hp] at hlines
    cases hlines
  | ok p =>
    rw [hp] at hlines
    have hlines : p.entered.map Node.line = [1, 1, 2] := hlines
    refine ⟨p, rfl, hlines, (entered_inOrder_iff hts hp).mp ?_⟩
    rw [Node.InOrder, hlines]
    decide

/-- A call with code on its line and a tag below. -/
def codeAboveTag : List Token :=
  [⟨1, .call "m" none⟩, ⟨1, .code ⟨"x", true, true, false, false, false, false⟩⟩, ⟨2, .newline⟩,
    ⟨2, .indent 2⟩, ⟨2, .tag "p" false⟩, ⟨3, .outdent⟩]

/-- The tag is entered before the code that stands above it. -/
theorem parse_codeAboveTag : (codeAboveTag.map Token.line).Pairwise (· ≤ ·) ∧
    ∃ p, parse none codeAboveTag = .ok p ∧
      p.entered.map (fun n => (n.kind, n.line)) = [(.mixin, 1), (.tag, 2), (.code, 1)] ∧
        ¬ Node.InOrder p.entered := by
  have hentered : (match parse none codeAboveTag with
      | .ok p => p.entered.map fun n => (n.kind, n.line)
      | .error _ => []) = [(.mixin, 1), (.tag, 2), (.code, 1)] := by decide +kernel
  refine ⟨by decide, ?_⟩
  cases hp : parse none codeAboveTag with
  | error d =>
    rw [hp] at hentered
    cases hentered
  | ok p =>
    rw [hp] at hentered
    have hentered : p.entered.map (fun n => (n.kind, n.line)) =
      [(.mixin, 1), (.tag, 2), (.code, 1)] := hentered
    have hlines : p.entered.map Node.line = [1, 2, 1] := by
      have hmap := congrArg (List.map Prod.snd) hentered
      rwa [List.map_map] at hmap
    refine ⟨p, rfl, hentered, ?_⟩
    rw [Node.InOrder, hlines]
    decide

end Template

end TemplateTree
