import TemplateTree.Node.Summary
import TemplateTree.Proofs.Walks

/-!
What a summary says of the nodes under a block. A visitor that declines no children and does
nothing on leaving goes through the nodes in preorder, so each list of a summary holds what these
nodes contribute to it, at the place of its first occurrence.
-/

namespace TemplateTree
set_option autoImplicit false

/-- The nodes under a block in the order of their addresses, each in front of those under it. -/
def Block.Preorder (root : Block) (nodes : List Node) : Prop :=
  ∃ places : List Address, (places.Pairwise fun p q => p.Above q ∨ p.Precedes q) ∧
    (∀ p, p ∈ places ↔ (root.get? p).isSome = true) ∧ places.map root.get? = nodes.map some

namespace Moment

def entered? : Moment → Option Address
  | enter p => some p
  | leave _ => none

theorem entered?_eq_some {m : Moment} {p : Address} : m.entered? = some p ↔ m = enter p := by
  cases m <;> simp [entered?]

end Moment

namespace Itinerary

variable {get : Address → Option Node} {ms : List Moment}

/-- Nodes are entered in the order of their addresses. -/
theorem pairwise_entered (h : Itinerary get ms) :
    (ms.filterMap Moment.entered?).Pairwise fun p q => p.Above q ∨ p.Precedes q := by
  rw [List.pairwise_filterMap]
  apply List.pairwise_iff_forall_sublist.mpr
  intro m k hmk p hp q hq
  rw [Moment.entered?_eq_some.mp hp, Moment.entered?_eq_some.mp hq] at hmk
  have hpm : (get p).isSome = true := (h.mem_iff (.enter p)).mp (hmk.subset (by simp))
  have hqm : (get q).isSome = true := (h.mem_iff (.enter q)).mp (hmk.subset (by simp))
  rcases Address.eq_or_above_or_precedes p q with heq | habove | habove | hleft | hright
  · rw [heq] at hmk
    exact absurd hmk (List.nodup_iff_sublist.mp h.nodup _)
  · exact .inl habove
  · exact absurd hmk (not_sublist_swap h.nodup (.trans (by simp) (h.within q p hqm hpm habove)))
  · exact .inr hleft
  · exact absurd hmk (not_sublist_swap h.nodup (.trans (by simp) (h.inOrder q p hqm hpm hright)))

end Itinerary

theorem Block.preorder_nodes (root : Block) : root.Preorder (Node.preorder root.nodes) := by
  have hspec := root.itinerary_spec
  refine ⟨root.itinerary.filterMap Moment.entered?, hspec.pairwise_entered, ?_, ?_⟩
  · intro p
    rw [List.mem_filterMap]
    simp only [Moment.entered?_eq_some, exists_eq_right]
    exact hspec.mem_iff (.enter p)
  · rw [← entered_trace, trace_eq_events, List.filterMap_filterMap, List.map_filterMap,
      List.map_filterMap]
    apply List.filterMap_congr
    intro m hm
    have hsome := (hspec.mem_iff m).mp hm
    cases m with
    | enter p =>
      obtain ⟨n, hn⟩ := Option.isSome_iff_exists.mp hsome
      simp [Moment.entered?, Moment.event?, WalkEvent.entered?, show root.get? p = some n from hn]
    | leave p =>
      obtain ⟨n, hn⟩ := Option.isSome_iff_exists.mp hsome
      simp [Moment.entered?, Moment.event?, WalkEvent.entered?, show root.get? p = some n from hn]

/-- A visitor that goes everywhere and does nothing on leaving sees the nodes one by one. -/
theorem Visitor.visitNodes_eq_foldl {σ : Type} {v : Visitor σ} {f : σ → Node → σ}
    (henter : ∀ n s, v.enter n s = (true, f s n)) (hleave : ∀ n s, v.leave n s = s)
    (nodes : List Node) (s : σ) : v.visitNodes nodes s = (Node.preorder nodes).foldl f s := by
  -- Lists first, since the children of a node are one and the induction below is on the node.
  have hnodes {ns : List Node} (h : ∀ n ∈ ns, ∀ s, v.visit n s =
      (n :: Node.preorder n.children).foldl f s) (s : σ) :
      v.visitNodes ns s = (Node.preorder ns).foldl f s := by
    induction ns generalizing s with
    | nil => rfl
    | cons n ns ih =>
      obtain ⟨hn, hns⟩ := List.forall_mem_cons.mp h
      rw [visitNodes, ih hns, hn, Node.preorder_cons, ← List.cons_append, List.foldl_append]
  have hnode (n : Node) : ∀ s, v.visit n s = (n :: Node.preorder n.children).foldl f s := by
    induction n using Node.induction with
    | step n ih =>
      intro s
      rw [visit_eq, hleave, henter, if_pos rfl, hnodes ih]
      rfl
  exact hnodes (fun n _ => hnode n) s

section Insertion

variable {α : Type} [DecidableEq α]

/-- Inserting items one by one keeps the first occurrence of each that is new. -/
theorem foldl_insertNew (as bs : List α) :
    as.foldl (fun bs a => insertNew a bs) bs = bs ++ (as.filter fun a => a ∉ bs).eraseDups := by
  induction as generalizing bs with
  | nil => simp
  | cons a as ih =>
    rw [List.foldl_cons, ih]
    by_cases ha : a ∈ bs
    · rw [insertNew, if_pos ha, List.filter_cons_of_neg (by simpa using ha)]
    · rw [insertNew, if_neg ha, List.filter_cons_of_pos (by simpa using ha), List.eraseDups_cons,
        List.filter_filter, List.append_assoc, List.singleton_append]
      congr 4
      funext b
      by_cases hb : b = a <;> simp [hb]

theorem foldl_insertNew_nil (as : List α) :
    as.foldl (fun bs a => insertNew a bs) [] = as.eraseDups := by
  rw [foldl_insertNew, List.nil_append, List.filter_eq_self.mpr (by simp)]

end Insertion

namespace Node

def definedMixin? (n : Node) : Option String :=
  match n.shape with
  | .mixin head _ => if head.isCall then none else some head.name
  | _ => none

def calledMixin? (n : Node) : Option String :=
  match n.shape with
  | .mixin head _ => if head.isCall then some head.name else none
  | _ => none

def namedBlock? (n : Node) : Option NamedBlockRef :=
  match n.shape with
  | .namedBlock name mode _ => some ⟨name, mode⟩
  | _ => none

def inherited? (n : Node) : Option String :=
  match n.shape with
  | .inherit path => some path
  | _ => none

def included? (n : Node) : Option String :=
  match n.shape with
  | .inclusion path .. => some path
  | _ => none

end Node

namespace Summary

/-- Noting a node inserts what it contributes to each list. -/
theorem note_eq (n : Node) (s : Summary) : note n s =
    { mixinsDefined := n.definedMixin?.elim s.mixinsDefined fun a => insertNew a s.mixinsDefined
      mixinsCalled := n.calledMixin?.elim s.mixinsCalled fun a => insertNew a s.mixinsCalled
      namedBlocks := n.namedBlock?.elim s.namedBlocks fun a => insertNew a s.namedBlocks
      inherits := s.inherits.or n.inherited?
      includes := n.included?.elim s.includes fun a => insertNew a s.includes } := by
  obtain ⟨origin, shape⟩ := n
  cases shape with
  | mixin head body =>
    cases h : head.isCall <;>
      simp [note, Node.definedMixin?, Node.calledMixin?, Node.namedBlock?, Node.inherited?,
        Node.included?, h]
  | inherit path => rfl
  | _ =>
    simp [note, Node.definedMixin?, Node.calledMixin?, Node.namedBlock?, Node.inherited?,
      Node.included?]

section Lists

variable {α : Type} [DecidableEq α] {field : Summary → List α} {item? : Node → Option α}

/-- A list to which every node adds at most one item holds the first occurrences of the items. -/
theorem field_foldl_note
    (h : ∀ s n, field (note n s) = (item? n).elim (field s) fun a => insertNew a (field s))
    (nodes : List Node) (s : Summary) (hs : field s = []) :
    field (nodes.foldl (fun s n => note n s) s) = (nodes.filterMap item?).eraseDups := by
  have hfold (s : Summary) : field (nodes.foldl (fun s n => note n s) s) =
      (nodes.filterMap item?).foldl (fun as a => insertNew a as) (field s) := by
    induction nodes generalizing s with
    | nil => rfl
    | cons n nodes ih =>
      rw [List.foldl_cons, ih, h, List.filterMap_cons]
      cases item? n <;> rfl
  rw [hfold, hs, foldl_insertNew_nil]

end Lists

/-- The first path that is inherited stands. -/
theorem inherits_foldl_note (nodes : List Node) (s : Summary) :
    (nodes.foldl (fun s n => note n s) s).inherits =
      s.inherits.or (nodes.filterMap Node.inherited?).head? := by
  induction nodes generalizing s with
  | nil => simp
  | cons n nodes ih =>
    rw [List.foldl_cons, ih, note_eq, List.filterMap_cons]
    cases n.inherited? <;> simp

theorem ofBlock_eq_foldl (root : Block) :
    ofBlock root = (Node.preorder root.nodes).foldl (fun s n => note n s) empty := by
  rw [ofBlock, Block.walk, Visitor.visitBlock_eq]
  exact Visitor.visitNodes_eq_foldl (fun _ _ => rfl) (fun _ _ => rfl) _ _

/-- A summary lists what the nodes of a tree contribute to it, each entry where it occurs first. -/
theorem ofBlock_first_occurrences (root : Block) : ∃ nodes, root.Preorder nodes ∧
    ofBlock root =
      { mixinsDefined := (nodes.filterMap Node.definedMixin?).eraseDups
        mixinsCalled := (nodes.filterMap Node.calledMixin?).eraseDups
        namedBlocks := (nodes.filterMap Node.namedBlock?).eraseDups
        inherits := (nodes.filterMap Node.inherited?).head?
        includes := (nodes.filterMap Node.included?).eraseDups } ∧
    (ofBlock root).undefinedMixins = (ofBlock root).mixinsCalled.filter fun name =>
      ∀ n ∈ nodes, n.definedMixin? ≠ some name := by
  have hfields (s : Summary) :
      s = ⟨s.mixinsDefined, s.mixinsCalled, s.namedBlocks, s.inherits, s.includes⟩ := rfl
  have hsummary := ofBlock_eq_foldl root
  generalize hnodes : Node.preorder root.nodes = nodes at hsummary
  have hdefined : (ofBlock root).mixinsDefined =
      (nodes.filterMap Node.definedMixin?).eraseDups := by
    rw [hsummary]
    exact field_foldl_note (fun s n => congrArg mixinsDefined (note_eq n s)) nodes empty rfl
  have hcalled : (ofBlock root).mixinsCalled = (nodes.filterMap Node.calledMixin?).eraseDups := by
    rw [hsummary]
    exact field_foldl_note (fun s n => congrArg mixinsCalled (note_eq n s)) nodes empty rfl
  have hblocks : (ofBlock root).namedBlocks = (nodes.filterMap Node.namedBlock?).eraseDups := by
    rw [hsummary]
    exact field_foldl_note (fun s n => congrArg namedBlocks (note_eq n s)) nodes empty rfl
  have hincludes : (ofBlock root).includes = (nodes.filterMap Node.included?).eraseDups := by
    rw [hsummary]
    exact field_foldl_note (fun s n => congrArg includes (note_eq n s)) nodes empty rfl
  have hinherits : (ofBlock root).inherits = (nodes.filterMap Node.inherited?).head? := by
    rw [hsummary]
    exact inherits_foldl_note nodes empty
  refine ⟨nodes, hnodes ▸ root.preorder_nodes, ?_, ?_⟩
  · rw [hfields (ofBlock root), hdefined, hcalled, hblocks, hinherits, hincludes]
  · apply List.filter_congr
    intro name _
    apply Bool.eq_iff_iff.mpr
    rw [definesMixin, hdefined]
    simp

end Summary

end TemplateTree
