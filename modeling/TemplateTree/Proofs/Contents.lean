import Mathlib.Data.List.Chain
import TemplateTree.Proofs.SourceOrder

/-!
Nothing is lost and nothing is added: what the tokens of a stream say is what the nodes of its tree
say, each on its line. Lines of HTML may share a node, and what stands behind the dot of a head on
its line is dropped.
-/

namespace TemplateTree
set_option autoImplicit false

open List (Perm Sublist)

/-- A line of HTML with its content. -/
abbrev HtmlLine : Type := Line × String

/-- Lines of HTML as one text, on the line of the first. -/
def joinedHtml (run : List HtmlLine) : HtmlLine :=
  ((run.head?.map Prod.fst).getD 0, "\n".intercalate (run.map Prod.snd))

theorem joinedHtml_append {as bs : List HtmlLine} (ha : as ≠ []) (hb : bs ≠ []) :
    joinedHtml (as ++ bs) =
      ((joinedHtml as).1, (joinedHtml as).2 ++ "\n" ++ (joinedHtml bs).2) := by
  rw [joinedHtml, List.map_append,
    String.intercalate_append_of_ne_nil (by simpa using ha) (by simpa using hb)]
  cases as with
  | nil => exact absurd rfl ha
  | cons a as => rfl

namespace Placed

/-- What a token says, and on which line. -/
def entry? (p : Placed) : Option (Line × Piece) := p.piece?.map (Prod.mk p.line)

def htmlLine? (p : Placed) : Option HtmlLine := p.html?.map (Prod.mk p.line)

/-- Nothing stands behind the dot of a head that would be dropped. -/
def KeepsAll (ps : List Placed) : Prop := ps.IsChain fun dot next => ¬ dot.Drops next

instance (dot next : Placed) : Decidable (dot.Drops next) :=
  inferInstanceAs (Decidable (_ ∧ _))

instance (ps : List Placed) : Decidable (KeepsAll ps) :=
  inferInstanceAs (Decidable (List.IsChain _ ps))

/-- No line of HTML says anything else. -/
theorem htmlLine?_of_piece? {p : Placed} {piece : Piece} (h : p.piece? = some piece) :
    p.htmlLine? = none := by
  obtain ⟨⟨line, lexeme⟩, role⟩ := p
  cases role with
  | plain => cases lexeme <;> first | rfl | cases h
  | _ => rfl

end Placed

namespace Node

/-- What a node says, and on which line. -/
def entry? (n : Node) : Option (Line × Piece) := n.shape.piece?.map (Prod.mk n.line)

/-- The line and the text of a node that stands for HTML. -/
def htmlLine? (n : Node) : Option HtmlLine := n.htmlText?.map (Prod.mk n.line)

variable {ns js : List Node}

/-- No node for HTML says anything else. -/
theorem htmlLine?_of_piece? {origin : Origin} {shape : Shape Node} {piece : Piece}
    (h : shape.piece? = some piece) : htmlLine? ⟨origin, shape⟩ = none := by
  cases shape with
  | text content isHtml => cases isHtml <;> first | rfl | cases h
  | _ => rfl

/-- A node that says nothing is a block that holds others together. -/
theorem exists_block_of_silent {n : Node} (he : n.entry? = none) (hh : n.htmlLine? = none) :
    ∃ nodes, n.shape = .block nodes false := by
  obtain ⟨origin, shape⟩ := n
  cases shape with
  | block nodes isYield =>
    cases isYield with
    | true => cases he
    | false => exact ⟨nodes, rfl⟩
  | text content isHtml =>
    cases isHtml with
    | true => cases hh
    | false => cases he
  | _ => cases he

/-- What nodes for HTML have no part in stays the same where HTML is joined. -/
theorem Joins.filterMap {α : Type} {f : Node → Option α}
    (hf : ∀ (origin : Origin) (a : String), f ⟨origin, .text a true⟩ = none) (h : Joins ns js) :
    (preorder js).filterMap f = (preorder ns).filterMap f := by
  have hone {origin : Origin} {a : String} {ms : List Node} :
      (preorder (⟨origin, .text a true⟩ :: ms)).filterMap f = (preorder ms).filterMap f := by
    rw [preorder_cons, List.filterMap_cons_none (hf origin a)]
    rfl
  induction h with
  | nil => rfl
  | cons n _ ih =>
    rw [preorder_cons, preorder_cons, List.filterMap_cons, List.filterMap_cons,
      List.filterMap_append, List.filterMap_append, ih]
  | join origin other a b _ ih => rw [hone, hone, ← ih, hone]

end Node

/-- What the tokens say is what the nodes under the others say. -/
def Said (ps : List Placed) (ns : List Node) : Prop :=
  Placed.KeepsAll ps →
    Perm ((Node.preorder ns).filterMap Node.entry?) (ps.filterMap Placed.entry?)

namespace Said

variable {p : Placed} {ps qs : List Placed} {ms ns : List Node} {n : Node}

theorem append (hm : Said ps ms) (hn : Said qs ns) : Said (ps ++ qs) (ms ++ ns) := by
  intro hk
  rw [Node.preorder_append, List.filterMap_append, List.filterMap_append]
  exact (hm hk.left_of_append).append (hn hk.right_of_append)

/-- A token and a node that say the same, over what says the same. -/
theorem node (entry : Line × Piece) (hp : p.entry? = some entry) (hn : n.entry? = some entry)
    (h : Placed.KeepsAll ps →
      Perm ((Node.preorder n.children).filterMap Node.entry?) (ps.filterMap Placed.entry?)) :
    Said (p :: ps) [n] := by
  intro hk
  rw [Node.preorder_cons, Node.preorder_nil, List.append_nil, List.filterMap_cons_some hn,
    List.filterMap_cons_some hp]
  exact (h hk.tail).cons entry

theorem silent (hp : p.Silent) : Said [p] [] := by
  intro _
  rw [List.filterMap_cons_none (by rw [Placed.entry?, hp.1]; rfl)]
  exact .refl _

theorem assembly (scope : Scope) : Assembly scope Said where
  nil _ := .refl _
  append := append
  silent := silent
  node piece hp hs h := node (_, piece) (by rw [Placed.entry?, hp]; rfl)
    (by rw [Node.entry?, Scope.node, hs]; rfl) h
  call {line name args _ c} h _ := by
    refine node (line, .mixin name args) rfl rfl fun hk => ?_
    rw [Content.children_call]
    refine Perm.trans ?_ (h hk)
    rw [Node.preorder_append, Node.preorder_append]
    exact List.perm_append_comm.filterMap _
  html _ _ _ := .refl _
  join hj h hk := hj.filterMap (f := Node.entry?) (fun _ _ => rfl) ▸ h hk
  group {p ps ns} h hk := by
    rw [Node.preorder_cons, Node.preorder_nil, List.append_nil, List.filterMap_cons_none rfl]
    exact h hk
  drop hd hk := absurd hd (List.isChain_cons_cons.mp hk).1

end Said

/-! Lines of HTML. -/

namespace Node

variable {ns js : List Node}

/-- What is under nodes. -/
def under (ns : List Node) : List Node := ns.flatMap fun n => preorder n.children

theorem preorder_perm (ns : List Node) : Perm (preorder ns) (ns ++ under ns) := by
  induction ns with
  | nil => exact .refl _
  | cons n ns ih =>
    rw [preorder_cons, under, List.flatMap_cons, List.cons_append]
    exact ((ih.append_left _).trans (List.perm_append_comm_assoc _ _ _)).cons n

theorem Joins.under_eq (h : Joins ns js) : under js = under ns := by
  have hone {origin : Origin} {a : String} {ms : List Node} :
      under (⟨origin, .text a true⟩ :: ms) = under ms := rfl
  induction h with
  | nil => rfl
  | cons n _ ih =>
    rw [under, under, List.flatMap_cons, List.flatMap_cons]
    exact congrArg _ ih
  | join origin other a b _ ih => rw [hone, hone, ← ih, hone]

/-- Joining HTML joins runs of its lines. -/
theorem Joins.runs (h : Joins ns js) {top : List (List HtmlLine)}
    (ht : top.map joinedHtml = ns.filterMap htmlLine?) (hne : ∀ r ∈ top, r ≠ []) :
    ∃ top' : List (List HtmlLine), top'.map joinedHtml = js.filterMap htmlLine? ∧
      (∀ r ∈ top', r ≠ []) ∧ top'.flatten = top.flatten := by
  induction h generalizing top with
  | nil => exact ⟨top, ht, hne, rfl⟩
  | cons n _ ih =>
    cases hn : n.htmlLine? with
    | none =>
      rw [List.filterMap_cons_none hn] at ht ⊢
      exact ih ht hne
    | some line =>
      rw [List.filterMap_cons_some hn] at ht ⊢
      obtain ⟨r, rest, rfl, hr, hrest⟩ := List.map_eq_cons_iff.mp ht
      obtain ⟨hner, hne⟩ := List.forall_mem_cons.mp hne
      obtain ⟨top', ht', hne', hflat⟩ := ih hrest hne
      refine ⟨r :: top', by rw [List.map_cons, hr, ht'], List.forall_mem_cons.mpr ⟨hner, hne'⟩, ?_⟩
      rw [List.flatten_cons, List.flatten_cons, hflat]
  | join origin other a b _ ih =>
    obtain ⟨r, rest, rfl, hr, hrest⟩ := List.map_eq_cons_iff.mp ht
    obtain ⟨hner, hne⟩ := List.forall_mem_cons.mp hne
    obtain ⟨top', ht', hne', hflat⟩ := ih hrest hne
    obtain ⟨r', rest', rfl, hr', hrest'⟩ := List.map_eq_cons_iff.mp ht'
    obtain ⟨hner', hne'⟩ := List.forall_mem_cons.mp hne'
    refine ⟨(r ++ r') :: rest', ?_, List.forall_mem_cons.mpr ⟨by simp [hner], hne'⟩, ?_⟩
    · rw [List.map_cons, hrest', joinedHtml_append hner hner', hr, hr']
      rfl
    · rw [List.flatten_cons, List.flatten_cons, List.append_assoc, ← List.flatten_cons, hflat]

end Node

/-- Runs of lines of HTML that are the texts of the nodes for HTML: those of the given nodes, in
their order, and those of the nodes under them. -/
structure HtmlRuns (lines : List HtmlLine) (ns : List Node) (top deep : List (List HtmlLine)) :
    Prop where
  texts_top : top.map joinedHtml = ns.filterMap Node.htmlLine?
  texts_deep : Perm (deep.map joinedHtml) ((Node.under ns).filterMap Node.htmlLine?)
  ne_nil : ∀ r ∈ top ++ deep, r ≠ []
  sublist_top : Sublist top.flatten lines
  sublist_deep : ∀ r ∈ deep, Sublist r lines
  perm : Perm (top ++ deep).flatten lines

namespace HtmlRuns

variable {lines lines' : List HtmlLine} {ms ns js : List Node} {n : Node}
variable {top deep top' deep' : List (List HtmlLine)}

/-- A run leaves lines out but does not change their order. -/
theorem sublist (h : HtmlRuns lines ns top deep) : ∀ r ∈ top ++ deep, Sublist r lines := by
  rintro r hr
  rcases List.mem_append.mp hr with hr | hr
  · exact (List.sublist_flatten_of_mem hr).trans h.sublist_top
  · exact h.sublist_deep r hr

theorem preorder (h : HtmlRuns lines ns top deep) :
    Perm ((top ++ deep).map joinedHtml) ((Node.preorder ns).filterMap Node.htmlLine?) := by
  refine Perm.trans ?_ ((Node.preorder_perm ns).filterMap _).symm
  rw [List.map_append, List.filterMap_append, h.texts_top]
  exact h.texts_deep.append_left _

theorem nil : HtmlRuns [] [] [] [] := ⟨rfl, .refl _, nofun, .refl _, nofun, .refl _⟩

theorem append (hm : HtmlRuns lines ms top deep) (hn : HtmlRuns lines' ns top' deep') :
    HtmlRuns (lines ++ lines') (ms ++ ns) (top ++ top') (deep ++ deep') := by
  have hswap : Perm (top ++ top' ++ (deep ++ deep')) (top ++ deep ++ (top' ++ deep')) := by
    rw [List.append_assoc, List.append_assoc]
    exact (List.perm_append_comm_assoc _ _ _).append_left top
  refine ⟨?_, ?_, ?_, ?_, ?_, ?_⟩
  · rw [List.map_append, List.filterMap_append, hm.texts_top, hn.texts_top]
  · rw [List.map_append, Node.under, List.flatMap_append, List.filterMap_append]
    exact hm.texts_deep.append hn.texts_deep
  · intro r hr
    rcases List.mem_append.mp (hswap.mem_iff.mp hr) with hr | hr
    · exact hm.ne_nil r hr
    · exact hn.ne_nil r hr
  · rw [List.flatten_append]
    exact hm.sublist_top.append hn.sublist_top
  · intro r hr
    rcases List.mem_append.mp hr with hr | hr
    · exact (hm.sublist_deep r hr).trans (List.sublist_append_left _ _)
    · exact (hn.sublist_deep r hr).trans (List.sublist_append_right _ _)
  · refine hswap.flatten.trans ?_
    rw [List.flatten_append]
    exact hm.perm.append hn.perm

/-- Under another node that is not HTML, the texts are no longer next to what follows. -/
theorem put (h : HtmlRuns lines ns top deep) (hn : n.htmlLine? = none)
    (hc : Perm (Node.preorder ns) (Node.preorder n.children)) :
    HtmlRuns lines [n] [] (top ++ deep) where
  texts_top := by
    rw [List.filterMap_cons_none hn]
    rfl
  texts_deep := by
    rw [Node.under, List.flatMap_singleton]
    exact h.preorder.trans (hc.filterMap _)
  ne_nil := h.ne_nil
  sublist_top := List.nil_sublist _
  sublist_deep := h.sublist
  perm := h.perm

theorem html (line : HtmlLine) (hn : n.htmlLine? = some line) (hc : n.children = []) :
    HtmlRuns [line] [n] [[line]] [] where
  texts_top := by
    rw [List.filterMap_cons_some hn]
    simp [joinedHtml]
  texts_deep := by
    rw [Node.under, List.flatMap_singleton, hc]
    exact .refl _
  ne_nil := by simp
  sublist_top := .refl _
  sublist_deep := nofun
  perm := .refl _

theorem join (h : HtmlRuns lines ns top deep) (hj : Node.Joins ns js) :
    ∃ top', HtmlRuns lines js top' deep := by
  obtain ⟨hnt, hnd⟩ := List.forall_mem_append.mp h.ne_nil
  obtain ⟨top', ht', hne', hflat⟩ := hj.runs h.texts_top hnt
  refine ⟨top', ht', hj.under_eq ▸ h.texts_deep, List.forall_mem_append.mpr ⟨hne', hnd⟩,
    hflat ▸ h.sublist_top, h.sublist_deep, ?_⟩
  have hperm := h.perm
  rwa [List.flatten_append, ← hflat, ← List.flatten_append] at hperm

end HtmlRuns

/-- The lines of HTML among the tokens are the lines of the nodes for HTML. -/
def HtmlKept (ps : List Placed) (ns : List Node) : Prop :=
  Placed.KeepsAll ps → ∃ top deep, HtmlRuns (ps.filterMap Placed.htmlLine?) ns top deep

namespace HtmlKept

variable {p : Placed} {ps qs : List Placed} {ms ns : List Node} {n : Node}

theorem append (hm : HtmlKept ps ms) (hn : HtmlKept qs ns) : HtmlKept (ps ++ qs) (ms ++ ns) := by
  intro hk
  obtain ⟨top, deep, hm⟩ := hm hk.left_of_append
  obtain ⟨top', deep', hn⟩ := hn hk.right_of_append
  rw [List.filterMap_append]
  exact ⟨_, _, hm.append hn⟩

theorem node (hp : p.htmlLine? = none) (hn : n.htmlLine? = none)
    (hc : Perm (Node.preorder ns) (Node.preorder n.children)) (h : HtmlKept ps ns) :
    HtmlKept (p :: ps) [n] := by
  intro hk
  obtain ⟨top, deep, h⟩ := h hk.tail
  rw [List.filterMap_cons_none hp]
  exact ⟨_, _, h.put hn hc⟩

theorem silent (hp : p.Silent) : HtmlKept [p] [] := by
  intro _
  rw [List.filterMap_cons_none (by rw [Placed.htmlLine?, hp.2]; rfl)]
  exact ⟨_, _, .nil⟩

theorem assembly (scope : Scope) : Assembly scope HtmlKept where
  nil _ := ⟨_, _, .nil⟩
  append := append
  silent := silent
  node _ hp hs h := node (Placed.htmlLine?_of_piece? hp) (Node.htmlLine?_of_piece? hs) (.refl _) h
  call h _ := by
    refine node rfl rfl ?_ h
    rw [Content.children_call, Node.preorder_append, Node.preorder_append]
    exact List.perm_append_comm
  html line content _ := ⟨_, _, .html (line, content) rfl rfl⟩
  join hj h hk := by
    obtain ⟨top, deep, h⟩ := h hk
    obtain ⟨top', h⟩ := h.join hj
    exact ⟨top', deep, h⟩
  group h hk := by
    obtain ⟨top, deep, h⟩ := h hk
    exact ⟨_, _, h.put rfl (.refl _)⟩
  drop hd hk := absurd hd (List.isChain_cons_cons.mp hk).1

end HtmlKept

namespace Template

variable {file : Option String} {ts : List Token} {p : Parsed}

theorem placed_eq {t : Phrase .items} (hf : t.Fits .eos)
    (htokens : t.tokens = ts.takeWhile fun t => !t.isEos) : placed ts = t.placed := by
  obtain ⟨q, hq, -⟩ := t.passes (p := .start) hf trivial
  rw [placed, ← htokens]
  exact hq.placed

/-- What the tokens of a stream say is what the nodes of its tree say, each on its line. Every line
of HTML is in one node for HTML, alone or with others from the stream in their order. All other
nodes are blocks. -/
theorem contents_kept (hp : parse file ts = .ok p) (hk : Placed.KeepsAll (placed ts)) :
    Perm (p.entered.filterMap Node.entry?) ((placed ts).filterMap Placed.entry?) ∧
      (∃ runs : List (List HtmlLine),
        Perm (p.entered.filterMap Node.htmlLine?) (runs.map joinedHtml) ∧
          (∀ r ∈ runs, r ≠ [] ∧ Sublist r ((placed ts).filterMap Placed.htmlLine?)) ∧
            Perm runs.flatten ((placed ts).filterMap Placed.htmlLine?)) ∧
        ∀ n ∈ p.entered, n.entry? = none → n.htmlLine? = none →
          ∃ nodes, n.shape = .block nodes false := by
  obtain ⟨t, hf, htokens, -, rfl⟩ := parse_ok.mp hp
  rw [placed_eq hf htokens] at hk ⊢
  rw [Parsed.entered, Block.entered_trace]
  have hsaid : Said t.placed (t.value ⟨file⟩) := t.assembled (Said.assembly ⟨file⟩) hf
  have hhtml : HtmlKept t.placed (t.value ⟨file⟩) := t.assembled (HtmlKept.assembly ⟨file⟩) hf
  obtain ⟨top, deep, h⟩ := hhtml hk
  refine ⟨hsaid hk, ⟨top ++ deep, h.preorder.symm, ?_, h.perm⟩, fun n _ => ?_⟩
  · exact fun r hr => ⟨h.ne_nil r hr, h.sublist r hr⟩
  · exact Node.exists_block_of_silent

/-- A list that shows its items as text, or HTML when there are none. -/
def itemList : List Token :=
  [⟨1, .tag "ul" false⟩, ⟨1, .className "items"⟩, ⟨2, .indent 2⟩,
    ⟨2, .each ⟨"item", none, "items"⟩⟩, ⟨3, .indent 4⟩, ⟨3, .idName "item"⟩, ⟨3, .dot⟩,
    ⟨4, .startPipeless⟩, ⟨4, .text "a"⟩, ⟨5, .newline⟩, ⟨5, .text "b"⟩, ⟨5, .endPipeless⟩,
    ⟨6, .outdent⟩, ⟨6, .code ⟨"else", false, false, true, false, false, true⟩⟩, ⟨7, .indent 4⟩,
    ⟨7, .textHtml "<li>"⟩, ⟨8, .newline⟩, ⟨8, .textHtml "</li>"⟩, ⟨9, .outdent⟩, ⟨9, .outdent⟩]

theorem contents_kept_itemList : Placed.KeepsAll (placed itemList) ∧
    ∃ p, parse none itemList = .ok p ∧
      Perm (p.entered.filterMap Node.entry?)
        [(1, .tag "ul" false), (2, .each ⟨"item", none, "items"⟩), (3, .tag "div" false),
          (4, .text "a"), (5, .text "\n"), (5, .text "b")] ∧
        ∃ runs : List (List HtmlLine),
          Perm (p.entered.filterMap Node.htmlLine?) (runs.map joinedHtml) ∧
            Perm runs.flatten [(7, "<li>"), (8, "</li>")] := by
  have hk : Placed.KeepsAll (placed itemList) := by decide +kernel
  have hentries : (placed itemList).filterMap Placed.entry? =
      [(1, .tag "ul" false), (2, .each ⟨"item", none, "items"⟩), (3, .tag "div" false),
        (4, .text "a"), (5, .text "\n"), (5, .text "b")] := by decide +kernel
  have hhtml : (placed itemList).filterMap Placed.htmlLine? = [(7, "<li>"), (8, "</li>")] := by
    decide +kernel
  have hok : (match parse none itemList with
      | .ok _ => true
      | .error _ => false) = true := by decide +kernel
  refine ⟨hk, ?_⟩
  cases hp : parse none itemList with
  | error d =>
    rw [hp] at hok
    cases hok
  | ok p =>
    obtain ⟨hsaid, ⟨runs, htexts, _, hlines⟩, _⟩ := contents_kept hp hk
    rw [hentries] at hsaid
    rw [hhtml] at hlines
    exact ⟨p, rfl, hsaid, runs, htexts, hlines⟩

end Template

end TemplateTree
