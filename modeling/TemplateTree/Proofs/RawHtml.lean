import Mathlib.Data.List.SplitBy
import TemplateTree.Grammar.Run

/-!
Joining adjacent HTML. A list of nodes is put together from its end, with HTML in front of HTML
joined to it; this gives what collecting the nodes one after the other gives, and what is left when
each group of adjacent HTML is replaced by one text. It does not matter whether pieces of the list
were joined before.
-/

namespace TemplateTree
set_option autoImplicit false

namespace Node

/-- Puts a node in front of others. HTML in front of HTML becomes one text of both. -/
def consHtml (n : Node) : List Node → List Node
  | [] => [n]
  | m :: rest =>
    match n.htmlText?, m.htmlText? with
    | some a, some b => ⟨n.origin, .text (a ++ "\n" ++ b) true⟩ :: rest
    | _, _ => n :: m :: rest

/-- Joins adjacent HTML, from the end. -/
def joinHtml (nodes : List Node) : List Node := nodes.foldr consHtml []

theorem joinHtml_cons (n : Node) (ns : List Node) :
    joinHtml (n :: ns) = consHtml n (joinHtml ns) := rfl

def isHtml (n : Node) : Bool := n.htmlText?.isSome

def bothHtml (m n : Node) : Bool := m.isHtml && n.isHtml

/-- One text for a group of HTML. Other nodes stay. -/
def fuse : List Node → List Node
  | [] => []
  | n :: rest =>
    if n.isHtml then
      [⟨n.origin, .text ("\n".intercalate ((n :: rest).filterMap htmlText?)) true⟩]
    else n :: rest

/-- One text for each group of adjacent HTML. -/
def groupHtml (nodes : List Node) : List Node := (nodes.splitBy bothHtml).flatMap fuse

variable {m n : Node} {a : String} {xs ys zs : List Node}

theorem eq_of_htmlText? (h : n.htmlText? = some a) : n = ⟨n.origin, .text a true⟩ := by
  obtain ⟨origin, shape⟩ := n
  unfold htmlText? at h
  split at h
  · next he =>
    cases h
    cases he
    rfl
  · cases h

theorem isHtml_of_some (h : n.htmlText? = some a) : n.isHtml = true := by
  rw [isHtml, h]
  rfl

theorem isHtml_of_none (h : n.htmlText? = none) : n.isHtml = false := by
  rw [isHtml, h]
  rfl

theorem bothHtml_of_not_html_left (hm : m.htmlText? = none) (n : Node) : bothHtml m n = false := by
  rw [bothHtml, isHtml_of_none hm]
  rfl

theorem bothHtml_of_not_html_right (hn : n.htmlText? = none) (m : Node) : bothHtml m n = false := by
  rw [bothHtml, isHtml_of_none hn]
  exact Bool.and_false _

theorem consHtml_of_not_html (hn : n.htmlText? = none) (xs : List Node) :
    consHtml n xs = n :: xs := by
  cases xs with
  | nil => rfl
  | cons m xs => simp only [consHtml, hn]

theorem consHtml_cons_of_not_html (hm : m.htmlText? = none) (n : Node) (xs : List Node) :
    consHtml n (m :: xs) = n :: m :: xs := by
  cases hn : n.htmlText? <;> simp only [consHtml, hn, hm]

theorem consHtml_html {b : String} (hn : n.htmlText? = some a) (hm : m.htmlText? = some b)
    (xs : List Node) :
    consHtml n (m :: xs) = ⟨n.origin, .text (a ++ "\n" ++ b) true⟩ :: xs := by
  simp only [consHtml, hn, hm]

/-- Two texts in front of others are joined to each other first or last. -/
theorem consHtml_consHtml {b : String} (hn : n.htmlText? = some a) (hm : m.htmlText? = some b)
    (xs : List Node) : consHtml n (consHtml m xs) =
      consHtml ⟨n.origin, .text (a ++ "\n" ++ b) true⟩ xs := by
  cases xs with
  | nil => exact consHtml_html hn hm []
  | cons x xs =>
    cases hx : x.htmlText? with
    | none =>
      rw [consHtml_cons_of_not_html hx, consHtml_cons_of_not_html hx, consHtml_html hn hm]
    | some c =>
      rw [consHtml_html hm hx, consHtml_html hn rfl, consHtml_html rfl hx]
      simp only [String.append_assoc]

/-! Collecting nodes one after the other. -/

theorem add_of_not_html (hn : n.htmlText? = none) (r : RunningHtml) :
    r.add n = ⟨r.nodes.push n, none⟩ := by
  simp only [RunningHtml.add, hn]

/-- Without a running text HTML starts one. -/
theorem add_html (hn : n.htmlText? = some a) (nodes : Array Node) :
    RunningHtml.add ⟨nodes, none⟩ n = ⟨nodes.push n, some nodes.size⟩ := by
  simp only [RunningHtml.add, hn, RunningHtml.text?]
  rfl

/-- HTML joins the running text, which stands last. -/
theorem add_running {b : String} (hm : m.htmlText? = some a) (hn : n.htmlText? = some b)
    (nodes : Array Node) : RunningHtml.add ⟨nodes.push m, some nodes.size⟩ n =
      ⟨nodes.push ⟨m.origin, .text (a ++ "\n" ++ b) true⟩, some nodes.size⟩ := by
  have htext : RunningHtml.text? ⟨nodes.push m, some nodes.size⟩ =
      some (nodes.size, m.origin, a) := by
    simp [RunningHtml.text?, hm]
  have hset (joined : Node) : (nodes.push m).setIfInBounds nodes.size joined =
      nodes.push joined := by
    rw [← Array.toList_inj]
    simp
  simp only [RunningHtml.add, hn, htext, hset]

/-- What is collected comes behind the nodes before, with or without a running text. -/
theorem foldl_add (ns : List Node) :
    (∀ nodes : Array Node, (ns.foldl RunningHtml.add ⟨nodes, none⟩).nodes.toList =
      nodes.toList ++ joinHtml ns) ∧
    ∀ (nodes : Array Node) (m : Node), m.isHtml = true →
      (ns.foldl RunningHtml.add ⟨nodes.push m, some nodes.size⟩).nodes.toList =
        nodes.toList ++ joinHtml (m :: ns) := by
  induction ns with
  | nil => simp [joinHtml, consHtml]
  | cons n ns ih =>
    obtain ⟨ihnone, ihsome⟩ := ih
    cases hn : n.htmlText? with
    | none =>
      constructor
      · intro nodes
        rw [List.foldl_cons, add_of_not_html hn, ihnone, joinHtml_cons, consHtml_of_not_html hn]
        simp
      · intro nodes m _
        rw [List.foldl_cons, add_of_not_html hn, ihnone, joinHtml_cons, joinHtml_cons,
          consHtml_of_not_html hn, consHtml_cons_of_not_html hn]
        simp
    | some b =>
      constructor
      · intro nodes
        rw [List.foldl_cons, add_html hn, ihsome nodes n (isHtml_of_some hn)]
      · intro nodes m hm
        obtain ⟨a, hm⟩ := Option.isSome_iff_exists.mp hm
        rw [List.foldl_cons, add_running hm hn, ihsome nodes _ rfl, joinHtml_cons,
          joinHtml_cons, joinHtml_cons, consHtml_consHtml hm hn]

theorem mergeHtml_eq (ns : List Node) : mergeHtml ns = joinHtml ns :=
  ((foldl_add ns).1 #[]).trans (List.nil_append _)

/-! Groups of adjacent HTML. -/

theorem fuse_singleton (n : Node) : fuse [n] = [n] := by
  cases hn : n.htmlText? with
  | none => simp [fuse, isHtml, hn]
  | some a =>
    simp only [fuse, isHtml, hn, Option.isSome_some, if_true, List.filterMap_cons,
      List.filterMap_nil, String.intercalate_singleton]
    rw [← eq_of_htmlText? hn]

/-- A node that does not belong to the group behind it is a group of its own. -/
theorem groupHtml_cons (h : ∀ m ∈ xs.head?, bothHtml n m = false) :
    groupHtml (n :: xs) = n :: groupHtml xs := by
  have hsplit : (n :: xs).splitBy bothHtml = [n] :: xs.splitBy bothHtml := by
    rw [← List.singleton_append, List.splitBy_append]
    · rfl
    · intro x hx m hm
      cases hx
      exact h m hm
  rw [groupHtml, hsplit, List.flatMap_cons, fuse_singleton]
  rfl

/-- HTML in front of HTML belongs to the same group. -/
theorem groupHtml_cons_cons {b : String} (hn : n.htmlText? = some a) (hm : m.htmlText? = some b)
    (xs : List Node) : groupHtml (n :: m :: xs) = consHtml n (groupHtml (m :: xs)) := by
  have hboth : bothHtml n m = true := by simp [bothHtml, isHtml, hn, hm]
  cases hsplit : (m :: xs).splitBy bothHtml with
  | nil => cases List.splitBy_eq_nil.mp hsplit
  | cons group groups =>
    obtain ⟨hflat, hnil, hgroup, hgroups⟩ := List.splitBy_eq_iff.mp hsplit
    cases group with
    | nil => exact absurd List.mem_cons_self hnil
    | cons k group =>
      rw [List.flatten_cons, List.cons_append] at hflat
      obtain ⟨rfl, rfl⟩ := List.cons.inj hflat
      have hmore : (n :: m :: (group ++ groups.flatten)).splitBy bothHtml =
          (n :: m :: group) :: groups := by
        rw [List.splitBy_eq_iff]
        refine ⟨rfl, ?_, ?_, ?_⟩
        · rintro (_ | ⟨_, h⟩)
          exact hnil (List.mem_cons_of_mem _ h)
        · intro g hg
          rcases List.mem_cons.mp hg with rfl | hg
          · exact (hgroup _ List.mem_cons_self).cons_cons hboth
          · exact hgroup g (List.mem_cons_of_mem _ hg)
        · cases groups with
          | nil => exact List.isChain_singleton _
          | cons g groups =>
            obtain ⟨⟨_, hhead, hlast⟩, htail⟩ := List.isChain_cons_cons.mp hgroups
            exact htail.cons_cons ⟨List.cons_ne_nil _ _, hhead, hlast⟩
      rw [groupHtml, groupHtml, hmore, hsplit, List.flatMap_cons, List.flatMap_cons, fuse, fuse,
        if_pos (isHtml_of_some hm), if_pos (isHtml_of_some hn), List.filterMap_cons_some hn,
        List.filterMap_cons_some hm, String.intercalate_cons_cons]
      exact (consHtml_html hn rfl _).symm

/-- What is joined from the end is one text for each group. -/
theorem joinHtml_eq (ns : List Node) : joinHtml ns = groupHtml ns := by
  induction ns with
  | nil => rfl
  | cons n ns ih =>
    rw [joinHtml_cons, ih]
    cases ns with
    | nil =>
      have hboth : ∀ x ∈ ([] : List Node).head?, bothHtml n x = false := nofun
      exact (groupHtml_cons hboth).symm
    | cons m ns =>
      cases hn : n.htmlText? with
      | none =>
        have hboth : ∀ x ∈ (m :: ns).head?, bothHtml n x = false :=
          fun x _ => bothHtml_of_not_html_left hn x
        rw [groupHtml_cons hboth, consHtml_of_not_html hn]
      | some a =>
        cases hm : m.htmlText? with
        | some b => exact (groupHtml_cons_cons hn hm ns).symm
        | none =>
          have hboth : ∀ x ∈ (m :: ns).head?, bothHtml n x = false := by
            intro x hx
            cases hx
            exact bothHtml_of_not_html_right hm n
          have hboth' : ∀ x ∈ ns.head?, bothHtml m x = false :=
            fun x _ => bothHtml_of_not_html_left hm x
          rw [groupHtml_cons hboth, groupHtml_cons hboth', consHtml_cons_of_not_html hm]

/-! What joining keeps. -/

/-- HTML is joined to HTML, and any other node stays in front. -/
theorem consHtml_eq (n : Node) (xs : List Node) :
    (consHtml n xs = n :: xs ∧ ∀ m ∈ xs.head?, bothHtml n m = false) ∨
      ∃ a m b rest, n.htmlText? = some a ∧ m.htmlText? = some b ∧ xs = m :: rest ∧
        consHtml n xs = ⟨n.origin, .text (a ++ "\n" ++ b) true⟩ :: rest := by
  cases xs with
  | nil => exact .inl ⟨rfl, by simp⟩
  | cons m rest =>
    cases hn : n.htmlText? with
    | none => exact .inl ⟨consHtml_of_not_html hn _, fun x _ => bothHtml_of_not_html_left hn x⟩
    | some a =>
      cases hm : m.htmlText? with
      | none =>
        refine .inl ⟨consHtml_cons_of_not_html hm n rest, ?_⟩
        intro x hx
        cases hx
        exact bothHtml_of_not_html_right hm n
      | some b => exact .inr ⟨a, m, b, rest, rfl, hm, rfl, consHtml_html hn hm rest⟩

theorem isChain_joinHtml (ns : List Node) :
    (joinHtml ns).IsChain fun m n => bothHtml m n = false := by
  induction ns with
  | nil => exact List.isChain_nil
  | cons n ns ih =>
    rw [joinHtml_cons]
    rcases consHtml_eq n (joinHtml ns) with ⟨heq, hn⟩ | ⟨a, m, b, rest, -, hm, hrest, heq⟩
    · rw [heq]
      exact List.isChain_cons.mpr ⟨hn, ih⟩
    · rw [hrest, List.isChain_cons] at ih
      rw [heq, List.isChain_cons]
      refine ⟨fun x hx => ?_, ih.2⟩
      have hx := ih.1 x hx
      rw [bothHtml, isHtml_of_some hm] at hx
      exact hx

theorem filter_joinHtml (ns : List Node) :
    (joinHtml ns).filter (!·.isHtml) = ns.filter (!·.isHtml) := by
  induction ns with
  | nil => rfl
  | cons n ns ih =>
    rw [joinHtml_cons, List.filter_cons, ← ih]
    rcases consHtml_eq n (joinHtml ns) with ⟨heq, -⟩ | ⟨a, m, b, rest, hn, hm, hrest, heq⟩
    · rw [heq, List.filter_cons]
    · rw [heq, hrest, List.filter_cons, List.filter_cons, isHtml_of_some hn, isHtml_of_some hm]
      rfl

theorem exists_filterMap_consHtml (hn : n.htmlText? = some a) (xs : List Node) :
    ∃ b bs, (consHtml n xs).filterMap htmlText? = b :: bs ∧
      "\n".intercalate (b :: bs) = "\n".intercalate (a :: xs.filterMap htmlText?) := by
  rcases consHtml_eq n xs with ⟨heq, -⟩ | ⟨a', m, b, rest, hn', hm, rfl, heq⟩
  · exact ⟨a, _, by rw [heq, List.filterMap_cons_some hn], rfl⟩
  · cases hn.symm.trans hn'
    refine ⟨a ++ "\n" ++ b, rest.filterMap htmlText?, by rw [heq]; rfl, ?_⟩
    rw [String.intercalate_cons_append, List.filterMap_cons_some hm, String.intercalate_cons_cons]

/-- Behind some text all HTML stays, line by line. -/
theorem intercalate_cons_joinHtml (a : String) (ns : List Node) :
    "\n".intercalate (a :: (joinHtml ns).filterMap htmlText?) =
      "\n".intercalate (a :: ns.filterMap htmlText?) := by
  induction ns generalizing a with
  | nil => rfl
  | cons n ns ih =>
    rw [joinHtml_cons]
    cases hn : n.htmlText? with
    | none =>
      rw [consHtml_of_not_html hn, List.filterMap_cons_none hn, List.filterMap_cons_none hn, ih]
    | some b =>
      obtain ⟨c, cs, heq, hlines⟩ := exists_filterMap_consHtml hn (joinHtml ns)
      rw [heq, String.intercalate_cons_cons, hlines, ih, List.filterMap_cons_some hn,
        String.intercalate_cons_cons]

theorem intercalate_joinHtml (ns : List Node) :
    "\n".intercalate ((joinHtml ns).filterMap htmlText?) =
      "\n".intercalate (ns.filterMap htmlText?) := by
  induction ns with
  | nil => rfl
  | cons n ns ih =>
    rw [joinHtml_cons]
    cases hn : n.htmlText? with
    | none =>
      rw [consHtml_of_not_html hn, List.filterMap_cons_none hn, List.filterMap_cons_none hn, ih]
    | some a =>
      obtain ⟨b, bs, heq, hlines⟩ := exists_filterMap_consHtml hn (joinHtml ns)
      rw [heq, hlines, intercalate_cons_joinHtml, List.filterMap_cons_some hn]

/-- Lists that are the same once adjacent HTML is joined, whatever follows them. -/
def SameJoined (xs ys : List Node) : Prop :=
  ∀ rest, joinHtml (xs ++ rest) = joinHtml (ys ++ rest)

namespace SameJoined

theorem refl (xs : List Node) : SameJoined xs xs := fun _ => rfl

theorem eq (h : SameJoined xs ys) : joinHtml xs = joinHtml ys := by
  have h := h []
  rwa [List.append_nil, List.append_nil] at h

theorem trans (h : SameJoined xs ys) (h' : SameJoined ys zs) : SameJoined xs zs :=
  fun rest => (h rest).trans (h' rest)

theorem cons (h : SameJoined xs ys) (n : Node) : SameJoined (n :: xs) (n :: ys) :=
  fun rest => congrArg (consHtml n) (h rest)

theorem append {xs' ys' : List Node} (h : SameJoined xs ys) (h' : SameJoined xs' ys') :
    SameJoined (xs ++ xs') (ys ++ ys') := by
  intro rest
  have hjoin (zs : List Node) : joinHtml (ys ++ zs) = ys.foldr consHtml (joinHtml zs) :=
    List.foldr_append
  rw [List.append_assoc, h, hjoin, h', ← hjoin, List.append_assoc]

/-- What was joined before is the same as what was not. -/
theorem joinHtml (ns : List Node) : SameJoined (joinHtml ns) ns := by
  intro rest
  induction ns with
  | nil => rfl
  | cons n ns ih =>
    rw [joinHtml_cons, List.cons_append, joinHtml_cons, ← ih]
    rcases consHtml_eq n (Node.joinHtml ns) with ⟨heq, -⟩ | ⟨a, m, b, xs, hn, hm, hxs, heq⟩
    · rw [heq]
      rfl
    · rw [heq, hxs, List.cons_append, List.cons_append, joinHtml_cons, joinHtml_cons,
        consHtml_consHtml hn hm]

end SameJoined

end Node

end TemplateTree
