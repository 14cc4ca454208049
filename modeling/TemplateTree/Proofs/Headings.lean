import TemplateTree.Proofs.Completions.Answer
import TemplateTree.Proofs.Errors
import TemplateTree.Proofs.Locality.Refusals
import TemplateTree.Proofs.WellFormed

/-!
The heads of tags and calls. What is said in the head of a node is gathered from the run of head
tokens behind the token of the node, and a run that gives a name twice is refused where it does so.
-/

namespace TemplateTree
set_option autoImplicit false

open List (Perm Subperm)

/-- The head of a tag or mixin, with what else its token says. -/
structure Heading where
  line : Line
  piece : Piece
  head : Head
deriving DecidableEq, Repr, Inhabited

def Node.heading? (n : Node) : Option Heading :=
  n.shape.piece?.bind fun piece => n.shape.head?.map (Heading.mk n.line piece)

/-- The heading that a token begins in a situation, when the given head tokens follow. A mixin has
no head of its own, and no call is ever closed. -/
def Situation.heading? (p : Situation) (t : Token) (run : List Token) : Option Heading :=
  match t.lexeme with
  | .tag name selfClosing => some ⟨t.line, .tag name false, .gather selfClosing run⟩
  | .interpolation source => some ⟨t.line, .tag source true, .gather false run⟩
  | .call name args =>
    some ⟨t.line, .mixin name args, { Head.gather false run with selfClosing := false }⟩
  | .mixin name args => some ⟨t.line, .mixin name args, ⟨false, [], []⟩⟩
  | .idName _ | .className _ =>
    if p.spot = .head then none else some ⟨t.line, .tag "div" false, .gather false (t :: run)⟩
  | _ => none

def Situation.headings (p : Situation) : List Token → List Heading
  | [] => []
  | t :: ts => (p.heading? t (ts.takeWhile Token.isHead)).toList ++ (p.after t).headings ts

namespace Placed

def heading? (p : Placed) (run : List Token) : Option Heading :=
  p.piece?.bind fun piece => (p.head? run).map (Heading.mk p.line piece)

def headings : List Placed → List Heading
  | [] => []
  | p :: ps => (p.heading? ((ps.takeWhile isHead).map token)).toList ++ headings ps

variable {p : Placed} {ps qs : List Placed} {heads : List Token}

theorem isHead_plain (t : Token) : t.plain.isHead = t.isHead := Bool.true_and _

theorem heading?_of_isHead (h : p.isHead = true) (run : List Token) : p.heading? run = none := by
  obtain ⟨⟨line, lexeme⟩, role⟩ := p
  cases role with
  | plain => cases lexeme <;> first | rfl | cases h
  | _ => cases h

theorem headings_heads (hh : ∀ t ∈ heads, t.isHead = true) (ps : List Placed) :
    headings (heads.map Token.plain ++ ps) = headings ps := by
  induction heads with
  | nil => rfl
  | cons t heads ih =>
    obtain ⟨ht, hheads⟩ := List.forall_mem_cons.mp hh
    rw [List.map_cons, List.cons_append, headings,
      heading?_of_isHead ((isHead_plain t).trans ht), ih hheads]
    rfl

theorem takeWhile_isHead_append (hq : ∀ q ∈ qs.head?, q.isHead = false) (ps : List Placed) :
    (ps ++ qs).takeWhile isHead = ps.takeWhile isHead := by
  have hqs : qs.takeWhile isHead = [] := by
    cases qs with
    | nil => rfl
    | cons q qs => simp [hq q rfl]
  rw [List.takeWhile_append, hqs, List.append_nil]
  split
  · next h => exact ((List.takeWhile_sublist _).eq_of_length h).symm
  · rfl

theorem headings_append (hq : ∀ q ∈ qs.head?, q.isHead = false) (ps : List Placed) :
    headings (ps ++ qs) = headings ps ++ headings qs := by
  induction ps with
  | nil => rfl
  | cons p ps ih =>
    rw [List.cons_append, headings, headings, takeWhile_isHead_append hq, ih, List.append_assoc]

theorem headings_node (hh : ∀ t ∈ heads, t.isHead = true)
    (hps : ∀ q ∈ ps.head?, q.isHead = false) (p : Placed) :
    headings (p :: (heads.map Token.plain ++ ps)) = (p.heading? heads).toList ++ headings ps := by
  have hrun : (heads.map Token.plain).takeWhile isHead = heads.map Token.plain := by
    rw [List.takeWhile_eq_self_iff, List.forall_mem_map]
    exact fun t ht => (isHead_plain t).trans (hh t ht)
  have htokens : (heads.map Token.plain).map token = heads := by
    rw [List.map_map]
    exact List.map_id heads
  rw [headings, takeWhile_isHead_append hps, hrun, htokens, headings_heads hh]

end Placed

/-- The headings of the nodes are headings of the tokens, and all of them unless something is
dropped. -/
structure Headed (ps : List Placed) (ns : List Node) : Prop where
  starts : ∀ p ∈ ps.head?, p.isHead = false
  subperm : Subperm ((Node.preorder ns).filterMap Node.heading?) (Placed.headings ps)
  perm : Placed.KeepsAll ps →
    Perm ((Node.preorder ns).filterMap Node.heading?) (Placed.headings ps)

namespace Headed

variable {p : Placed} {ps qs : List Placed} {ms ns : List Node} {n : Node}

theorem starts_append (hp : ∀ p ∈ ps.head?, p.isHead = false)
    (hq : ∀ q ∈ qs.head?, q.isHead = false) : ∀ p ∈ (ps ++ qs).head?, p.isHead = false := by
  cases ps with
  | nil => exact hq
  | cons p ps => exact hp

theorem of_eq (hp : ∀ p ∈ ps.head?, p.isHead = false)
    (h : (Node.preorder ns).filterMap Node.heading? = Placed.headings ps) : Headed ps ns :=
  ⟨hp, h ▸ .refl _, fun _ => h ▸ .refl _⟩

theorem append (hm : Headed ps ms) (hn : Headed qs ns) : Headed (ps ++ qs) (ms ++ ns) where
  starts := starts_append hm.starts hn.starts
  subperm := by
    rw [Node.preorder_append, List.filterMap_append, Placed.headings_append hn.starts]
    exact hm.subperm.append hn.subperm
  perm hk := by
    rw [Node.preorder_append, List.filterMap_append, Placed.headings_append hn.starts]
    exact (hm.perm hk.left_of_append).append (hn.perm hk.right_of_append)

/-- A token with its head tokens and a node with the same heading, over headings of each other. -/
theorem node {heads : List Token} (hh : ∀ t ∈ heads, t.isHead = true) (hp : p.isHead = false)
    (hn : n.heading? = p.heading? heads)
    (hc : Perm (Node.preorder n.children) (Node.preorder ns)) (h : Headed ps ns) :
    Headed (p :: (heads.map Token.plain ++ ps)) [n] := by
  have hnode : (Node.preorder [n]).filterMap Node.heading? =
      n.heading?.toList ++ (Node.preorder n.children).filterMap Node.heading? := by
    rw [Node.preorder_cons, Node.preorder_nil, List.append_nil, List.filterMap_cons]
    cases n.heading? <;> rfl
  have hperm := hc.filterMap Node.heading?
  refine ⟨?_, ?_, fun hk => ?_⟩
  · rintro q ⟨⟩
    exact hp
  · rw [hnode, Placed.headings_node hh h.starts, hn]
    exact (List.subperm_append_left _).mpr (hperm.subperm.trans h.subperm)
  · rw [hnode, Placed.headings_node hh h.starts, hn]
    exact (hperm.trans (h.perm hk.tail.right_of_append)).append_left _

theorem isHead_of_piece? {piece : Piece} (h : p.piece? = some piece) : p.isHead = false := by
  obtain ⟨⟨line, lexeme⟩, role⟩ := p
  cases role with
  | plain => cases lexeme <;> first | rfl | cases h
  | _ => rfl

theorem assembly (scope : Scope) : HeadedAssembly scope Headed where
  nil := .of_eq nofun rfl
  append := append
  silent {p} hp hh := by
    refine .of_eq ?_ ?_
    · rintro q ⟨⟩
      exact hh
    · rw [Placed.headings, Placed.heading?, hp.1]
      rfl
  node piece heads hh hp hs hhead h := by
    refine node hh (isHead_of_piece? hp) ?_ (.refl _) h
    rw [Node.heading?, Placed.heading?, hp, Scope.node, hs, hhead]
    rfl
  call {line name args ps c} heads hh hhead h _ := by
    refine node (p := Token.plain ⟨line, .call name args⟩) hh rfl ?_ ?_ h
    · change some _ = some _
      rw [hhead]
      rfl
    · rw [Content.children_call, Node.preorder_append, Node.preorder_append]
      exact List.perm_append_comm
  html _ _ := by
    refine .of_eq ?_ rfl
    rintro q ⟨⟩
    rfl
  join hj h := by
    have heq := hj.filterMap (f := Node.heading?) fun _ _ => rfl
    exact ⟨h.starts, heq ▸ h.subperm, heq ▸ h.perm⟩
  group {p ps ns} h := by
    have heq {origin : Origin} : (Node.preorder [.ofBlock (.ofNodes origin ns)]).filterMap
        Node.heading? = (Node.preorder ns).filterMap Node.heading? := by
      rw [Node.preorder_cons, Node.preorder_nil, List.append_nil, List.filterMap_cons_none rfl]
      rfl
    exact ⟨h.starts, heq ▸ h.subperm, heq ▸ h.perm⟩
  drop {dot p ps} hd := by
    refine ⟨?_, List.nil_subperm, fun hk => absurd hd (List.isChain_cons_cons.mp hk).1⟩
    rintro q ⟨⟩
    obtain ⟨⟨line, lexeme⟩, role⟩ := dot
    obtain rfl : role = .textOnly := hd.1
    rfl

end Headed

namespace Situation

variable {p : Situation} {t : Token} {next : Lexeme}

theorem heading?_eq (p : Situation) (t : Token) (next : Lexeme) (run : List Token) :
    p.heading? t run = (⟨t, p.role t next⟩ : Placed).heading? run := by
  obtain ⟨line, lexeme⟩ := t
  cases lexeme with
  | idName | className =>
    rw [heading?, role]
    dsimp only
    split <;> rfl
  | code | dot | newline =>
    rw [heading?, role]
    dsimp only
    split <;> rfl
  | _ => rfl

theorem heading?_of_not_opensHead (h : t.kind.opensHead = false) (run run' : List Token) :
    p.heading? t run = p.heading? t run' := by
  obtain ⟨line, lexeme⟩ := t
  cases lexeme <;> first | rfl | cases h

/-- Behind a name all head tokens go on with its head. -/
theorem takeWhile_placed (hp : p.spot = .head) (ts : List Token) (next : Lexeme) :
    ((p.placed ts next).takeWhile Placed.isHead).map Placed.token = ts.takeWhile Token.isHead := by
  induction ts generalizing p with
  | nil => rfl
  | cons t ts ih =>
    rw [placed, List.takeWhile_cons, List.takeWhile_cons]
    cases ht : t.isHead with
    | true =>
      have hhead : Placed.isHead ⟨t, .plain⟩ = true := (Placed.isHead_plain t).trans ht
      rw [role_of_isHead hp ht, after_of_isHead hp ht, hhead]
      exact congrArg (t :: ·) (ih hp)
    | false => simp [Placed.isHead, ht]

theorem headings_placed (p : Situation) (ts : List Token) (next : Lexeme) :
    Placed.headings (p.placed ts next) = p.headings ts := by
  induction ts generalizing p with
  | nil => rfl
  | cons t ts ih =>
    rw [placed, Placed.headings, headings, ih, ← heading?_eq]
    congr 2
    cases hk : t.kind.opensHead with
    | true => rw [takeWhile_placed (spot_after_of_opensHead hk)]
    | false => exact heading?_of_not_opensHead hk _ _

end Situation

namespace Template

variable {file : Option String} {ts : List Token} {p : Parsed}

def headings (ts : List Token) : List Heading :=
  Situation.start.headings (ts.takeWhile fun t => !t.isEos)

/-- The nodes of a tree have the headings of the stream, apart from nodes that are dropped. -/
theorem headings_kept (hp : parse file ts = .ok p) :
    Subperm (p.entered.filterMap Node.heading?) (headings ts) ∧
      (Placed.KeepsAll (placed ts) → Perm (p.entered.filterMap Node.heading?) (headings ts)) := by
  obtain ⟨t, hf, htokens, -, rfl⟩ := parse_ok.mp hp
  have hheadings : headings ts = Placed.headings t.placed := by
    rw [headings, ← Situation.headings_placed _ _ .eos, ← placed_eq hf htokens, placed]
  have h : Headed t.placed (t.value ⟨file⟩) := t.headedAssembled (Headed.assembly ⟨file⟩) hf
  rw [Parsed.entered, Block.entered_trace, hheadings, placed_eq hf htokens]
  exact ⟨h.subperm, h.perm⟩

theorem nodup_of_heading? {n : Node} {h : Heading} (hp : parse file ts = .ok p)
    (hn : n ∈ p.entered) (hh : n.heading? = some h) : (Head.uniqueNames h.head.attrs).Nodup := by
  have hsound := (made_of_entered hp n hn).sound
  obtain ⟨origin, shape⟩ := n
  cases shape with
  | tag | mixin =>
    cases hh
    exact hsound.1
  | block nodes isYield => cases isYield <;> cases hh
  | text content isHtml => cases isHtml <;> cases hh
  | _ => cases hh

variable {before rest run : List Token} {t : Token} {name : String} {line : Line}

/-- Where reading comes to a token that opens a head, and the run behind it gives a name twice,
the stream is refused for this name. -/
theorem parse_of_repeatedAt (hbefore : ∀ u ∈ before, u.isEos = false)
    (hreads : Reads file (before ++ [t])) (hopens : (Situation.start.run before).opensHead t = true)
    (hrepeated : Head.RepeatedAt (t.ownHead ++ rest.takeWhile Token.isHead) name line) :
    parse file (before ++ t :: rest) =
      .error ((Fault.mk (.duplicateAttribute name) line).diagnostic file) := by
  have hproper : ∀ u ∈ before ++ [t], u.isEos = false :=
    List.forall_mem_append.mpr ⟨hbefore,
      List.forall_mem_singleton.mpr (Situation.isEos_of_opensHead hopens)⟩
  -- Some stream that goes on from the token parses, and its run goes beyond the token.
  obtain ⟨tail, p, hp⟩ := hreads.exists_parse hproper
  let n := (before ++ [t] ++ tail).length + (before ++ t :: rest).length + 1
  obtain ⟨nodes, s', hr, hle⟩ := exists_runs_beyond (n := n) hproper hp (by omega)
  have hshares : State.Shares (before.length + 1) (.start (.ofTokens (before ++ [t] ++ tail)))
      (.start (.ofTokens (before ++ t :: rest))) := by
    refine shares_start ?_
    rw [← List.append_cons, List.take_append, List.take_append]
    simp
  have hahead : RefusedAhead .start (.start (.ofTokens (before ++ [t] ++ tail)))
      (.start (.ofTokens (before ++ t :: rest))) before t tail
      ⟨.duplicateAttribute name, line⟩ := by
    refine ⟨List.append_assoc before [t] tail, hopens, hshares, fun selfClosing => ?_⟩
    refine Head.ofRun_error.mpr ⟨name, line, ?_, rfl⟩
    have hdrop : (before ++ t :: rest).drop (before.length + 1) = rest := by
      rw [List.append_cons, List.drop_left' (by simp)]
    change Head.RepeatedAt (t.ownHead ++ ((before ++ t :: rest).drop _).takeWhile _) name line
    rw [hdrop]
    exact hrepeated
  refine parse_of_fails ((Parallel.answer_same ⟨file⟩ n n (.items false)).refuses.fails hahead
    trivial trivial trivial ?_ ?_ hr hle)
  · rw [size_start]
    omega
  · rw [size_start]
    omega

def idTwice (line : Line) : Token := ⟨line, .attrs [.shorthand "id" "", .shorthand "id" ""] false⟩

theorem not_nodup_idTwice (line : Line) :
    ¬ (Head.uniqueNames ((run ++ [idTwice line]).flatMap Token.attributes)).Nodup := by
  have htwice : ¬ (Head.uniqueNames [.shorthand "id" "", .shorthand "id" ""]).Nodup := by decide
  rw [List.flatMap_append, List.flatMap_singleton, Head.uniqueNames_append]
  exact fun h => htwice (List.nodup_append.mp h).2.1

/-- A run that gives no name twice is read. -/
theorem reads_run (hbefore : ∀ u ∈ before, u.isEos = false) (hreads : Reads file (before ++ [t]))
    (hopens : (Situation.start.run before).opensHead t = true)
    (hrun : ∀ u ∈ run, u.isHead = true)
    (hn : (Head.uniqueNames ((t.ownHead ++ run).flatMap Token.attributes)).Nodup) :
    Reads file (before ++ t :: run) := by
  let front := before ++ t :: run
  have hproper : ∀ u ∈ front, u.isEos = false := by
    refine List.forall_mem_append.mpr ⟨hbefore, List.forall_mem_cons.mpr ⟨?_, ?_⟩⟩
    · exact Situation.isEos_of_opensHead hopens
    · exact fun u hu => beq_eq_false_iff_ne.mpr (Local.kind_of_isHead (hrun u hu))
  have hagain (line : Line) : ∃ d, parse file (front ++ [idTwice line]) = .error d ∧
      d.line = line := by
    obtain ⟨name, hrepeated⟩ := Head.exists_repeatedAt_concat hn (not_nodup_idTwice line)
    have hall : (run ++ [idTwice line]).takeWhile Token.isHead = run ++ [idTwice line] :=
      List.takeWhile_eq_self_iff.mpr (List.forall_mem_append.mpr
        ⟨hrun, List.forall_mem_singleton.mpr rfl⟩)
    rw [List.append_assoc, ← hall] at hrepeated
    have herror := parse_of_repeatedAt hbefore hreads hopens hrepeated
    rw [← List.cons_append, ← List.append_assoc] at herror
    exact ⟨_, herror, rfl⟩
  -- An error within the run would be the same whatever line the id is given again on.
  obtain ⟨d, hd, hline⟩ := hagain 0
  obtain ⟨d', hd', hline'⟩ := hagain 1
  obtain ⟨p, hp, hsame⟩ := parse_error_local hd
  have hle : front.length ≤ p := by
    by_contra hlt
    have htake (line : Line) : (front ++ [idTwice line]).take (p + 1) = front.take (p + 1) :=
      List.take_append_of_le_length (Nat.lt_of_not_le hlt)
    cases hd'.symm.trans (hsame _ ((htake 1).trans (htake 0).symm))
    cases hline.symm.trans hline'
  have htaken : Reads file ((front ++ [idTwice 0]).take p) := by
    intro e he
    rcases hp.before with ⟨tree, htree⟩ | ⟨e', he', hfound, _⟩
    · cases htree.symm.trans he
    · cases he'.symm.trans he
      exact hfound
  obtain ⟨more, q, hq⟩ := htaken.exists_parse fun u hu =>
    beq_eq_false_iff_ne.mpr (hp.proper u hu)
  rw [List.take_append, List.take_of_length_le hle, List.append_assoc] at hq
  exact reads_of_parse hproper hq

/-- The heads of a tree are gathered from the head tokens of the stream, in which no name but class
is given twice. Where reading comes to a head, its run is read, or if it gives a name twice, the
stream is refused for the first name that it gives again, on the line of the token that does so. -/
theorem headings_exact (file : Option String) (ts : List Token) :
    (∀ p, parse file ts = .ok p →
      Subperm (p.entered.filterMap Node.heading?) (headings ts) ∧
        (Placed.KeepsAll (placed ts) → Perm (p.entered.filterMap Node.heading?) (headings ts)) ∧
          ∀ n ∈ p.entered, ∀ h ∈ n.heading?, (Head.uniqueNames h.head.attrs).Nodup) ∧
      ∀ before t rest, ts = before ++ t :: rest → (∀ u ∈ before, u.isEos = false) →
        Reads file (before ++ [t]) → (Situation.start.run before).opensHead t = true →
          let run := rest.takeWhile Token.isHead
          let names := Head.uniqueNames ((t.ownHead ++ run).flatMap Token.attributes)
          (names.Nodup → Reads file (before ++ t :: run)) ∧
            (¬ names.Nodup → ∃ name line, Head.RepeatedAt (t.ownHead ++ run) name line ∧
              parse file ts =
                .error ((Fault.mk (.duplicateAttribute name) line).diagnostic file)) := by
  constructor
  · intro p hp
    obtain ⟨hsub, hperm⟩ := headings_kept hp
    exact ⟨hsub, hperm, fun n hn h hh => nodup_of_heading? hp hn hh⟩
  · rintro before t rest rfl hbefore hreads hopens run names
    constructor
    · exact reads_run hbefore hreads hopens fun u hu => List.mem_takeWhile_imp hu
    · intro hnames
      obtain ⟨name, line, hrepeated⟩ := Head.exists_repeatedAt hnames
      exact ⟨name, line, hrepeated, parse_of_repeatedAt hbefore hreads hopens hrepeated⟩

/-- Heads of every kind, with head tokens in any order. -/
def headsOfAllKinds : List Token :=
  [⟨1, .tag "a" false⟩, ⟨1, .className "c"⟩, ⟨1, .attrs [⟨"href", .expression "u", true⟩] true⟩,
    ⟨2, .attributeBlock "o"⟩, ⟨2, .className "c"⟩, ⟨3, .newline⟩, ⟨3, .idName "y"⟩,
    ⟨3, .attributeBlock "p"⟩, ⟨3, .attributeBlock "q"⟩, ⟨4, .newline⟩, ⟨4, .interpolation "t"⟩,
    ⟨4, .attrs [] false⟩, ⟨5, .newline⟩, ⟨5, .call "m" none⟩,
    ⟨5, .attrs [⟨"w", .expression "v", true⟩] true⟩, ⟨5, .idName "z"⟩]

/-- A tag over a division that is given an id by a shorthand and in its second group. -/
def idGivenLate : List Token :=
  [⟨1, .tag "ul" false⟩, ⟨2, .indent 2⟩] ++ ⟨2, .className "a"⟩ ::
    [⟨2, .attrs [⟨"w", .expression "v", true⟩] false⟩, ⟨2, .className "a"⟩, ⟨3, .idName "x"⟩,
      ⟨4, .attrs [⟨"class", .flag true, true⟩, ⟨"id", .expression "y", true⟩] false⟩,
      ⟨4, .text "b"⟩]

theorem headings_exact_idGivenLate :
    (∃ p, parse none headsOfAllKinds = .ok p ∧ Perm (p.entered.filterMap Node.heading?)
      [⟨1, .tag "a" false, ⟨true, [.shorthand "class" "c", ⟨"href", .expression "u", true⟩,
          .shorthand "class" "c"], ["o"]⟩⟩,
        ⟨3, .tag "div" false, ⟨false, [.shorthand "id" "y"], ["p", "q"]⟩⟩,
        ⟨4, .tag "t" true, ⟨false, [], []⟩⟩,
        ⟨5, .mixin "m" none,
          ⟨false, [⟨"w", .expression "v", true⟩, .shorthand "id" "z"], []⟩⟩]) ∧
      Reads none (headsOfAllKinds.take 5) ∧
        (∃ name line, parse none idGivenLate =
          .error ((Fault.mk (.duplicateAttribute name) line).diagnostic none)) ∧
          (diagnostic? none idGivenLate).map (fun d => (d.kind, d.line)) =
            some (.duplicateAttribute, 4) := by
  refine ⟨?_, ?_, ?_, by decide +kernel⟩
  · have hk : Placed.KeepsAll (placed headsOfAllKinds) := by decide +kernel
    obtain ⟨p, hp, -⟩ : ∃ p, parse none headsOfAllKinds = .ok p ∧ p.warnings = [] :=
      exists_parsed (by decide +kernel)
    obtain ⟨_, hperm, _⟩ := (headings_exact none headsOfAllKinds).1 p hp
    exact ⟨p, hp, (hperm hk).trans (Perm.of_eq (by decide +kernel))⟩
  · have hreads : Reads none ([] ++ [⟨1, .tag "a" false⟩]) := by decide +kernel
    exact ((headings_exact none headsOfAllKinds).2 [] ⟨1, .tag "a" false⟩ (headsOfAllKinds.drop 1)
      rfl nofun hreads (by decide)).1 (by decide)
  · have hreads : Reads none ([⟨1, .tag "ul" false⟩, ⟨2, .indent 2⟩] ++ [⟨2, .className "a"⟩]) := by
      decide +kernel
    obtain ⟨name, line, -, hp⟩ := ((headings_exact none idGivenLate).2 _ _ _ rfl (by decide)
      hreads (by decide)).2 (by decide)
    exact ⟨name, line, hp⟩

end Template

end TemplateTree
