import TemplateTree.Proofs.Spellings
import TemplateTree.Proofs.Trees
import TemplateTree.Template

/-!
Trees are read back as they were written: node by node, each from fields that are read back. So the
way of a tree through its JSON form, however spelled, neither changes nor refuses it.
-/

namespace TemplateTree
set_option autoImplicit false

theorem Json.toList_map {β : Type} {decode : Decoder Json β} {encode : β → Json} {bs : List β}
    (h : ∀ b ∈ bs, decode (encode b) = .ok b) :
    toList decode (.array (bs.map encode)) = .ok bs := by
  induction bs with
  | nil => rfl
  | cons b bs ih =>
    obtain ⟨hb, hbs⟩ := List.forall_mem_cons.mp h
    have ih : (bs.map encode).mapM decode = .ok bs := ih hbs
    simp only [toList, List.map_cons, List.mapM_cons, hb, ih]
    rfl

namespace Attribute

theorem ofJson_toJson (a : Attribute) : ofJson a.toJson = .ok a := by
  refine reads_record.read_ok.mpr ⟨?_, ?_⟩
  · exact List.Nodup.sublist List.filter_sublist (by simp)
  · obtain ⟨name, value, escaped⟩ := a
    cases value <;> rfl

theorem listOfJson_listToJson (as : List Attribute) : listOfJson (listToJson as) = .ok as :=
  Json.toList_map fun a _ => a.ofJson_toJson

end Attribute

namespace Node

/-- The members of a node. -/
def members (n : Node) : List (String × Json) :=
  ("type", .string n.kind.wireName) :: (n.origin.members ++ shapeMembers n.shape)

theorem nodup_members (n : Node) : (n.members.map Prod.fst).Nodup := by
  obtain ⟨origin, shape⟩ := n
  cases shape with
  | block nodes isYield => cases isYield <;> simp [members, shapeMembers, Origin.members]
  | text content isHtml => cases isHtml <;> simp [members, shapeMembers, Origin.members]
  | tag head body c =>
    cases c <;> simp [members, shapeMembers, Origin.members, nodeMember?]
  | code head body =>
    obtain ⟨_, _, _, debug⟩ := head
    cases debug <;> cases body <;> simp [members, shapeMembers, Origin.members, blockMember?]
  | when source body =>
    cases body <;> simp [members, shapeMembers, Origin.members, blockMember?]
  | each head body alternative =>
    cases alternative <;> simp [members, shapeMembers, Origin.members, blockMember?]
  | _ => simp [members, shapeMembers, Origin.members]

/-- A node is read back as it was written, within another or alone. -/
def ReadsBack (n : Node) : Prop := ∀ inner, Form.node.decode inner n.toJson = .ok n

theorem make_origin (o : Origin) (v : Json) (ms : List (String × Json)) :
    originRecord.make (candidates (("type", v) :: (o.members ++ ms))) = .ok o := by
  obtain ⟨line, file⟩ := o
  cases file <;> rfl

theorem readsBack_of_make {n : Node}
    (h : (shapeRecord n.kind).make (candidates n.members) = .ok n.shape) : n.ReadsBack := by
  intro inner
  have hjson : n.toJson = .object n.members := by
    cases n
    simp only [toJson]
    rfl
  have hmake : (record n.kind).make (candidates n.members) = .ok n := by
    cases n
    exact Record.makes_seq (Record.makes_map (make_origin _ _ _)) h
  have hn : ((candidates n.members).map Prod.fst).Nodup := by
    rw [candidates_eq, List.map_map]
    exact n.nodup_members
  rw [hjson, Form.decode_node]
  refine ofMembers_ok.mpr ⟨n.kind, ?_, ?_⟩
  · refine (reads_kind n.kind inner).read_ok.mpr ⟨hn.sublist List.filter_sublist, ?_⟩
    exact ofName_wireName n.kind
  · exact (reads_record n.kind).read_ok.mpr ⟨hn.sublist List.filter_sublist, hmake⟩

theorem nodesToJson_eq (nodes : List Node) : nodesToJson nodes = nodes.map toJson := by
  induction nodes with
  | nil => rfl
  | cons n nodes ih => rw [nodesToJson, ih, List.map_cons]

theorem blockToJson_eq (b : Block) : blockToJson b = (ofBlock b).toJson := by
  cases b
  simp only [blockToJson, ofBlock, toJson, shapeMembers]
  rfl

theorem listOfJson_nodesToJson {nodes : List Node} (h : ∀ n ∈ nodes, n.ReadsBack) :
    listOfJson (.array (nodesToJson nodes)) = .ok nodes := by
  rw [listOfJson_eq, nodesToJson_eq]
  exact Json.toList_map fun n hn => h n hn true

/-- Blocks are read back as nodes if their nodes are. -/
theorem readsBack_ofBlock {b : Block} (h : ∀ n ∈ b.nodes, n.ReadsBack) :
    (ofBlock b).ReadsBack := by
  obtain ⟨origin, nodes, isYield⟩ := b
  have hnodes := listOfJson_nodesToJson h
  apply readsBack_of_make
  cases isYield <;> exact Record.makes_seq (Record.makes_map hnodes) rfl

theorem block_candidate {b : Block} (h : ∀ n ∈ b.nodes, n.ReadsBack) :
    (candidate (blockToJson b)).block = .ok b := by
  simp only [Candidate.block, candidate, blockToJson_eq]
  rw [show innerOfJson (ofBlock b).toJson = .ok (ofBlock b) from readsBack_ofBlock h true]
  rfl

theorem block?_candidate {b : Option Block} (h : ∀ n ∈ BlockOf.nodesOf b, n.ReadsBack) :
    (candidate (blockToJson? b)).block? = .ok b := by
  cases b with
  | none => rfl
  | some b =>
    have hnull : blockToJson b ≠ .null := by
      cases b
      simp [blockToJson]
    rw [blockToJson?, Candidate.block?, node?_candidate hnull, blockToJson_eq]
    rw [show innerOfJson (ofBlock b).toJson = .ok (ofBlock b) from readsBack_ofBlock h true]
    rfl

theorem code_candidate {n : Node} (h : n.ReadsBack) :
    (candidate n.toJson).node? = .ok (some n) := by
  have hnull : n.toJson ≠ .null := by
    cases n
    simp [toJson]
  rw [node?_candidate hnull, show innerOfJson n.toJson = .ok n from h true]
  rfl

theorem texts_candidate (names : List String) :
    shapeRecord.texts (candidate (.array (names.map .string))) = .ok names :=
  Json.toList_map fun _ _ => rfl

theorem attributes_candidate (as : List Attribute) :
    Candidate.plain Attribute.listOfJson (candidate (Attribute.listToJson as)) = .ok as :=
  Attribute.listOfJson_listToJson as

open Record in
/-- Every node is read back as it was written. -/
theorem readsBack (n : Node) : n.ReadsBack := by
  induction n using Node.induction with
  | step n ih =>
    obtain ⟨origin, shape⟩ := n
    cases shape with
    | block nodes isYield => exact readsBack_ofBlock (b := ⟨origin, nodes, isYield⟩) ih
    | namedBlock name mode nodes =>
      apply readsBack_of_make
      cases mode <;> exact makes_seq rfl (listOfJson_nodesToJson ih)
    | tag head body c =>
      obtain ⟨hc, hb⟩ := List.forall_mem_append.mp ih
      apply readsBack_of_make
      cases c with
      | none =>
        exact (makes_seq (makes_seq (makes_seq (makes_seq (makes_seq (makes_seq (makes_seq rfl
          (attributes_candidate _)) (texts_candidate _)) (block_candidate hb)) rfl) rfl) rfl)
          rfl).trans rfl
      | some n =>
        have hn := code_candidate (hc n (List.mem_singleton_self n))
        exact (makes_seq (makes_seq (makes_seq (makes_seq (makes_seq (makes_seq (makes_seq rfl
          (attributes_candidate _)) (texts_candidate _)) (block_candidate hb)) hn) rfl) rfl)
          rfl).trans rfl
    | text content isHtml =>
      apply readsBack_of_make
      cases isHtml <;> rfl
    | mixin head body =>
      obtain ⟨name, args, isCall, attrs, blocks⟩ := head
      apply readsBack_of_make
      cases args <;> exact (makes_seq (makes_seq (makes_seq (makes_seq rfl (block?_candidate ih))
        rfl) (attributes_candidate _)) (texts_candidate _)).trans rfl
    | code head body =>
      obtain ⟨source, buffered, escaped, debug⟩ := head
      apply readsBack_of_make
      cases body with
      | none => cases debug <;> rfl
      | some b =>
        cases debug <;>
          exact (makes_seq (makes_seq rfl (block?_candidate (b := some b) ih)) rfl).trans rfl
    | case source body => exact readsBack_of_make (makes_seq rfl (block_candidate ih))
    | when source body =>
      apply readsBack_of_make
      cases body with
      | none => rfl
      | some b => exact makes_seq rfl (block?_candidate (b := some b) ih)
    | each head body alternative =>
      obtain ⟨item, key, collection⟩ := head
      obtain ⟨hb, ha⟩ := List.forall_mem_append.mp ih
      apply readsBack_of_make
      cases alternative with
      | none => cases key <;> exact (makes_seq (makes_seq rfl (block_candidate hb)) rfl).trans rfl
      | some a =>
        cases key <;> exact (makes_seq (makes_seq rfl (block_candidate hb))
          (block?_candidate (b := some a) ha)).trans rfl
    | inclusion path via attrs body =>
      apply readsBack_of_make
      cases via <;> exact makes_seq (makes_seq rfl (attributes_candidate attrs))
        (block_candidate ih)
    | blockComment content buffered body =>
      exact readsBack_of_make (makes_seq rfl (block_candidate ih))
    | filter name attrs body =>
      exact readsBack_of_make (makes_seq (makes_seq rfl (attributes_candidate attrs))
        (block_candidate ih))
    | mixinBlock | inherit | comment | doctype => exact readsBack_of_make rfl

end Node

theorem Block.normalize_eq (b : Block) : b.normalize = .ok b := by
  have h : Node.ofJson b.toJson = .ok (Node.ofBlock b) := by
    rw [Block.toJson, Node.blockToJson_eq]
    exact Node.readsBack (.ofBlock b) false
  rw [normalize, h]
  rfl

namespace Template

/-- The way through JSON changes nothing. -/
theorem compile_eq (file : Option String) (ts : List Token) :
    compile file ts = (parse file ts).mapError .parse := by
  rw [compile]
  cases parse file ts with
  | error d => rfl
  | ok p =>
    simp only [Block.normalize_eq]
    rfl

/-- Reading undoes writing, however the written JSON is spelled; so no tree is changed or refused
on its way through JSON. -/
theorem read_spelled : (∀ n : Node, Node.ofJson n.toJson = .ok n) ∧
    (∀ (n : Node) (v : Json), n.Spelled v → Node.ofJson v = .ok n) ∧
      (∀ b : Block, b.normalize = .ok b) ∧
        ∀ (file : Option String) (ts : List Token),
          compile file ts = (parse file ts).mapError .parse ∧
            ∀ message, compile file ts ≠ .error (.decode message) := by
  refine ⟨fun n => n.readsBack false, fun n v h => Node.ofJson_respelled h (n.readsBack false),
    Block.normalize_eq, fun file ts => ⟨compile_eq file ts, fun message h => ?_⟩⟩
  rw [compile_eq] at h
  cases hp : parse file ts <;> rw [hp] at h <;> cases h

/-- A call without arguments, with one attribute. -/
def plainCall : Node :=
  ⟨⟨3, none⟩, .mixin ⟨"m", none, true, [⟨"a", .flag true, false⟩], []⟩ none⟩

/-- The call without the members that say nothing, and with one that nobody asks for. -/
def plainCallRespelled : Json :=
  .object [("note", .array []),
    ("attrs", .array [.object [("name", .string "a"), ("val", .bool true)]]),
    ("type", .string "Mixin"), ("line", .word 3), ("name", .string "m"), ("block", .null),
    ("call", .bool true)]

theorem spelled_plainCall : plainCall.Spelled plainCallRespelled := by
  have hkind {ms : List (String × Json)} (h : ("type", .string "Mixin") ∈ ms) :
      (Entity.node .mixin).Of .node ms := .node h
  -- the members that say nothing, from the last to the first
  have hblocks := Respelling.drop_within (plainCall.members.take 8) [] (hkind List.mem_cons_self)
    (m := ("attributeBlocks", .array [])) (by simp [Entity.omissible, NodeKind.omissible])
  have hargs := Respelling.drop_within (plainCall.members.take 4)
    ((plainCall.members.take 8).drop 5) (hkind List.mem_cons_self)
    (m := ("args", .null)) (by simp [Entity.omissible, NodeKind.omissible])
  have hfile := Respelling.drop_within (plainCall.members.take 2)
    (("name", .string "m") :: (plainCall.members.take 8).drop 5) (hkind List.mem_cons_self)
    (m := ("filename", .null)) (by simp [Entity.omissible, NodeKind.omissible])
  have hfront : Relation.ReflTransGen (Respelling .node) plainCall.toJson
      (.object (("attrs", .array [(Attribute.mk "a" (.flag true) false).toJson]) ::
        [("type", .string "Mixin"), ("line", .word 3), ("name", .string "m"), ("block", .null),
          ("call", .bool true)])) :=
    ((hblocks.trans hargs).trans hfile).tail
      (.reorder (@List.perm_middle _ _ [_, _, _, _, _] []))
  -- the mark of the attribute
  have hattr : Relation.ReflTransGen (Respelling .attr) (Attribute.mk "a" (.flag true) false).toJson
      (.object [("name", .string "a"), ("val", .bool true)]) :=
    Respelling.drop_within [_, _] [] .attr (List.mem_singleton_self _)
  have hattrs {v v' : Json} (h : Relation.ReflTransGen (Respelling .attr) v v')
      (ms : List (String × Json)) : Relation.ReflTransGen (Respelling .node)
        (.object (("attrs", .array [v]) :: ms)) (.object (("attrs", .array [v']) :: ms)) := by
    induction h with
    | refl => exact .refl
    | tail _ h ih => exact ih.tail (.member rfl (.item h [] []) ms)
  exact (hfront.trans (hattrs hattr _)).tail (.add (hkind (by simp)) (by decide))

theorem read_spelled_plainCall : plainCall.Spelled plainCallRespelled ∧
    Node.ofJson plainCallRespelled = .ok plainCall :=
  ⟨spelled_plainCall, read_spelled.2.1 plainCall _ spelled_plainCall⟩

end Template

end TemplateTree
