import Mathlib.Logic.Relation
import TemplateTree.Node.Wire
import TemplateTree.Proofs.Records

/-!
The JSON of trees can be spelled in several ways. Members may stand in any order and be joined by
members that nobody asks for, and those that say nothing may be absent. The spelling makes no
difference to what is read.
-/

namespace TemplateTree
set_option autoImplicit false

/-! Spellings. -/

/-- The values in a tree's JSON that can be spelled in several ways. -/
inductive Form where
  | attr
  | node
  | list (item : Form)

namespace Form

/-- What stands in a field, unless it can be spelled in one way only. -/
def field : Form → String → Option Form
  | .node, "attrs" => some (.list .attr)
  | .node, "nodes" => some (.list .node)
  | .node, "block" => some .node
  | .node, "code" => some .node
  | .node, "alternative" => some .node
  | _, _ => none

abbrev Value : Form → Type
  | .attr => Attribute
  | .node => Node
  | .list f => List f.Value

/-- Reads a value of the form. A node that stands alone names its kind. -/
def decode (inner : Bool) : (f : Form) → Decoder Json f.Value
  | .attr => Attribute.ofJson
  | .node => if inner then Node.innerOfJson else Node.ofJson
  | .list f => Json.toList (f.decode true)

theorem decode_node (inner : Bool) (ms : List (String × Json)) :
    Form.node.decode inner (.object ms) = Node.ofMembers inner (Node.candidates ms) := by
  cases inner
  · rfl
  · simp only [decode, if_true, Node.innerOfJson]

end Form

/-- The members that say nothing about a node of the kind. -/
def NodeKind.omissible (kind : NodeKind) : List (String × Json) :=
  ("filename", .null) :: match kind with
    | .block => [("yield", .bool false)]
    | .text => [("isHtml", .bool false)]
    | .mixin => [("args", .null), ("attrs", .array []), ("attributeBlocks", .array [])]
    | .each => [("key", .null)]
    | .inclusion => [("filter", .null)]
    | _ => []

/-- What an object in a tree's JSON describes. -/
inductive Entity where
  | attr
  | node (kind : NodeKind)

namespace Entity

/-- The names that mean something to it. -/
def known : Entity → List String
  | .attr => Attribute.record.names
  | .node kind => "type" :: (Node.record kind).names

/-- The members that say nothing about it. -/
def omissible : Entity → List (String × Json)
  | .attr => [("escaped", .bool false)]
  | .node kind => kind.omissible

/-- What the members of an object describe. -/
inductive Of : Form → List (String × Json) → Entity → Prop where
  | attr {ms : List (String × Json)} : Of .attr ms .attr
  | node {ms : List (String × Json)} {kind : NodeKind}
      (h : ("type", .string kind.wireName) ∈ ms) : Of .node ms (.node kind)

end Entity

/-- One change of spelling, somewhere within a value of a form. -/
inductive Respelling : Form → Json → Json → Prop where
  | reorder {f : Form} {ms ms' : List (String × Json)} (h : ms.Perm ms') :
    Respelling f (.object ms) (.object ms')
  | add {f : Form} {ms : List (String × Json)} {e : Entity} (h : e.Of f ms) {m : String × Json}
      (hm : m.1 ∉ e.known) : Respelling f (.object ms) (.object (m :: ms))
  | drop {f : Form} {ms : List (String × Json)} {e : Entity} (h : e.Of f ms) {m : String × Json}
      (hm : m ∈ e.omissible) : Respelling f (.object (m :: ms)) (.object ms)
  | member {f g : Form} {name : String} (hf : f.field name = some g) {v v' : Json}
      (h : Respelling g v v') (ms : List (String × Json)) :
    Respelling f (.object ((name, v) :: ms)) (.object ((name, v') :: ms))
  | item {f : Form} {v v' : Json} (h : Respelling f v v') (before after : List Json) :
    Respelling (.list f) (.array (before ++ v :: after)) (.array (before ++ v' :: after))

/-- The JSON of a node, with any number of changes of spelling. -/
def Node.Spelled (n : Node) (v : Json) : Prop :=
  Relation.ReflTransGen (Respelling .node) n.toJson v

theorem Respelling.not_null {f : Form} {v v' : Json} (h : Respelling f v v') :
    v ≠ .null ∧ v' ≠ .null := by
  cases h <;> exact ⟨nofun, nofun⟩

/-- A member that says nothing may be left out wherever it stands. -/
theorem Respelling.drop_within {f : Form} {e : Entity} (before after : List (String × Json))
    (h : e.Of f (before ++ after)) {m : String × Json} (hm : m ∈ e.omissible) :
    Relation.ReflTransGen (Respelling f) (.object (before ++ m :: after))
      (.object (before ++ after)) :=
  .head (.reorder List.perm_middle) (.single (.drop h hm))

/-! What is read of the members of a node. -/

namespace Node

def candidate (v : Json) : Candidate := ⟨v, innerOfJson v, listOfJson v⟩

theorem candidates_eq (ms : List (String × Json)) :
    candidates ms = ms.map fun m => (m.1, candidate m.2) := by
  induction ms with
  | nil => rfl
  | cons m ms ih =>
    simp only [candidates, ih, List.map_cons]
    rfl

theorem listOfJson_eq (v : Json) : listOfJson v = Json.toList innerOfJson v := by
  have hitems (vs : List Json) : itemsOfJson vs = vs.mapM innerOfJson := by
    induction vs with
    | nil => rfl
    | cons v vs ih => rw [itemsOfJson, List.mapM_cons, ih]
  cases v with
  | array vs => exact hitems vs
  | _ => rfl

/-- Changes of the members of a node that make no difference. -/
inductive Harmless (kind : NodeKind) (name : String) :
    Option Candidate → Option Candidate → Prop where
  | same (o : Option Candidate) : Harmless kind name o o
  | drop {v : Json} (h : (name, v) ∈ kind.omissible) : Harmless kind name (some (candidate v)) none
  | change {f : Form} (hf : Form.node.field name = some f) {v v' : Json} (hv : v ≠ .null)
      (hv' : v' ≠ .null) (h : ∀ x, f.decode true v = .ok x → f.decode true v' = .ok x) :
    Harmless kind name (some (candidate v)) (some (candidate v'))

/-- A decoder reads what stands in a field alike in every spelling. -/
def ReadsAlike {β : Type} (name : String) (decode : Decoder Candidate β) : Prop :=
  ∀ {f : Form}, Form.node.field name = some f → ∀ {v v' : Json} {b : β}, v ≠ .null → v' ≠ .null →
    (∀ x, f.decode true v = .ok x → f.decode true v' = .ok x) →
      decode (candidate v) = .ok b → decode (candidate v') = .ok b

section Fields

variable {kind : NodeKind} {name : String} {β : Type} {decode : Decoder Candidate β} {value : β}

theorem readsAlike_plain (hf : Form.node.field name = none) : ReadsAlike name decode := by
  intro f hf'
  cases hf.symm.trans hf'

theorem readsAlike_attributes : ReadsAlike "attrs" (Candidate.plain Attribute.listOfJson) := by
  intro f hf
  cases hf
  exact fun _ _ h => h _

theorem readsAlike_nodes : ReadsAlike "nodes" Candidate.nodes := by
  intro f hf v v' b _ _ h hb
  cases hf
  exact (listOfJson_eq v').trans (h _ ((listOfJson_eq v).symm.trans hb))

theorem readsAlike_block : ReadsAlike "block" Candidate.block := by
  intro f hf v v' b _ _ h hb
  cases hf
  simp only [Candidate.block, candidate] at hb ⊢
  cases hn : innerOfJson v with
  | error e =>
    rw [hn] at hb
    cases hb
  | ok n =>
    rw [hn] at hb
    rw [show innerOfJson v' = .ok n from h _ hn]
    exact hb

theorem node?_candidate {v : Json} (hv : v ≠ .null) :
    (candidate v).node? = (innerOfJson v).map some := by
  cases v <;> first | rfl | exact absurd rfl hv

theorem readsAlike_node? : ReadsAlike "code" Candidate.node? := by
  intro f hf v v' b hv hv' h hb
  cases hf
  rw [node?_candidate hv] at hb
  rw [node?_candidate hv']
  cases hn : innerOfJson v with
  | error e =>
    rw [hn] at hb
    cases hb
  | ok n =>
    rw [hn] at hb
    rw [show innerOfJson v' = .ok n from h _ hn]
    exact hb

theorem readsAlike_block? (hname : Form.node.field name = some .node) :
    ReadsAlike name Candidate.block? := by
  intro f hf v v' b hv hv' h hb
  cases hname.symm.trans hf
  simp only [Candidate.block?, node?_candidate hv, node?_candidate hv'] at hb ⊢
  cases hn : innerOfJson v with
  | error e =>
    rw [hn] at hb
    cases hb
  | ok n =>
    rw [hn] at hb
    rw [show innerOfJson v' = .ok n from h _ hn]
    exact hb

end Fields

end Node

namespace Record.Reads

open Node

variable {kind : NodeKind} {name : String} {β : Type} {decode : Decoder Candidate β} {value : β}

/-- A required member may not be left out. -/
theorem required_node (ho : name ∉ kind.omissible.map Prod.fst) (hd : ReadsAlike name decode) :
    (Record.required name decode).Reads (Harmless kind) := by
  refine required fun hR hb => ?_
  cases hR with
  | same => exact ⟨_, rfl, hb⟩
  | drop h => exact absurd (List.mem_map_of_mem h) ho
  | change hf hv hv' h => exact ⟨_, rfl, hd hf hv hv' h hb⟩

/-- A member that is left out says nothing. -/
theorem withDefault_node {w : Json} (ho : ∀ v, (name, v) ∈ kind.omissible → v = w)
    (hw : decode (candidate w) = .ok value) (hd : ReadsAlike name decode) :
    (Record.withDefault name value decode).Reads (Harmless kind) := by
  refine withDefault fun hR hb => ?_
  cases hR with
  | same => exact hb
  | drop h =>
    cases ho _ h
    exact hw.symm.trans hb
  | change hf hv hv' h => exact hd hf hv hv' h hb

end Record.Reads

namespace Node

variable {kind : NodeKind}

theorem reads_origin : originRecord.Reads (Harmless kind) := by
  refine .seq (.map _ (.required_node ?_ (readsAlike_plain rfl)))
    (.withDefault_node (w := .null) ?_ rfl (readsAlike_plain rfl))
  all_goals cases kind <;> simp [NodeKind.omissible]

theorem reads_shape (kind : NodeKind) : (shapeRecord kind).Reads (Harmless kind) := by
  -- every kind is a sequence of fields, and a field is one of the few below
  cases kind
  all_goals
    repeat' first | refine .seq ?_ ?_ | refine .map _ ?_ | exact .pure _
  all_goals first
    | refine .required_node ?_ (readsAlike_plain rfl)
    | refine .required_node ?_ readsAlike_attributes
    | refine .required_node ?_ readsAlike_nodes
    | refine .required_node ?_ readsAlike_block
    | refine .required_node ?_ (readsAlike_block? rfl)
    | refine .withDefault_node (w := .null) ?_ rfl (readsAlike_plain rfl)
    | refine .withDefault_node (w := .bool false) ?_ rfl (readsAlike_plain rfl)
    | refine .withDefault_node (w := .array []) ?_ rfl (readsAlike_plain rfl)
    | refine .withDefault_node (w := .array []) ?_ rfl readsAlike_attributes
    | refine .withDefault_node (w := .null) ?_ rfl readsAlike_node?
    | refine .withDefault_node (w := .null) ?_ rfl (readsAlike_block? rfl)
  all_goals simp [NodeKind.omissible]

theorem reads_record (kind : NodeKind) : (record kind).Reads (Harmless kind) :=
  .seq (.map _ reads_origin) (reads_shape kind)

/-- The kind of a node, which may be given by an index within another node. -/
def kindRecord (indexed : Bool) : Record Candidate NodeKind :=
  .required "type" (Candidate.plain (Json.toVariant NodeKind.all NodeKind.wireName indexed))

theorem reads_kind (kind : NodeKind) (indexed : Bool) :
    (kindRecord indexed).Reads (Harmless kind) :=
  .required_node (by cases kind <;> simp [NodeKind.omissible]) (readsAlike_plain rfl)

theorem ofMembers_ok {indexed : Bool} {ms : List (String × Candidate)} {n : Node} :
    ofMembers indexed ms = .ok n ↔
      ∃ kind, (kindRecord indexed).read ms = .ok kind ∧ (record kind).read ms = .ok n := by
  change ((kindRecord indexed).read ms >>= fun kind => (record kind).read ms) = .ok n ↔ _
  cases (kindRecord indexed).read ms <;> simp [bind, Except.bind]

theorem ofName_wireName (kind : NodeKind) :
    Json.ofName NodeKind.all NodeKind.wireName kind.wireName = .ok kind := by
  cases kind <;> rfl

/-- A kind that is named is the kind that is read. -/
theorem read_kind {indexed : Bool} {ms : List (String × Json)} {k : NodeKind}
    (hk : (kindRecord indexed).read (candidates ms) = .ok k)
    (hms : ("type", .string kind.wireName) ∈ ms) : k = kind := by
  obtain ⟨hn, hm⟩ := (reads_kind kind indexed).read_ok.mp hk
  have hmem : ("type", candidate (.string kind.wireName)) ∈ candidates ms := by
    rw [candidates_eq]
    exact List.mem_map.mpr ⟨_, hms, rfl⟩
  have hl := Record.lookup?_of_mem (decide_eq_true List.mem_cons_self) hn hmem
  simp only [kindRecord, Record.required, hl] at hm
  exact Except.ok.inj (hm.symm.trans (ofName_wireName kind))

section Members

variable {indexed : Bool} {ms ms' : List (String × Json)} {m : String × Json} {n : Node}

theorem ofMembers_perm (hp : ms.Perm ms') (hn : ofMembers indexed (candidates ms) = .ok n) :
    ofMembers indexed (candidates ms') = .ok n := by
  obtain ⟨kind, hk, hr⟩ := ofMembers_ok.mp hn
  rw [candidates_eq] at hk hr
  rw [ofMembers_ok, candidates_eq]
  have hp := hp.map fun m => (m.1, candidate m.2)
  exact ⟨kind, (reads_kind kind indexed).read_perm (fun _ => .same) hp hk,
    (reads_record kind).read_perm (fun _ => .same) hp hr⟩

theorem ofMembers_add (hk : ("type", .string kind.wireName) ∈ ms)
    (hm : m.1 ∉ (Entity.node kind).known) (hn : ofMembers indexed (candidates ms) = .ok n) :
    ofMembers indexed (candidates (m :: ms)) = .ok n := by
  obtain ⟨_, hkind, hr⟩ := ofMembers_ok.mp hn
  cases read_kind hkind hk
  obtain ⟨htype, hnames⟩ := not_or.mp fun h => hm (List.mem_cons.mpr h)
  refine ofMembers_ok.mpr ⟨kind, ?_, ?_⟩
  · refine (reads_kind kind indexed).read_add (fun _ => .same) ?_ hkind
    exact fun h => htype (List.mem_singleton.mp h)
  · exact (reads_record kind).read_add (fun _ => .same) hnames hr

theorem ofMembers_drop (hk : ("type", .string kind.wireName) ∈ m :: ms)
    (hm : m ∈ kind.omissible) (hn : ofMembers indexed (candidates (m :: ms)) = .ok n) :
    ofMembers indexed (candidates ms) = .ok n := by
  obtain ⟨_, hkind, hr⟩ := ofMembers_ok.mp hn
  cases read_kind hkind hk
  exact ofMembers_ok.mpr ⟨kind,
    (reads_kind kind indexed).read_omit (fun _ => .same) (.drop hm) hkind,
    (reads_record kind).read_omit (fun _ => .same) (.drop hm) hr⟩

theorem ofMembers_change {f : Form} {name : String} {v v' : Json}
    (hf : Form.node.field name = some f) (hv : v ≠ .null) (hv' : v' ≠ .null)
    (h : ∀ x, f.decode true v = .ok x → f.decode true v' = .ok x)
    (hn : ofMembers indexed (candidates ((name, v) :: ms)) = .ok n) :
    ofMembers indexed (candidates ((name, v') :: ms)) = .ok n := by
  obtain ⟨kind, hkind, hr⟩ := ofMembers_ok.mp hn
  have hR : Harmless kind name (some (candidate v)) (some (candidate v')) := .change hf hv hv' h
  exact ofMembers_ok.mpr ⟨kind, (reads_kind kind indexed).read_change (fun _ => .same) hR hkind,
    (reads_record kind).read_change (fun _ => .same) hR hr⟩

end Members

end Node

/-! What is read of the members of an attribute. -/

namespace Attribute

/-- Changes of the members of an attribute that make no difference. -/
inductive Harmless (name : String) : Option Json → Option Json → Prop where
  | same (o : Option Json) : Harmless name o o
  | drop (h : name = "escaped") : Harmless name (some (.bool false)) none

theorem reads_record : record.Reads Harmless := by
  refine .seq (.seq (.map _ (.required ?name)) (.required ?val)) (.withDefault ?escaped)
  case name | val =>
    intro v o b hR hb
    cases hR with
    | same => exact ⟨_, rfl, hb⟩
    | drop h => exact absurd h (by simp)
  case escaped =>
    intro o o' b hR hb
    cases hR <;> exact hb

end Attribute

namespace Respelling

variable {f : Form} {v v' : Json}

/-- An item of a list gives way to one that is read alike. -/
theorem mapM_change {α β : Type} {g : α → Except DecodeError β} {a a' : α}
    (h : ∀ b, g a = .ok b → g a' = .ok b) {before after : List α} {bs : List β}
    (hb : (before ++ a :: after).mapM g = .ok bs) : (before ++ a' :: after).mapM g = .ok bs := by
  simp only [List.mapM_append, List.mapM_cons] at hb ⊢
  cases ha : g a with
  | ok b =>
    rw [h b ha]
    rwa [ha] at hb
  | error e =>
    rw [ha] at hb
    cases hbefore : before.mapM g <;> rw [hbefore] at hb <;> cases hb

/-- A change of spelling makes no difference to what is read. -/
theorem decode (h : Respelling f v v') (inner : Bool) (x : f.Value)
    (hx : f.decode inner v = .ok x) :
    f.decode inner v' = .ok x := by
  induction h generalizing inner with
  | @reorder f ms ms' hp =>
    cases f with
    | attr => exact Attribute.reads_record.read_perm (fun _ => .same) hp hx
    | node =>
      rw [Form.decode_node] at hx ⊢
      exact Node.ofMembers_perm hp hx
    | list => cases hx
  | @add f ms e he m hm =>
    cases he with
    | attr => exact Attribute.reads_record.read_add (fun _ => .same) hm hx
    | node hk =>
      rw [Form.decode_node] at hx ⊢
      exact Node.ofMembers_add hk hm hx
  | @drop f ms e he m hm =>
    cases he with
    | attr =>
      cases List.mem_singleton.mp hm
      exact Attribute.reads_record.read_omit (fun _ => .same) (.drop rfl) hx
    | node hk =>
      rw [Form.decode_node] at hx ⊢
      exact Node.ofMembers_drop (List.mem_cons_of_mem m hk) hm hx
  | @member f g name hf v v' h ms ih =>
    cases f with
    | node =>
      rw [Form.decode_node] at hx ⊢
      exact Node.ofMembers_change hf h.not_null.1 h.not_null.2 (ih true) hx
    | attr => cases hf
    | list => cases hf
  | item h before after ih => exact mapM_change (ih true) hx

end Respelling

/-- Every spelling of what is read as a node is read as that node. -/
theorem Node.ofJson_respelled {n : Node} {v v' : Json}
    (h : Relation.ReflTransGen (Respelling .node) v v') (hv : ofJson v = .ok n) :
    ofJson v' = .ok n := by
  induction h with
  | refl => exact hv
  | tail _ h ih => exact h.decode false n ih

end TemplateTree
