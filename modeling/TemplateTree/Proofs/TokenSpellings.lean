import Mathlib.Data.List.Forall2
import TemplateTree.Proofs.ReadBack

/-!
The JSON of tokens can be spelled in several ways too. Whatever order its members stand in, whoever
joins them, and whichever of those with a default are left out where they have it, the token that
was written is the token that is read.
-/

namespace TemplateTree
set_option autoImplicit false

/-- The members that say nothing about a token of the kind. -/
def TokenKind.omissible : TokenKind → List (String × Json)
  | .tag => [("selfClosing", .bool false)]
  | .attrs => [("attrs", .array []), ("selfClosing", .bool false)]
  | .code =>
    [("buffer", .bool false), ("escape", .bool false), ("isElse", .bool false),
      ("isIf", .bool false), ("hasIf", .bool false), ("requiresBlock", .bool false)]
  | .each => [("key", .null)]
  | .mixin => [("args", .null)]
  | .call => [("args", .null)]
  | .inclusion => [("filter", .null), ("attrs", .array [])]
  | .block => [("mode", .string "replace")]
  | .doctype => [("val", .string "")]
  | .comment => [("buffer", .bool false)]
  | .indent => [("val", .word 0)]
  | _ => []

/-- The names that mean something to a token of the kind. -/
def TokenKind.known (kind : TokenKind) : List String := "type" :: (Token.record kind).names

namespace Token

/-- One change of spelling of a token of a kind. -/
inductive Respelling (kind : TokenKind) : Json → Json → Prop where
  | reorder {ms ms' : List (String × Json)} (h : ms.Perm ms') :
    Respelling kind (.object ms) (.object ms')
  | add {m : String × Json} (hm : m.1 ∉ kind.known) (ms : List (String × Json)) :
    Respelling kind (.object ms) (.object (m :: ms))
  | drop {m : String × Json} (hm : m ∈ kind.omissible) (ms : List (String × Json)) :
    Respelling kind (.object (m :: ms)) (.object ms)
  | attributes {v v' : Json} (h : TemplateTree.Respelling (.list .attr) v v')
      (ms : List (String × Json)) :
    Respelling kind (.object (("attrs", v) :: ms)) (.object (("attrs", v') :: ms))

/-- The JSON of a token, with any number of changes of spelling. -/
def Spelled (t : Token) (v : Json) : Prop :=
  Relation.ReflTransGen (Respelling t.kind) t.toJson v

/-- Changes of the members of a token that make no difference. -/
inductive Harmless (kind : TokenKind) (name : String) : Option Json → Option Json → Prop where
  | same (o : Option Json) : Harmless kind name o o
  | drop {v : Json} (h : (name, v) ∈ kind.omissible) : Harmless kind name (some v) none
  | attributes (hname : name = "attrs") {v v' : Json}
      (h : ∀ x, Attribute.listOfJson v = .ok x → Attribute.listOfJson v' = .ok x) :
    Harmless kind name (some v) (some v')

section Fields

variable {kind : TokenKind} {name : String} {β : Type} {decode : Decoder Json β} {value : β}

/-- A required member may not be left out. -/
theorem reads_required (ho : name ∉ kind.omissible.map Prod.fst) (hname : name ≠ "attrs") :
    (Record.required name decode).Reads (Harmless kind) := by
  apply Record.Reads.required
  intro v o b hR hb
  cases hR with
  | same => exact ⟨_, rfl, hb⟩
  | drop h => exact absurd (List.mem_map_of_mem h) ho
  | attributes h => exact absurd h hname

/-- A member that is left out says nothing. -/
theorem reads_withDefault {w : Json} (ho : ∀ v, (name, v) ∈ kind.omissible → v = w)
    (hw : decode w = .ok value) (hname : name ≠ "attrs") :
    (Record.withDefault name value decode).Reads (Harmless kind) := by
  apply Record.Reads.withDefault
  intro o o' b hR hb
  cases hR with
  | same => exact hb
  | drop h =>
    cases ho _ h
    exact hw.symm.trans hb
  | attributes h => exact absurd h hname

theorem reads_attributes (ho : ∀ v, ("attrs", v) ∈ kind.omissible → v = .array []) :
    (Record.withDefault "attrs" [] Attribute.listOfJson).Reads (Harmless kind) := by
  apply Record.Reads.withDefault
  intro o o' b hR hb
  cases hR with
  | same => exact hb
  | drop h =>
    cases ho _ h
    exact hb
  | attributes _ h => exact h _ hb

end Fields

theorem reads_lexeme (kind : TokenKind) : (Lexeme.record kind).Reads (Harmless kind) := by
  -- every kind is a sequence of fields, and a field is one of the few below
  cases kind
  all_goals
    repeat' first | refine .seq ?_ ?_ | refine .map _ ?_ | exact .pure _
  all_goals first
    | refine reads_required ?_ (by decide)
    | refine reads_attributes ?_
    | refine reads_withDefault (w := .bool false) ?_ rfl (by decide)
    | refine reads_withDefault (w := .null) ?_ rfl (by decide)
    | refine reads_withDefault (w := .string "replace") ?_ rfl (by decide)
    | refine reads_withDefault (w := .string "") ?_ rfl (by decide)
    | refine reads_withDefault (w := .word 0) ?_ rfl (by decide)
  all_goals simp [TokenKind.omissible]

theorem reads_record (kind : TokenKind) : (record kind).Reads (Harmless kind) :=
  .seq (.map _ (reads_required (by cases kind <;> simp [TokenKind.omissible]) (by decide)))
    (reads_lexeme kind)

/-- The kind of a token. -/
def kindRecord : Record Json TokenKind :=
  .required "type" (Json.toVariant TokenKind.all TokenKind.wireName false)

theorem reads_kind (kind : TokenKind) : kindRecord.Reads (Harmless kind) :=
  reads_required (by cases kind <;> simp [TokenKind.omissible]) (by decide)

/-- What is read as a token of a kind: its kind and all that the kind asks for. -/
def ReadAs (t : Token) (v : Json) : Prop :=
  ∃ ms, v = .object ms ∧ kindRecord.read ms = .ok t.kind ∧ (record t.kind).read ms = .ok t

namespace ReadAs

variable {t : Token} {v v' : Json}

theorem ofJson_eq (h : t.ReadAs v) : ofJson v = .ok t := by
  obtain ⟨ms, rfl, hkind, hread⟩ := h
  change (kindRecord.read ms >>= fun kind => (record kind).read ms) = .ok t
  rw [hkind]
  exact hread

/-- A change of spelling makes no difference to what is read. -/
theorem respelled (h : t.ReadAs v) (hv : Respelling t.kind v v') : t.ReadAs v' := by
  obtain ⟨ms, rfl, hkind, hread⟩ := h
  have hrefl (name : String) (o : Option Json) : Harmless t.kind name o o := .same o
  cases hv with
  | reorder hp =>
    exact ⟨_, rfl, (reads_kind t.kind).read_perm hrefl hp hkind,
      (reads_record t.kind).read_perm hrefl hp hread⟩
  | @add m hm =>
    obtain ⟨htype, hnames⟩ := not_or.mp fun h => hm (List.mem_cons.mpr h)
    have hnot : m.1 ∉ kindRecord.names := fun h => htype (List.mem_singleton.mp h)
    exact ⟨_, rfl, (reads_kind t.kind).read_add hrefl hnot hkind,
      (reads_record t.kind).read_add hrefl hnames hread⟩
  | drop hm ms =>
    have hR := Harmless.drop hm
    exact ⟨_, rfl, (reads_kind t.kind).read_omit hrefl hR hkind,
      (reads_record t.kind).read_omit hrefl hR hread⟩
  | @attributes v v' h ms =>
    have hR : Harmless t.kind "attrs" (some v) (some v') :=
      .attributes rfl fun x hx => h.decode true x hx
    exact ⟨_, rfl, (reads_kind t.kind).read_change hrefl hR hkind,
      (reads_record t.kind).read_change hrefl hR hread⟩

end ReadAs

/-- The members of a token. -/
def members (t : Token) : List (String × Json) :=
  ("type", .string t.kind.wireName) :: ("line", .word t.line) :: t.lexeme.members

theorem nodup_members (t : Token) : (t.members.map Prod.fst).Nodup := by
  obtain ⟨line, lexeme⟩ := t
  cases lexeme <;> simp [members, Lexeme.members]

theorem ofName_wireName (kind : TokenKind) :
    Json.ofName TokenKind.all TokenKind.wireName kind.wireName = .ok kind := by
  cases kind <;> rfl

theorem make_lexeme (t : Token) : (Lexeme.record t.kind).make t.members = .ok t.lexeme := by
  obtain ⟨line, lexeme⟩ := t
  cases lexeme with
  | attrs list selfClosing =>
    have hlist := Attribute.listOfJson_listToJson list
    exact Record.makes_seq (Record.makes_map hlist) rfl
  | inclusion path via list =>
    have hlist := Attribute.listOfJson_listToJson list
    cases via <;> exact Record.makes_seq (Record.makes_seq (Record.makes_map rfl) rfl) hlist
  | each head =>
    obtain ⟨item, key, collection⟩ := head
    cases key <;> rfl
  | mixin name args | call name args => cases args <;> rfl
  | block name mode => cases mode <;> rfl
  | _ => rfl

theorem readAs_toJson (t : Token) : t.ReadAs t.toJson := by
  have hn : (t.members.map Prod.fst).Nodup := t.nodup_members
  refine ⟨t.members, rfl, ?_, ?_⟩
  · refine (reads_kind t.kind).read_ok.mpr ⟨hn.sublist List.filter_sublist, ?_⟩
    exact ofName_wireName t.kind
  · refine (reads_record t.kind).read_ok.mpr ⟨hn.sublist List.filter_sublist, ?_⟩
    exact Record.makes_seq (Record.makes_map rfl) (make_lexeme t)

theorem readAs_spelled {t : Token} {v : Json} (h : t.Spelled v) : t.ReadAs v := by
  induction h with
  | refl => exact t.readAs_toJson
  | tail _ hv ih => exact ih.respelled hv

/-- A list of spelled tokens is read as the tokens, in their order. -/
theorem listOfJson_spelled {ts : List Token} {vs : List Json} (h : List.Forall₂ Spelled ts vs) :
    listOfJson (.array vs) = .ok ts := by
  induction h with
  | nil => rfl
  | cons ht _ ih =>
    have ih : List.mapM ofJson _ = .ok _ := ih
    simp only [listOfJson, Json.toList, List.mapM_cons, (readAs_spelled ht).ofJson_eq, ih]
    rfl

/-- Reading undoes writing, token by token and for whole streams, however the written JSON is
spelled. -/
theorem read_written : (∀ t : Token, ofJson t.toJson = .ok t) ∧
    (∀ (t : Token) (v : Json), t.Spelled v → ofJson v = .ok t) ∧
      (∀ ts : List Token, listOfJson (listToJson ts) = .ok ts) ∧
        ∀ (ts : List Token) (vs : List Json), List.Forall₂ Spelled ts vs →
          listOfJson (.array vs) = .ok ts := by
  refine ⟨fun t => t.readAs_toJson.ofJson_eq, fun t v h => (readAs_spelled h).ofJson_eq,
    fun ts => ?_, fun ts vs h => listOfJson_spelled h⟩
  exact Json.toList_map fun t _ => t.readAs_toJson.ofJson_eq

/-- An inclusion with one attribute. -/
def plainInclusion : Token := ⟨3, .inclusion "a" none [⟨"x", .flag true, false⟩]⟩

/-- The inclusion without the members that say nothing, and with one that nobody asks for. -/
def plainInclusionRespelled : Json :=
  .object [("note", .array []),
    ("attrs", .array [.object [("name", .string "x"), ("val", .bool true)]]),
    ("type", .string "include"), ("line", .word 3), ("val", .string "a")]

theorem spelled_plainInclusion : plainInclusion.Spelled plainInclusionRespelled := by
  -- no filter
  refine .head (.reorder (@List.perm_middle _ _ [_, _, _] [_])) ?_
  refine .head (.drop List.mem_cons_self _) ?_
  -- no mark of the attribute
  refine .head (.reorder (@List.perm_middle _ _ [_, _, _] [])) ?_
  refine .head (.attributes (.item (.reorder (@List.perm_middle _ _ [_, _] [])) [] []) _) ?_
  refine .head (.attributes (.item (.drop .attr (List.mem_singleton_self _)) [] []) _) ?_
  exact .single (.add (by decide) _)

theorem read_written_plainInclusion : plainInclusion.Spelled plainInclusionRespelled ∧
    ofJson plainInclusionRespelled = .ok plainInclusion ∧
      listOfJson (.array [plainInclusionRespelled, plainInclusion.toJson]) =
        .ok [plainInclusion, plainInclusion] := by
  obtain ⟨_, hone, _, hall⟩ := read_written
  have h := spelled_plainInclusion
  exact ⟨h, hone _ _ h, hall _ _ (.cons h (.cons .refl .nil))⟩

end Token

end TemplateTree
