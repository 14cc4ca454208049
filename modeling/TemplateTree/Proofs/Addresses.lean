import TemplateTree.Proofs.Trees

/-!
Addresses of nodes. A slot names the field of a node that holds another one, and an address is the
list of the slots on the way down to a node. Two addresses are the same, or one is on the way to
the other, or they part at some node, where one of them turns into the earlier slot.
-/

namespace TemplateTree
set_option autoImplicit false

/-- A field of a node, and the place in it where it holds a list. -/
inductive Slot where
  | code
  | body (i : Nat)
  | alternative (i : Nat)
deriving DecidableEq, Repr

/-- The order of the fields: code in front of the body, and the alternative behind it. -/
def Slot.Before : Slot → Slot → Prop
  | .code, .body _ => True
  | .code, .alternative _ => True
  | .body i, .body j => i < j
  | .body _, .alternative _ => True
  | .alternative i, .alternative j => i < j
  | _, _ => False

abbrev Address := List Slot

namespace Address

/-- The second address goes on from where the first one ends. -/
def Above (p q : Address) : Prop := ∃ slot rest, q = p ++ slot :: rest

/-- The addresses part, and the first one takes the earlier slot. -/
def Precedes (p q : Address) : Prop :=
  ∃ (stem : Address) (s t : Slot) (p' q' : Address),
    p = stem ++ s :: p' ∧ q = stem ++ t :: q' ∧ s.Before t

end Address

namespace Shape

variable {ν : Type}

/-- The node that stands for code on a tag's line. -/
def lineCode : Shape ν → Option ν
  | .tag _ _ c => c
  | _ => none

def body : Shape ν → List ν
  | .block nodes _ => nodes
  | .namedBlock _ _ nodes => nodes
  | .tag _ body _ => body.nodes
  | .text .. => []
  | .mixin _ body => BlockOf.nodesOf body
  | .mixinBlock => []
  | .code _ body => BlockOf.nodesOf body
  | .case _ body => body.nodes
  | .when _ body => BlockOf.nodesOf body
  | .each _ body _ => body.nodes
  | .inherit _ => []
  | .inclusion _ _ _ body => body.nodes
  | .comment .. => []
  | .blockComment _ _ body => body.nodes
  | .doctype _ => []
  | .filter _ _ body => body.nodes

def alternative : Shape ν → List ν
  | .each _ _ alternative => BlockOf.nodesOf alternative
  | _ => []

/-- What a slot holds. -/
def get? (shape : Shape ν) : Slot → Option ν
  | .code => shape.lineCode
  | .body i => shape.body[i]?
  | .alternative i => shape.alternative[i]?

/-- The nodes right under a node of the shape, with the slots that hold them. -/
def slots (shape : Shape ν) : List (Slot × ν) :=
  shape.lineCode.toList.map (fun n => (.code, n)) ++
    (shape.body.zipIdx.map (fun p => (.body p.2, p.1)) ++
      shape.alternative.zipIdx.map fun p => (.alternative p.2, p.1))

end Shape

/-- The node at an address, seen from the given node. -/
def Node.get? (n : Node) : Address → Option Node
  | [] => some n
  | slot :: rest => (n.shape.get? slot).bind fun m => m.get? rest

/-- The node at an address under a block. The block itself is at none. -/
def Block.get? (root : Block) : Address → Option Node
  | [] => none
  | slot :: rest => (Node.ofBlock root).get? (slot :: rest)

theorem Slot.before_or {s t : Slot} (h : s ≠ t) : s.Before t ∨ t.Before s := by
  cases s with
  | code =>
    cases t with
    | code => exact absurd rfl h
    | body | alternative => exact .inl trivial
  | body i =>
    cases t with
    | code => exact .inr trivial
    | body j => exact Nat.lt_or_gt_of_ne fun hij => h (congrArg Slot.body hij)
    | alternative => exact .inl trivial
  | alternative i =>
    cases t with
    | code | body => exact .inr trivial
    | alternative j => exact Nat.lt_or_gt_of_ne fun hij => h (congrArg Slot.alternative hij)

theorem Slot.Before.asymm {s t : Slot} (h : s.Before t) : ¬ t.Before s := by
  cases s <;> cases t <;> simp_all [Slot.Before]
  all_goals omega

theorem Slot.Before.ne {s t : Slot} (h : s.Before t) : s ≠ t := by
  intro hst
  subst hst
  exact h.asymm h

namespace Address

variable {p q : Address} {s t : Slot}

theorem Above.cons (h : Above p q) (s : Slot) : Above (s :: p) (s :: q) := by
  obtain ⟨slot, rest, h⟩ := h
  exact ⟨slot, rest, congrArg (s :: ·) h⟩

theorem above_nil (s : Slot) (q : Address) : Above [] (s :: q) := ⟨s, q, rfl⟩

theorem not_above_nil : ¬ Above p [] := by
  intro h
  obtain ⟨slot, rest, h⟩ := h
  cases p <;> cases h

theorem above_cons_cons : Above (s :: p) (t :: q) ↔ s = t ∧ Above p q := by
  constructor
  · intro h
    obtain ⟨slot, rest, h⟩ := h
    obtain ⟨hst, h⟩ := List.cons.inj h
    exact ⟨hst.symm, slot, rest, h⟩
  · intro h
    rw [h.1]
    exact h.2.cons t

theorem Precedes.cons (h : Precedes p q) (s : Slot) : Precedes (s :: p) (s :: q) := by
  obtain ⟨stem, a, b, p', q', hp, hq, hab⟩ := h
  exact ⟨s :: stem, a, b, p', q', congrArg (s :: ·) hp, congrArg (s :: ·) hq, hab⟩

theorem precedes_of_before (h : s.Before t) (p q : Address) : Precedes (s :: p) (t :: q) :=
  ⟨[], s, t, p, q, rfl, rfl, h⟩

theorem not_precedes_nil_left : ¬ Precedes [] q := by
  intro h
  obtain ⟨stem, s, t, p', q', h, _⟩ := h
  cases stem <;> cases h

theorem not_precedes_nil_right : ¬ Precedes p [] := by
  intro h
  obtain ⟨stem, s, t, p', q', _, h, _⟩ := h
  cases stem <;> cases h

theorem precedes_cons_cons :
    Precedes (s :: p) (t :: q) ↔ s.Before t ∨ s = t ∧ Precedes p q := by
  constructor
  · intro h
    obtain ⟨stem, a, b, p', q', hp, hq, hab⟩ := h
    cases stem with
    | nil =>
      obtain ⟨rfl, rfl⟩ := List.cons.inj hp
      obtain ⟨rfl, rfl⟩ := List.cons.inj hq
      exact .inl hab
    | cons c stem =>
      obtain ⟨hs, hp⟩ := List.cons.inj hp
      obtain ⟨ht, hq⟩ := List.cons.inj hq
      exact .inr ⟨hs.trans ht.symm, stem, a, b, p', q', hp, hq, hab⟩
  · intro h
    rcases h with h | ⟨h, hpq⟩
    · exact precedes_of_before h p q
    · rw [h]
      exact hpq.cons t

/-- How two addresses can stand to each other. -/
theorem eq_or_above_or_precedes (p q : Address) :
    p = q ∨ Above p q ∨ Above q p ∨ Precedes p q ∨ Precedes q p := by
  induction p generalizing q with
  | nil =>
    cases q with
    | nil => exact .inl rfl
    | cons t q => exact .inr (.inl (above_nil t q))
  | cons s p ih =>
    cases q with
    | nil => exact .inr (.inr (.inl (above_nil s p)))
    | cons t q =>
      by_cases h : s = t
      · subst h
        simp only [List.cons.injEq, true_and, above_cons_cons, precedes_cons_cons]
        rcases ih q with h | h | h | h | h
        · exact .inl h
        · exact .inr (.inl h)
        · exact .inr (.inr (.inl h))
        · exact .inr (.inr (.inr (.inl (.inr h))))
        · exact .inr (.inr (.inr (.inr (.inr h))))
      · rcases Slot.before_or h with h | h
        · exact .inr (.inr (.inr (.inl (precedes_of_before h p q))))
        · exact .inr (.inr (.inr (.inr (precedes_of_before h q p))))

end Address

namespace Shape

variable {ν : Type} {shape : Shape ν} {slot : Slot} {n : ν}

theorem children_eq (shape : Shape ν) :
    shape.children = shape.lineCode.toList ++ (shape.body ++ shape.alternative) := by
  cases shape <;> simp [children, lineCode, body, alternative]

theorem map_snd_slots (shape : Shape ν) : shape.slots.map Prod.snd = shape.children := by
  simp [slots, children_eq, Function.comp_def]

theorem mem_slots : (slot, n) ∈ shape.slots ↔ shape.get? slot = some n := by
  have hidx (ns : List ν) (i : Nat) :
      (∃ a b, ns[b]? = some a ∧ b = i ∧ a = n) ↔ ns[i]? = some n := by
    constructor
    · intro h
      obtain ⟨a, b, h, hi, ha⟩ := h
      rw [← hi, ← ha, h]
    · intro h
      exact ⟨n, i, h, rfl, rfl⟩
  simp only [slots, List.mem_append, List.mem_map, Option.mem_toList, Prod.mk.injEq, Prod.exists,
    List.mem_zipIdx_iff_getElem?]
  cases slot with
  | code =>
    simp only [reduceCtorEq, true_and, false_and, and_false, exists_eq_right, exists_false, or_false,
      get?]
  | body i =>
    simp only [Slot.body.injEq, reduceCtorEq, false_and, and_false, exists_false, or_false, false_or,
      hidx, get?]
  | alternative i =>
    simp only [Slot.alternative.injEq, reduceCtorEq, false_and, and_false, exists_false, false_or,
      hidx, get?]

theorem slots_pairwise (shape : Shape ν) :
    shape.slots.Pairwise fun a b => a.1.Before b.1 := by
  have hidx (ns : List ν) : ns.zipIdx.Pairwise fun a b => a.2 < b.2 := by
    rw [← List.pairwise_map (f := Prod.snd) (R := (· < ·)), List.zipIdx_map_snd]
    exact List.pairwise_lt_range'
  have hcode : (shape.lineCode.toList.map fun n => (Slot.code, n)).Pairwise
      fun a b => a.1.Before b.1 := by
    cases shape.lineCode <;> simp
  rw [slots, List.pairwise_append, List.pairwise_append]
  refine ⟨hcode, ⟨List.pairwise_map.mpr (hidx _), List.pairwise_map.mpr (hidx _), ?_⟩, ?_⟩
  · intro a ha b hb
    obtain ⟨_, _, rfl⟩ := List.mem_map.mp ha
    obtain ⟨_, _, rfl⟩ := List.mem_map.mp hb
    exact trivial
  · intro a ha b hb
    obtain ⟨_, _, rfl⟩ := List.mem_map.mp ha
    rcases List.mem_append.mp hb with hb | hb
    · obtain ⟨_, _, rfl⟩ := List.mem_map.mp hb
      exact trivial
    · obtain ⟨_, _, rfl⟩ := List.mem_map.mp hb
      exact trivial

end Shape

end TemplateTree
