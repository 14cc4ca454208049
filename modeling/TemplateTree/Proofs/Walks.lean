import Mathlib.Data.List.Flatten
import Mathlib.Data.List.Nodup
import TemplateTree.Proofs.Addresses

/-!
Walks and the places they lead to. A walk that skips nothing enters and leaves every node once,
around everything that stands under the node, and takes the fields of a node in their order. A
walk that skips the children of some nodes is the same walk without what happens between entering
and leaving those.
-/

namespace TemplateTree
set_option autoImplicit false

/-- A moment of a walk, told by the address of the node that is entered or left. -/
inductive Moment where
  | enter (p : Address)
  | leave (p : Address)
deriving DecidableEq, Repr

namespace Moment

def address : Moment → Address
  | enter p => p
  | leave p => p

/-- The moment as it is seen from the node whose slot holds the visited part. -/
def under (slot : Slot) : Moment → Moment
  | enter p => enter (slot :: p)
  | leave p => leave (slot :: p)

/-- What happens at a moment, where the nodes stand at the given addresses. -/
def event? (get : Address → Option Node) : Moment → Option WalkEvent
  | enter p => (get p).map .enter
  | leave p => (get p).map .leave

end Moment

/-- The moments of a walk that skips nothing: each of them comes once, the nodes under another one
are entered and left while that one is open, and earlier slots are done with before later ones. -/
structure Itinerary (get : Address → Option Node) (ms : List Moment) : Prop where
  nodup : ms.Nodup
  mem_iff : ∀ m, m ∈ ms ↔ (get m.address).isSome = true
  closes : ∀ p, (get p).isSome = true → [.enter p, .leave p].Sublist ms
  within : ∀ p q, (get p).isSome = true → (get q).isSome = true → p.Above q →
    [.enter p, .enter q, .leave q, .leave p].Sublist ms
  inOrder : ∀ p q, (get p).isSome = true → (get q).isSome = true → p.Precedes q →
    [.enter p, .leave p, .enter q, .leave q].Sublist ms

/-- The moment lies between entering and leaving a node whose children are skipped. -/
def Moment.Skipped (get : Address → Option Node) (descend : Node → Bool) (ms : List Moment)
    (m : Moment) : Prop :=
  ∃ p n, get p = some n ∧ descend n = false ∧ [.enter p, m, .leave p].Sublist ms

theorem Node.wellFounded_children : WellFounded fun m n : Node => m ∈ n.children :=
  ⟨fun n => Node.induction (fun n ih => ⟨n, ih⟩) n⟩

local instance : WellFoundedRelation Node := ⟨fun m n => m ∈ n.children, Node.wellFounded_children⟩

theorem Shape.mem_children_of_slots {shape : Shape Node} {e : Slot × Node} (h : e ∈ shape.slots) :
    e.2 ∈ shape.children := by
  rw [← map_snd_slots]
  exact List.mem_map_of_mem h

/-- The moments of a walk through a node, from entering it to leaving it. -/
def Node.itinerary (n : Node) : List Moment :=
  .enter [] :: ((n.shape.slots.attach.flatMap fun e => e.1.2.itinerary.map (.under e.1.1)) ++
    [.leave []])
termination_by n
decreasing_by exact Shape.mem_children_of_slots e.2

namespace Shape

/-- The moments of a walk through what stands under a node of the shape. -/
def itinerary (shape : Shape Node) : List Moment :=
  shape.slots.flatMap fun e => e.2.itinerary.map (.under e.1)

/-- The node at an address under a node of the shape. -/
def find? (shape : Shape Node) : Address → Option Node
  | [] => none
  | slot :: rest => (shape.get? slot).bind fun m => m.get? rest

end Shape

theorem Node.itinerary_eq (n : Node) :
    n.itinerary = .enter [] :: (n.shape.itinerary ++ [.leave []]) := by
  rw [Node.itinerary, Shape.itinerary, List.flatMap_def, List.flatMap_def,
    List.attach_map_val (f := fun e : Slot × Node => e.2.itinerary.map (Moment.under e.1))]

/-- What comes once does not come both before and behind something else. -/
theorem not_sublist_swap {α : Type} {l : List α} {a b : α} (hl : l.Nodup)
    (hab : [a, b].Sublist l) : ¬ [b, a].Sublist l := by
  induction l with
  | nil => nomatch hab
  | cons c l ih =>
    obtain ⟨hc, hl⟩ := List.nodup_cons.mp hl
    intro hba
    cases hab with
    | cons _ hab =>
      cases hba with
      | cons _ hba => exact ih hl hab hba
      | cons_cons _ hba => exact hc (hab.subset (by simp))
    | cons_cons _ hab =>
      cases hba with
      | cons _ hba => exact hc (hba.subset (by simp))
      | cons_cons _ hba => exact hc (hba.subset (by simp))

namespace Moment

theorem address_under (slot : Slot) (m : Moment) : (m.under slot).address = slot :: m.address := by
  cases m <;> rfl

theorem under_injective (slot : Slot) : Function.Injective (Moment.under slot) := by
  intro m k h
  cases m <;> cases k <;> simp_all [under]

end Moment

namespace Shape

variable {shape : Shape Node} {e : Slot × Node} {slot : Slot} {n : Node}

theorem find?_of_slots (h : (slot, n) ∈ shape.slots) (p : Address) :
    shape.find? (slot :: p) = n.get? p := by
  rw [find?, mem_slots.mp h, Option.bind_some]

theorem exists_slots {p : Address} (h : (shape.find? p).isSome = true) :
    ∃ slot n rest, p = slot :: rest ∧ (slot, n) ∈ shape.slots ∧ (n.get? rest).isSome = true := by
  cases p with
  | nil => cases h
  | cons slot rest =>
    change ((shape.get? slot).bind fun m => m.get? rest).isSome = true at h
    cases hn : shape.get? slot with
    | none =>
      rw [hn] at h
      cases h
    | some n =>
      rw [hn] at h
      exact ⟨slot, n, rest, rfl, mem_slots.mpr hn, h⟩

theorem slots_unique {m : Node} (hn : (slot, n) ∈ shape.slots) (hm : (slot, m) ∈ shape.slots) :
    n = m :=
  Option.some.inj ((mem_slots.mp hn).symm.trans (mem_slots.mp hm))

theorem map_sublist_itinerary (h : (slot, n) ∈ shape.slots) {ms : List Moment}
    (hms : ms.Sublist n.itinerary) : (ms.map (Moment.under slot)).Sublist shape.itinerary := by
  have hn : ([(slot, n)].flatMap fun e => e.2.itinerary.map (.under e.1)).Sublist
      shape.itinerary := (List.singleton_sublist.mpr h).flatMap _
  rw [List.flatMap_singleton] at hn
  exact (hms.map _).trans hn

/-- What is under an earlier slot is done with before what is under a later one. -/
theorem append_sublist_itinerary {t : Slot} {m : Node} (hn : (slot, n) ∈ shape.slots)
    (hm : (t, m) ∈ shape.slots) (hst : slot.Before t) :
    (n.itinerary.map (Moment.under slot) ++ m.itinerary.map (Moment.under t)).Sublist
      shape.itinerary := by
  have hpair : [(slot, n), (t, m)].Sublist shape.slots := by
    obtain ⟨front, back, hslots⟩ := List.append_of_mem hn
    have hbefore := shape.slots_pairwise
    rw [hslots, List.pairwise_append] at hbefore
    rw [hslots, List.mem_append, List.mem_cons] at hm
    rw [hslots]
    rcases hm with hm | hm | hm
    · exact absurd (hbefore.2.2 _ hm _ List.mem_cons_self) (Slot.Before.asymm hst)
    · exact absurd (congrArg Prod.fst hm).symm hst.ne
    · exact ((List.singleton_sublist.mpr hm).cons_cons _).trans (List.sublist_append_right _ _)
  have h : ([(slot, n), (t, m)].flatMap fun e => e.2.itinerary.map (.under e.1)).Sublist
      shape.itinerary := hpair.flatMap _
  rwa [List.flatMap_cons, List.flatMap_singleton] at h

theorem nodup_itinerary (h : ∀ e ∈ shape.slots, e.2.itinerary.Nodup) :
    shape.itinerary.Nodup := by
  rw [itinerary, List.nodup_flatMap]
  constructor
  · intro e he
    exact (h e he).map (Moment.under_injective e.1)
  · apply shape.slots_pairwise.imp
    intro a b hab m ha hb
    obtain ⟨j, _, rfl⟩ := List.mem_map.mp ha
    obtain ⟨k, _, hk⟩ := List.mem_map.mp hb
    have hslot := congrArg Moment.address hk
    rw [Moment.address_under, Moment.address_under] at hslot
    exact hab.ne (List.cons.inj hslot).1.symm

/-- The walk through the children takes them in the order of their slots. -/
theorem itinerary_spec (h : ∀ e ∈ shape.slots, Itinerary e.2.get? e.2.itinerary) :
    Itinerary shape.find? shape.itinerary where
  nodup := nodup_itinerary fun e he => (h e he).nodup
  mem_iff m := by
    constructor
    · intro hm
      obtain ⟨⟨slot, n⟩, he, hm⟩ := List.mem_flatMap.mp hm
      obtain ⟨k, hk, rfl⟩ := List.mem_map.mp hm
      rw [Moment.address_under, find?_of_slots he]
      exact ((h _ he).mem_iff k).mp hk
    · intro hm
      obtain ⟨slot, n, rest, hp, he, hn⟩ := exists_slots hm
      apply List.mem_flatMap.mpr
      refine ⟨(slot, n), he, ?_⟩
      cases m with
      | enter p =>
        rw [show p = slot :: rest from hp]
        exact List.mem_map_of_mem (f := Moment.under slot) (((h _ he).mem_iff (.enter rest)).mpr hn)
      | leave p =>
        rw [show p = slot :: rest from hp]
        exact List.mem_map_of_mem (f := Moment.under slot) (((h _ he).mem_iff (.leave rest)).mpr hn)
  closes p hp := by
    obtain ⟨slot, n, rest, rfl, he, hn⟩ := exists_slots hp
    exact map_sublist_itinerary he ((h _ he).closes rest hn)
  within p q hp hq hpq := by
    obtain ⟨slot, n, p, rfl, he, hn⟩ := exists_slots hp
    obtain ⟨t, m, q, rfl, he', hm⟩ := exists_slots hq
    obtain ⟨rfl, habove⟩ := Address.above_cons_cons.mp hpq
    rw [← slots_unique he he'] at hm
    exact map_sublist_itinerary he ((h _ he).within p q hn hm habove)
  inOrder p q hp hq hpq := by
    obtain ⟨slot, n, p, rfl, he, hn⟩ := exists_slots hp
    obtain ⟨t, m, q, rfl, he', hm⟩ := exists_slots hq
    rcases Address.precedes_cons_cons.mp hpq with hst | ⟨rfl, hleft⟩
    · have hfirst := ((h _ he).closes p hn).map (Moment.under slot)
      have hsecond := ((h _ he').closes q hm).map (Moment.under t)
      exact (hfirst.append hsecond).trans (append_sublist_itinerary he he' hst)
    · rw [← slots_unique he he'] at hm
      exact map_sublist_itinerary he ((h _ he).inOrder p q hn hm hleft)

end Shape

namespace Node

variable {n : Node}

theorem mem_itinerary {m : Moment} :
    m ∈ n.itinerary ↔ m = .enter [] ∨ m = .leave [] ∨ m ∈ n.shape.itinerary := by
  rw [itinerary_eq, List.mem_cons, List.mem_append, List.mem_singleton]
  exact or_congr_right or_comm

/-- A walk enters a node, goes through its children and leaves it. -/
theorem itinerary_spec (n : Node) : Itinerary n.get? n.itinerary := by
  induction n using Node.induction with
  | step n ih =>
    have hs : Itinerary n.shape.find? n.shape.itinerary :=
      Shape.itinerary_spec fun e he => ih e.2 (Shape.mem_children_of_slots he)
    -- Nothing that happens under the node is at the node itself.
    have hroot {m : Moment} (hm : m ∈ n.shape.itinerary) : m.address ≠ [] := by
      intro hnil
      have h := (hs.mem_iff m).mp hm
      rw [hnil] at h
      cases h
    have hinner {ms : List Moment} (h : ms.Sublist n.shape.itinerary) :
        ms.Sublist n.itinerary := by
      rw [itinerary_eq]
      exact (h.trans (List.sublist_append_left _ _)).cons _
    have haround {ms : List Moment} (h : ms.Sublist n.shape.itinerary) :
        (.enter [] :: (ms ++ [.leave []])).Sublist n.itinerary := by
      rw [itinerary_eq]
      exact (h.append (List.Sublist.refl _)).cons_cons _
    constructor
    · rw [itinerary_eq, List.nodup_cons, List.nodup_append]
      refine ⟨?_, hs.nodup, List.nodup_singleton _, ?_⟩
      · intro h
        rcases List.mem_append.mp h with h | h
        · exact hroot h rfl
        · cases List.mem_singleton.mp h
      · intro m hm k hk hmk
        rw [List.mem_singleton.mp hk] at hmk
        exact hroot hm (congrArg Moment.address hmk)
    · intro m
      rw [mem_itinerary, hs.mem_iff]
      cases m with
      | enter p => cases p <;> simp [Moment.address, get?, Shape.find?]
      | leave p => cases p <;> simp [Moment.address, get?, Shape.find?]
    · intro p hp
      cases p with
      | nil => exact haround (List.nil_sublist _)
      | cons slot p => exact hinner (hs.closes (slot :: p) hp)
    · intro p q hp hq hpq
      cases q with
      | nil => exact absurd hpq Address.not_above_nil
      | cons t q =>
        cases p with
        | nil => exact haround (hs.closes (t :: q) hq)
        | cons slot p => exact hinner (hs.within (slot :: p) (t :: q) hp hq hpq)
    · intro p q hp hq hpq
      cases p with
      | nil => exact absurd hpq Address.not_precedes_nil_left
      | cons slot p =>
        cases q with
        | nil => exact absurd hpq Address.not_precedes_nil_right
        | cons t q => exact hinner (hs.inOrder (slot :: p) (t :: q) hp hq hpq)

end Node

/-! What is skipped. -/

namespace Address

/-- On the way to the address no node has its children skipped. -/
def Reached (get : Address → Option Node) (descend : Node → Bool) (p : Address) : Prop :=
  ∀ q n, q.Above p → get q = some n → descend n = true

variable {descend : Node → Bool} {slot : Slot} {n m : Node} {p : Address} {shape : Shape Node}

theorem reached_nil (get : Address → Option Node) (descend : Node → Bool) :
    Reached get descend [] :=
  fun _ _ h => absurd h not_above_nil

theorem reached_cons (hm : (slot, m) ∈ shape.slots) :
    Reached shape.find? descend (slot :: p) ↔ Reached m.get? descend p := by
  have hget (q : Address) := Shape.find?_of_slots hm q
  constructor
  · intro h q k hq hk
    exact h (slot :: q) k (hq.cons slot) ((hget q).trans hk)
  · intro h q k hq hk
    cases q with
    | nil => cases hk
    | cons t q =>
      obtain ⟨rfl, habove⟩ := above_cons_cons.mp hq
      exact h q k habove ((hget q).symm.trans hk)

theorem reached_iff (hp : p ≠ []) :
    Reached n.get? descend p ↔ descend n = true ∧ Reached n.shape.find? descend p := by
  obtain ⟨slot, rest, rfl⟩ := List.exists_cons_of_ne_nil hp
  constructor
  · intro h
    refine ⟨h [] n (above_nil slot rest) rfl, ?_⟩
    intro q k hq hk
    cases q with
    | nil => cases hk
    | cons t q => exact h (t :: q) k hq hk
  · intro h q k hq hk
    cases q with
    | nil =>
      rw [← Option.some.inj hk]
      exact h.1
    | cons t q => exact h.2 (t :: q) k hq hk

end Address

theorem WalkEvent.reverse_visitNodes (descend : Node → Bool) (nodes : List Node) :
    ((recorder descend).visitNodes nodes []).reverse =
      nodes.flatMap fun n => ((recorder descend).visit n []).reverse := by
  induction nodes with
  | nil => rfl
  | cons n nodes ih =>
    rw [Visitor.visitNodes, visitNodes_recorder, List.reverse_append, ih, List.flatMap_cons]

open Classical in
/-- What a walk does at those of the moments that it reaches. -/
noncomputable def Moment.kept (get : Address → Option Node) (descend : Node → Bool)
    (ms : List Moment) : List WalkEvent :=
  (ms.filter fun m => m.address.Reached get descend).filterMap (event? get)

namespace Moment

variable {descend : Node → Bool} {slot : Slot} {n m : Node} {shape : Shape Node}

theorem kept_append (get : Address → Option Node) (descend : Node → Bool) (ms ks : List Moment) :
    kept get descend (ms ++ ks) = kept get descend ms ++ kept get descend ks := by
  unfold kept
  rw [List.filter_append, List.filterMap_append]

theorem kept_flatMap {α : Type} (get : Address → Option Node) (descend : Node → Bool)
    (as : List α) (f : α → List Moment) :
    kept get descend (as.flatMap f) = as.flatMap fun a => kept get descend (f a) := by
  unfold kept
  rw [List.filter_flatMap, List.filterMap_flatMap]

theorem kept_own {k : Moment} (h : k.address = []) (n : Node) :
    kept n.get? descend [k] = [k].filterMap (event? n.get?) := by
  unfold kept
  rw [List.filter_eq_self.mpr]
  intro j hj
  rw [List.mem_singleton.mp hj, h]
  simpa using Address.reached_nil _ _

theorem kept_under (hm : (slot, m) ∈ shape.slots) (ms : List Moment) :
    kept shape.find? descend (ms.map (under slot)) = kept m.get? descend ms := by
  have hevent (k : Moment) : event? shape.find? (k.under slot) = event? m.get? k := by
    cases k <;> simp only [under, event?, Shape.find?_of_slots hm]
  unfold kept
  rw [List.filter_map, List.filterMap_map]
  congr 1
  · exact funext hevent
  · apply List.filter_congr
    intro k _
    simp [address_under, Address.reached_cons hm]

/-- Where the children of a node are skipped, nothing under it is reached. -/
theorem kept_children {ms : List Moment} (hms : ∀ k ∈ ms, k.address ≠ []) :
    kept n.get? descend ms = if descend n then kept n.shape.find? descend ms else [] := by
  unfold kept
  split
  · next hn =>
    have hreached {k : Moment} (hk : k ∈ ms) :
        k.address.Reached n.get? descend ↔ k.address.Reached n.shape.find? descend := by
      rw [Address.reached_iff (hms k hk), hn, eq_self, true_and]
    have hevent {k : Moment} (hk : k ∈ ms) : event? n.get? k = event? n.shape.find? k := by
      obtain ⟨slot, rest, ha⟩ := List.exists_cons_of_ne_nil (hms k hk)
      cases k with
      | enter p =>
        rw [show p = slot :: rest from ha]
        rfl
      | leave p =>
        rw [show p = slot :: rest from ha]
        rfl
    rw [List.filter_congr fun k hk => decide_eq_decide.mpr (hreached hk)]
    exact List.filterMap_congr fun k hk => hevent (List.mem_filter.mp hk).1
  · next hn =>
    rw [List.filter_eq_nil_iff.mpr]
    · rfl
    · intro k hk
      simp [Address.reached_iff (hms k hk), hn]

end Moment

namespace Shape

theorem address_ne_nil {shape : Shape Node} {m : Moment} (h : m ∈ shape.itinerary) :
    m.address ≠ [] := by
  obtain ⟨e, _, hm⟩ := List.mem_flatMap.mp h
  obtain ⟨k, _, rfl⟩ := List.mem_map.mp hm
  rw [Moment.address_under]
  exact List.cons_ne_nil _ _

/-- A walk through the children of a node does what it does at the moments that it reaches. -/
theorem reverse_visitNodes {descend : Node → Bool} {shape : Shape Node}
    (h : ∀ m ∈ shape.children, ((WalkEvent.recorder descend).visit m []).reverse =
      Moment.kept m.get? descend m.itinerary) :
    ((WalkEvent.recorder descend).visitNodes shape.children []).reverse =
      Moment.kept shape.find? descend shape.itinerary := by
  rw [WalkEvent.reverse_visitNodes, ← map_snd_slots, List.flatMap_map, itinerary,
    Moment.kept_flatMap]
  apply List.flatMap_congr
  intro e he
  rw [Moment.kept_under he]
  exact h e.2 (mem_children_of_slots he)

end Shape

theorem Node.reverse_visit (descend : Node → Bool) (n : Node) :
    ((WalkEvent.recorder descend).visit n []).reverse = Moment.kept n.get? descend n.itinerary := by
  induction n using Node.induction with
  | step n ih =>
    have henter : Moment.kept n.get? descend [.enter []] = [.enter n] := Moment.kept_own rfl n
    have hleave : Moment.kept n.get? descend [.leave []] = [.leave n] := Moment.kept_own rfl n
    rw [itinerary_eq, ← List.singleton_append, Moment.kept_append, Moment.kept_append,
      Moment.kept_children fun k hk => Shape.address_ne_nil hk, ← Shape.reverse_visitNodes ih,
      henter, hleave, WalkEvent.visit_recorder, List.reverse_cons]
    split
    · rw [WalkEvent.visitNodes_recorder, List.reverse_append]
      rfl
    · rfl

namespace Itinerary

variable {get : Address → Option Node} {ms : List Moment} {p : Address} {m : Moment}

/-- What happens between entering and leaving a node happens to a node under it. -/
theorem between_iff (h : Itinerary get ms) (hp : (get p).isSome = true) (hm : m ∈ ms) :
    [.enter p, m, .leave p].Sublist ms ↔ p.Above m.address := by
  have hq := (h.mem_iff m).mp hm
  constructor
  · intro hs
    have henter : [.enter p, m].Sublist ms :=
      (List.sublist_append_left [_, _] [Moment.leave p]).trans hs
    have hleave : [m, .leave p].Sublist ms := (List.sublist_cons_self _ _).trans hs
    have htwice := List.nodup_iff_sublist.mp h.nodup
    have hswap {a b : Moment} {ks : List Moment} (hks : ks.Sublist ms)
        (hab : [a, b].Sublist ks) : ¬ [b, a].Sublist ms :=
      not_sublist_swap h.nodup (hab.trans hks)
    -- In the other cases something would come both before and behind something else.
    rcases Address.eq_or_above_or_precedes p m.address with heq | habove | habove | hleft | hright
    · cases m with
      | enter q =>
        rw [show p = q from heq] at henter
        exact absurd henter (htwice _)
      | leave q =>
        rw [show p = q from heq] at hleave
        exact absurd hleave (htwice _)
    · exact habove
    · have hw := h.within _ p hq hp habove
      cases m with
      | enter q => exact absurd henter (hswap hw (by simp [Moment.address]))
      | leave q => exact absurd hleave (hswap hw (by simp [Moment.address]))
    · have ho := h.inOrder p _ hp hq hleft
      cases m with
      | enter q => exact absurd hleave (hswap ho (by simp [Moment.address]))
      | leave q => exact absurd hleave (hswap ho (by simp [Moment.address]))
    · have ho := h.inOrder _ p hq hp hright
      cases m with
      | enter q => exact absurd henter (hswap ho (by simp [Moment.address]))
      | leave q => exact absurd henter (hswap ho (by simp [Moment.address]))
  · intro habove
    have hw := h.within p m.address hp hq habove
    cases m with
    | enter q => exact .trans (by simp [Moment.address]) hw
    | leave q => exact .trans (by simp [Moment.address]) hw

/-- What is not skipped is what a walk reaches. -/
theorem reached_iff_not_skipped (h : Itinerary get ms) (descend : Node → Bool) (hm : m ∈ ms) :
    m.address.Reached get descend ↔ ¬ m.Skipped get descend ms := by
  have hsome {q : Address} {n : Node} (hn : get q = some n) : (get q).isSome = true := by
    rw [hn]
    rfl
  constructor
  · intro hr hskip
    obtain ⟨q, n, hn, hd, hs⟩ := hskip
    have hdescend := hr q n ((h.between_iff (hsome hn) hm).mp hs) hn
    rw [hd] at hdescend
    cases hdescend
  · intro hkeep q n hq hn
    by_contra hd
    exact hkeep ⟨q, n, hn, eq_false_of_ne_true hd,
      (h.between_iff (hsome hn) hm).mpr hq⟩

end Itinerary

namespace Block

/-- The moments of a walk that skips nothing under a block. -/
def itinerary (root : Block) : List Moment := (Node.ofBlock root).shape.itinerary

theorem get?_eq_find? (root : Block) : root.get? = (Node.ofBlock root).shape.find? := by
  funext p
  cases p <;> rfl

theorem itinerary_spec (root : Block) : Itinerary root.get? root.itinerary := by
  rw [get?_eq_find?]
  exact Shape.itinerary_spec fun e _ => e.2.itinerary_spec

theorem trace_eq_kept (root : Block) (descend : Node → Bool) :
    root.trace descend = Moment.kept root.get? descend root.itinerary := by
  rw [get?_eq_find?, itinerary, ← Shape.reverse_visitNodes fun m _ => m.reverse_visit descend, trace, walk,
    Visitor.visitBlock_eq]
  rfl

theorem trace_eq_events (root : Block) :
    (root.trace fun _ => true) = root.itinerary.filterMap (Moment.event? root.get?) := by
  have hreached (p : Address) : p.Reached root.get? fun _ => true := fun _ _ _ _ => rfl
  rw [trace_eq_kept, Moment.kept, List.filter_eq_self.mpr]
  intro m _
  simpa using hreached m.address

open Classical in
/-- A walk enters and leaves every node under a block once, in the order of the tree. Where it
skips the children of a node, it leaves out what happens between entering and leaving the node. -/
theorem trace_pruned (root : Block) : ∃ ms : List Moment, Itinerary root.get? ms ∧
    (root.trace fun _ => true) = ms.filterMap (Moment.event? root.get?) ∧
    ∀ descend : Node → Bool, root.trace descend =
      (ms.filter fun m => ¬ m.Skipped root.get? descend ms).filterMap
        (Moment.event? root.get?) := by
  have hspec := root.itinerary_spec
  refine ⟨root.itinerary, hspec, root.trace_eq_events, ?_⟩
  intro descend
  rw [trace_eq_kept, Moment.kept]
  congr 1
  apply List.filter_congr
  intro m hm
  simp only [hspec.reached_iff_not_skipped descend hm]

end Block

end TemplateTree
