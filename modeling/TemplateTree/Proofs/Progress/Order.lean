import Mathlib.Order.Interval.Finset.Nat
import TemplateTree.Proofs.Progress.Plan

/-!
Logs in order. Whatever is done lies between two numbers of tokens left, no dispatch is on a token
that was dispatched on or read before, and no token that a call was dispatched on is read by
another one. Logs that follow each other, and a log between a dispatch and its end, are in order
when their parts are.
-/

namespace TemplateTree
set_option autoImplicit false

namespace Act

def dispatched? : Act → Option Nat
  | .dispatch left => some left
  | _ => none

def Advances : Act → Prop
  | .dispatch _ => True
  | .finish start left => left < start
  | .turn _ start left => left < start

/-- The call that is finished has read the token, which is counted from the end of the stream. -/
def Consumes (token : Nat) : Act → Prop
  | .finish start left => left < token ∧ token ≤ start
  | _ => False

/-- What may be done before what: a dispatch is on a token that no earlier dispatch was on and
that no finished call has read, and a call is finished whose first token no call finished earlier
has read. -/
def Before : Act → Act → Prop
  | .dispatch p, .dispatch q => q < p
  | .finish _ left, .dispatch q => q ≤ left
  | .finish start left, .finish q _ => ¬ (left < q ∧ q ≤ start)
  | _, _ => True

def Within (lo hi : Nat) : Act → Prop
  | .dispatch p => lo ≤ p ∧ p ≤ hi
  | .finish start left => lo ≤ left + 1 ∧ start ≤ hi
  | .turn .. => True

end Act

/-- Something is done in order and within bounds. -/
structure Progress (acts : List Act) (lo hi : Nat) : Prop where
  order : acts.Pairwise Act.Before
  within : ∀ a ∈ acts, a.Within lo hi
  advances : ∀ a ∈ acts, a.Advances
  opened : ∀ start left, .finish start left ∈ acts → .dispatch start ∈ acts

/-- Every call is finished. -/
def Settled (acts : List Act) : Prop :=
  ∀ start, .dispatch start ∈ acts → ∃ left, .finish start left ∈ acts

theorem Settled.append {acts more : List Act} (h : Settled acts) (h' : Settled more) :
    Settled (acts ++ more) := by
  intro start hd
  rcases List.mem_append.mp hd with hd | hd
  · obtain ⟨left, hf⟩ := h start hd
    exact ⟨left, List.mem_append_left _ hf⟩
  · obtain ⟨left, hf⟩ := h' start hd
    exact ⟨left, List.mem_append_right _ hf⟩

namespace Progress

variable {acts more : List Act} {lo hi m : Nat}

theorem nil : Progress [] lo hi := ⟨.nil, nofun, nofun, nofun⟩

theorem mono {lo' hi' : Nat} (h : Progress acts lo hi) (hlo : lo' ≤ lo) (hhi : hi ≤ hi') :
    Progress acts lo' hi' where
  order := h.order
  within a ha := by
    have hw := h.within a ha
    cases a with
    | dispatch p =>
      obtain ⟨h₁, h₂⟩ := hw
      exact ⟨by omega, by omega⟩
    | finish start left =>
      obtain ⟨h₁, h₂⟩ := hw
      exact ⟨by omega, by omega⟩
    | turn => trivial
  advances := h.advances
  opened := h.opened

/-- What is done down to a number of tokens left comes before what is done from there on. -/
theorem before {a b : Act} (ha : a.Within (m + 1) hi) (hb : b.Within lo m) : a.Before b := by
  cases a with
  | dispatch p =>
    cases b with
    | dispatch q =>
      obtain ⟨hp, -⟩ := ha
      obtain ⟨-, hq⟩ := hb
      show q < p
      omega
    | finish => trivial
    | turn => trivial
  | finish start left =>
    obtain ⟨hleft, -⟩ := ha
    cases b with
    | dispatch q =>
      obtain ⟨-, hq⟩ := hb
      show q ≤ left
      omega
    | finish q _ =>
      obtain ⟨-, hq⟩ := hb
      intro h
      omega
    | turn => trivial
  | turn => trivial

theorem append (h : Progress acts (m + 1) hi) (h' : Progress more lo m) (hlo : lo ≤ m + 1)
    (hhi : m ≤ hi) : Progress (acts ++ more) lo hi where
  order := List.pairwise_append.mpr ⟨h.order, h'.order, fun a ha b hb =>
    before (h.within a ha) (h'.within b hb)⟩
  within a ha := by
    rcases List.mem_append.mp ha with ha | ha
    · exact (h.mono hlo (Nat.le_refl hi)).within a ha
    · exact (h'.mono (Nat.le_refl lo) hhi).within a ha
  advances a ha := by
    rcases List.mem_append.mp ha with ha | ha
    · exact h.advances a ha
    · exact h'.advances a ha
  opened start left ha := by
    rcases List.mem_append.mp ha with ha | ha
    · exact List.mem_append_left _ (h.opened start left ha)
    · exact List.mem_append_right _ (h'.opened start left ha)

theorem turn (h : Progress acts lo hi) (loop : Loop) {start left : Nat} (hlt : left < start) :
    Progress (.turn loop start left :: acts) lo hi where
  order := List.pairwise_cons.mpr ⟨fun _ _ => trivial, h.order⟩
  within := List.forall_mem_cons.mpr ⟨trivial, h.within⟩
  advances := List.forall_mem_cons.mpr ⟨hlt, h.advances⟩
  opened start left ha := by
    rcases List.mem_cons.mp ha with ha | ha
    · cases ha
    · exact List.mem_cons_of_mem _ (h.opened start left ha)

theorem refused {p : Nat} (hlo : lo ≤ p) (hhi : p ≤ hi) : Progress [.dispatch p] lo hi where
  order := List.pairwise_singleton _ _
  within := List.forall_mem_singleton.mpr ⟨hlo, hhi⟩
  advances := List.forall_mem_singleton.mpr trivial
  opened start left h := by
    cases List.mem_singleton.mp h

theorem dispatch (h : Progress acts lo hi) (hlo : lo ≤ hi + 1) :
    Progress (.dispatch (hi + 1) :: acts) lo (hi + 1) where
  order := by
    refine List.pairwise_cons.mpr ⟨?_, h.order⟩
    intro b hb
    cases b with
    | dispatch q =>
      obtain ⟨-, hq⟩ := h.within _ hb
      exact Nat.lt_succ_of_le hq
    | finish => trivial
    | turn => trivial
  within := List.forall_mem_cons.mpr
    ⟨⟨hlo, Nat.le_refl _⟩, (h.mono (Nat.le_refl lo) (Nat.le_succ hi)).within⟩
  advances := List.forall_mem_cons.mpr ⟨trivial, h.advances⟩
  opened start left ha := by
    rcases List.mem_cons.mp ha with ha | ha
    · cases ha
    · exact List.mem_cons_of_mem _ (h.opened start left ha)

theorem call (h : Progress acts (m + 1) hi) (hm : m ≤ hi) :
    Progress (.dispatch (hi + 1) :: (acts ++ [.finish (hi + 1) m])) (m + 1) (hi + 1) := by
  -- What is new against a call that is not finished is its end.
  have hopen := h.dispatch (Nat.succ_le_succ hm)
  rw [← List.cons_append]
  refine ⟨?order, ?within, ?advances, ?opened⟩
  case order =>
    refine List.pairwise_append.mpr ⟨hopen.order, List.pairwise_singleton _ _, ?_⟩
    intro a ha b hb
    rw [List.mem_singleton.mp hb]
    rcases List.mem_cons.mp ha with rfl | ha
    · trivial
    · cases a with
      | dispatch => trivial
      | finish start left =>
        obtain ⟨-, hs⟩ := h.within _ ha
        intro hc
        omega
      | turn => trivial
  case within =>
    refine List.forall_mem_append.mpr ⟨hopen.within, ?_⟩
    exact List.forall_mem_singleton.mpr ⟨Nat.le_refl _, Nat.le_refl _⟩
  case advances =>
    refine List.forall_mem_append.mpr ⟨hopen.advances, ?_⟩
    exact List.forall_mem_singleton.mpr (Nat.lt_succ_of_le hm)
  case opened =>
    intro start left ha
    apply List.mem_append_left
    rcases List.mem_append.mp ha with ha | ha
    · exact hopen.opened start left ha
    · cases List.mem_singleton.mp ha
      exact List.mem_cons_self ..

end Progress

/-- Numbers that go down within bounds are no more than there are numbers. -/
theorem length_le_of_descending {xs : List Nat} {lo hi : Nat} (h : xs.Pairwise (· > ·))
    (hxs : ∀ x ∈ xs, lo ≤ x ∧ x ≤ hi) : xs.length ≤ hi + 1 - lo := by
  have hnodup : xs.Nodup := h.imp fun hlt => Nat.ne_of_gt hlt
  have hsub : xs.toFinset ⊆ Finset.Icc lo hi := by
    intro x hx
    exact Finset.mem_Icc.mpr (hxs x (List.mem_toFinset.mp hx))
  rw [← List.toFinset_card_of_nodup hnodup, ← Nat.card_Icc]
  exact Finset.card_le_card hsub

theorem Act.dispatched?_eq_some {a : Act} {p : Nat} :
    a.dispatched? = some p ↔ a = .dispatch p := by
  cases a <;> simp [dispatched?]

namespace Progress

variable {acts : List Act} {lo hi : Nat}

theorem descending (h : Progress acts lo hi) :
    (acts.filterMap Act.dispatched?).Pairwise (· > ·) := by
  refine List.pairwise_filterMap.mpr (h.order.imp ?_)
  intro a b hab p hp q hq
  rw [Act.dispatched?_eq_some] at hp hq
  subst hp hq
  exact hab

theorem length_dispatched_le (h : Progress acts lo hi) :
    (acts.filterMap Act.dispatched?).length ≤ hi + 1 - lo := by
  apply length_le_of_descending h.descending
  intro p hp
  obtain ⟨a, ha, hdispatched⟩ := List.mem_filterMap.mp hp
  rw [Act.dispatched?_eq_some] at hdispatched
  subst hdispatched
  exact h.within _ ha

/-- The token that a finished call was dispatched on is read by it, and by none finished before. -/
theorem own_token (h : Progress acts lo hi) {done later : List Act} {start left : Nat}
    (heq : acts = done ++ .finish start left :: later) :
    .dispatch start ∈ done ∧ left < start ∧ ∀ a ∈ done, ¬ a.Consumes start := by
  have hmem : Act.finish start left ∈ acts := by
    rw [heq]
    exact List.mem_append_right _ (List.mem_cons_self ..)
  have hlt : left < start := h.advances _ hmem
  have horder := h.order
  rw [heq] at horder
  obtain ⟨-, hlater, hbefore⟩ := List.pairwise_append.mp horder
  refine ⟨?_, hlt, ?_⟩
  · have hdispatch := h.opened start left hmem
    rw [heq] at hdispatch
    rcases List.mem_append.mp hdispatch with hd | hd
    · exact hd
    · rcases List.mem_cons.mp hd with hd | hd
      · cases hd
      -- Behind its end there is no dispatch on what it has read.
      · have hle : start ≤ left := (List.pairwise_cons.mp hlater).1 _ hd
        omega
  · intro a ha hconsumes
    have hab := hbefore a ha _ (List.mem_cons_self ..)
    cases a with
    | finish => exact hab hconsumes
    | dispatch => exact hconsumes
    | turn => exact hconsumes

end Progress

end TemplateTree
