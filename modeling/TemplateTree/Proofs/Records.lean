import TemplateTree.Json.Record

/-!
What records read. A record that is put together from fields reads members exactly when none of
its fields is given twice and every field takes what it finds; so only what is found under the
names of the fields matters.
-/

namespace TemplateTree
set_option autoImplicit false

namespace Record

variable {α β γ : Type}

/-- The names a record asks for. -/
def names (r : Record α β) : List String := r.fields.map Field.name

/-- The members a record asks for have different names. -/
def Unrepeated (r : Record α β) (ms : List (String × α)) : Prop :=
  ((ms.map Prod.fst).filter fun name => name ∈ r.names).Nodup

section Lookup

variable {name : String} {v : α} {ms : List (String × α)}

@[simp] theorem lookup?_nil : lookup? name ([] : List (String × α)) = none := rfl

theorem lookup?_cons {m : String × α} :
    lookup? name (m :: ms) = if m.1 = name then some m.2 else lookup? name ms := by
  by_cases h : m.1 = name <;> simp [lookup?, h]

theorem mem_of_lookup? (h : lookup? name ms = some v) : (name, v) ∈ ms := by
  induction ms with
  | nil => cases h
  | cons m ms ih =>
    rw [lookup?_cons] at h
    split at h
    · next hm =>
      cases h
      exact hm ▸ List.mem_cons_self
    · exact List.mem_cons_of_mem _ (ih h)

theorem lookup?_eq_none : lookup? name ms = none ↔ name ∉ ms.map Prod.fst := by
  induction ms with
  | nil => simp
  | cons m ms ih =>
    rw [lookup?_cons, List.map_cons, List.mem_cons, not_or, ← ih]
    by_cases h : m.1 = name
    · simp [h]
    · simp [h, Ne.symm h]

/-- A name that is given once is looked up where it stands. -/
theorem lookup?_of_mem {p : String → Bool} (hp : p name = true)
    (hn : ((ms.map Prod.fst).filter p).Nodup) (h : (name, v) ∈ ms) : lookup? name ms = some v := by
  induction ms with
  | nil => cases h
  | cons m ms ih =>
    rw [lookup?_cons]
    rcases List.mem_cons.mp h with rfl | h
    · exact if_pos rfl
    · have hmem : name ∈ (ms.map Prod.fst).filter p :=
        List.mem_filter.mpr ⟨List.mem_map_of_mem h, hp⟩
      rw [List.map_cons, List.filter_cons] at hn
      split at hn
      · obtain ⟨hnot, hn⟩ := List.nodup_cons.mp hn
        rw [if_neg fun he : m.1 = name => hnot (he ▸ hmem), ih hn h]
      · next hm => rw [if_neg fun he : m.1 = name => hm (he ▸ hp), ih hn h]

end Lookup

/-- Members have no fault when no field is met again and every field takes its value. -/
theorem firstFault?_eq_none {fields : List (Field α)} {met : List String}
    {ms : List (String × α)} : firstFault? fields met ms = none ↔
      ((ms.map Prod.fst).filter fun name => name ∈ fields.map Field.name).Nodup ∧
        (∀ m ∈ ms, m.1 ∈ fields.map Field.name → m.1 ∉ met) ∧
          ∀ m ∈ ms, ∀ f, (fields.find? fun f => f.name == m.1) = some f → f.fault? m.2 = none := by
  induction ms generalizing met with
  | nil => simp [firstFault?]
  | cons m ms ih =>
    obtain ⟨name, v⟩ := m
    rw [List.map_cons, List.filter_cons, List.forall_mem_cons, List.forall_mem_cons, firstFault?]
    split
    · next hf =>
      have hname : name ∉ fields.map Field.name := by simpa using hf
      rw [ih]
      simp [hname, hf]
    · next f hf =>
      have hname : name ∈ fields.map Field.name := by
        have h := List.find?_some hf
        exact List.mem_map.mpr ⟨f, List.mem_of_find?_eq_some hf, beq_iff_eq.mp h⟩
      by_cases hmet : name ∈ met
      · simp [hmet, hname]
      · have hnot : name ∉ (ms.map Prod.fst).filter (fun name => name ∈ fields.map Field.name) ↔
            ∀ m ∈ ms, m.1 ∈ fields.map Field.name → m.1 ≠ name := by
          constructor
          · intro h m hm _ he
            exact h (List.mem_filter.mpr ⟨List.mem_map.mpr ⟨m, hm, he⟩, decide_eq_true hname⟩)
          · intro h hmem
            obtain ⟨m, hm, he⟩ := List.mem_map.mp (List.mem_filter.mp hmem).1
            exact h m hm (he.symm ▸ hname) he
        simp only [List.contains_iff_mem, hmet, if_false, Option.or_eq_none_iff, ih,
          decide_eq_true hname, if_true, List.nodup_cons, hnot, hf, List.mem_cons, not_or,
          Option.some.injEq, forall_eq', not_false_eq_true, implies_true, true_and]
        constructor
        · rintro ⟨hv, hn, hm, hfault⟩
          exact ⟨⟨fun m h hk => (hm m h hk).1, hn⟩, fun m h hk => (hm m h hk).2, hv, hfault⟩
        · rintro ⟨⟨hne, hn⟩, hm, hv, hfault⟩
          exact ⟨hv, hn, fun m h hk => ⟨hne m h hk, hm m h hk⟩, hfault⟩

/-! Records that are put together from fields. -/

section Make

variable {ms : List (String × α)} {f : Record α (β → γ)} {x : Record α β} {g : β → γ} {b : β}

theorem makes_seq (hf : f.make ms = .ok g) (hx : x.make ms = .ok b) :
    (f <*> x).make ms = .ok (g b) := by
  change (f.make ms >>= fun g => x.make ms >>= fun b => Pure.pure (g b)) = _
  rw [hf, hx]
  rfl

theorem makes_map (hx : x.make ms = .ok b) : (g <$> x).make ms = .ok (g b) := makes_seq rfl hx

end Make

/-- What is found under a name may change without changing what a field reads. -/
abbrev Change (α : Type) : Type := String → Option α → Option α → Prop

/-- The record makes nothing of a value that its field does not take, and makes the same of
members that differ by harmless changes only. -/
structure Reads (R : Change α) (r : Record α β) : Prop where
  sound {ms : List (String × α)} {b : β} (h : r.make ms = .ok b) {f : Field α} (hf : f ∈ r.fields)
    {v : α} (hv : lookup? f.name ms = some v) : f.fault? v = none
  respects {ms ms' : List (String × α)} {b : β}
    (hR : ∀ name ∈ r.names, R name (lookup? name ms) (lookup? name ms')) (h : r.make ms = .ok b) :
    r.make ms' = .ok b

namespace Reads

variable {R : Change α} {r : Record α β} {ms ms' : List (String × α)} {b : β}

theorem read_ok (h : r.Reads R) : r.read ms = .ok b ↔ r.Unrepeated ms ∧ r.make ms = .ok b := by
  have hread : r.read ms = .ok b ↔ firstFault? r.fields [] ms = none ∧ r.make ms = .ok b := by
    rw [read]
    split <;> simp [*]
  rw [hread, firstFault?_eq_none]
  constructor
  · rintro ⟨⟨hn, _, _⟩, hm⟩
    exact ⟨hn, hm⟩
  · rintro ⟨hn, hm⟩
    refine ⟨⟨hn, fun _ _ _ => List.not_mem_nil, fun m hmem f hf => ?_⟩, hm⟩
    have hname : f.name = m.1 := by simpa using List.find?_some hf
    have hfield := List.mem_of_find?_eq_some hf
    refine h.sound hm hfield (lookup?_of_mem (decide_eq_true ?_) hn ?_)
    · exact List.mem_map_of_mem hfield
    · rw [hname]
      exact hmem

theorem pure (b : β) : (Pure.pure b : Record α β).Reads R where
  sound _ _ hf := absurd hf List.not_mem_nil
  respects _ h := h

theorem make_seq {f : Record α (β → γ)} {x : Record α β} {c : γ} :
    (f <*> x).make ms = .ok c ↔ ∃ g b, f.make ms = .ok g ∧ x.make ms = .ok b ∧ c = g b := by
  change (f.make ms >>= fun g => x.make ms >>= fun b => Pure.pure (g b)) = .ok c ↔ _
  cases f.make ms with
  | error e => simp [Bind.bind, Except.bind]
  | ok g => cases x.make ms <;> simp [Bind.bind, Except.bind, Pure.pure, Except.pure, eq_comm]

theorem seq {f : Record α (β → γ)} {x : Record α β} (hf : f.Reads R) (hx : x.Reads R) :
    (f <*> x).Reads R where
  sound hm _ hfield _ hv := by
    obtain ⟨_, _, hg, hb, _⟩ := make_seq.mp hm
    rcases List.mem_append.mp hfield with h | h
    · exact hf.sound hg h hv
    · exact hx.sound hb h hv
  respects hR hm := by
    obtain ⟨g, b, hg, hb, rfl⟩ := make_seq.mp hm
    have hnames : (f <*> x).names = f.names ++ x.names := List.map_append
    rw [hnames, List.forall_mem_append] at hR
    exact make_seq.mpr ⟨g, b, hf.respects hR.1 hg, hx.respects hR.2 hb, rfl⟩

theorem map {x : Record α β} (g : β → γ) (hx : x.Reads R) : (g <$> x).Reads R := (pure g).seq hx

theorem required {name : String} {decode : Decoder α β}
    (hR : ∀ {v o b}, R name (some v) o → decode v = .ok b → ∃ v', o = some v' ∧ decode v' = .ok b) :
    (Record.required name decode).Reads R where
  sound hm f hf v hv := by
    cases List.mem_singleton.mp hf
    change lookup? name _ = some v at hv
    simp only [Record.required, hv] at hm
    simp only [fault?, hm]
  respects {ms ms' b} hRs hm := by
    have hR' : R name (lookup? name ms) (lookup? name ms') := hRs name List.mem_cons_self
    simp only [Record.required] at hm ⊢
    cases hv : lookup? name ms with
    | none =>
      rw [hv] at hm
      cases hm
    | some v =>
      rw [hv] at hR' hm
      obtain ⟨v', ho, hd⟩ := hR hR' hm
      rw [ho]
      exact hd

theorem withDefault {name : String} {value : β} {decode : Decoder α β}
    (hR : ∀ {o o' b}, R name o o' → o.elim (.ok value) decode = .ok b →
      o'.elim (.ok value) decode = .ok b) :
    (Record.withDefault name value decode).Reads R where
  sound hm f hf v hv := by
    cases List.mem_singleton.mp hf
    change lookup? name _ = some v at hv
    simp only [Record.withDefault, hv] at hm
    simp only [fault?, hm]
  respects {ms ms' b} hRs hm := by
    have hmake (ms : List (String × α)) : (Record.withDefault name value decode).make ms =
        (lookup? name ms).elim (.ok value) decode := by
      simp only [Record.withDefault]
      split <;> simp [*]
    rw [hmake] at hm ⊢
    exact hR (hRs name List.mem_cons_self) hm

/-! The members of an object that is read may be changed in four ways. -/

variable (h : r.Reads R) (hrefl : ∀ name o, R name o o)
include h hrefl

theorem read_perm (hp : ms.Perm ms') (hr : r.read ms = .ok b) : r.read ms' = .ok b := by
  obtain ⟨hn, hm⟩ := h.read_ok.mp hr
  have hn' : r.Unrepeated ms' := ((hp.map Prod.fst).filter _).nodup_iff.mp hn
  refine h.read_ok.mpr ⟨hn', h.respects (fun name hname => ?_) hm⟩
  suffices hl : lookup? name ms' = lookup? name ms by
    rw [hl]
    exact hrefl name _
  cases hv : lookup? name ms with
  | none =>
    rw [lookup?_eq_none] at hv ⊢
    exact fun hmem => hv ((hp.map Prod.fst).mem_iff.mpr hmem)
  | some v =>
    exact lookup?_of_mem (decide_eq_true hname) hn' (hp.mem_iff.mp (mem_of_lookup? hv))

theorem read_add {m : String × α} (hnot : m.1 ∉ r.names) (hr : r.read ms = .ok b) :
    r.read (m :: ms) = .ok b := by
  obtain ⟨hn, hm⟩ := h.read_ok.mp hr
  refine h.read_ok.mpr ⟨?_, h.respects (fun name hname => ?_) hm⟩
  · rw [Unrepeated, List.map_cons, List.filter_cons_of_neg (by simpa using hnot)]
    exact hn
  · rw [lookup?_cons, if_neg fun he : m.1 = name => hnot (he ▸ hname)]
    exact hrefl name _

/-- A member may go where it could as well be absent. -/
theorem read_omit {m : String × α} (hR : R m.1 (some m.2) none) (hr : r.read (m :: ms) = .ok b) :
    r.read ms = .ok b := by
  obtain ⟨hn, hm⟩ := h.read_ok.mp hr
  refine h.read_ok.mpr ⟨hn.sublist (((List.sublist_cons_self m ms).map _).filter _),
    h.respects (fun name hname => ?_) hm⟩
  by_cases he : m.1 = name
  · subst he
    have hnone : lookup? m.1 ms = none := by
      rw [lookup?_eq_none]
      intro hmem
      rw [Unrepeated, List.map_cons, List.filter_cons_of_pos (by simpa using hname)] at hn
      exact (List.nodup_cons.mp hn).1 (List.mem_filter.mpr ⟨hmem, decide_eq_true hname⟩)
    rw [lookup?_cons, if_pos rfl, hnone]
    exact hR
  · rw [lookup?_cons, if_neg he]
    exact hrefl name _

/-- A value may give way to one that is read alike. -/
theorem read_change {name : String} {v v' : α} (hR : R name (some v) (some v'))
    (hr : r.read ((name, v) :: ms) = .ok b) : r.read ((name, v') :: ms) = .ok b := by
  obtain ⟨hn, hm⟩ := h.read_ok.mp hr
  refine h.read_ok.mpr ⟨hn, h.respects (fun other _ => ?_) hm⟩
  rw [lookup?_cons, lookup?_cons]
  split
  · next he => exact he ▸ hR
  · exact hrefl other _

end Reads

end Record

end TemplateTree
