import TemplateTree.Proofs.Lawful

/-!
Nesting. Which mixin definitions enclose a place can be read off the tokens: those whose mixin
stands directly in front of an indent that is still open. What a parse counts is the same, because
every phrase closes what it opens.
-/

namespace TemplateTree
set_option autoImplicit false

/-- How many indents are open behind a token. An outdent wants one to close. -/
def Token.level? (depth : Nat) (t : Token) : Option Nat :=
  match t.kind, depth with
  | .indent, depth => some (depth + 1)
  | .outdent, 0 => none
  | .outdent, depth + 1 => some depth
  | _, depth => some depth

/-- How many indents are open behind a list of tokens. -/
def levels (depth : Nat) (ts : List Token) : Option Nat := ts.foldlM Token.level? depth

/-- Every indent has its outdent, and every outdent its indent. -/
def Balanced (ts : List Token) : Prop := levels 0 ts = some 0

/-- What stands between the two lists is enclosed by an indent and its outdent, and the indent
directly follows a mixin. -/
def InDefinition (before after : List Token) : Prop :=
  ∃ outer mixin indent inner inner' outdent rest, before = outer ++ mixin :: indent :: inner ∧
    after = inner' ++ outdent :: rest ∧ mixin.kind = .mixin ∧ indent.kind = .indent ∧
      outdent.kind = .outdent ∧ Balanced (inner ++ inner')

/-- An indent that directly follows a mixin is still open behind the list. -/
def OpenDefinition (before : List Token) : Prop :=
  ∃ outer mixin indent inner, before = outer ++ mixin :: indent :: inner ∧
    mixin.kind = .mixin ∧ indent.kind = .indent ∧ levels 0 inner ≠ none

section

variable {t : Token} {ts us before after : List Token} {a d e : Nat}

theorem Token.level?_indent (h : t.kind = .indent) : t.level? d = some (d + 1) := by
  simp only [level?, h]

theorem Token.level?_outdent (h : t.kind = .outdent) : t.level? (d + 1) = some d := by
  simp only [level?, h]

theorem Token.level?_outdent_zero (h : t.kind = .outdent) : t.level? 0 = none := by
  simp only [level?, h]

theorem Token.level?_other (hi : t.kind ≠ .indent) (ho : t.kind ≠ .outdent) :
    t.level? d = some d := by
  unfold level?
  split
  · exact absurd ‹_› hi
  · exact absurd ‹_› ho
  · exact absurd ‹_› ho
  · rfl

theorem levels_cons : levels d (t :: ts) = (t.level? d).bind (levels · ts) := rfl

theorem levels_append : levels d (ts ++ us) = (levels d ts).bind (levels · us) :=
  List.foldlM_append

theorem Token.level?_add (h : t.level? d = some e) : t.level? (d + a) = some (e + a) := by
  by_cases hi : t.kind = .indent
  · rw [level?_indent hi] at h ⊢
    cases h
    exact congrArg some (Nat.add_right_comm d a 1)
  · by_cases ho : t.kind = .outdent
    · cases d with
      | zero =>
        rw [level?_outdent_zero ho] at h
        cases h
      | succ d =>
        rw [level?_outdent ho] at h
        cases h
        rw [Nat.add_right_comm, level?_outdent ho]
    · rw [level?_other hi ho] at h ⊢
      cases h
      rfl

theorem levels_opening {mixin indent : Token} (hm : mixin.kind = .mixin)
    (hi : indent.kind = .indent) : levels d (mixin :: indent :: ts) = levels (d + 1) ts := by
  have hmixin : mixin.level? d = some d :=
    Token.level?_other (by rw [hm]; decide) (by rw [hm]; decide)
  rw [levels_cons, hmixin, Option.bind_some, levels_cons, Token.level?_indent hi, Option.bind_some]

/-- What is open outside makes no difference to what is closed inside. -/
theorem levels_add (h : levels d ts = some e) : levels (d + a) ts = some (e + a) := by
  induction ts generalizing d with
  | nil =>
    cases h
    rfl
  | cons t ts ih =>
    rw [levels_cons, Option.bind_eq_some_iff] at h ⊢
    obtain ⟨m, ht, hts⟩ := h
    exact ⟨m + a, Token.level?_add ht, ih hts⟩

theorem Balanced.levels_eq (h : Balanced ts) (d : Nat) : levels d ts = some d := by
  simpa only [Nat.zero_add] using levels_add (a := d) h

theorem Balanced.append (ht : Balanced ts) (hu : Balanced us) : Balanced (ts ++ us) := by
  rw [Balanced, levels_append, ht]
  exact hu

theorem Balanced.cons (hi : t.kind ≠ .indent) (ho : t.kind ≠ .outdent) (h : Balanced ts) :
    Balanced (t :: ts) := by
  rw [Balanced, levels_cons, Token.level?_other hi ho]
  exact h

theorem Balanced.remove (h : Balanced (ts ++ t :: us)) (hi : t.kind ≠ .indent)
    (ho : t.kind ≠ .outdent) : Balanced (ts ++ us) := by
  rw [Balanced, levels_append, Option.bind_eq_some_iff] at h ⊢
  obtain ⟨d, hts, hus⟩ := h
  rw [levels_cons, Token.level?_other hi ho] at hus
  exact ⟨d, hts, hus⟩

/-- Nothing is closed in the first part of a balanced list that was not opened there. -/
theorem Balanced.levels_ne_none (h : Balanced (ts ++ us)) : levels 0 ts ≠ none := by
  intro hn
  rw [Balanced, levels_append, hn] at h
  cases h

theorem Balanced.body {indent outdent : Token} (h : Balanced ts) (hi : indent.kind = .indent)
    (ho : outdent.kind = .outdent) : Balanced (indent :: ts ++ [outdent]) := by
  rw [Balanced, List.cons_append, levels_cons, Token.level?_indent hi, Option.bind_some,
    levels_append, h.levels_eq, Option.bind_some, levels_cons, Token.level?_outdent ho]
  rfl

/-- An indent that is open in front of a list is closed in it when nothing is open behind. -/
theorem exists_outdent (h : levels (d + (a + 1)) ts = some 0) : ∃ inner outdent rest,
    ts = inner ++ outdent :: rest ∧ outdent.kind = .outdent ∧ levels d inner = some 0 := by
  induction ts generalizing d with
  | nil => cases h
  | cons t ts ih =>
    rw [levels_cons, Option.bind_eq_some_iff] at h
    obtain ⟨m, ht, hts⟩ := h
    by_cases hi : t.kind = .indent
    · rw [Token.level?_indent hi] at ht
      cases ht
      rw [Nat.add_right_comm] at hts
      obtain ⟨inner, outdent, rest, rfl, ho, hinner⟩ := ih hts
      exact ⟨t :: inner, outdent, rest, rfl, ho, by rwa [levels_cons, Token.level?_indent hi]⟩
    · by_cases ho : t.kind = .outdent
      · cases d with
        | zero => exact ⟨[], t, ts, rfl, ho, rfl⟩
        | succ d =>
          rw [Nat.add_right_comm, Token.level?_outdent ho] at ht
          cases ht
          obtain ⟨inner, outdent, rest, rfl, ho', hinner⟩ := ih hts
          exact ⟨t :: inner, outdent, rest, rfl, ho', by
            rwa [levels_cons, Token.level?_outdent ho]⟩
      · rw [Token.level?_other hi ho] at ht
        cases ht
        obtain ⟨inner, outdent, rest, rfl, ho', hinner⟩ := ih hts
        exact ⟨t :: inner, outdent, rest, rfl, ho', by rwa [levels_cons, Token.level?_other hi ho]⟩

theorem InDefinition.openDefinition (h : InDefinition before after) : OpenDefinition before := by
  obtain ⟨outer, mixin, indent, inner, inner', _, _, hb, _, hm, hi, _, hinner⟩ := h
  exact ⟨outer, mixin, indent, inner, hb, hm, hi, hinner.levels_ne_none⟩

/-- In a balanced list a definition that is open is closed later. -/
theorem inDefinition_iff (h : Balanced (before ++ after)) :
    InDefinition before after ↔ OpenDefinition before := by
  refine ⟨InDefinition.openDefinition, ?_⟩
  rintro ⟨outer, mixin, indent, inner, rfl, hm, hi, hinner⟩
  obtain ⟨d, hd⟩ := Option.ne_none_iff_exists'.mp hinner
  rw [Balanced, List.append_assoc, levels_append, Option.bind_eq_some_iff] at h
  obtain ⟨a, _, h⟩ := h
  rw [List.cons_append, List.cons_append, levels_opening hm hi, levels_append] at h
  have hshift : levels (a + 1) inner = some (d + (a + 1)) := by
    simpa only [Nat.zero_add] using levels_add (a := a + 1) hd
  rw [hshift, Option.bind_some] at h
  obtain ⟨inner', outdent, rest, rfl, ho, hinner'⟩ := exists_outdent h
  refine ⟨outer, mixin, indent, inner, inner', outdent, rest, rfl, rfl, hm, hi, ho, ?_⟩
  rw [Balanced, levels_append, hd, Option.bind_some, hinner']

/-! Tokens in front of which no definition begins. -/

theorem not_openDefinition_nil : ¬ OpenDefinition [] := by
  rintro ⟨outer, _, _, _, h, _⟩
  cases outer <;> cases h

theorem openDefinition_cons (h : t.kind = .mixin → ∀ u ∈ ts.head?, u.kind ≠ .indent) :
    OpenDefinition (t :: ts) ↔ OpenDefinition ts := by
  constructor
  · rintro ⟨outer, mixin, indent, inner, heq, hm, hi, hinner⟩
    cases outer with
    | nil =>
      cases heq
      exact absurd hi (h hm indent rfl)
    | cons u outer =>
      cases heq
      exact ⟨outer, mixin, indent, inner, rfl, hm, hi, hinner⟩
  · rintro ⟨outer, mixin, indent, inner, rfl, hm, hi, hinner⟩
    exact ⟨t :: outer, mixin, indent, inner, rfl, hm, hi, hinner⟩

/-- What is closed again opens no definition for what follows. -/
theorem openDefinition_append {outdent : Token} (h : Balanced (ts ++ [outdent]))
    (ho : outdent.kind = .outdent) :
    OpenDefinition (ts ++ outdent :: us) ↔ OpenDefinition us := by
  constructor
  · rintro ⟨outer, mixin, indent, inner, heq, hm, hi, hinner⟩
    obtain ⟨mid, rfl, hus⟩ | ⟨mid, rfl, hinside⟩ := List.append_eq_append_iff.mp heq
    · cases mid with
      | nil =>
        cases hus
        rw [hm] at ho
        cases ho
      | cons u mid =>
        cases hus
        exact ⟨mid, mixin, indent, inner, rfl, hm, hi, hinner⟩
    · -- The indent stands in front of the last outdent, which closes it or more.
      rcases mid with _ | ⟨u, _ | ⟨v, mid⟩⟩
      · cases hinside
        rw [hm] at ho
        cases ho
      · cases hinside
        rw [hi] at ho
        cases ho
      · cases hinside
        rw [Balanced, List.append_assoc, levels_append, Option.bind_eq_some_iff] at h
        obtain ⟨a, _, h⟩ := h
        rw [List.cons_append, List.cons_append, levels_opening hm hi] at h
        change levels 0 (mid ++ outdent :: us) ≠ none at hinner
        rw [List.append_cons, levels_append] at hinner
        have hmid : levels 0 (mid ++ [outdent]) ≠ none := fun hn => hinner (by rw [hn]; rfl)
        obtain ⟨d, hd⟩ := Option.ne_none_iff_exists'.mp hmid
        have hshift := levels_add (a := a + 1) hd
        rw [Nat.zero_add, h] at hshift
        cases hshift
  · rintro ⟨outer, mixin, indent, inner, rfl, hm, hi, hinner⟩
    exact ⟨ts ++ outdent :: outer, mixin, indent, inner, by simp, hm, hi, hinner⟩

end

/-! What happens while a phrase is read is nested as well. -/

/-- An event that neither opens nor closes anything, and no mixin. -/
def Event.flat : Event → Bool
  | read t => match t.kind with
    | .indent => false
    | .outdent => false
    | .mixin => false
    | .mixinBlock => false
    | _ => true
  | enterMixin => false
  | leaveMixin => false
  | _ => true

/-- Events that close what they open. A definition is entered just where an indent follows its
mixin. -/
inductive Nested : List Event → Prop where
  | nil : Nested []
  | flat {e : Event} {es : List Event} : e.flat = true → Nested es → Nested (e :: es)
  | call {line : Line} {name : String} {args : Option String} {es : List Event} :
    (∀ t ∈ (es.filterMap Event.token?).head?, t.kind ≠ .indent) → Nested es →
      Nested (.read ⟨line, .mixin name args⟩ :: es)
  | body {opening closing : Line} {width : UInt64} {inner es : List Event} : Nested inner →
    Nested es →
      Nested (.read ⟨opening, .indent width⟩ :: inner ++ .read ⟨closing, .outdent⟩ :: es)
  | definition {line opening closing : Line} {name : String} {args : Option String}
    {width : UInt64} {inner es : List Event} : Nested inner → Nested es →
      Nested (.read ⟨line, .mixin name args⟩ :: .enterMixin :: .read ⟨opening, .indent width⟩ ::
        inner ++ .read ⟨closing, .outdent⟩ :: .leaveMixin :: es)

/-- Of two elements that differ one comes first. -/
theorem append_cons_eq_append_cons {α : Type} {xs ys us vs : List α} {x y : α}
    (h : xs ++ x :: us = ys ++ y :: vs) (hxy : x ≠ y) :
    (∃ mid, xs = ys ++ y :: mid) ∨ ∃ mid, ys = xs ++ x :: mid ∧ us = mid ++ y :: vs := by
  obtain ⟨mid, rfl, hmid⟩ | ⟨mid, rfl, hmid⟩ := List.append_eq_append_iff.mp h
  · cases mid with
    | nil => exact absurd (List.cons.inj hmid).1 hxy
    | cons z mid =>
      cases hmid
      exact .inr ⟨mid, rfl, rfl⟩
  · cases mid with
    | nil => exact absurd (List.cons.inj hmid).1.symm hxy
    | cons z mid =>
      cases hmid
      exact .inl ⟨mid, rfl⟩

section

variable {e : Event} {es fs before pre post : List Event} {line : Line}

theorem Event.kind_of_flat (he : e.flat = true) {t : Token} (ht : e.token? = some t) :
    t.kind ≠ .indent ∧ t.kind ≠ .outdent ∧ t.kind ≠ .mixin := by
  cases e with
  | read u =>
    cases ht
    refine ⟨?_, ?_, ?_⟩ <;>
    · intro hk
      rw [flat, hk] at he
      cases he
  | code | mixinBlock =>
    cases ht
    exact ⟨nofun, nofun, nofun⟩
  | _ => cases ht

theorem openMixins_flat (he : e.flat = true) : openMixins (es ++ [e]) = openMixins es := by
  rw [openMixins_concat]
  cases e <;> first | rfl | cases he

theorem openMixins_read (t : Token) : openMixins (es ++ [.read t]) = openMixins es :=
  openMixins_concat

theorem append_definition (a b c d f : Event) : before ++ (a :: b :: c :: es ++ d :: f :: fs) =
    before ++ [a] ++ [b] ++ [c] ++ es ++ [d] ++ [f] ++ fs := by
  simp

theorem openMixins_opening {mixin indent : Token} :
    openMixins (before ++ [.read mixin] ++ [.enterMixin] ++ [.read indent]) =
      openMixins before + 1 := by
  rw [openMixins_read, openMixins_concat, openMixins_read]

namespace Nested

theorem flats (hes : ∀ e ∈ es, e.flat = true) (h : Nested fs) : Nested (es ++ fs) := by
  induction es with
  | nil => exact h
  | cons e es ih =>
    obtain ⟨he, hes⟩ := List.forall_mem_cons.mp hes
    exact .flat he (ih hes)

theorem eq_mixinBlock (h : Nested es) (he : e ∈ es) (ht : e.token? = some ⟨line, .mixinBlock⟩) :
    e = .mixinBlock line := by
  induction h with
  | nil => cases he
  | flat hflat _ ih =>
    rcases List.mem_cons.mp he with rfl | he
    · cases e with
      | read t =>
        cases ht
        cases hflat
      | mixinBlock line =>
        cases ht
        rfl
      | _ => cases ht
    · exact ih he
  | call _ _ ih =>
    rcases List.mem_cons.mp he with rfl | he
    · cases ht
    · exact ih he
  | body _ _ ihi ih =>
    simp only [List.mem_append, List.mem_cons] at he
    rcases he with (rfl | he) | rfl | he
    · cases ht
    · exact ihi he
    · cases ht
    · exact ih he
  | definition _ _ ihi ih =>
    simp only [List.mem_append, List.mem_cons] at he
    rcases he with (rfl | rfl | rfl | he) | rfl | rfl | he
    all_goals first | cases ht | exact ihi he | exact ih he

theorem balanced (h : Nested es) : Balanced (es.filterMap Event.token?) := by
  induction h with
  | nil => rfl
  | @flat e es he _ ih =>
    cases ht : e.token? with
    | none => rwa [List.filterMap_cons_none ht]
    | some t =>
      obtain ⟨hi, ho, _⟩ := Event.kind_of_flat he ht
      rw [List.filterMap_cons_some ht]
      exact ih.cons hi ho
  | call _ _ ih => exact ih.cons nofun nofun
  | @body opening closing width inner _ _ _ ihi ih =>
    have hbody : Balanced (⟨opening, .indent width⟩ :: inner.filterMap Event.token? ++
      [⟨closing, .outdent⟩]) := ihi.body rfl rfl
    simpa using hbody.append ih
  | @definition line opening closing name args width inner es _ _ ihi ih =>
    have hbody : Balanced (⟨line, .mixin name args⟩ :: ⟨opening, .indent width⟩ ::
        inner.filterMap Event.token? ++ [⟨closing, .outdent⟩]) :=
      (ihi.body rfl rfl).cons nofun nofun
    simpa [List.filterMap_cons] using hbody.append ih

/-- Whatever is entered is left again. -/
theorem openMixins_eq (h : Nested es) (before : List Event) :
    openMixins (before ++ es) = openMixins before := by
  induction h generalizing before with
  | nil => rw [List.append_nil]
  | flat he _ ih => rw [List.append_cons, ih, openMixins_flat he]
  | call _ _ ih => rw [List.append_cons, ih, openMixins_read]
  | body _ _ ihi ih =>
    rw [List.cons_append, List.append_cons, ← List.append_assoc, List.append_cons, ih,
      openMixins_read, ihi, openMixins_read]
  | @definition line opening closing name args width inner es _ _ ihi ih =>
    rw [append_definition, ih, openMixins_concat, openMixins_read, ihi, openMixins_opening]
    rfl

end Nested

/-- Behind the given events as many mixins are open as in front of them, or more if a definition is
open there. -/
def Counted (before es : List Event) : Prop :=
  (OpenDefinition (es.filterMap Event.token?) ∧ openMixins before < openMixins (before ++ es)) ∨
    (¬ OpenDefinition (es.filterMap Event.token?) ∧ openMixins (before ++ es) = openMixins before)

/-- Events that leave nothing open do not count. -/
theorem Counted.behind (h : Counted (before ++ fs) es)
    (hm : openMixins (before ++ fs) = openMixins before)
    (ho : OpenDefinition ((fs ++ es).filterMap Event.token?) ↔
      OpenDefinition (es.filterMap Event.token?)) : Counted before (fs ++ es) := by
  rw [Counted, hm] at h
  rwa [Counted, ho, ← List.append_assoc]

section

variable {inner : List Event} {opening closing : Line} {width : UInt64} {name : String}
variable {args : Option String}

/-- Behind the beginning of a definition there is one more. -/
theorem Counted.within_definition (hl : levels 0 (es.filterMap Event.token?) ≠ none)
    (h : Counted (before ++ [.read ⟨line, .mixin name args⟩] ++ [.enterMixin] ++
      [.read ⟨opening, .indent width⟩]) es) :
    Counted before (.read ⟨line, .mixin name args⟩ :: .enterMixin ::
      .read ⟨opening, .indent width⟩ :: es) := by
  refine .inl ⟨?_, ?_⟩
  · exact ⟨[], ⟨line, .mixin name args⟩, ⟨opening, .indent width⟩, es.filterMap Event.token?, rfl,
      rfl, rfl, hl⟩
  · rw [List.append_cons, List.append_cons, List.append_cons]
    rcases h with ⟨_, h⟩ | ⟨_, h⟩
    · rw [openMixins_opening] at h
      omega
    · rw [openMixins_opening] at h
      omega

theorem Counted.past_body (hi : Nested inner) (h : Counted (before ++
      (.read ⟨opening, .indent width⟩ :: inner ++ [.read ⟨closing, .outdent⟩])) es) :
    Counted before (.read ⟨opening, .indent width⟩ :: inner ++
      .read ⟨closing, .outdent⟩ :: es) := by
  have hclosed : Nested (.read ⟨opening, .indent width⟩ :: inner ++
    [.read ⟨closing, .outdent⟩]) := .body hi .nil
  have hopen : OpenDefinition (⟨opening, .indent width⟩ :: inner.filterMap Event.token? ++
      ⟨closing, .outdent⟩ :: es.filterMap Event.token?) ↔
      OpenDefinition (es.filterMap Event.token?) :=
    openDefinition_append (hi.balanced.body rfl rfl) rfl
  have hcount := h.behind (hclosed.openMixins_eq before) (by simpa using hopen)
  simpa using hcount

theorem Counted.past_definition (hi : Nested inner) (h : Counted (before ++
      (.read ⟨line, .mixin name args⟩ :: .enterMixin :: .read ⟨opening, .indent width⟩ ::
        inner ++ [.read ⟨closing, .outdent⟩, .leaveMixin])) es) :
    Counted before (.read ⟨line, .mixin name args⟩ :: .enterMixin ::
      .read ⟨opening, .indent width⟩ :: inner ++
        .read ⟨closing, .outdent⟩ :: .leaveMixin :: es) := by
  have hclosed : Nested (.read ⟨line, .mixin name args⟩ :: .enterMixin ::
    .read ⟨opening, .indent width⟩ :: inner ++ [.read ⟨closing, .outdent⟩, .leaveMixin]) :=
      .definition hi .nil
  have hopen : OpenDefinition (⟨line, .mixin name args⟩ :: ⟨opening, .indent width⟩ ::
      inner.filterMap Event.token? ++ ⟨closing, .outdent⟩ :: es.filterMap Event.token?) ↔
      OpenDefinition (es.filterMap Event.token?) :=
    openDefinition_append ((hi.balanced.body rfl rfl).cons nofun nofun) rfl
  have hcount := h.behind (hclosed.openMixins_eq before)
    (by simpa [List.filterMap_cons] using hopen)
  simpa using hcount

end

namespace Nested

/-- What is counted in front of a place for content. -/
theorem counted (h : Nested es) (hes : es = pre ++ .mixinBlock line :: post)
    (before : List Event) : Counted before pre := by
  induction h generalizing pre post before with
  | nil => cases pre <;> cases hes
  | @flat e es he hn ih =>
    cases pre with
    | nil => exact .inr ⟨not_openDefinition_nil, by rw [List.append_nil]⟩
    | cons f pre =>
      simp only [List.cons_append, List.cons.injEq] at hes
      obtain ⟨rfl, hrest⟩ := hes
      refine (ih hrest (before ++ [e])).behind (openMixins_flat he) ?_
      rw [List.singleton_append]
      cases ht : e.token? with
      | none => rw [List.filterMap_cons_none ht]
      | some t =>
        rw [List.filterMap_cons_some ht]
        exact openDefinition_cons fun hm => absurd hm (Event.kind_of_flat he ht).2.2
  | @call line name args es hnext _ ih =>
    cases pre with
    | nil => cases hes
    | cons f pre =>
      simp only [List.cons_append, List.cons.injEq] at hes
      obtain ⟨rfl, hrest⟩ := hes
      refine (ih hrest (before ++ [_])).behind (openMixins_read _) ?_
      rw [List.singleton_append]
      refine openDefinition_cons fun _ u hu => hnext u ?_
      rw [hrest, List.filterMap_append, List.head?_append, Option.mem_def.mp hu]
      rfl
  | @body opening closing width inner es hi _ ihi ih =>
    cases pre with
    | nil => cases hes
    | cons f pre =>
      simp only [List.cons_append, List.cons.injEq] at hes
      obtain ⟨rfl, hrest⟩ := hes
      obtain ⟨mid, hmid⟩ | ⟨mid, rfl, hmid⟩ := append_cons_eq_append_cons hrest nofun
      · exact (ihi hmid (before ++ [_])).behind (openMixins_read _) (openDefinition_cons nofun)
      · exact .past_body hi (ih hmid _)
  | @definition line opening closing name args width inner es hi _ ihi ih =>
    rcases pre with _ | ⟨f, _ | ⟨f', _ | ⟨f'', pre⟩⟩⟩ <;>
      simp only [List.cons_append, List.nil_append, List.cons.injEq, reduceCtorEq, false_and,
        and_false] at hes
    obtain ⟨rfl, rfl, rfl, hrest⟩ := hes
    obtain ⟨mid, hmid⟩ | ⟨mid, rfl, hmid⟩ := append_cons_eq_append_cons hrest nofun
    · have hinner := hi.balanced
      rw [hmid, List.filterMap_append] at hinner
      exact .within_definition hinner.levels_ne_none (ihi hmid _)
    · obtain ⟨later, rfl⟩ : ∃ later, mid = .leaveMixin :: later := by
        cases mid with
        | nil => cases hmid
        | cons g mid => exact ⟨mid, by rw [(List.cons.inj hmid).1]⟩
      exact .past_definition hi (ih (List.cons.inj hmid).2 _)

end Nested

end

namespace Phrase

variable {g h : Symbol}

/-- The lexeme in front of which something is read when the given events follow, and then the
given lexeme. -/
def ahead (rest : List Event) (next : Lexeme) : Lexeme :=
  ((rest.filterMap Event.token?).head?.map Token.lexeme).getD next

theorem ahead_append (t : Phrase g) (rest : List Event) (next : Lexeme) :
    ahead (t.trace ++ rest) next = t.lead (ahead rest next) := by
  rw [ahead, List.filterMap_append, lead, tokens]
  cases t.trace.filterMap Event.token? <;> rfl

theorem ahead_quiet {es : List Event} (h : ∀ e ∈ es, e.token? = none) (rest : List Event)
    (next : Lexeme) : ahead (es ++ rest) next = ahead rest next := by
  rw [ahead, List.filterMap_append, List.filterMap_eq_nil_iff.mpr h]
  rfl

theorem ahead_newlines (lines : List Line) (rest : List Event) (next : Lexeme) :
    ahead (lines.map .newline ++ rest) next = if lines = [] then ahead rest next else .newline := by
  cases lines <;> rfl

/-- What happens inside of a body. -/
def inside : {g : Symbol} → Phrase g → List Event
  | _, body _ _ items _ => items.trace
  | _, _ => []

/-- Where a phrase fits, it is nested together with nested events behind it. -/
def NestsWith (t : Phrase g) : Prop := ∀ (rest : List Event) (next : Lexeme),
  next.kind ≠ .indent → t.Fits (ahead rest next) → Nested rest → Nested (t.trace ++ rest)

theorem flat_heads {ts : List Token} (h : ∀ t ∈ ts, t.isHead = true) :
    ∀ e ∈ ts.map Event.read, e.flat = true := by
  rw [List.forall_mem_map]
  rintro ⟨line, lexeme⟩ ht
  have hk := h _ ht
  cases lexeme <;> first | rfl | cases hk

theorem flat_newlines (lines : List Line) : ∀ e ∈ lines.map Event.newline, e.flat = true := by
  rw [List.forall_mem_map]
  exact fun _ _ => rfl

theorem nestsWith (t : Phrase g) :
    t.NestsWith ∧ ∀ next, t.Fits next → Nested t.inside := by
  -- The second half is for definitions, which have the tokens around their body as their own.
  induction t with
  | done | noBody | textEnd | noPipeless | htmlEnd | nestedNone | lineEnd | noBranches
  | fallThrough | noAlternative => exact ⟨fun _ _ _ _ hr => hr, fun _ _ => .nil⟩
  | nestedNewline | inherit | doctype | yield | mixinBlock =>
    exact ⟨fun _ _ _ _ hr => .flat rfl hr, fun _ _ => .nil⟩
  | newline _ _ ih | textPiece _ _ _ ih | branchNewline _ _ ih | lineColon _ _ ih
  | expansionColon _ _ ih | tag _ _ _ _ ih | buffered _ _ _ ih | call _ _ _ _ ih
  | namedBlock _ _ _ _ ih | inclusion _ _ _ _ _ ih | comment _ _ _ _ ih | dot _ _ ih =>
    exact ⟨fun rest next hn hf hr => .flat rfl (ih.1 rest next hn hf hr), fun _ _ => .nil⟩
  | textBreak _ _ ih | someAlternative _ _ _ ih =>
    exact ⟨fun rest next hn hf hr => .flat rfl (ih.1 rest next hn hf.2 hr), fun _ _ => .nil⟩
  | someBody _ ih | nestedBody _ ih | lineCode _ ih | expansionBody _ ih | statement _ ih =>
    exact ⟨ih.1, fun _ _ => .nil⟩
  | lineText _ ih | textLines _ ih | division _ ih =>
    exact ⟨fun rest next hn hf hr => ih.1 rest next hn hf.2 hr, fun _ _ => .nil⟩
  | item e more ihe ih =>
    refine ⟨fun rest next hn hf hr => ?_, fun _ _ => .nil⟩
    rw [trace, List.append_assoc]
    have hmore := ih.1 rest next hn hf.2.2 hr
    exact ihe.1 _ next hn (ahead_append more rest next ▸ hf.2.1) hmore
  | html line content nested lines more ihn ihl ih =>
    refine ⟨fun rest next hn hf hr => ?_, fun _ _ => .nil⟩
    have hmore := ih.1 rest next hn hf.2.2 hr
    have hlines := ihl.1 _ next hn (ahead_append more rest next ▸ hf.2.1) hmore
    rw [trace, List.append_assoc, List.append_assoc]
    refine .flat rfl (ihn.1 _ next hn ?_ hlines)
    rw [ahead_append, ahead_append]
    exact hf.1
  | htmlLine line content nested lines ihn ihl | rawHtml line content nested lines ihn ihl =>
    refine ⟨fun rest next hn hf hr => ?_, fun _ _ => .nil⟩
    have hlines := ihl.1 rest next hn hf.2 hr
    rw [trace, List.append_assoc]
    exact .flat rfl (ihn.1 _ next hn (ahead_append lines rest next ▸ hf.1) hlines)
  | body opening width items closing ih =>
    have hitems {next : Lexeme} (hf : (body opening width items closing).Fits next) :
        Nested items.trace := by
      simpa using ih.1 [] .outdent nofun hf .nil
    refine ⟨fun rest next hn hf hr => ?_, fun _ hf => hitems hf⟩
    rw [trace, List.append_assoc]
    exact .body (hitems hf) hr
  | textInterpolation opening e closing more ihe ih =>
    refine ⟨fun rest next hn hf hr => ?_, fun _ _ => .nil⟩
    have hmore := ih.1 rest next hn hf.2 hr
    rw [trace, List.append_assoc]
    exact .flat rfl (ihe.1 _ .eos nofun hf.1 (.flat rfl hmore))
  | somePipeless opening pieces closing ih =>
    refine ⟨fun rest next hn hf hr => ?_, fun _ _ => .nil⟩
    rw [trace, List.append_assoc]
    exact .flat rfl (ih.1 _ .eos nofun hf (.flat rfl hr))
  | code line c b ih =>
    refine ⟨fun rest next hn hf hr => ?_, fun _ _ => .nil⟩
    rw [trace, List.append_assoc]
    refine .flat rfl (ih.1 _ next hn ?_ ?_)
    · rwa [ahead_quiet]
      split <;> simp
    · split
      · exact .flat rfl hr
      · exact hr
  | plain heads l newlines b ihl ihb =>
    refine ⟨fun rest next hn hf hr => ?_, fun _ _ => .nil⟩
    obtain ⟨hheads, _, hl, _, hb⟩ := hf
    have hbody := ihb.1 rest next hn hb hr
    rw [← ahead_append, ← ahead_newlines] at hl
    have hline := ihl.1 _ next hn hl (.flats (flat_newlines newlines) hbody)
    simpa using Nested.flats (flat_heads hheads) (.flat rfl hline)
  | dotted heads dotLine l newlines b ihl ihb =>
    refine ⟨fun rest next hn hf hr => ?_, fun _ _ => .nil⟩
    obtain ⟨hheads, _, hl, _, hb⟩ := hf
    have hbody := ihb.1 rest next hn hb hr
    rw [← ahead_append, ← ahead_newlines] at hl
    have hline := ihl.1 _ next hn hl (.flats (flat_newlines newlines) hbody)
    have hdot : Event.flat (.read ⟨dotLine, .dot⟩) = true := rfl
    simpa using Nested.flats (flat_heads hheads) (.flat rfl (.flat hdot hline))
  | branch line source x more ihx ih =>
    refine ⟨fun rest next hn hf hr => ?_, fun _ _ => .nil⟩
    have hmore := ih.1 rest next hn hf.2 hr
    rw [trace, List.append_assoc]
    refine .flat ?_ (ihx.1 _ next hn (ahead_append more rest next ▸ hf.1) hmore)
    cases source <;> rfl
  | definition line name args b ih =>
    refine ⟨fun rest next hn hf hr => ?_, fun _ _ => .nil⟩
    have hinner := ih.2 _ hf
    cases b with
    | body opening width items closing =>
      have hdef : Nested (.read ⟨line, .mixin name args⟩ :: .enterMixin ::
          .read ⟨opening, .indent width⟩ :: items.trace ++
            .read ⟨closing, .outdent⟩ :: .leaveMixin :: rest) := .definition hinner hr
      simpa using hdef
  | oldCall line name args =>
    refine ⟨fun rest next hn hf hr => .call (fun u hu => ?_) (.flat rfl hr), fun _ _ => .nil⟩
    have hu : (rest.filterMap Event.token?).head? = some u := hu
    change (ahead rest next).kind ≠ .indent at hf
    rwa [ahead, hu] at hf
  | each line head b a ihb iha =>
    refine ⟨fun rest next hn hf hr => ?_, fun _ _ => .nil⟩
    have halternative := iha.1 rest next hn hf.2 hr
    rw [trace, List.append_assoc]
    exact .flat rfl (ihb.1 _ next hn (ahead_append a rest next ▸ hf.1) halternative)
  | case line source opening width bs closing ih =>
    refine ⟨fun rest next hn hf hr => ?_, fun _ _ => .nil⟩
    have hbranches : Nested bs.trace := by
      simpa using ih.1 [] .outdent nofun hf .nil
    rw [trace, List.append_assoc]
    exact .flat rfl (.body hbranches hr)
  | filter line name group b ih =>
    refine ⟨fun rest next hn hf hr => ?_, fun _ _ => .nil⟩
    rw [trace, List.append_assoc]
    refine .flat rfl (.flats ?_ (ih.1 rest next hn hf.2 hr))
    cases group <;> simp [Event.flat, groupToken, Token.kind, Lexeme.kind]

theorem nested {t : Phrase g} {next : Lexeme} (hn : next.kind ≠ .indent) (hf : t.Fits next) :
    Nested t.trace := by
  simpa using t.nestsWith.1 [] next hn hf .nil

theorem balanced_tokens {t : Phrase g} {next : Lexeme} (hn : next.kind ≠ .indent)
    (hf : t.Fits next) : Balanced t.tokens := (nested hn hf).balanced

/-- A place for content that a phrase's events permit is enclosed by a definition. -/
theorem openDefinition_of_lawful {t : Phrase g} {next : Lexeme} (hn : next.kind ≠ .indent)
    (hf : t.Fits next) (hlaw : Lawful t.trace) {before after : List Token} {line : Line}
    (ht : t.tokens = before ++ ⟨line, .mixinBlock⟩ :: after) : OpenDefinition before := by
  have hnested := nested hn hf
  obtain ⟨front, back, htrace, rfl, hback⟩ := List.filterMap_eq_append_iff.mp ht
  obtain ⟨quiet, e, post, rfl, hquiet, he, -⟩ := List.filterMap_eq_cons_iff.mp hback
  rw [htrace] at hnested
  have hmixin : e = .mixinBlock line :=
    hnested.eq_mixinBlock (List.mem_append_right _ (List.mem_append_right _ List.mem_cons_self)) he
  subst hmixin
  rw [← List.append_assoc] at htrace hnested
  have hgranted : openMixins ([] ++ (front ++ quiet)) ≠ 0 := hlaw _ _ _ htrace
  obtain ⟨hopen, _⟩ | ⟨_, hzero⟩ := hnested.counted rfl []
  · rwa [List.filterMap_append, List.filterMap_eq_nil_iff.mpr hquiet, List.append_nil] at hopen
  · exact absurd hzero hgranted

end Phrase

end TemplateTree
