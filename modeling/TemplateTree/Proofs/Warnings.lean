import TemplateTree.Proofs.Traces

/-!
Warnings, in the stream. What is remarkable about a stream can be told from it directly: a mixin
in front of no body, and an attribute group behind another one of the same run of head tokens. The
group of a filter is no part of a head, although a head may begin right behind it.
-/

namespace TemplateTree
set_option autoImplicit false

namespace Template

/-- The run of head tokens at the end of the given ones, the latest of them first, holds an
attribute group that is not a filter's. -/
def HasGroup (before : List Token) : Prop :=
  ∃ run group earlier, before = run ++ group :: earlier ∧ (∀ t ∈ run, t.isHead = true) ∧
    group.kind = .attrs ∧ ∀ u ∈ earlier.head?, u.kind ≠ .filter

variable {before : List Token} {t : Token}

theorem not_hasGroup_nil : ¬ HasGroup [] := by
  rintro ⟨run, _, _, h, -⟩
  cases run <;> cases h

theorem hasGroup_cons : HasGroup (t :: before) ↔
    (t.kind = .attrs ∧ ∀ u ∈ before.head?, u.kind ≠ .filter) ∨
      (t.isHead = true ∧ HasGroup before) := by
  constructor
  · rintro ⟨run, group, earlier, heq, hrun, hgroup, hearlier⟩
    cases run with
    | nil =>
      cases heq
      exact .inl ⟨hgroup, hearlier⟩
    | cons u run =>
      cases heq
      rw [List.forall_mem_cons] at hrun
      exact .inr ⟨hrun.1, run, group, earlier, rfl, hrun.2, hgroup, hearlier⟩
  · rintro (⟨hgroup, hbefore⟩ | ⟨ht, run, group, earlier, rfl, hrun, hgroup, hearlier⟩)
    · exact ⟨[], t, before, rfl, nofun, hgroup, hbefore⟩
    · exact ⟨t :: run, group, earlier, rfl, List.forall_mem_cons.mpr ⟨ht, hrun⟩, hgroup, hearlier⟩

instance decidableHasGroup : (before : List Token) → Decidable (HasGroup before)
  | [] => isFalse not_hasGroup_nil
  | _ :: before =>
    have := decidableHasGroup before
    decidable_of_iff _ hasGroup_cons.symm

/-- What is remarkable about a token between others, those before it with the latest first. -/
def noticesAt (before : List Token) (t : Token) (next : Lexeme) : List Notice :=
  match t.lexeme with
  | .mixin name _ => if next.kind = .indent then [] else [⟨.deprecatedMixinCall name, t.line⟩]
  | .attrs .. => if HasGroup before then [⟨.multipleAttributeGroups, t.line⟩] else []
  | _ => []

theorem noticesAt_of_attrs (ht : t.kind = .attrs) (next : Lexeme) : noticesAt before t next =
    if HasGroup before then [⟨.multipleAttributeGroups, t.line⟩] else [] := by
  obtain ⟨line, lexeme⟩ := t
  cases lexeme <;> cases ht
  rfl

def noticesBehind (before : List Token) : List Token → Lexeme → List Notice
  | [], _ => []
  | t :: ts, next =>
    noticesAt before t (.following ts next) ++ noticesBehind (t :: before) ts next

/-- What is remarkable about a stream, up to its end. -/
def notices (ts : List Token) : List Notice :=
  noticesBehind [] (ts.takeWhile fun t => !t.isEos) .eos

/-- If a head token comes next, no group of the tokens before it counts for the run that it is
in, and it is not a filter's own group. -/
def StartsAfresh (before : List Token) (next : Lexeme) : Prop :=
  next.isHead = true →
    ¬ HasGroup before ∧ (next.kind = .attrs → ∀ u ∈ before.head?, u.kind ≠ .filter)

end Template

/-- A token that has nothing to do with warnings. -/
def Token.isNeutral (t : Token) : Bool :=
  match t.lexeme with
  | .mixin .. => false
  | .filter _ => false
  | l => !l.isHead

theorem Token.isNeutral_of_isCommon {t : Token} (ht : t.isCommon = true) : t.isNeutral = true := by
  obtain ⟨line, lexeme⟩ := t
  cases lexeme <;> first | rfl | cases ht

theorem Event.noted_eq_nil {e : Event} {t : Token} (ht : e.token? = some t) : e.noted = [] := by
  cases e <;> first | rfl | cases ht

open Template

/-- The notices of the events are those that the stream shows, and a head behind them starts
afresh. -/
structure Noted (before : List Token) (es : List Event) (next : Lexeme) : Prop where
  scan : noticesBehind before (es.filterMap Event.token?) next = es.flatMap Event.noted
  fresh : StartsAfresh ((es.filterMap Event.token?).reverse ++ before) next

/-- Wherever a head at their beginning starts afresh, the notices of the events are those that the
stream shows. -/
def Shows (es : List Event) (next : Lexeme) : Prop :=
  ∀ ⦃before⦄, StartsAfresh before (.following (es.filterMap Event.token?) next) →
    Noted before es next

section

variable {before : List Token} {es fs : List Event} {e : Event} {t : Token} {next : Lexeme}

theorem Template.startsAfresh_of_not_head (ht : t.isHead = false)
    (hnext : next.kind = .attrs → t.kind ≠ .filter) : StartsAfresh (t :: before) next := by
  intro _
  constructor
  · rw [hasGroup_cons]
    rintro (⟨hk, -⟩ | ⟨hh, -⟩)
    · obtain ⟨line, lexeme⟩ := t
      cases lexeme <;> cases hk
      cases ht
    · rw [ht] at hh
      cases hh
  · intro hk u hu
    cases hu
    exact hnext hk

theorem Template.startsAfresh_of_isNeutral (ht : t.isNeutral = true) :
    StartsAfresh (t :: before) next := by
  obtain ⟨line, lexeme⟩ := t
  apply startsAfresh_of_not_head
  · cases lexeme <;> first | rfl | cases ht
  · intro _ hk
    cases lexeme with
    | filter => cases ht
    | _ => cases hk

theorem Template.noticesBehind_append (ts us : List Token) : noticesBehind before (ts ++ us) next =
    noticesBehind before ts (.following us next) ++
      noticesBehind (ts.reverse ++ before) us next := by
  induction ts generalizing before with
  | nil => rfl
  | cons t ts ih =>
    have hnext : Lexeme.following (ts ++ us) next = .following ts (.following us next) := by
      cases ts <;> rfl
    rw [List.cons_append, noticesBehind, noticesBehind, ih, hnext, List.append_assoc,
      List.reverse_cons, List.append_assoc, List.singleton_append]

/-- Within a run of head tokens every group but the first is remarkable. -/
theorem Template.noticesBehind_heads {heads : List Token} (hh : ∀ t ∈ heads, t.isHead = true)
    (hb : (Lexeme.following heads next).kind = .attrs → ∀ u ∈ before.head?, u.kind ≠ .filter) :
    noticesBehind before heads next = Head.notices (decide (HasGroup before)) heads := by
  induction heads generalizing before with
  | nil => rfl
  | cons t heads ih =>
    obtain ⟨ht, hheads⟩ := List.forall_mem_cons.mp hh
    have hfilter : ∀ u ∈ (t :: before).head?, u.kind ≠ .filter := by
      intro u hu hk
      cases hu
      obtain ⟨line, lexeme⟩ := t
      cases lexeme with
      | filter => cases ht
      | _ => cases hk
    rw [noticesBehind, ih hheads fun _ => hfilter, Head.notices]
    by_cases hk : t.kind = .attrs
    · have hgroup : HasGroup (t :: before) := hasGroup_cons.mpr (.inl ⟨hk, hb hk⟩)
      rw [if_pos hk, decide_eq_true hgroup, noticesAt_of_attrs hk]
      simp only [decide_eq_true_eq]
      split <;> rfl
    · have hgroup : HasGroup (t :: before) ↔ HasGroup before := by
        simp only [hasGroup_cons, hk, false_and, ht, true_and, false_or]
      have hnone : noticesAt before t (.following heads next) = [] := by
        obtain ⟨line, lexeme⟩ := t
        cases lexeme with
        | attrs => exact absurd rfl hk
        | mixin => cases ht
        | _ => rfl
      rw [if_neg hk, decide_eq_decide.mpr hgroup, hnone, List.nil_append]

namespace Shows

theorem nil : Shows [] next := fun _ h => ⟨rfl, h⟩

theorem append (h₁ : Shows es (.following (fs.filterMap Event.token?) next)) (h₂ : Shows fs next) :
    Shows (es ++ fs) next := by
  intro before hb
  have hstart : StartsAfresh before (.following (es.filterMap Event.token?)
      (.following (fs.filterMap Event.token?) next)) := by
    rw [List.filterMap_append] at hb
    cases hes : es.filterMap Event.token? <;> rw [hes] at hb <;> exact hb
  have hes := h₁ hstart
  have hfs := h₂ hes.fresh
  constructor
  · rw [List.filterMap_append, noticesBehind_append, hes.scan, hfs.scan, List.flatMap_append]
  · rw [List.filterMap_append, List.reverse_append, List.append_assoc]
    exact hfs.fresh

theorem quiet (ht : e.token? = none) (he : e.noted = []) (h : Shows es next) :
    Shows (e :: es) next := by
  intro before hb
  rw [List.filterMap_cons_none ht] at hb
  constructor
  · rw [List.filterMap_cons_none ht, (h hb).scan, List.flatMap_cons, he, List.nil_append]
  · rw [List.filterMap_cons_none ht]
    exact (h hb).fresh

/-- A token that says on its own what is remarkable about it. -/
theorem cons (ht : e.token? = some t)
    (he : ∀ before, noticesAt before t (.following (es.filterMap Event.token?) next) = e.noted)
    (hfresh : ∀ before, StartsAfresh (t :: before) (.following (es.filterMap Event.token?) next))
    (h : Shows es next) : Shows (e :: es) next := by
  intro before _
  have hes := h (hfresh before)
  constructor
  · rw [List.filterMap_cons_some ht, noticesBehind, hes.scan, List.flatMap_cons, he]
  · rw [List.filterMap_cons_some ht, List.reverse_cons, List.append_assoc, List.singleton_append]
    exact hes.fresh

theorem neutral (ht : e.token? = some t) (he : e.noted = []) (hn : t.isNeutral = true)
    (h : Shows es next) : Shows (e :: es) next := by
  apply cons ht _ (fun _ => startsAfresh_of_isNeutral hn) h
  intro before
  rw [he]
  obtain ⟨line, lexeme⟩ := t
  cases lexeme <;> first | rfl | cases hn

/-- A filter with an attribute group of its own, behind which a head starts afresh. -/
theorem filterGroup (line : Line) (name : String) (group : Line × List Attribute × Bool) :
    Shows [.read ⟨line, .filter name⟩, .read (groupToken group)] next := by
  intro before _
  have hfilter : ¬ HasGroup (⟨line, .filter name⟩ :: before) := by
    rw [hasGroup_cons]
    rintro (⟨hk, -⟩ | ⟨hh, -⟩)
    · cases hk
    · cases hh
  have hgroup : ¬ HasGroup (groupToken group :: ⟨line, .filter name⟩ :: before) := by
    rw [hasGroup_cons]
    rintro (⟨-, hbefore⟩ | ⟨-, hg⟩)
    · exact hbefore _ rfl rfl
    · exact hfilter hg
  have hnone : noticesAt (⟨line, .filter name⟩ :: before) (groupToken group) next = [] := by
    rw [noticesAt_of_attrs rfl, if_neg hfilter]
  constructor
  · change [] ++ (noticesAt _ (groupToken group) next ++ []) = []
    rw [hnone]
    rfl
  · refine fun _ => ⟨hgroup, ?_⟩
    intro _ u hu
    cases hu
    nofun

theorem heads {heads : List Token} (hh : ∀ t ∈ heads, t.isHead = true)
    (hnext : next.isHead = false) :
    Shows (heads.map .read ++ [.notices (Head.notices false heads)]) next := by
  have htokens : (heads.map Event.read ++ [Event.notices (Head.notices false heads)]).filterMap
      Event.token? = heads := by
    rw [List.filterMap_append, List.filterMap_map]
    exact (List.append_nil _).trans List.filterMap_some
  have hnoted : (heads.map Event.read).flatMap Event.noted = [] := by
    rw [List.flatMap_map]
    exact List.flatMap_eq_nil_iff.mpr fun _ _ => rfl
  intro before hb
  rw [htokens] at hb
  constructor
  · rw [htokens, List.flatMap_append, hnoted, List.flatMap_singleton, List.nil_append]
    cases heads with
    | nil => rfl
    | cons t heads =>
      obtain ⟨hgroup, hfilter⟩ := hb (hh t List.mem_cons_self)
      rw [noticesBehind_heads hh hfilter, decide_eq_false hgroup]
      rfl
  · intro h
    rw [hnext] at h
    cases h

theorem oldCall (line : Line) (name : String) (args : Option String) (hn : next.kind ≠ .indent) :
    Shows [.read ⟨line, .mixin name args⟩, .notices [⟨.deprecatedMixinCall name, line⟩]] next := by
  intro before _
  constructor
  · change (if next.kind = .indent then [] else _) ++ [] = _
    rw [if_neg hn]
    rfl
  · exact startsAfresh_of_not_head rfl fun _ => nofun

/-- The notices that come up while a phrase is read are those that the stream shows. -/
theorem traceClosed : TraceClosed Shows where
  nil _ := nil
  append := append
  common _ ht hc := neutral ht (Event.noted_eq_nil ht) (Token.isNeutral_of_isCommon hc) nil
  quiet _ ht he := quiet ht he nil
  heads := heads
  pipeless _ _ _ hes := append (neutral rfl rfl rfl hes) (neutral rfl rfl rfl nil)
  interpolation _ _ _ hes := append (neutral rfl rfl rfl hes) (neutral rfl rfl rfl nil)
  definition _ _ _ hn :=
    cons rfl (fun _ => if_pos hn) (fun _ => startsAfresh_of_not_head rfl fun _ => nofun) nil
  oldCall := oldCall
  filter _ _ hn := cons rfl (fun _ => rfl)
    (fun _ => startsAfresh_of_not_head rfl fun hk => absurd hk hn) nil
  filterGroup := filterGroup

end Shows

end

namespace Template

variable {file : Option String} {ts : List Token} {p : Parsed}

/-- The warnings of a template are what is remarkable about its stream. -/
theorem warnings_eq (h : parse file ts = .ok p) :
    p.warnings = (notices ts).map (Notice.warning file) := by
  obtain ⟨t, hf, htokens, -, rfl⟩ := parse_ok.mp h
  have hstart : StartsAfresh [] (t.lead .eos) := fun _ => ⟨not_hasGroup_nil, nofun⟩
  have hscan : noticesBehind [] t.tokens .eos = t.trace.flatMap Event.noted :=
    (Shows.traceClosed.trace t hf hstart).scan
  rw [notices, ← htokens, hscan]
  rfl

/-- A filter's group, two groups of the division behind it, and a mixin called in the old way. -/
theorem warnings_eq_filtered :
    let ts : List Token := [⟨1, .filter "f"⟩, ⟨1, .attrs [] false⟩, ⟨1, .className "a"⟩,
      ⟨1, .attrs [] false⟩, ⟨2, .attrs [] false⟩, ⟨2, .newline⟩, ⟨3, .mixin "m" none⟩]
    ∃ p, parse none ts = .ok p ∧ p.warnings = (notices ts).map (Notice.warning none) ∧
      notices ts = [⟨.multipleAttributeGroups, 2⟩, ⟨.deprecatedMixinCall "m", 3⟩] := by
  intro ts
  have hok : (parse none ts).toOption.map (fun _ => true) = some true := by decide +kernel
  obtain ⟨p, hp, -⟩ := exists_parsed hok
  exact ⟨p, hp, warnings_eq hp, by decide +kernel⟩

end Template

end TemplateTree
