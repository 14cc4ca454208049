import Mathlib.Data.List.Induction
import TemplateTree.Proofs.ElseLink
import TemplateTree.Proofs.Reading

/-!
When a sequence of events may happen from the beginning of a stream. Two of them look at what came
before: an else branch wants a conditional, and the place for a call's content wants a mixin
around it. What a parse carries along answers both questions about the past.
-/

namespace TemplateTree
set_option autoImplicit false

/-- A conditional was finished, and since then exactly the given tokens were read. -/
def FinishedBefore (since : List Token) (es : List Event) : Prop :=
  ∃ before gap, es = before ++ .finish :: gap ∧ gap.filterMap Event.token? = since

/-- A conditional was finished, and since then nothing but perhaps one newline was read. -/
def AfterConditional (es : List Event) : Prop :=
  FinishedBefore [] es ∨ ∃ line, FinishedBefore [⟨line, .newline⟩] es

/-- How many mixin definitions are open. -/
def openMixins (es : List Event) : Nat :=
  es.foldl (fun depth e => match e with
    | .enterMixin => depth + 1
    | .leaveMixin => depth - 1
    | _ => depth) 0

/-- Whether an event may happen after the given ones. -/
def Event.Granted (before : List Event) : Event → Prop
  | code _ c => c.isElse = true → c.hasIf = true ∨ AfterConditional before
  | mixinBlock _ => openMixins before ≠ 0
  | _ => True

/-- Every event may happen after those before it. -/
def LawfulAfter (before es : List Event) : Prop :=
  ∀ mid e rest, es = mid ++ e :: rest → e.Granted (before ++ mid)

def Lawful (es : List Event) : Prop := LawfulAfter [] es

section

variable {e : Event} {es before : List Event} {since : List Token}

theorem finishedBefore_concat : FinishedBefore since (es ++ [e]) ↔
    (e = .finish ∧ since = []) ∨
      ∃ earlier, FinishedBefore earlier es ∧ since = earlier ++ e.token?.toList := by
  constructor
  · rintro ⟨before, gap, he, rfl⟩
    rcases List.eq_nil_or_concat gap with rfl | ⟨gap, f, rfl⟩
    · obtain ⟨rfl, hlast⟩ := List.append_inj' he rfl
      cases hlast
      exact .inl ⟨rfl, rfl⟩
    · rw [List.concat_eq_append, ← List.cons_append, ← List.append_assoc] at he
      obtain ⟨rfl, hlast⟩ := List.append_inj' he rfl
      cases hlast
      refine .inr ⟨_, ⟨before, gap, rfl, rfl⟩, ?_⟩
      rw [List.concat_eq_append, List.filterMap_append]
      cases h : e.token? <;> simp [h]
  · rintro (⟨rfl, rfl⟩ | ⟨_, ⟨before, gap, rfl, rfl⟩, rfl⟩)
    · exact ⟨es, [], rfl, rfl⟩
    · refine ⟨before, gap ++ [e], by simp, ?_⟩
      rw [List.filterMap_append]
      cases h : e.token? <;> simp [h]

theorem lawfulAfter_nil : LawfulAfter before [] := by
  intro mid e rest h
  cases mid <;> cases h

theorem lawfulAfter_cons : LawfulAfter before (e :: es) ↔
    e.Granted before ∧ LawfulAfter (before ++ [e]) es := by
  constructor
  · intro h
    refine ⟨by simpa using h [] e es rfl, ?_⟩
    rintro mid f rest rfl
    simpa using h (e :: mid) f rest rfl
  · rintro ⟨he, hes⟩ mid f rest h
    cases mid with
    | nil =>
      cases h
      simpa using he
    | cons g mid =>
      cases h
      simpa using hes mid f rest rfl

theorem finishedBefore_nil_concat : FinishedBefore [] (es ++ [e]) ↔
    e = .finish ∨ (e.token? = none ∧ FinishedBefore [] es) := by
  rw [finishedBefore_concat]
  constructor
  · rintro (⟨rfl, _⟩ | ⟨earlier, h, he⟩)
    · exact .inl rfl
    · obtain ⟨rfl, ht⟩ := List.append_eq_nil_iff.mp he.symm
      exact .inr ⟨Option.toList_eq_nil_iff.mp ht, h⟩
  · rintro (rfl | ⟨ht, h⟩)
    · exact .inl ⟨rfl, rfl⟩
    · exact .inr ⟨[], h, by rw [ht]; rfl⟩

theorem afterConditional_concat : AfterConditional (es ++ [e]) ↔
    e = .finish ∨ (e.token? = none ∧ AfterConditional es) ∨
      ∃ line, e.token? = some ⟨line, .newline⟩ ∧ FinishedBefore [] es := by
  have hone (line : Line) : FinishedBefore [⟨line, .newline⟩] (es ++ [e]) ↔
      (e.token? = none ∧ FinishedBefore [⟨line, .newline⟩] es) ∨
        (e.token? = some ⟨line, .newline⟩ ∧ FinishedBefore [] es) := by
    rw [finishedBefore_concat]
    cases ht : e.token? with
    | none => simp
    | some t =>
      have hf : e ≠ .finish := by
        rintro rfl
        cases ht
      constructor
      · rintro (⟨h, _⟩ | ⟨earlier, h, he⟩)
        · exact absurd h hf
        · rw [← List.nil_append [(⟨line, .newline⟩ : Token)]] at he
          obtain ⟨rfl, ht⟩ := List.append_inj' he rfl
          cases ht
          exact .inr ⟨rfl, h⟩
      · rintro (⟨h, _⟩ | ⟨h, hes⟩)
        · cases h
        · cases h
          exact .inr ⟨[], hes, rfl⟩
  simp only [AfterConditional, finishedBefore_nil_concat, hone]
  constructor
  · rintro ((h | h) | ⟨line, h | h⟩)
    · exact .inl h
    · exact .inr (.inl ⟨h.1, .inl h.2⟩)
    · exact .inr (.inl ⟨h.1, .inr ⟨line, h.2⟩⟩)
    · exact .inr (.inr ⟨line, h⟩)
  · rintro (h | ⟨ht, h | ⟨line, h⟩⟩ | ⟨line, h⟩)
    · exact .inl (.inl h)
    · exact .inl (.inr ⟨ht, h⟩)
    · exact .inr ⟨line, .inl ⟨ht, h⟩⟩
    · exact .inr ⟨line, .inr h⟩

theorem lawfulAfter_append {fs : List Event} : LawfulAfter before (es ++ fs) ↔
    LawfulAfter before es ∧ LawfulAfter (before ++ es) fs := by
  induction es generalizing before with
  | nil => simp [lawfulAfter_nil]
  | cons e es ih =>
    rw [List.cons_append, lawfulAfter_cons, lawfulAfter_cons, ih, and_assoc, List.append_assoc,
      List.singleton_append]

theorem not_afterConditional_nil : ¬ AfterConditional [] := by
  rintro (⟨_, _, h, _⟩ | ⟨_, _, _, h, _⟩) <;> simp at h

/-- Only a newline may be read between a conditional and an else. -/
theorem not_afterConditional_concat {t : Token} (ht : e.token? = some t) (hk : t.kind ≠ .newline) :
    ¬ AfterConditional (es ++ [e]) := by
  rw [afterConditional_concat, ht]
  rintro (rfl | ⟨h, _⟩ | ⟨line, h, _⟩)
  · cases ht
  · cases h
  · cases h
    exact hk rfl

theorem afterConditional_newline {line : Line} :
    AfterConditional (es ++ [.newline line]) ↔ FinishedBefore [] es := by
  rw [afterConditional_concat]
  constructor
  · rintro (h | ⟨h, _⟩ | ⟨_, _, h⟩)
    · cases h
    · cases h
    · exact h
  · exact fun h => .inr (.inr ⟨line, rfl, h⟩)

theorem afterConditional_quiet (ht : e.token? = none) (hf : e ≠ .finish) :
    AfterConditional (es ++ [e]) ↔ AfterConditional es := by
  simp [afterConditional_concat, ht, hf]

/-- At most one newline may be read between a conditional and an else. -/
theorem afterConditional_newlines {lines : List Line}
    (h : AfterConditional (es ++ lines.map .newline)) : lines.length ≤ 1 ∧ AfterConditional es := by
  rcases List.eq_nil_or_concat lines with rfl | ⟨lines, line, rfl⟩
  · simpa using h
  · rw [List.concat_eq_append, List.map_append, ← List.append_assoc] at h
    have h := afterConditional_newline.mp h
    rcases List.eq_nil_or_concat lines with rfl | ⟨lines, other, rfl⟩
    · rw [List.map_nil, List.append_nil] at h
      exact ⟨by simp, .inl h⟩
    · rw [List.concat_eq_append, List.map_append, ← List.append_assoc] at h
      rcases finishedBefore_nil_concat.mp h with h | ⟨h, _⟩ <;> cases h

theorem afterConditional_reads {ts : List Token}
    (h : AfterConditional (es ++ ts.map .read)) : AfterConditional es := by
  rcases List.eq_nil_or_concat ts with rfl | ⟨ts, t, rfl⟩
  · simpa using h
  · rw [List.concat_eq_append, List.map_append, ← List.append_assoc] at h
    rcases afterConditional_concat.mp h with h | ⟨h, _⟩ | ⟨_, _, h⟩
    · cases h
    · cases h
    · rcases List.eq_nil_or_concat ts with rfl | ⟨ts, u, rfl⟩
      · rw [List.map_nil, List.append_nil] at h
        exact .inl h
      · rw [List.concat_eq_append, List.map_append, ← List.append_assoc] at h
        rcases finishedBefore_nil_concat.mp h with h | ⟨h, _⟩ <;> cases h

/-- An element of two lists stands in the first or in the second. -/
theorem append_eq_append_cons {α : Type} {xs ys us vs : List α} {y : α}
    (h : xs ++ ys = us ++ y :: vs) : (∃ mid, xs = us ++ y :: mid ∧ vs = mid ++ ys) ∨
      ∃ mid, us = xs ++ mid ∧ ys = mid ++ y :: vs := by
  obtain ⟨mid, rfl, hmid⟩ | ⟨mid, rfl, hmid⟩ := List.append_eq_append_iff.mp h
  · exact .inr ⟨mid, rfl, hmid⟩
  · cases mid with
    | nil => exact .inr ⟨[], (List.append_nil _).symm.trans (List.append_nil _).symm, hmid.symm⟩
    | cons z mid =>
      obtain ⟨rfl, rfl⟩ := List.cons.inj hmid
      exact .inl ⟨mid, rfl, rfl⟩

/-- Behind a token that was not read since, what came before it does not matter. -/
theorem finishedBefore_append {t : Token} (ht : e.token? = some t) (hn : t ∉ since)
    (h : FinishedBefore since (before ++ e :: es)) : FinishedBefore since (e :: es) := by
  obtain ⟨earlier, gap, heq, rfl⟩ := h
  rcases append_eq_append_cons heq with ⟨mid, -, rfl⟩ | ⟨mid, -, hes⟩
  · exact absurd (List.mem_filterMap.mpr ⟨e, by simp, ht⟩) hn
  · exact ⟨mid, gap, hes, rfl⟩

theorem afterConditional_append {t : Token} (ht : e.token? = some t) (hk : t.kind ≠ .newline)
    (h : AfterConditional (before ++ e :: es)) : AfterConditional (e :: es) := by
  obtain h | ⟨line, h⟩ := h
  · exact .inl (finishedBefore_append ht List.not_mem_nil h)
  · refine .inr ⟨line, finishedBefore_append ht ?_ h⟩
    rintro hm
    cases List.mem_singleton.mp hm
    exact hk rfl

theorem openMixins_concat : openMixins (es ++ [e]) = match e with
    | .enterMixin => openMixins es + 1
    | .leaveMixin => openMixins es - 1
    | _ => openMixins es := by
  simp only [openMixins, List.foldl_append, List.foldl_cons, List.foldl_nil]

/-! What came earlier still permits what the past permits. -/

theorem FinishedBefore.behind (h : FinishedBefore since es) :
    FinishedBefore since (before ++ es) := by
  obtain ⟨earlier, gap, rfl, hgap⟩ := h
  exact ⟨before ++ earlier, gap, (List.append_assoc ..).symm, hgap⟩

theorem AfterConditional.behind (h : AfterConditional es) : AfterConditional (before ++ es) := by
  obtain h | ⟨line, h⟩ := h
  · exact .inl h.behind
  · exact .inr ⟨line, h.behind⟩

theorem openMixins_le : openMixins es ≤ openMixins (before ++ es) := by
  induction es using List.reverseRecOn with
  | nil => exact Nat.zero_le _
  | append_singleton es e ih =>
    rw [← List.append_assoc, openMixins_concat, openMixins_concat]
    cases e with
    | enterMixin => exact Nat.add_le_add_right ih 1
    | leaveMixin => exact Nat.sub_le_sub_right ih 1
    | _ => exact ih

theorem Event.Granted.behind (h : e.Granted es) : e.Granted (before ++ es) := by
  cases e with
  | code line c => exact fun he => (h he).imp_right AfterConditional.behind
  | mixinBlock line =>
    intro hzero
    have hle : openMixins es ≤ openMixins (before ++ es) := openMixins_le
    rw [hzero] at hle
    exact h (Nat.le_zero.mp hle)
  | _ => trivial

theorem LawfulAfter.behind {earlier : List Event} (h : LawfulAfter before es) :
    LawfulAfter (earlier ++ before) es := by
  intro mid e rest hes
  rw [List.append_assoc]
  exact (h mid e rest hes).behind

end

/-- What a parse carries along after the given events of a stream. -/
structure Traced (before : List Event) (s : State) : Prop where
  plain : s.Plain
  depth : s.mixinDepth = openMixins before
  /-- The link points to an else in front when a conditional stands before it. -/
  link : s.cursor.peek.isElse = true →
    (s.elseLink = some s.cursor.consumed ↔ AfterConditional before)
  /-- Behind a conditional the link may point over a newline. -/
  link_newline : s.cursor.peek.kind = .newline → (s.cursor.lookahead 2).isElse = true →
    (s.elseLink = some (s.cursor.consumed + 1) ↔ FinishedBefore [] before)
  near : s.LinkNear

namespace Traced

variable {before es : List Event} {e : Event} {s s' m : State}

theorem start (c : Cursor) (hd : c.deferred = []) : Traced [] (.start c) where
  plain := hd
  depth := rfl
  link _ := ⟨nofun, by rintro (⟨_, _, h, _⟩ | ⟨_, _, _, h, _⟩) <;> simp at h⟩
  link_newline _ _ := ⟨nofun, by rintro ⟨_, _, h, _⟩; simp at h⟩
  near := nofun

theorem read {t : Token} (h : Traced before s) (ht : e.token? = some t)
    (hh : s.cursor.tokens.head? = some t) : Traced (before ++ [e]) s.next := by
  obtain ⟨ts, hts⟩ := List.head?_eq_some_iff.mp hh
  have hpeek := State.peek_of_head? h.plain hh
  have hnext := State.next_eq h.plain hts
  have hfinish : e ≠ .finish := by
    rintro rfl
    cases ht
  have hahead := State.lookahead_two h.plain hh
  have hcons : s.next.cursor.consumed = s.cursor.consumed + 1 := by rw [hnext]
  have hlink : s.next.elseLink = s.elseLink := rfl
  constructor
  · exact State.plain_next h.plain hts
  · rw [openMixins_concat, ← h.depth]
    cases e <;> cases ht <;> rfl
  · intro he
    rw [afterConditional_concat, ht, hcons, hlink]
    by_cases hk : t.kind = .newline
    · obtain ⟨line, rfl⟩ := Token.eq_of_kind_eq (l := .newline) rfl hk
      rw [h.link_newline (by rw [hpeek]; rfl) (by rw [hahead]; exact he)]
      constructor
      · exact fun hf => .inr (.inr ⟨line, rfl, hf⟩)
      · rintro (hf | ⟨hn, _⟩ | ⟨_, _, hf⟩)
        · exact absurd hf hfinish
        · cases hn
        · exact hf
    · constructor
      · intro hl
        have := (h.near _ hl).2 rfl
        rw [hpeek] at this
        exact absurd this hk
      · rintro (hf | ⟨hn, _⟩ | ⟨_, hn, _⟩)
        · exact absurd hf hfinish
        · cases hn
        · cases hn
          exact absurd rfl hk
  · intro _ _
    rw [finishedBefore_nil_concat, ht, hcons, hlink]
    constructor
    · intro hl
      have := (h.near _ hl).1
      omega
    · rintro (hf | ⟨hn, _⟩)
      · exact absurd hf hfinish
      · cases hn
  · exact h.near.next h.plain hts

theorem quiet (h : Traced before s) (ht : e.token? = none) (hf : e ≠ .finish)
    (hs : e.Step s m) : Traced (before ++ [e]) m := by
  have hc := Event.cursor_of_step ht hs
  have hl : m.elseLink = s.elseLink := by
    cases e <;> cases ht <;> first | exact absurd rfl hf | (cases hs; rfl)
  constructor
  · exact Event.plain_of_step h.plain hs
  · rw [openMixins_concat, ← h.depth]
    cases e <;> cases ht <;> first | exact absurd rfl hf | (cases hs; rfl)
  · intro he
    rw [afterConditional_concat, hc, hl, h.link (by rw [← hc]; exact he)]
    simp [ht, hf]
  · intro hn he
    rw [finishedBefore_nil_concat, hc, hl,
      h.link_newline (by rw [← hc]; exact hn) (by rw [← hc]; exact he)]
    simp [ht, hf]
  · intro i
    rw [hl, hc]
    exact h.near i

theorem finish (h : Traced before s) (hs : Event.finish.Step s m) :
    Traced (before ++ [.finish]) m := by
  have hplain := Event.plain_of_step h.plain hs
  have hc := Event.cursor_of_step rfl hs
  have hm : m = _ := (show m = Linking.rememberElse s from hs).trans (State.rememberElse_eq h.plain)
  have hdepth : m.mixinDepth = openMixins (before ++ [.finish]) := by
    rw [openMixins_concat, ← h.depth, hm]
  have hafter : AfterConditional (before ++ [.finish]) := .inl ⟨before, [], rfl, rfl⟩
  have hbefore : FinishedBefore [] (before ++ [.finish]) := ⟨before, [], rfl, rfl⟩
  have hlink {i : Nat} (hi : elseAhead s.cursor.consumed s.cursor.tokens = some i) :
      m.elseLink = some i := by
    rw [hm, hi]
    rfl
  refine ⟨hplain, hdepth, ?_, ?_, hs ▸ h.near.rememberElse h.plain⟩ <;> rw [hc]
  · intro he
    refine ⟨fun _ => hafter, fun _ => hlink (elseAhead_eq_some.mpr (.inl ⟨rfl, ?_⟩))⟩
    rw [State.head?_of_isElse h.plain he]
    exact he
  · intro hn he
    refine ⟨fun _ => hbefore, fun _ => hlink (elseAhead_eq_some.mpr (.inr ⟨rfl, ?_⟩))⟩
    have hh := State.head?_of_peek h.plain fun h => by rw [h] at hn; cases hn
    obtain ⟨us, hus⟩ := List.head?_eq_some_iff.mp hh
    rw [State.lookahead_two h.plain hh] at he
    have hnext := State.head?_of_isElse (State.plain_next h.plain hus) he
    refine ⟨_, us, hus, hn, ?_⟩
    rw [State.next_eq h.plain hus] at hnext he
    rw [hnext]
    exact he

theorem step (h : Traced before s) (hs : e.Step s m) : Traced (before ++ [e]) m := by
  cases ht : e.token? with
  | some t =>
    obtain ⟨hh, rfl, _⟩ := (Event.step_of_token ht).mp hs
    exact h.read ht hh
  | none =>
    by_cases hf : e = .finish
    · subst hf
      exact h.finish hs
    · exact h.quiet ht hf hs

/-- What is carried along answers the questions about the past. -/
theorem allowed_iff {t : Token} (h : Traced before s) (ht : e.token? = some t)
    (hh : s.cursor.tokens.head? = some t) :
    e.Allowed (s.cursor.position 1) s.next ↔ e.Granted before := by
  cases e with
  | code line c =>
    cases ht
    obtain ⟨ts, hts⟩ := List.head?_eq_some_iff.mp hh
    have hpeek := State.peek_of_head? h.plain hh
    refine forall_congr' fun he => ?_
    have hlink := h.link (by rw [hpeek]; exact he)
    rw [← hlink, State.position_cons h.plain hts]
    simp only [Linking.slot, Option.isSome_some, Bool.true_and, Bool.or_eq_true, beq_iff_eq]
    exact or_congr_right eq_comm
  | mixinBlock line =>
    change s.mixinDepth ≠ 0 ↔ openMixins before ≠ 0
    rw [h.depth]
  | _ => exact Iff.rfl

theorem exists_step_iff (h : Traced before s) : (∃ m, e.Step s m) ↔
    (∀ t ∈ e.token?, s.cursor.tokens.head? = some t) ∧ e.Granted before := by
  cases ht : e.token? with
  | some t =>
    simp only [Event.step_of_token ht, Option.mem_def, Option.some.injEq, forall_eq']
    constructor
    · rintro ⟨_, hh, rfl, ha⟩
      exact ⟨hh, (h.allowed_iff ht hh).mp ha⟩
    · rintro ⟨hh, hg⟩
      exact ⟨_, hh, rfl, (h.allowed_iff ht hh).mpr hg⟩
  | none =>
    cases e <;> cases ht <;> exact ⟨fun _ => ⟨nofun, trivial⟩, fun _ => ⟨_, rfl⟩⟩

/-- Events can happen in a state when their tokens come next and the past permits them. -/
theorem exists_leads_iff (h : Traced before s) : (∃ s', Leads es s s') ↔
    es.filterMap Event.token? <+: s.cursor.tokens ∧ LawfulAfter before es := by
  induction es generalizing before s with
  | nil => exact ⟨fun _ => ⟨List.nil_prefix, lawfulAfter_nil⟩, fun _ => ⟨s, rfl⟩⟩
  | cons e es ih =>
    rw [lawfulAfter_cons]
    constructor
    · rintro ⟨s', hl⟩
      have htokens := hl.tokens_eq h.plain
      obtain ⟨m, he, hes⟩ := hl
      exact ⟨⟨_, htokens.symm⟩, (h.exists_step_iff.mp ⟨m, he⟩).2,
        ((ih (h.step he)).mp ⟨s', hes⟩).2⟩
    · rintro ⟨⟨rest, hrest⟩, hg, hlaw⟩
      have hhead : ∀ t ∈ e.token?, s.cursor.tokens.head? = some t := by
        rintro t ht
        rw [← hrest, List.filterMap_cons_some ht]
        rfl
      obtain ⟨m, he⟩ := h.exists_step_iff.mpr ⟨hhead, hg⟩
      have hm : m.cursor.tokens = es.filterMap Event.token? ++ rest := by
        have hone : Leads [e] s m := ⟨m, he, rfl⟩
        have htokens := hone.tokens_eq h.plain
        rw [← hrest, ← List.singleton_append, List.filterMap_append, List.append_assoc] at htokens
        exact (List.append_cancel_left htokens).symm
      obtain ⟨s', hes⟩ := (ih (h.step he)).mpr ⟨⟨rest, hm.symm⟩, hlaw⟩
      exact ⟨s', m, he, hes⟩

end Traced

end TemplateTree
