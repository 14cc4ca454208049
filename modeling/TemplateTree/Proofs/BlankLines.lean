import TemplateTree.Proofs.Spacing

/-!
Blank lines. A newline makes a difference where it is a line break in pipeless text, where it is
the one that a run of HTML goes over, and where it keeps an else branch near its conditional.
Anywhere else another one behind it changes nothing.
-/

namespace TemplateTree
set_option autoImplicit false

/-- The first token that is no newline. -/
def Token.pastNewlines (ts : List Token) : Option Token :=
  ts.find? fun t => t.kind != .newline

open Token (pastNewlines)

namespace Surroundings

variable {c : Surroundings} {es : List Event}

theorem marks_foldl (c : Surroundings) (ts : List Token) :
    (ts.foldl after c).marks = ts.foldl Token.marks c.marks := by
  induction ts generalizing c with
  | nil => rfl
  | cons t ts ih => exact ih (c.after t)

theorem html_foldl (c : Surroundings) (ts : List Token) : (ts.foldl after c).html =
    ((pastNewlines ts.reverse).map fun t => t.kind == .textHtml).getD c.html := by
  induction ts using List.reverseRecOn with
  | nil => rfl
  | append_singleton ts t ih =>
    rw [List.foldl_concat, List.reverse_concat, pastNewlines, after]
    by_cases ht : t.kind = .newline
    · rw [if_pos ht, ih, List.find?_cons_of_neg (by simp [ht])]
      rfl
    · rw [if_neg ht, List.find?_cons_of_pos (by simp [ht])]
      rfl

/-- There is room behind tokens that leave no pipeless text open and do not end with a line of
HTML, up to newlines. -/
theorem roomy_behind {ts : List Token} (hes : es.filterMap Event.token? = ts)
    (hmarks : (ts.foldl Token.marks []).head? ≠ some .startPipeless)
    (hhtml : ∀ t ∈ pastNewlines ts.reverse, t.kind ≠ .textHtml) :
    (behind ⟨[], false⟩ es).Roomy := by
  subst hes
  constructor
  · rw [behind, marks_foldl]
    exact hmarks
  · rw [behind, html_foldl]
    cases hlast : pastNewlines (es.filterMap Event.token?).reverse with
    | none => rfl
    | some t => exact beq_eq_false_iff_ne.mpr (hhtml t hlast)

end Surroundings

/-! What the past permits behind another newline. -/

section

variable {es fs : List Event} {line : Line}

theorem openMixins_newline : openMixins (es ++ .newline line :: fs) = openMixins (es ++ fs) := by
  rw [openMixins, openMixins, List.foldl_append, List.foldl_append]
  rfl

/-- Whatever was read behind the newline parts it from an else, so it may be read twice. -/
theorem afterConditional_twice {mid : List Event}
    (hmid : ∃ e ∈ mid, ∃ t, e.token? = some t ∧ t.kind ≠ .newline)
    (h : AfterConditional (es ++ mid)) : AfterConditional (fs ++ mid) := by
  obtain ⟨e, he, t, ht, hk⟩ := hmid
  obtain ⟨left, right, rfl⟩ := List.append_of_mem he
  rw [← List.append_assoc] at h ⊢
  exact (afterConditional_append ht hk h).behind

/-- An else branch is either the first token past the newlines or parted from them by another. -/
theorem exists_token_of_isElse {mid rest : List Event} {c : CodeLine}
    (helse : ∀ t ∈ pastNewlines ((mid ++ .code line c :: rest).filterMap Event.token?),
      t.isElse = false) (hc : c.isElse = true) :
    ∃ e ∈ mid, ∃ t, e.token? = some t ∧ t.kind ≠ .newline := by
  by_contra hnone
  have hmid : pastNewlines (mid.filterMap Event.token?) = none := by
    rw [pastNewlines, List.find?_eq_none]
    intro t ht hk
    obtain ⟨e, he, het⟩ := List.mem_filterMap.mp ht
    exact hnone ⟨e, he, t, het, by simpa using hk⟩
  have hfirst : pastNewlines ((mid ++ .code line c :: rest).filterMap Event.token?) =
      some ⟨line, .code c⟩ := by
    rw [pastNewlines] at hmid
    rw [pastNewlines, List.filterMap_append, List.find?_append, hmid]
    rfl
  have hfalse : c.isElse = false := helse _ hfirst
  rw [hc] at hfalse
  cases hfalse

/-- In front of anything but an else another newline is permitted as well. -/
theorem lawful_twice (h : Lawful (es ++ .newline line :: fs))
    (helse : ∀ t ∈ pastNewlines (fs.filterMap Event.token?), t.isElse = false) :
    Lawful (es ++ .newline line :: .newline line :: fs) := by
  rw [Lawful, lawfulAfter_append, lawfulAfter_cons] at h
  obtain ⟨hes, -, hfs⟩ := h
  rw [Lawful, lawfulAfter_append, lawfulAfter_cons, lawfulAfter_cons]
  refine ⟨hes, trivial, trivial, ?_⟩
  intro mid e rest heq
  have hgranted := hfs mid e rest heq
  subst heq
  cases e with
  | code line' c =>
    intro hc
    have hmid := exists_token_of_isElse helse hc
    exact (hgranted hc).imp_right (afterConditional_twice hmid)
  | mixinBlock line' =>
    intro hzero
    apply hgranted
    simpa [openMixins_newline] using hzero
  | _ => trivial

end

namespace Template

variable {file : Option String} {before after : List Token} {line : Line} {p : Parsed}

/-- A newline of the stream is one of what happens while it is read. -/
theorem exists_trace_eq {es : List Event}
    (h : es.filterMap Event.token? = before ++ ⟨line, .newline⟩ :: after) :
    ∃ left right, es = left ++ .newline line :: right ∧ left.filterMap Event.token? = before ∧
      right.filterMap Event.token? = after := by
  obtain ⟨left, rest, rfl, hleft, hrest⟩ := List.filterMap_eq_append_iff.mp h
  obtain ⟨quiet, e, right, rfl, hquiet, he, hright⟩ := List.filterMap_eq_cons_iff.mp hrest
  have hevent : e = .newline line := by
    cases e <;> cases he
    rfl
  refine ⟨left ++ quiet, right, ?_, ?_, hright⟩
  · rw [hevent, List.append_assoc]
  · rw [List.filterMap_append, hleft, List.filterMap_eq_nil_iff.mpr hquiet, List.append_nil]

/-- The number of blank lines does not matter outside pipeless text, behind anything but a line of
HTML and in front of anything but an else. -/
theorem parse_blankLine (h : parse file (before ++ ⟨line, .newline⟩ :: after) = .ok p)
    (hend : ∀ t ∈ before, t.isEos = false)
    (hmarks : (before.foldl Token.marks []).head? ≠ some .startPipeless)
    (hhtml : ∀ t ∈ pastNewlines before.reverse, t.kind ≠ .textHtml)
    (helse : ∀ t ∈ pastNewlines after, t.isElse = false) :
    parse file (before ++ ⟨line, .newline⟩ :: ⟨line, .newline⟩ :: after) = .ok p := by
  obtain ⟨t, hf, htokens, hlaw, rfl⟩ := parse_ok.mp h
  have hproper : ∀ u ∈ before, (!u.isEos) = true := fun u hu => by rw [hend u hu]; rfl
  rw [List.takeWhile_append_of_pos hproper, List.takeWhile_cons_of_pos rfl] at htokens
  obtain ⟨es, fs, htrace, hes, hfs⟩ := exists_trace_eq htokens
  have hroom := Surroundings.roomy_behind hes hmarks hhtml
  obtain ⟨t', htrace', hf', hvalue⟩ := t.stretches ⟨file⟩ hf trivial htrace hroom
  rw [List.nil_append, List.append_nil] at htrace'
  apply parse_ok.mpr
  refine ⟨t', hf', ?_, ?_, ?_⟩
  · rw [List.takeWhile_append_of_pos hproper, List.takeWhile_cons_of_pos rfl,
      List.takeWhile_cons_of_pos rfl, Phrase.tokens, htrace', List.filterMap_append, hes, ← hfs]
    rfl
  · rw [htrace']
    rw [htrace] at hlaw
    apply lawful_twice hlaw
    intro u hu
    rw [hfs] at hu
    exact helse u ((List.takeWhile_prefix _).find?_eq_some hu)
  · rw [parsed, parsed, hvalue, htrace, htrace']
    simp [Event.noted, Event.newline]

/-- Behind a tag in an interpolation, although the text around it is pipeless. -/
theorem parse_blankLine_interpolated :
    let before : List Token := [⟨1, .tag "p" false⟩, ⟨1, .dot⟩, ⟨1, .startPipeless⟩,
      ⟨2, .text "a"⟩, ⟨2, .startInterpolation⟩, ⟨2, .tag "b" false⟩]
    let after : List Token := [⟨3, .endInterpolation⟩, ⟨3, .newline⟩, ⟨4, .endPipeless⟩]
    (∃ p, parse none (before ++ ⟨2, .newline⟩ :: after) = .ok p ∧
      parse none (before ++ ⟨2, .newline⟩ :: ⟨2, .newline⟩ :: after) = .ok p) ∧
    (before.foldl Token.marks []).head? ≠ some .startPipeless := by
  intro before after
  have hmarks : (before.foldl Token.marks []).head? ≠ some .startPipeless := by decide
  have hok : (parse none (before ++ ⟨2, .newline⟩ :: after)).toOption.map (fun _ => true) =
    some true := by decide +kernel
  obtain ⟨p, hp, -⟩ := exists_parsed hok
  exact ⟨⟨p, hp, parse_blankLine hp (by decide) hmarks (by decide) (by decide)⟩, hmarks⟩

end Template

end TemplateTree
