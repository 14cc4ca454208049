import TemplateTree.Proofs.Explicit
import TemplateTree.Proofs.Rebuilding

/-!
Shorthands that open a tag, in the stream. Whether the name in front of a shorthand is left out can
be told from the tokens right before it, and writing all such names out changes nothing. For the
way back, a phrase gives up any names that the shorthands behind them can stand for.
-/

namespace TemplateTree
set_option autoImplicit false

/-! Streams without some of their names. -/

/-- The first tokens are the second ones without some names that the shorthand behind each of them
can stand for. What comes behind both is given as well. -/
inductive Shortens (behind : List Token) : List Token → List Token → Prop where
  | nil : Shortens behind [] []
  | cons (t : Token) {us ws : List Token} : Shortens behind us ws →
    Shortens behind (t :: us) (t :: ws)
  | name {t : Token} {us ws : List Token} : t.isShorthand = true →
    (ws ++ behind).head? = some t → Shortens behind us ws → Shortens behind us (t.division :: ws)

namespace Shortens

variable {behind us ws vs : List Token}

theorem exists_of_append (h : Shortens behind us (ws ++ vs)) : ∃ us₁ us₂, us = us₁ ++ us₂ ∧
    Shortens (vs ++ behind) us₁ ws ∧ Shortens behind us₂ vs := by
  induction ws generalizing us with
  | nil => exact ⟨[], us, rfl, .nil, h⟩
  | cons w ws ih =>
    cases h with
    | cons _ h =>
      obtain ⟨us₁, us₂, rfl, h₁, h₂⟩ := ih h
      exact ⟨w :: us₁, us₂, rfl, .cons w h₁, h₂⟩
    | name ht hhead h =>
      obtain ⟨us₁, us₂, rfl, h₁, h₂⟩ := ih h
      have hhead : (ws ++ (vs ++ behind)).head? = some _ := List.append_assoc ws vs behind ▸ hhead
      exact ⟨us₁, us₂, rfl, .name ht hhead h₁, h₂⟩

theorem eq_of_isFixed (h : Shortens behind us ws) (hw : ws.all Token.isFixed = true) : us = ws := by
  induction h with
  | nil => rfl
  | cons t _ ih =>
    rw [List.all_cons, Bool.and_eq_true_iff] at hw
    rw [ih hw.2]
  | name => cases hw

end Shortens

namespace Phrase

variable {g : Symbol}

/-- A token at the beginning of a line is no head token. -/
theorem isHead_of_line {l : Phrase .line} {behind : List Token} {next : Lexeme} {t : Token}
    (hf : l.Fits (.following behind next)) (hhead : (l.tokens ++ behind).head? = some t) :
    t.isHead = false := by
  have hlead := isHead_lead_line hf
  rw [← following_append, Lexeme.following, hhead] at hlead
  exact hlead

/-- A shorthand at the beginning of a content is a part of its head. -/
theorem exists_heads_eq_of_head? {c : Phrase .content} {behind : List Token} {next : Lexeme}
    {t : Token} (hf : c.Fits (.following behind next)) (ht : t.isShorthand = true)
    (hhead : (c.tokens ++ behind).head? = some t) : ∃ more, c.heads = t :: more := by
  rw [tokens_content, List.append_assoc] at hhead
  cases hheads : c.heads with
  | cons u more =>
    rw [hheads] at hhead
    cases hhead
    exact ⟨more, rfl⟩
  | nil =>
    rw [hheads, List.nil_append] at hhead
    have hishead : t.isHead = true := by
      obtain ⟨line, lexeme⟩ := t
      cases lexeme <;> first | rfl | cases ht
    cases c with
    | dotted =>
      cases hhead
      cases ht
    | plain heads l newlines b =>
      have htokens : (plain heads l newlines b).ownTokens =
          l.tokens ++ ((newlines.map fun line => ⟨line, .newline⟩) ++ b.tokens) :=
        tokens_line l newlines b
      rw [htokens, List.append_assoc, List.append_assoc] at hhead
      obtain ⟨-, -, hl, -⟩ := hf
      rw [← following_append, ← following_newlines] at hl
      rw [isHead_of_line hl hhead] at hishead
      cases hishead

/-- The name of a tag is left out if its head begins with a shorthand on the same line. -/
theorem rebuilt_tag {c : Phrase .content} (hc : c.Rebuilt Shortens fun ⦃_⦄ => explicit)
    (line : Line) (name : String) (selfClosing : Bool) :
    (tag line name selfClosing c).Rebuilt Shortens fun ⦃_⦄ => explicit := by
  intro behind us next hf hs
  have htokens : (tag line name selfClosing c).tokens =
      ⟨line, .tag name selfClosing⟩ :: c.tokens := rfl
  rw [htokens] at hs
  cases hs with
  | cons _ hs =>
    obtain ⟨c', rfl, hc'⟩ := hc hf hs
    exact ⟨tag line name selfClosing c', rfl, congrArg (tag line name selfClosing) hc'⟩
  | @name t _ _ ht hhead hs =>
    obtain ⟨c', rfl, hc'⟩ := hc hf hs
    obtain ⟨more, hheads⟩ := exists_heads_eq_of_head? hf ht hhead
    have hheads' : c'.heads = t :: more := (heads_eq_of_explicit_eq hc').trans hheads
    have hname : (division c').explicit = tag t.line "div" false c'.explicit :=
      explicit_division hheads' ht
    exact ⟨division c', rfl, hname.trans (congrArg (tag t.line "div" false) hc')⟩

/-- Phrases keep their names written out when some are left out of their tokens. -/
theorem rebuilding_explicit : Rebuilding Shortens fun ⦃_⦄ => explicit where
  split h := h.exists_of_append
  keep h hw := h.eq_of_isFixed hw
  parts t := by
    cases t with
    | division c =>
      simp only [mapParts, explicit, startsDivision_explicit, startLine_explicit, explicit_explicit]
    | _ => simp only [mapParts, explicit, explicit_explicit]

/-- Without names that can be left out the phrase becomes another spelling of the same. -/
theorem exists_shortened {us : List Token} {t : Phrase g} {next : Lexeme} (hf : t.Fits next)
    (hs : Shortens [] us t.tokens) :
    ∃ t' : Phrase g, t'.tokens = us ∧ t'.explicit = t.explicit := by
  have hfits : t.Fits (.following [] next) := hf
  apply rebuilding_explicit.rebuilt _ _ _ t hfits hs
  · intro line name selfClosing c hc
    exact rebuilt_tag hc line name selfClosing
  · intro line behind us next _ hs
    have hs : Shortens behind us [⟨line, .mixinBlock⟩] := hs
    cases hs with
    | cons _ hs =>
      cases hs
      exact ⟨mixinBlock line, rfl, rfl⟩
  · intro line behind us next _ hs
    have hs : Shortens behind us [⟨line, .yield⟩] := hs
    cases hs with
    | cons _ hs =>
      cases hs
      exact ⟨yield line, rfl, rfl⟩

end Phrase

/-! Names in the stream. -/

namespace Template

/-- Whether a head goes on behind the given tokens, the latest of them first. Behind attributes it
does, unless they belong to a filter. -/
def continuesHead : List Token → Bool
  | [] => false
  | t :: before =>
    match t.kind with
    | .tag => true
    | .interpolation => true
    | .call => true
    | .idName => true
    | .className => true
    | .attributeBlock => true
    | .attrs => !before.head?.any fun u => u.kind == .filter
    | _ => false

/-- Tokens that come behind others, the latest of these first, with the name of every tag written
out. -/
def explicitBehind (before : List Token) : List Token → List Token
  | [] => []
  | t :: ts =>
    if t.isShorthand && !continuesHead before then
      t.division :: t :: explicitBehind (t :: before) ts
    else t :: explicitBehind (t :: before) ts

/-- The stream with the name of every tag written out. -/
def explicit (ts : List Token) : List Token := explicitBehind [] ts

variable {before ts : List Token}

/-- The end of a stream is where it was. -/
theorem takeWhile_explicitBehind (before ts : List Token) :
    (explicitBehind before ts).takeWhile (fun t => !t.isEos) =
      explicitBehind before (ts.takeWhile fun t => !t.isEos) := by
  induction ts generalizing before with
  | nil => rfl
  | cons t ts ih =>
    by_cases ht : t.isEos = true
    · have hs : t.isShorthand = false := by
        have hk : t.kind = .eos := beq_iff_eq.mp ht
        simp [Token.isShorthand, hk]
      simp [explicitBehind, hs, ht]
    · have hdivision : t.division.isEos = false := rfl
      rw [List.takeWhile_cons_of_pos (by simp [ht]), explicitBehind, explicitBehind, ← ih]
      split
      · simp [ht, hdivision]
      · simp [ht]

/-- Without the names that were written out the stream is what it was. -/
theorem shortens_explicitBehind (before ts : List Token) :
    Shortens [] ts (explicitBehind before ts) := by
  induction ts generalizing before with
  | nil => exact .nil
  | cons t ts ih =>
    rw [explicitBehind]
    split
    · next h =>
      have ht : t.isShorthand = true := (Bool.and_eq_true_iff.mp h).1
      exact .name ht rfl (.cons t (ih _))
    · exact .cons t (ih _)

/-- Where a head goes on, the tokens right before tell. -/
theorem continuesHead_after {p : Situation} (h : p.spot = .head → continuesHead before = true)
    (t : Token) (ht : (p.after t).spot = .head) : continuesHead (t :: before) = true := by
  obtain ⟨line, lexeme⟩ := t
  cases lexeme with
  | tag | interpolation | call | idName | className | attributeBlock => rfl
  | attrs =>
    have hbefore := h ht
    cases before with
    | nil => rfl
    | cons u before =>
      have hu : u.kind ≠ .filter := by
        intro hk
        simp [continuesHead, hk] at hbefore
      have hattrs : (u.kind == .filter) = false := beq_eq_false_iff_ne.mpr hu
      exact congrArg (!·) hattrs
  | newline =>
    rw [Situation.after_newline] at ht
    dsimp only at ht
    split at ht
    · next hs => rcases hs with hs | hs <;> cases hs.symm.trans ht
    · cases ht
  | dot =>
    rw [Situation.after_dot] at ht
    dsimp only at ht
    split at ht <;> cases ht
  | outdent =>
    rw [Situation.after_outdent] at ht
    dsimp only at ht
    split at ht <;> cases ht
  | endInterpolation =>
    obtain ⟨spot, frames⟩ := p
    match frames with
    | [] | .body _ :: _ | .interpolation _ :: _ => cases ht
  | _ => cases ht

theorem role_of_isShorthand {p : Situation} {t : Token} (ht : t.isShorthand = true)
    (hp : p.spot ≠ .head) (next : Lexeme) : p.role t next = .division := by
  obtain ⟨line, lexeme⟩ := t
  cases lexeme with
  | idName | className => exact if_neg hp
  | _ => cases ht

/-- Names are written out only where a shorthand opens a tag. -/
theorem shortens_placed {p : Situation} (h : p.spot = .head → continuesHead before = true)
    (ts : List Token) (next : Lexeme) : Shortens [] (explicitBehind before ts)
      ((p.placed ts next).flatMap Placed.writtenOut) := by
  induction ts generalizing before p with
  | nil => exact .nil
  | cons t ts ih =>
    have hmore := ih (continuesHead_after h t)
    rw [explicitBehind, Situation.placed, List.flatMap_cons]
    split
    · next hname =>
      obtain ⟨ht, hbefore⟩ := Bool.and_eq_true_iff.mp hname
      have hp : p.spot ≠ .head := fun hp => by simp [h hp] at hbefore
      rw [Placed.writtenOut, if_pos ⟨role_of_isShorthand ht hp _, ht⟩]
      exact .cons _ (.cons t hmore)
    · rw [Placed.writtenOut]
      split
      · next hname => exact .name hname.2 rfl (.cons t hmore)
      · exact .cons t hmore

variable {file : Option String} {p : Parsed}

theorem parse_shortened {t : Phrase .items} (hf : t.Fits .eos) (hlaw : Lawful t.trace)
    (hs : Shortens [] (ts.takeWhile fun u => !u.isEos) t.tokens) :
    parse file ts = .ok (parsed file t) := by
  obtain ⟨u, hu, he⟩ := Phrase.exists_shortened hf hs
  rw [parse_ok]
  refine ⟨u, ?_, hu, ?_, ?_⟩
  · exact (Phrase.fits_iff_of_explicit_eq he .eos).mpr hf
  · exact (Phrase.lawful_iff_of_explicit_eq he).mpr hlaw
  · exact Phrase.parsed_eq_of_explicit_eq he.symm file

/-- A tag that a shorthand opens is a division whose name is written out. -/
theorem parse_explicit (file : Option String) (ts : List Token) (p : Parsed) :
    parse file ts = .ok p ↔ parse file (explicit ts) = .ok p := by
  constructor
  · intro h
    obtain ⟨t, hf, htokens, hlaw, rfl⟩ := parse_ok.mp h
    have he := t.explicit_explicit
    have hplaced : t.explicit.tokens =
        (Situation.start.placed t.tokens .eos).flatMap Placed.writtenOut := by
      obtain ⟨q, hq, -⟩ := t.passes (p := .start) hf trivial
      have howned : t.explicit.tokens = t.placed.flatMap Placed.writtenOut := t.ownTokens_explicit
      rw [howned, ← hq.placed]
      rfl
    have hs : Shortens [] ((explicit ts).takeWhile fun u => !u.isEos) t.explicit.tokens := by
      rw [explicit, takeWhile_explicitBehind, ← htokens, hplaced]
      exact shortens_placed (fun h => by cases h) t.tokens .eos
    rw [← Phrase.parsed_eq_of_explicit_eq he file]
    apply parse_shortened _ _ hs
    · exact (Phrase.fits_iff_of_explicit_eq he .eos).mpr hf
    · exact (Phrase.lawful_iff_of_explicit_eq he).mpr hlaw
  · intro h
    obtain ⟨t, hf, htokens, hlaw, rfl⟩ := parse_ok.mp h
    apply parse_shortened hf hlaw
    rw [htokens, explicit, takeWhile_explicitBehind]
    exact shortens_explicitBehind [] _

/-- The attributes of a filter are no head, so the shorthand behind them opens a tag. -/
example : explicit [⟨1, .filter "f"⟩, ⟨1, .attrs [] false⟩, ⟨1, .className "a"⟩, ⟨1, .idName "b"⟩] =
    [⟨1, .filter "f"⟩, ⟨1, .attrs [] false⟩, .tag "div" 1, ⟨1, .className "a"⟩,
      ⟨1, .idName "b"⟩] := rfl

end Template

end TemplateTree
