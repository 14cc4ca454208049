import TemplateTree.Proofs.Acceptance
import TemplateTree.Proofs.Roles

/-!
Tags that a shorthand opens, with their name written out. A phrase in which every tag is named
stands for the same as before, fits in front of the same and is permitted by the same past. Two
phrases that become the same one in this way are therefore two spellings of one template.
-/

namespace TemplateTree
set_option autoImplicit false

namespace Token

/-- A token that can open a tag by itself. -/
def isShorthand (t : Token) : Bool := t.kind == .idName || t.kind == .className

/-- The name that a shorthand can stand for. -/
def division (t : Token) : Token := .tag "div" t.line

variable {t : Token}

theorem isShorthand_iff : t.isShorthand = true ↔ t.kind = .idName ∨ t.kind = .className := by
  simp [isShorthand]

theorem kind_ne_of_isShorthand {k : TokenKind} (h : t.isShorthand = true)
    (hk : k ≠ .idName ∧ k ≠ .className) : t.kind ≠ k := by
  rintro rfl
  rcases isShorthand_iff.mp h with h | h
  · exact hk.1 h
  · exact hk.2 h

end Token

/-- The lexemes that open a tag, by its name or by a shorthand. -/
def Lexeme.opensTag : Lexeme → Bool
  | tag .. => true
  | idName _ => true
  | className _ => true
  | _ => false

theorem Token.opensTag_of_isShorthand {t : Token} (h : t.isShorthand = true) :
    t.lexeme.opensTag = true := by
  obtain ⟨line, lexeme⟩ := t
  cases lexeme <;> first | rfl | cases h

/-- The same lexeme, or two that open a tag. -/
def Lexeme.OpensLike (a b : Lexeme) : Prop := a = b ∨ a.opensTag = true ∧ b.opensTag = true

namespace Lexeme.OpensLike

variable {a b : Lexeme}

/-- What holds of no lexeme that opens a tag holds of both or of none. -/
theorem iff (h : a.OpensLike b) {P : Lexeme → Prop} (hP : ∀ c : Lexeme, c.opensTag = true → ¬ P c) :
    P a ↔ P b := by
  rcases h with rfl | ⟨ha, hb⟩
  · exact Iff.rfl
  · exact iff_of_false (hP a ha) (hP b hb)

theorem kind_eq (h : a.OpensLike b) {k : TokenKind}
    (hk : k ≠ .tag ∧ k ≠ .idName ∧ k ≠ .className) : a.kind = k ↔ b.kind = k := by
  apply h.iff (P := fun c => c.kind = k)
  rintro c hc rfl
  cases c <;> cases hc <;> simp [Lexeme.kind] at hk

theorem takes_eq (h : a.OpensLike b) (p : TextPlace) : p.takes a.kind = p.takes b.kind := by
  apply Bool.eq_iff_iff.mpr
  apply h.iff (P := fun c => p.takes c.kind = true)
  intro c hc ht
  cases c <;> cases hc <;> cases ht

theorem endsLine_eq (h : a.OpensLike b) : a.kind.endsLine = b.kind.endsLine := by
  apply Bool.eq_iff_iff.mpr
  apply h.iff (P := fun c => c.kind.endsLine = true)
  intro c hc he
  cases c <;> cases hc <;> cases he

theorem isAlternative_eq (h : a.OpensLike b) :
    Grammar.isAlternative a = Grammar.isAlternative b := by
  apply Bool.eq_iff_iff.mpr
  apply h.iff (P := fun c => Grammar.isAlternative c = true)
  intro c hc ha
  cases c <;> cases hc <;> cases ha

end Lexeme.OpensLike

namespace Phrase

/-- A content that can be without a name in front of it. -/
def startsDivision (c : Phrase .content) : Bool := c.heads.head?.any Token.isShorthand

/-- The phrase with the name of every tag written out. -/
@[simp] def explicit : {g : Symbol} → Phrase g → Phrase g
  | _, done => done
  | _, newline line more => newline line more.explicit
  | _, html line content nested lines more =>
    html line content nested.explicit lines.explicit more.explicit
  | _, item e more => item e.explicit more.explicit
  | _, body opening width items closing => body opening width items.explicit closing
  | _, noBody => noBody
  | _, someBody b => someBody b.explicit
  | _, textEnd => textEnd
  | _, textPiece line content more => textPiece line content more.explicit
  | _, textBreak line more => textBreak line more.explicit
  | _, textInterpolation opening e closing more =>
    textInterpolation opening e.explicit closing more.explicit
  | _, noPipeless => noPipeless
  | _, somePipeless opening pieces closing => somePipeless opening pieces.explicit closing
  | _, htmlEnd => htmlEnd
  | _, htmlLine line content nested lines => htmlLine line content nested.explicit lines.explicit
  | _, nestedNone => nestedNone
  | _, nestedBody b => nestedBody b.explicit
  | _, nestedNewline line => nestedNewline line
  | _, code line c b => code line c b.explicit
  | _, lineEnd => lineEnd
  | _, lineText pieces => lineText pieces.explicit
  | _, lineCode c => lineCode c.explicit
  | _, lineColon colon e => lineColon colon e.explicit
  | _, plain heads l newlines b => plain heads l.explicit newlines b.explicit
  | _, dotted heads dotLine l newlines b => dotted heads dotLine l.explicit newlines b.explicit
  | _, noBranches => noBranches
  | _, branchNewline line more => branchNewline line more.explicit
  | _, branch line source x more => branch line source x.explicit more.explicit
  | _, fallThrough => fallThrough
  | _, expansionColon colon e => expansionColon colon e.explicit
  | _, expansionBody b => expansionBody b.explicit
  | _, noAlternative => noAlternative
  | _, someAlternative line c b => someAlternative line c b.explicit
  | _, tag line name selfClosing c => tag line name selfClosing c.explicit
  | _, buffered line source c => buffered line source c.explicit
  | _, division c =>
    if c.startsDivision then tag c.startLine "div" false c.explicit else division c.explicit
  | _, call line name args c => call line name args c.explicit
  | _, definition line name args b => definition line name args b.explicit
  | _, oldCall line name args => oldCall line name args
  | _, mixinBlock line => mixinBlock line
  | _, namedBlock line name mode b => namedBlock line name mode b.explicit
  | _, inclusion line path via attrs b => inclusion line path via attrs b.explicit
  | _, statement c => statement c.explicit
  | _, each line head b a => each line head b.explicit a.explicit
  | _, case line source opening width bs closing =>
    case line source opening width bs.explicit closing
  | _, inherit line path => inherit line path
  | _, doctype line name => doctype line name
  | _, yield line => yield line
  | _, filter line name group b => filter line name group b.explicit
  | _, comment line content isBuffered b => comment line content isBuffered b.explicit
  | _, dot line b => dot line b.explicit
  | _, textLines pieces => textLines pieces.explicit
  | _, rawHtml line content nested lines => rawHtml line content nested.explicit lines.explicit

variable {g : Symbol}

@[simp] theorem heads_explicit (c : Phrase .content) : c.explicit.heads = c.heads := by
  cases c <;> rfl

@[simp] theorem startsDivision_explicit (c : Phrase .content) :
    c.explicit.startsDivision = c.startsDivision := by
  rw [startsDivision, startsDivision, heads_explicit]

theorem startsDivision_iff {c : Phrase .content} :
    c.startsDivision = true ↔ ∃ t ∈ c.heads.head?, t.isShorthand = true := by
  rw [startsDivision, Option.any_eq_true]
  rfl

theorem exists_heads_eq {c : Phrase .content} (h : c.startsDivision = true) :
    ∃ t more, c.heads = t :: more ∧ t.isShorthand = true := by
  obtain ⟨t, ht, hs⟩ := startsDivision_iff.mp h
  obtain ⟨more, hheads⟩ := List.head?_eq_some_iff.mp ht
  exact ⟨t, more, hheads, hs⟩

theorem explicit_division {c : Phrase .content} {t : Token} {more : List Token}
    (h : c.heads = t :: more) (ht : t.isShorthand = true) :
    (division c).explicit = tag t.line "div" false c.explicit := by
  have hc : c.startsDivision = true := startsDivision_iff.mpr ⟨t, by rw [h]; rfl, ht⟩
  rw [explicit, if_pos hc, startLine_of_heads h]

theorem explicit_explicit (t : Phrase g) : t.explicit.explicit = t.explicit := by
  induction t with
  | division c ih =>
    rw [explicit]
    split
    · rw [explicit, ih]
    · next hc => rw [explicit, startsDivision_explicit, if_neg hc, ih]
  | _ => simp only [explicit, *]

end Phrase

/-! What happens while a phrase is read. -/

/-- The same events with names written out in front of some shorthands. -/
inductive WrittenOut : List Event → List Event → Prop where
  | nil : WrittenOut [] []
  | cons (e : Event) {es es' : List Event} : WrittenOut es es' → WrittenOut (e :: es) (e :: es')
  | name {t : Token} {es es' : List Event} : t.isShorthand = true → WrittenOut es es' →
    WrittenOut (.read t :: es) (.read t.division :: .read t :: es')

namespace WrittenOut

variable {es es' fs fs' : List Event}

theorem refl (es : List Event) : WrittenOut es es := by
  induction es with
  | nil => exact .nil
  | cons e es ih => exact .cons e ih

theorem append (h : WrittenOut es es') (hf : WrittenOut fs fs') :
    WrittenOut (es ++ fs) (es' ++ fs') := by
  induction h with
  | nil => exact hf
  | cons e _ ih => exact .cons e ih
  | name ht _ ih => exact .name ht ih

theorem behind (h : WrittenOut es es') (before : List Event) :
    WrittenOut (before ++ es) (before ++ es') :=
  (refl before).append h

/-- The name of the first token can be written out as well. -/
theorem name_first {t u : Token} (ht : t.isShorthand = true) (hu : u.isShorthand = true)
    (h : WrittenOut (.read t :: es) (.read u :: es')) :
    WrittenOut (.read t :: es) (.read t.division :: .read u :: es') := by
  cases h with
  | cons _ h => exact .name ht h
  | name _ _ => cases hu

/-- The first tokens stand on one line and open alike. -/
theorem head?_tokens (h : WrittenOut es es') :
    Option.Rel (fun t u => t.line = u.line ∧ t.lexeme.OpensLike u.lexeme)
      (es'.filterMap Event.token?).head? (es.filterMap Event.token?).head? := by
  induction h with
  | nil => exact .none
  | cons e _ ih =>
    rw [List.filterMap_cons, List.filterMap_cons]
    cases e.token? with
    | none => exact ih
    | some t => exact .some ⟨rfl, .inl rfl⟩
  | name ht _ _ => exact .some ⟨rfl, .inr ⟨rfl, Token.opensTag_of_isShorthand ht⟩⟩

theorem noted_eq (h : WrittenOut es es') : es'.flatMap Event.noted = es.flatMap Event.noted := by
  induction h with
  | nil => rfl
  | cons e _ ih => rw [List.flatMap_cons, List.flatMap_cons, ih]
  | name _ _ ih => exact ih

end WrittenOut

namespace Phrase

variable {g : Symbol}

/-- When names are written out they are read, and everything else happens as before. -/
theorem writtenOut (t : Phrase g) : WrittenOut t.trace t.explicit.trace := by
  induction t with
  | division c ih =>
    rw [explicit]
    split
    · next hc =>
      obtain ⟨t, more, hheads, ht⟩ := exists_heads_eq hc
      rw [trace_content, trace_content, heads_explicit, hheads] at ih
      rw [trace, trace, startLine_of_heads hheads, trace_content, trace_content, heads_explicit,
        hheads]
      exact ih.name_first ht ht
    · exact ih
  | newline _ _ ih | textPiece _ _ _ ih | textBreak _ _ ih | lineColon _ _ ih
    | branchNewline _ _ ih | expansionColon _ _ ih | someAlternative _ _ _ ih | tag _ _ _ _ ih
    | buffered _ _ _ ih | call _ _ _ _ ih | namedBlock _ _ _ _ ih | inclusion _ _ _ _ _ ih
    | comment _ _ _ _ ih | dot _ _ ih => exact .cons _ ih
  | someBody _ ih | nestedBody _ ih | lineText _ ih | lineCode _ ih | expansionBody _ ih
    | statement _ ih | textLines _ ih => exact ih
  | item e more ihe ih => exact ihe.append ih
  | html line content nested lines more ihn ihl ih =>
    exact .cons _ ((ihn.append ihl).append ih)
  | htmlLine line content nested lines ihn ih | rawHtml line content nested lines ihn ih =>
    exact .cons _ (ihn.append ih)
  | body opening width items closing ih | somePipeless opening items closing ih =>
    exact .cons _ (ih.append (.refl _))
  | textInterpolation opening e closing more ihe ih =>
    exact .cons _ (ihe.append (.cons _ ih))
  | code line c b ih => exact .cons _ (ih.append (.refl _))
  | plain heads l newlines b ihl ihb =>
    have hline : WrittenOut (.notices (Head.notices false heads) :: l.trace) _ := .cons _ ihl
    exact ((hline.behind _).append (.refl _)).append ihb
  | dotted heads dotLine l newlines b ihl ihb =>
    have hline : WrittenOut (.notices (Head.notices false heads) :: .read ⟨dotLine, .dot⟩ ::
        l.trace) _ := .cons _ (.cons _ ihl)
    exact ((hline.behind _).append (.refl _)).append ihb
  | branch line source x more ihx ih => exact .cons _ (ihx.append ih)
  | definition line name args b ih => exact .cons _ (.cons _ (ih.append (.refl _)))
  | each line head b a ihb iha => exact .cons _ (ihb.append iha)
  | case line source opening width bs closing ih =>
    exact .cons _ (.cons _ (ih.append (.refl _)))
  | filter line name group b ih => exact .cons _ (ih.behind _)
  | _ => exact .refl _

theorem head?_tokens_explicit (t : Phrase g) :
    Option.Rel (fun u v => u.line = v.line ∧ u.lexeme.OpensLike v.lexeme) t.explicit.tokens.head?
      t.tokens.head? :=
  t.writtenOut.head?_tokens

theorem startLine_explicit (t : Phrase g) : t.explicit.startLine = t.startLine := by
  have hrel := t.head?_tokens_explicit
  rw [startLine, startLine]
  generalize t.explicit.tokens.head? = x, t.tokens.head? = y at hrel ⊢
  cases hrel with
  | none => rfl
  | some h => exact h.1

theorem lead_explicit {a b : Lexeme} (h : a.OpensLike b) (t : Phrase g) :
    (t.explicit.lead a).OpensLike (t.lead b) := by
  have hrel := t.head?_tokens_explicit
  rw [lead, lead]
  generalize t.explicit.tokens.head? = x, t.tokens.head? = y at hrel ⊢
  cases hrel with
  | none => exact h
  | some h => exact h.2

/-! What phrases stand for. -/

theorem opensWithText_explicit {p : TextPlace} (t : Phrase (.text p)) :
    t.explicit.opensWithText = t.opensWithText := by
  cases t <;> rfl

theorem value_explicit (scope : Scope) (t : Phrase g) :
    t.explicit.value scope = t.value scope := by
  induction t with
  | division c ih =>
    rw [explicit]
    split
    · simp only [value, ih]
    · simp only [value, ih, startLine_explicit]
  | _ => simp only [explicit, value, *, startLine_explicit, opensWithText_explicit]

theorem fits_division_iff {c : Phrase .content} {next : Lexeme} :
    (division c).Fits next ↔ c.startsDivision = true ∧ c.Fits next := by
  rw [startsDivision_iff]
  simp only [Token.isShorthand_iff]
  rfl

/-- Names decide nothing about what may be read. -/
theorem fits_explicit (t : Phrase g) {a b : Lexeme} (h : a.OpensLike b) :
    t.explicit.Fits a ↔ t.Fits b := by
  induction t generalizing a b with
  | done | nestedNewline | noBranches | mixinBlock | inherit | doctype | yield => exact Iff.rfl
  | newline _ _ ih | someBody _ ih | textPiece _ _ _ ih | nestedBody _ ih | code _ _ _ ih
    | lineCode _ ih | lineColon _ _ ih | branchNewline _ _ ih | expansionColon _ _ ih
    | expansionBody _ ih | tag _ _ _ _ ih | buffered _ _ _ ih | call _ _ _ _ ih
    | definition _ _ _ _ ih | namedBlock _ _ _ _ ih | inclusion _ _ _ _ _ ih | statement _ ih
    | comment _ _ _ _ ih | dot _ _ ih => exact ih h
  | body _ _ _ _ ih | somePipeless _ _ _ ih | case _ _ _ _ _ _ ih => exact ih (.inl rfl)
  | html line content nested lines more ihn ihl ih =>
    have hmore := lead_explicit h more
    exact and_congr (ihn (lead_explicit hmore lines)) (and_congr (ihl hmore) (ih h))
  | item e more ihe ih =>
    have hmore := lead_explicit h more
    have hk := (lead_explicit hmore e).kind_eq (k := .textHtml) (by decide)
    exact and_congr (not_congr hk) (and_congr (ihe hmore) (ih h))
  | noBody | noPipeless | htmlEnd | oldCall => exact not_congr (h.kind_eq (by decide))
  | nestedNone | fallThrough =>
    exact and_congr (not_congr (h.kind_eq (by decide))) (not_congr (h.kind_eq (by decide)))
  | textEnd => exact Eq.congr_left (h.takes_eq _)
  | lineEnd => exact Eq.congr_left h.endsLine_eq
  | noAlternative => exact Eq.congr_left h.isAlternative_eq
  | textBreak _ _ ih | someAlternative _ _ _ ih => exact and_congr_right' (ih h)
  | division c ih =>
    rw [fits_division_iff, explicit]
    split
    · next hc => exact (ih h).trans (and_iff_right hc).symm
    · next hc => rw [fits_division_iff, startsDivision_explicit, ih h]
  | textInterpolation _ _ _ _ ihe ih => exact and_congr (ihe (.inl rfl)) (ih h)
  | htmlLine _ _ nested lines ihn ih | rawHtml _ _ nested lines ihn ih =>
    exact and_congr (ihn (lead_explicit h lines)) (ih h)
  | lineText pieces ih | textLines pieces ih =>
    exact and_congr (Eq.congr_left ((lead_explicit h pieces).takes_eq .inLine)) (ih h)
  | plain heads l newlines body ihl ihb | dotted heads dotLine l newlines body ihl ihb =>
    have hbody := lead_explicit h body
    have hl : l.explicit.Fits (if newlines = [] then body.explicit.lead a else .newline) ↔
        l.Fits (if newlines = [] then body.lead b else .newline) := by
      split
      · exact ihl hbody
      · exact ihl (.inl rfl)
    have hk := hbody.kind_eq (k := .newline) (by decide)
    exact and_congr_right' (and_congr_right' (and_congr hl (and_congr (not_congr hk) (ihb h))))
  | branch _ _ x more ihx ih => exact and_congr (ihx (lead_explicit h more)) (ih h)
  | each _ _ body alternative ihb iha =>
    exact and_congr (ihb (lead_explicit h alternative)) (iha h)
  | filter _ _ group body ih =>
    have hk := (lead_explicit h body).kind_eq (k := .attrs) (by decide)
    exact and_congr (imp_congr_right fun _ => not_congr hk) (ih h)

end Phrase

/-! What the past permits. -/

/-- Two pasts that permit the same. -/
structure SamePast (before before' : List Event) : Prop where
  finished : FinishedBefore [] before' ↔ FinishedBefore [] before
  conditional : AfterConditional before' ↔ AfterConditional before
  mixins : openMixins before' = openMixins before

namespace SamePast

variable {before before' es es' : List Event}

theorem refl (before : List Event) : SamePast before before := ⟨Iff.rfl, Iff.rfl, rfl⟩

theorem granted_iff (h : SamePast before before') (e : Event) :
    e.Granted before' ↔ e.Granted before := by
  cases e with
  | code line c => exact imp_congr_right fun _ => or_congr_right h.conditional
  | mixinBlock line => exact not_congr (Eq.congr_left h.mixins)
  | _ => exact Iff.rfl

theorem concat (h : SamePast before before') (e : Event) :
    SamePast (before ++ [e]) (before' ++ [e]) where
  finished := by rw [finishedBefore_nil_concat, finishedBefore_nil_concat, h.finished]
  conditional := by
    rw [afterConditional_concat, afterConditional_concat, h.conditional, h.finished]
  mixins := by rw [openMixins_concat, openMixins_concat, h.mixins]

/-- Behind any other token than a newline no conditional is remembered. -/
theorem read {t : Token} (hm : openMixins before' = openMixins before) (ht : t.kind ≠ .newline) :
    SamePast (before ++ [.read t]) (before' ++ [.read t]) where
  finished := by simp [finishedBefore_nil_concat]
  conditional := by
    apply iff_of_false
    · exact not_afterConditional_concat rfl ht
    · exact not_afterConditional_concat rfl ht
  mixins := by
    rw [openMixins_concat, openMixins_concat]
    exact hm

end SamePast

/-- Names are permitted by every past and take nothing away from what comes behind them. -/
theorem WrittenOut.lawfulAfter_iff {es es' before before' : List Event} (h : WrittenOut es es')
    (hb : SamePast before before') : LawfulAfter before' es' ↔ LawfulAfter before es := by
  induction h generalizing before before' with
  | nil => exact iff_of_true lawfulAfter_nil lawfulAfter_nil
  | cons e _ ih => rw [lawfulAfter_cons, lawfulAfter_cons, hb.granted_iff, ih (hb.concat e)]
  | @name t _ _ ht _ ih =>
    have hname : openMixins (before' ++ [.read t.division]) = openMixins before := by
      rw [openMixins_concat]
      exact hb.mixins
    have hpast := SamePast.read hname (Token.kind_ne_of_isShorthand ht (by decide))
    rw [lawfulAfter_cons, lawfulAfter_cons, lawfulAfter_cons, ih hpast]
    exact and_iff_right trivial

/-! The tokens of a phrase with its names written out. -/

/-- A token with the name that it stands for in its role. -/
def Placed.writtenOut (p : Placed) : List Token :=
  if p.role = .division ∧ p.token.isShorthand = true then [p.token.division, p.token] else [p.token]

namespace Phrase

variable {g : Symbol}

@[simp] theorem writtenOut_plain (t : Token) : t.plain.writtenOut = [t] := rfl

@[simp] theorem flatMap_writtenOut_plain (ts : List Token) :
    (ts.map Token.plain).flatMap Placed.writtenOut = ts := by
  induction ts with
  | nil => rfl
  | cons t ts ih => exact congrArg (t :: ·) ih

@[simp] theorem flatMap_writtenOut_newlines (lines : List Line) :
    (lines.map fun line => Token.plain ⟨line, .newline⟩).flatMap Placed.writtenOut =
      lines.map fun line => ⟨line, .newline⟩ := by
  induction lines with
  | nil => rfl
  | cons line lines ih => exact congrArg (_ :: ·) ih

theorem writtenOut_division (c : Phrase .content) :
    ((c.heads.take 1).map (fun t => (⟨t, .division⟩ : Placed)) ++
      c.heads.tail.map Token.plain).flatMap Placed.writtenOut =
      (if c.startsDivision then [.tag "div" c.startLine] else []) ++ c.heads := by
  rw [startsDivision]
  cases hheads : c.heads with
  | nil => rfl
  | cons t more =>
    have hline := startLine_of_heads hheads
    cases ht : t.isShorthand with
    | true => simp [Placed.writtenOut, ht, Token.division, hline]
    | false => simp [Placed.writtenOut, ht]

theorem writtenOut_named (t : Token) {c : Phrase .content}
    (hc : c.explicit.ownTokens = c.placed.flatMap Placed.writtenOut) :
    t :: c.explicit.tokens =
      (t.plain :: c.heads.map Token.plain ++ c.placed).flatMap Placed.writtenOut := by
  rw [tokens_content, heads_explicit, hc, List.flatMap_append, List.flatMap_cons,
    flatMap_writtenOut_plain]
  rfl

/-- The tokens that have a name written out in front of them are those in the role of a division. -/
theorem ownTokens_explicit (t : Phrase g) :
    t.explicit.ownTokens = t.placed.flatMap Placed.writtenOut := by
  induction t with
  | division c ih =>
    rw [placed, List.flatMap_append, writtenOut_division, ← ih, explicit]
    split
    · next hc =>
      have htokens : (tag c.startLine "div" false c.explicit).ownTokens =
          .tag "div" c.startLine :: c.explicit.tokens := rfl
      rw [htokens, tokens_content, heads_explicit, List.append_assoc]
      rfl
    · next hc =>
      have htokens : (division c.explicit).ownTokens = c.explicit.tokens := rfl
      rw [htokens, tokens_content, heads_explicit]
      rfl
  | tag _ _ _ _ ih | buffered _ _ _ ih | call _ _ _ _ ih => exact writtenOut_named _ ih
  | plain heads l newlines b ihl ihb =>
    rw [placed, List.append_assoc, List.flatMap_append, List.flatMap_append,
      flatMap_writtenOut_newlines, ← ihl, ← ihb]
    exact tokens_line l.explicit newlines b.explicit
  | dotted heads dotLine l newlines b ihl ihb =>
    rw [placed, List.append_assoc, List.flatMap_append, List.flatMap_append, List.flatMap_cons,
      flatMap_writtenOut_newlines, ← ihl, ← ihb]
    exact congrArg (_ :: ·) (tokens_line l.explicit newlines b.explicit)
  | filter line name group b ih =>
    cases group <;> simp_all [ownTokens, tokens]
  | code line c b ih =>
    cases hc : c.isIf <;>
      simp_all [ownTokens, tokens, List.filterMap_cons]
  | definition line name args b ih =>
    simp_all [ownTokens, tokens, List.filterMap_cons]
  | textBreak line more ih | someAlternative line c b ih =>
    have hown (r : Role) {l : Lexeme} (hl : l.isHead = false) :
        (⟨⟨line, l⟩, r⟩ : Placed).writtenOut = [⟨line, l⟩] := by
      apply if_neg
      rintro ⟨-, h⟩
      cases l <;> cases hl <;> cases h
    simp_all [ownTokens, tokens, Event.newline, Lexeme.isHead]
  | _ => simp_all [ownTokens, tokens, Event.newline]

/-! Spellings of one template. -/

variable {t u : Phrase g}

theorem heads_eq_of_explicit_eq {c d : Phrase .content} (h : c.explicit = d.explicit) :
    c.heads = d.heads := by
  rw [← c.heads_explicit, h, d.heads_explicit]

theorem fits_iff_of_explicit_eq (h : t.explicit = u.explicit) (next : Lexeme) :
    t.Fits next ↔ u.Fits next := by
  rw [← t.fits_explicit (.inl rfl), h, u.fits_explicit (.inl rfl)]

theorem lawful_iff_of_explicit_eq (h : t.explicit = u.explicit) :
    Lawful t.trace ↔ Lawful u.trace := by
  rw [Lawful, ← t.writtenOut.lawfulAfter_iff (.refl []), h, u.writtenOut.lawfulAfter_iff (.refl [])]
  rfl

theorem parsed_eq_of_explicit_eq {t u : Phrase .items} (h : t.explicit = u.explicit)
    (file : Option String) : Template.parsed file t = Template.parsed file u := by
  rw [Template.parsed, Template.parsed, ← t.value_explicit, h, u.value_explicit,
    ← t.writtenOut.noted_eq, h, u.writtenOut.noted_eq]

end Phrase

end TemplateTree
