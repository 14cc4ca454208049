import TemplateTree.Proofs.Phrase

/-!
Phrases for changed streams. Where the tokens of a phrase are changed here and there, in a way that
can be told from piece to piece, a phrase of the changed tokens is put together from phrases of the
pieces. Only the tokens that may change at all need an argument of their own.
-/

namespace TemplateTree
set_option autoImplicit false

namespace Token

/-- A token that no change touches. -/
def isFixed (t : Token) : Bool :=
  match t.kind with
  | .tag => false
  | .mixinBlock => false
  | .yield => false
  | _ => true

theorem isFixed_of_isHead {t : Token} (h : t.isHead = true) : t.isFixed = true := by
  obtain ⟨line, lexeme⟩ := t
  cases lexeme <;> first | rfl | cases h

theorem all_isFixed_newlines (lines : List Line) :
    (lines.map fun line => (⟨line, .newline⟩ : Token)).all isFixed = true := by
  induction lines with
  | nil => rfl
  | cons _ _ ih => exact ih

end Token

/-- The lexeme in front of which something stands when the given tokens follow, and then the given
lexeme. -/
def Lexeme.following (behind : List Token) (next : Lexeme) : Lexeme :=
  (behind.head?.map Token.lexeme).getD next

namespace Phrase

variable {g h k l : Symbol}

theorem following_append (t : Phrase g) (behind : List Token) (next : Lexeme) :
    Lexeme.following (t.tokens ++ behind) next = t.lead (.following behind next) := by
  rw [lead, Lexeme.following]
  cases t.tokens <;> rfl

theorem following_newlines (lines : List Line) (behind : List Token) (next : Lexeme) :
    Lexeme.following ((lines.map fun line => ⟨line, .newline⟩) ++ behind) next =
      if lines = [] then .following behind next else .newline := by
  cases lines <;> rfl

/-- The same phrase of other parts. -/
def mapParts (F : ⦃g : Symbol⦄ → Phrase g → Phrase g) : {g : Symbol} → Phrase g → Phrase g
  | _, done => done
  | _, newline line more => newline line (F more)
  | _, html line content nested lines more => html line content (F nested) (F lines) (F more)
  | _, item e more => item (F e) (F more)
  | _, body opening width items closing => body opening width (F items) closing
  | _, noBody => noBody
  | _, someBody b => someBody (F b)
  | _, textEnd => textEnd
  | _, textPiece line content more => textPiece line content (F more)
  | _, textBreak line more => textBreak line (F more)
  | _, textInterpolation opening e closing more => textInterpolation opening (F e) closing (F more)
  | _, noPipeless => noPipeless
  | _, somePipeless opening pieces closing => somePipeless opening (F pieces) closing
  | _, htmlEnd => htmlEnd
  | _, htmlLine line content nested lines => htmlLine line content (F nested) (F lines)
  | _, nestedNone => nestedNone
  | _, nestedBody b => nestedBody (F b)
  | _, nestedNewline line => nestedNewline line
  | _, code line c b => code line c (F b)
  | _, lineEnd => lineEnd
  | _, lineText pieces => lineText (F pieces)
  | _, lineCode c => lineCode (F c)
  | _, lineColon colon e => lineColon colon (F e)
  | _, plain heads l newlines b => plain heads (F l) newlines (F b)
  | _, dotted heads dotLine l newlines b => dotted heads dotLine (F l) newlines (F b)
  | _, noBranches => noBranches
  | _, branchNewline line more => branchNewline line (F more)
  | _, branch line source x more => branch line source (F x) (F more)
  | _, fallThrough => fallThrough
  | _, expansionColon colon e => expansionColon colon (F e)
  | _, expansionBody b => expansionBody (F b)
  | _, noAlternative => noAlternative
  | _, someAlternative line c b => someAlternative line c (F b)
  | _, tag line name selfClosing c => tag line name selfClosing (F c)
  | _, buffered line source c => buffered line source (F c)
  | _, division c => division (F c)
  | _, call line name args c => call line name args (F c)
  | _, definition line name args b => definition line name args (F b)
  | _, oldCall line name args => oldCall line name args
  | _, mixinBlock line => mixinBlock line
  | _, namedBlock line name mode b => namedBlock line name mode (F b)
  | _, inclusion line path via attrs b => inclusion line path via attrs (F b)
  | _, statement c => statement (F c)
  | _, each line head b a => each line head (F b) (F a)
  | _, case line source opening width bs closing => case line source opening width (F bs) closing
  | _, inherit line path => inherit line path
  | _, doctype line name => doctype line name
  | _, yield line => yield line
  | _, filter line name group b => filter line name group (F b)
  | _, comment line content isBuffered b => comment line content isBuffered (F b)
  | _, dot line b => dot line (F b)
  | _, textLines pieces => textLines (F pieces)
  | _, rawHtml line content nested lines => rawHtml line content (F nested) (F lines)

/-- The phrase becomes another one when its tokens are changed, and the same is made of both. -/
def Rebuilt (R : List Token → List Token → List Token → Prop)
    (F : ⦃g : Symbol⦄ → Phrase g → Phrase g) (t : Phrase g) : Prop :=
  ∀ ⦃behind us : List Token⦄ ⦃next : Lexeme⦄, t.Fits (.following behind next) →
    R behind us t.tokens → ∃ t' : Phrase g, t'.tokens = us ∧ F t' = F t

end Phrase

/-- Changes of tokens, in front of tokens that come behind both, for which the same is made of the
phrases before and after. -/
structure Rebuilding (R : List Token → List Token → List Token → Prop)
    (F : ⦃g : Symbol⦄ → Phrase g → Phrase g) : Prop where
  /-- A change of two pieces is a change of each. -/
  split : ∀ {behind us ws vs : List Token}, R behind us (ws ++ vs) → ∃ us₁ us₂, us = us₁ ++ us₂ ∧
    R (vs ++ behind) us₁ ws ∧ R behind us₂ vs
  keep : ∀ {behind us ws : List Token}, R behind us ws → ws.all Token.isFixed = true → us = ws
  /-- What is made of a phrase is made of its parts first. -/
  parts : ∀ {g : Symbol} (t : Phrase g), F t = F (t.mapParts F)

namespace Rebuilding

open Phrase

variable {R : List Token → List Token → List Token → Prop}
variable {F : ⦃g : Symbol⦄ → Phrase g → Phrase g} (h : Rebuilding R F)
variable {g k l : Symbol} {t : Phrase g} {u : Phrase k}
include h

/-- Tokens that stay are in front of what the others become. -/
theorem exists_behind {behind us ws vs : List Token} (hr : R behind us (ws ++ vs))
    (hw : ws.all Token.isFixed = true) : ∃ us', us = ws ++ us' ∧ R behind us' vs := by
  obtain ⟨us₁, us₂, rfl, h₁, h₂⟩ := h.split hr
  exact ⟨us₂, by rw [h.keep h₁ hw], h₂⟩

theorem leaf (ht : t.tokens.all Token.isFixed = true) : t.Rebuilt R F := by
  intro behind us next _ hr
  exact ⟨t, (h.keep hr ht).symm, rfl⟩

theorem between {K : Phrase g → Phrase l} (ht : t.Rebuilt R F) (before after : List Token)
    (hk : (before ++ after).all Token.isFixed = true)
    (htokens : ∀ x, (K x).tokens = before ++ x.tokens ++ after)
    (hf : ∀ next, (K t).Fits next → t.Fits (.following after next))
    (hparts : ∀ x, (K x).mapParts F = K (F x)) : (K t).Rebuilt R F := by
  intro behind us next hfits hr
  rw [htokens, List.append_assoc] at hr
  rw [List.all_append, Bool.and_eq_true_iff] at hk
  obtain ⟨_, rfl, hrest⟩ := h.exists_behind hr hk.1
  obtain ⟨mid, last, rfl, hmid, hlast⟩ := h.split hrest
  have hfits : t.Fits (.following (after ++ behind) next) := by
    have hfits := hf _ hfits
    cases after <;> exact hfits
  obtain ⟨t', rfl, ht'⟩ := ht hfits hmid
  refine ⟨K t', ?_, ?_⟩
  · rw [htokens, h.keep hlast hk.2, List.append_assoc]
  · rw [h.parts, hparts, ht', ← hparts, ← h.parts]

theorem behind {K : Phrase g → Phrase l} (ht : t.Rebuilt R F) (before : List Token)
    (hk : before.all Token.isFixed = true) (htokens : ∀ x, (K x).tokens = before ++ x.tokens)
    (hf : ∀ next, (K t).Fits next → t.Fits next)
    (hparts : ∀ x, (K x).mapParts F = K (F x)) : (K t).Rebuilt R F :=
  h.between ht before [] (by rwa [List.append_nil]) (by simpa using htokens) hf hparts

theorem both {K : Phrase g → Phrase k → Phrase l} (ht : t.Rebuilt R F) (hu : u.Rebuilt R F)
    (before middle : List Token) (hk : (before ++ middle).all Token.isFixed = true)
    (htokens : ∀ x y, (K x y).tokens = before ++ x.tokens ++ (middle ++ y.tokens))
    (hf : ∀ next, (K t u).Fits next → t.Fits (.following middle (u.lead next)) ∧ u.Fits next)
    (hparts : ∀ x y, (K x y).mapParts F = K (F x) (F y)) : (K t u).Rebuilt R F := by
  intro behind us next hfits hr
  obtain ⟨hft, hfu⟩ := hf _ hfits
  rw [htokens, List.append_assoc] at hr
  rw [List.all_append, Bool.and_eq_true_iff] at hk
  obtain ⟨_, rfl, hrest⟩ := h.exists_behind hr hk.1
  obtain ⟨left, _, rfl, hleft, hback⟩ := h.split hrest
  obtain ⟨right, rfl, hright⟩ := h.exists_behind hback hk.2
  rw [List.append_assoc] at hleft
  have hft : t.Fits (.following (middle ++ (u.tokens ++ behind)) next) := by
    rw [← following_append] at hft
    cases middle <;> exact hft
  obtain ⟨t', rfl, ht'⟩ := ht hft hleft
  obtain ⟨u', rfl, hu'⟩ := hu hfu hright
  refine ⟨K t' u', ?_, ?_⟩
  · rw [htokens, List.append_assoc]
  · rw [h.parts, hparts, ht', hu', ← hparts, ← h.parts]

theorem content {K : List Token → Phrase .line → Phrase g → Phrase .content} {heads : List Token}
    {line : Phrase .line} (hl : line.Rebuilt R F) (ht : t.Rebuilt R F) (before : List Token)
    (newlines : List Line) (hk : before.all Token.isFixed = true)
    (htokens : ∀ x y, (K heads x y).tokens =
      heads ++ before ++ x.tokens ++ ((newlines.map fun line => ⟨line, .newline⟩) ++ y.tokens))
    (hf : ∀ next, (K heads line t).Fits next → (∀ u ∈ heads, u.isHead = true) ∧
      line.Fits (if newlines = [] then t.lead next else .newline) ∧ t.Fits next)
    (hparts : ∀ x y, (K heads x y).mapParts F = K heads (F x) (F y)) :
    (K heads line t).Rebuilt R F := by
  intro behind us next hfits hr
  obtain ⟨hheads, -⟩ := hf _ hfits
  have hfixed : (heads ++ before ++ newlines.map fun line => (⟨line, .newline⟩ : Token)).all
      Token.isFixed = true := by
    have hheads : heads.all Token.isFixed = true :=
      List.all_eq_true.mpr fun u hu => Token.isFixed_of_isHead (hheads u hu)
    rw [List.all_append, List.all_append, hheads, hk, Token.all_isFixed_newlines]
    rfl
  refine h.both hl ht (heads ++ before) _ hfixed htokens ?_ hparts hfits hr
  intro next hfits
  obtain ⟨-, hfl, hft⟩ := hf _ hfits
  refine ⟨?_, hft⟩
  cases newlines <;> exact hfl

theorem html {nested : Phrase .nested} {lines : Phrase .html} {more : Phrase .items}
    (hn : nested.Rebuilt R F) (hl : lines.Rebuilt R F) (hm : more.Rebuilt R F) (line : Line)
    (content : String) : (Phrase.html line content nested lines more).Rebuilt R F := by
  intro behind us next hf hr
  rw [tokens_html, ← List.singleton_append] at hr
  obtain ⟨_, rfl, hrest⟩ := h.exists_behind hr rfl
  obtain ⟨left, _, rfl, hleft, hback⟩ := h.split hrest
  obtain ⟨mid, right, rfl, hmid, hright⟩ := h.split hback
  obtain ⟨hfn, hfl, hfm⟩ := hf
  rw [← following_append, ← following_append, ← List.append_assoc] at hfn
  rw [← following_append] at hfl
  obtain ⟨nested', rfl, hnested⟩ := hn hfn hleft
  obtain ⟨lines', rfl, hlines⟩ := hl hfl hmid
  obtain ⟨more', rfl, hmore⟩ := hm hfm hright
  refine ⟨.html line content nested' lines' more', tokens_html .., ?_⟩
  rw [h.parts, mapParts, hnested, hlines, hmore]
  exact (h.parts (Phrase.html line content nested lines more)).symm

/-- If the tokens that may change can be dealt with, all phrases can. -/
theorem rebuilt (htag : ∀ line name selfClosing (c : Phrase .content), c.Rebuilt R F →
      (Phrase.tag line name selfClosing c).Rebuilt R F)
    (hmixinBlock : ∀ line, (Phrase.mixinBlock line).Rebuilt R F)
    (hyield : ∀ line, (Phrase.yield line).Rebuilt R F) (t : Phrase g) : t.Rebuilt R F := by
  induction t with
  | done | noBody | textEnd | noPipeless | htmlEnd | nestedNone | nestedNewline | lineEnd
  | noBranches | fallThrough | noAlternative | oldCall | inherit | doctype => exact h.leaf rfl
  | mixinBlock line => exact hmixinBlock line
  | yield line => exact hyield line
  | newline line more ih =>
    exact h.behind (K := .newline line) ih [⟨line, .newline⟩] rfl (fun _ => rfl) (fun _ hf => hf)
      fun _ => rfl
  | branchNewline line more ih =>
    exact h.behind (K := .branchNewline line) ih [⟨line, .newline⟩] rfl (fun _ => rfl)
      (fun _ hf => hf) fun _ => rfl
  | textBreak line more ih =>
    exact h.behind (K := .textBreak line) ih [⟨line, .newline⟩] rfl (fun _ => rfl)
      (fun _ hf => hf.2) fun _ => rfl
  | someBody b ih =>
    exact h.behind (K := .someBody) ih [] rfl (fun _ => rfl) (fun _ hf => hf) fun _ => rfl
  | nestedBody b ih =>
    exact h.behind (K := .nestedBody) ih [] rfl (fun _ => rfl) (fun _ hf => hf) fun _ => rfl
  | expansionBody b ih =>
    exact h.behind (K := .expansionBody) ih [] rfl (fun _ => rfl) (fun _ hf => hf) fun _ => rfl
  | lineText t ih =>
    exact h.behind (K := .lineText) ih [] rfl (fun _ => rfl) (fun _ hf => hf.2) fun _ => rfl
  | lineCode c ih =>
    exact h.behind (K := .lineCode) ih [] rfl (fun _ => rfl) (fun _ hf => hf) fun _ => rfl
  | statement c ih =>
    exact h.behind (K := .statement) ih [] rfl (fun _ => rfl) (fun _ hf => hf) fun _ => rfl
  | textLines t ih =>
    exact h.behind (K := .textLines) ih [] rfl (fun _ => rfl) (fun _ hf => hf.2) fun _ => rfl
  | body opening width items closing ih =>
    exact h.between (K := (.body opening width · closing)) ih [⟨opening, .indent width⟩]
      [⟨closing, .outdent⟩] rfl (fun _ => tokens_body ..) (fun _ hf => hf) fun _ => rfl
  | somePipeless opening pieces closing ih =>
    exact h.between (K := (.somePipeless opening · closing)) ih [⟨opening, .startPipeless⟩]
      [⟨closing, .endPipeless⟩] rfl (fun _ => tokens_somePipeless ..) (fun _ hf => hf) fun _ => rfl
  | case line source opening width bs closing ih =>
    exact h.between (K := (.case line source opening width · closing)) ih
      [⟨line, .case source⟩, ⟨opening, .indent width⟩] [⟨closing, .outdent⟩]
      rfl (fun _ => tokens_case ..) (fun _ hf => hf) fun _ => rfl
  | definition line name args b ih =>
    exact h.behind (K := .definition line name args) ih [⟨line, .mixin name args⟩] rfl
      (fun _ => tokens_definition ..) (fun _ hf => hf) fun _ => rfl
  | code line c b ih =>
    exact h.behind (K := .code line c) ih [⟨line, .code c⟩] rfl (fun _ => tokens_code ..)
      (fun _ hf => hf) fun _ => rfl
  | textPiece line content more ih =>
    exact h.behind (K := .textPiece line content) ih [⟨line, .text content⟩] rfl (fun _ => rfl)
      (fun _ hf => hf) fun _ => rfl
  | lineColon colon e ih =>
    exact h.behind (K := .lineColon colon) ih [⟨colon, .colon⟩] rfl (fun _ => rfl) (fun _ hf => hf)
      fun _ => rfl
  | expansionColon colon e ih =>
    exact h.behind (K := .expansionColon colon) ih [⟨colon, .colon⟩] rfl (fun _ => rfl)
      (fun _ hf => hf) fun _ => rfl
  | someAlternative line c b ih =>
    exact h.behind (K := .someAlternative line c) ih [⟨line, .code c⟩] rfl (fun _ => rfl)
      (fun _ hf => hf.2) fun _ => rfl
  | tag line name selfClosing c ih => exact htag line name selfClosing c ih
  | division c ih =>
    exact h.behind (K := .division) ih [] rfl (fun _ => rfl) (fun _ hf => hf.2) fun _ => rfl
  | buffered line source c ih =>
    exact h.behind (K := .buffered line source) ih [⟨line, .interpolation source⟩] rfl
      (fun _ => rfl) (fun _ hf => hf) fun _ => rfl
  | call line name args c ih =>
    exact h.behind (K := .call line name args) ih [⟨line, .call name args⟩] rfl (fun _ => rfl)
      (fun _ hf => hf) fun _ => rfl
  | namedBlock line name mode b ih =>
    exact h.behind (K := .namedBlock line name mode) ih [⟨line, .block name mode⟩] rfl
      (fun _ => rfl) (fun _ hf => hf) fun _ => rfl
  | inclusion line path via attrs b ih =>
    exact h.behind (K := .inclusion line path via attrs) ih [⟨line, .inclusion path via attrs⟩] rfl
      (fun _ => rfl) (fun _ hf => hf) fun _ => rfl
  | comment line content isBuffered b ih =>
    exact h.behind (K := .comment line content isBuffered) ih [⟨line, .comment content isBuffered⟩]
      rfl (fun _ => rfl) (fun _ hf => hf) fun _ => rfl
  | dot line b ih =>
    exact h.behind (K := .dot line) ih [⟨line, .dot⟩] rfl (fun _ => rfl) (fun _ hf => hf)
      fun _ => rfl
  | filter line name group b ih =>
    refine h.behind (K := .filter line name group) ih
      (⟨line, .filter name⟩ :: (group.map groupToken).toList) ?_ (fun _ => tokens_filter ..)
      (fun _ hf => hf.2) fun _ => rfl
    cases group <;> rfl
  | item e more ihe ih =>
    exact h.both (K := .item) ihe ih [] [] rfl (fun _ _ => tokens_item ..) (fun _ hf => hf.2)
      fun _ _ => rfl
  | textInterpolation opening e closing more ihe ih =>
    exact h.both (K := (.textInterpolation opening · closing ·)) ihe ih
      [⟨opening, .startInterpolation⟩] [⟨closing, .endInterpolation⟩]
      rfl (fun _ _ => tokens_textInterpolation ..) (fun _ hf => hf) fun _ _ => rfl
  | htmlLine line content nested lines ihn ihl =>
    exact h.both (K := .htmlLine line content) ihn ihl [⟨line, .textHtml content⟩] []
      rfl (fun _ _ => tokens_htmlLine ..) (fun _ hf => hf) fun _ _ => rfl
  | rawHtml line content nested lines ihn ihl =>
    exact h.both (K := .rawHtml line content) ihn ihl [⟨line, .textHtml content⟩] []
      rfl (fun _ _ => tokens_rawHtml ..) (fun _ hf => hf) fun _ _ => rfl
  | branch line source x more ihx ih =>
    refine h.both (K := .branch line source) ihx ih [⟨line, branchLexeme source⟩] [] ?_
      (fun _ _ => tokens_branch ..) (fun _ hf => hf) fun _ _ => rfl
    cases source <;> rfl
  | each line head b a ihb iha =>
    exact h.both (K := .each line head) ihb iha [⟨line, .each head⟩] []
      rfl (fun _ _ => tokens_each ..) (fun _ hf => hf) fun _ _ => rfl
  | html line content nested lines more ihn ihl ih => exact h.html ihn ihl ih line content
  | plain heads l newlines b ihl ihb =>
    exact h.content (K := (.plain · · newlines ·)) ihl ihb [] newlines rfl
      (fun _ _ => by simp [tokens, Event.newline, List.filterMap_map,
        List.filterMap_cons, Function.comp_def]) (fun _ hf => ⟨hf.1, hf.2.2.1, hf.2.2.2.2⟩)
      fun _ _ => rfl
  | dotted heads dotLine l newlines b ihl ihb =>
    exact h.content (K := (.dotted · dotLine · newlines ·)) ihl ihb [⟨dotLine, .dot⟩] newlines rfl
      (fun _ _ => by simp [tokens, Event.newline, List.filterMap_map,
        List.filterMap_cons, Function.comp_def]) (fun _ hf => ⟨hf.1, hf.2.2.1, hf.2.2.2.2⟩)
      fun _ _ => rfl

end Rebuilding

end TemplateTree
