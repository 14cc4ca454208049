import TemplateTree.Proofs.Divisions
import TemplateTree.Proofs.Traces

/-!
One more newline in a phrase. Outside pipeless text a newline can be read twice: whatever reads it
reads a second one as well and makes the same of it. Only the newline that ends a line of HTML
cannot, as it is the one that keeps the run together.
-/

namespace TemplateTree
set_option autoImplicit false

/-- The marks of pipeless text and of interpolations that are open behind a token, the latest of
them first. -/
def Token.marks (marks : List TokenKind) (t : Token) : List TokenKind :=
  match t.kind with
  | .startPipeless => .startPipeless :: marks
  | .startInterpolation => .startInterpolation :: marks
  | .endPipeless => marks.tail
  | .endInterpolation => marks.tail
  | _ => marks

/-- What stands before a newline: the open marks, and whether the last token that is no newline is
a line of HTML. -/
structure Surroundings where
  marks : List TokenKind
  html : Bool

namespace Surroundings

def after (c : Surroundings) (t : Token) : Surroundings where
  marks := t.marks c.marks
  html := if t.kind = .newline then c.html else t.kind == .textHtml

/-- What stands behind the events. -/
def behind (c : Surroundings) (es : List Event) : Surroundings :=
  (es.filterMap Event.token?).foldl after c

/-- There is room for another newline. -/
structure Roomy (c : Surroundings) : Prop where
  marks : c.marks.head? ≠ some .startPipeless
  html : c.html = false

/-- Where a phrase of the symbol may stand. -/
def Suits (c : Surroundings) : Symbol → Prop
  | .text .pipeless => c.marks.head? = some .startPipeless
  | .nested => c.html = true
  | _ => True

variable {c : Surroundings} {es fs : List Event} {e : Event} {t : Token}

/-- Text goes on where the marks are the same. -/
theorem Suits.of_marks {c' : Surroundings} {p : TextPlace} (h : c.Suits (.text p))
    (hm : c'.marks = c.marks) : c'.Suits (.text p) := by
  cases p with
  | pipeless => exact (congrArg List.head? hm).trans h
  | _ => trivial

theorem behind_append : c.behind (es ++ fs) = (c.behind es).behind fs := by
  rw [behind, List.filterMap_append, List.foldl_append]
  rfl

theorem behind_cons (ht : e.token? = some t) : c.behind (e :: es) = (c.after t).behind es := by
  rw [behind, List.filterMap_cons_some ht]
  rfl

theorem behind_quiet (ht : e.token? = none) : c.behind (e :: es) = c.behind es := by
  rw [behind, List.filterMap_cons_none ht]
  rfl

end Surroundings

/-- An event that is no newline. -/
def Event.isSolid : Event → Bool
  | read t => t.kind != .newline
  | _ => true

theorem Event.all_isSolid_heads {heads : List Token} (hh : ∀ t ∈ heads, t.isHead = true) :
    (heads.map Event.read).all isSolid = true := by
  rw [List.all_map, List.all_eq_true]
  intro t ht
  obtain ⟨line, lexeme⟩ := t
  have hhead := hh _ ht
  cases lexeme <;> first | rfl | cases hhead

/-! Marks are closed again. -/

/-- The events close the marks that they open. -/
def Closes (es : List Event) : Prop :=
  ∀ c : Surroundings, (c.behind es).marks = c.marks

/-- A token that opens and closes no marks. -/
def Token.isUnmarked (t : Token) : Bool :=
  match t.kind with
  | .startPipeless => false
  | .startInterpolation => false
  | .endPipeless => false
  | .endInterpolation => false
  | _ => true

theorem Token.marks_of_isUnmarked {t : Token} (ht : t.isUnmarked = true) (marks : List TokenKind) :
    t.marks marks = marks := by
  obtain ⟨line, lexeme⟩ := t
  cases lexeme <;> first | rfl | cases ht

theorem Token.isUnmarked_of_isCommon {t : Token} (ht : t.isCommon = true) :
    t.isUnmarked = true := by
  obtain ⟨line, lexeme⟩ := t
  cases lexeme <;> first | rfl | cases ht

namespace Closes

variable {es fs : List Event} {e : Event} {t : Token}

theorem nil : Closes [] := fun _ => rfl

theorem append (hes : Closes es) (hfs : Closes fs) : Closes (es ++ fs) := by
  intro c
  rw [Surroundings.behind_append, hfs, hes]

theorem quiet (ht : e.token? = none) : Closes [e] := by
  intro c
  rw [Surroundings.behind_quiet ht]
  rfl

theorem token (ht : e.token? = some t) (hu : t.isUnmarked = true) : Closes [e] := by
  intro c
  rw [Surroundings.behind_cons ht]
  exact Token.marks_of_isUnmarked hu c.marks

theorem heads {heads : List Token} (hh : ∀ t ∈ heads, t.isHead = true) :
    Closes (heads.map .read) := by
  induction heads with
  | nil => exact nil
  | cons t heads ih =>
    obtain ⟨ht, hheads⟩ := List.forall_mem_cons.mp hh
    have hone : Closes [.read t] := by
      apply token rfl
      obtain ⟨line, lexeme⟩ := t
      cases lexeme <;> first | rfl | cases ht
    exact hone.append (ih hheads)

theorem pipeless (opening closing : Line) (h : Closes es) :
    Closes (.read ⟨opening, .startPipeless⟩ :: es ++ [.read ⟨closing, .endPipeless⟩]) := by
  intro c
  rw [Surroundings.behind_append]
  exact congrArg List.tail (h (c.after ⟨opening, .startPipeless⟩))

theorem interpolation (opening closing : Line) (h : Closes es) :
    Closes (.read ⟨opening, .startInterpolation⟩ :: es ++
      [.read ⟨closing, .endInterpolation⟩]) := by
  intro c
  rw [Surroundings.behind_append]
  exact congrArg List.tail (h (c.after ⟨opening, .startInterpolation⟩))

/-- Whatever a phrase marks is closed in it. -/
theorem traceClosed : TraceClosed fun es _ => Closes es where
  nil _ := nil
  append := append
  common _ ht hc := token ht (Token.isUnmarked_of_isCommon hc)
  quiet _ ht _ := quiet ht
  heads hh _ := append (heads hh) (quiet rfl)
  pipeless opening closing _ := pipeless opening closing
  interpolation opening closing _ := interpolation opening closing
  definition _ _ _ _ := token rfl rfl
  oldCall _ _ _ _ := append (token rfl rfl) (quiet rfl)
  filter _ _ _ := token rfl rfl
  filterGroup _ _ _ := append (token rfl rfl) (token rfl rfl)

end Closes

namespace Phrase

variable {g : Symbol}

/-! Phrases that take one more newline. -/

theorem lead_congr {t u : Phrase g} (h : t.tokens.head? = u.tokens.head?) (next : Lexeme) :
    t.lead next = u.lead next := by
  rw [lead, lead, h]

theorem startLine_congr {t u : Phrase g} (h : t.tokens.head? = u.tokens.head?) :
    t.startLine = u.startLine := by
  rw [startLine, startLine, h]

/-- Another phrase can take the place of a phrase: it begins with the same token, fits as well and
stands for the same. -/
structure Replaces (scope : Scope) (t' t : Phrase g) (next : Lexeme) : Prop where
  head : t'.tokens.head? = t.tokens.head?
  fits : t'.Fits next
  value : t'.value scope = t.value scope

theorem Replaces.refl {scope : Scope} {t : Phrase g} {next : Lexeme} (hf : t.Fits next) :
    t.Replaces scope t next := ⟨rfl, hf, rfl⟩

/-- Where there is room, a newline in the middle of what happens while the phrase is read can be
read twice. -/
def StretchesIn (scope : Scope) (c : Surroundings) (t : Phrase g) (next : Lexeme)
    (pre mid post : List Event) : Prop :=
  ∀ ⦃es line fs⦄, mid = es ++ .newline line :: fs → (c.behind (pre ++ es)).Roomy →
    ∃ t' : Phrase g, t'.trace = pre ++ (es ++ .newline line :: .newline line :: fs) ++ post ∧
      t'.Fits next ∧ t'.value scope = t.value scope

/-- Where there is room, a newline of the phrase can be read twice. -/
def Stretches (scope : Scope) (c : Surroundings) (t : Phrase g) (next : Lexeme) : Prop :=
  t.StretchesIn scope c next [] t.trace []

end Phrase

/-- Reading a newline twice keeps the first token. -/
theorem head?_stretched {es fs : List Event} (line : Line) :
    ((es ++ .newline line :: .newline line :: fs).filterMap Event.token?).head? =
      ((es ++ .newline line :: fs).filterMap Event.token?).head? := by
  rw [List.filterMap_append, List.filterMap_append]
  cases es.filterMap Event.token? <;> rfl

namespace Phrase

namespace StretchesIn

variable {scope : Scope} {c : Surroundings} {g h : Symbol} {next next' : Lexeme}
variable {t : Phrase g} {u : Phrase h} {pre mid mid' post : List Event}

theorem append (hl : t.StretchesIn scope c next pre mid (mid' ++ post))
    (hr : t.StretchesIn scope c next (pre ++ mid) mid' post) :
    t.StretchesIn scope c next pre (mid ++ mid') post := by
  intro es line fs heq hroom
  rcases append_eq_append_cons heq with ⟨fs, rfl, rfl⟩ | ⟨es, rfl, rfl⟩
  · obtain ⟨t', htrace, ht⟩ := hl rfl hroom
    refine ⟨t', ?_, ht⟩
    simpa using htrace
  · rw [← List.append_assoc] at hroom
    obtain ⟨t', htrace, ht⟩ := hr rfl hroom
    refine ⟨t', ?_, ht⟩
    simpa using htrace

theorem fixed (hmid : mid.all Event.isSolid = true) :
    t.StretchesIn scope c next pre mid post := by
  intro es line fs heq
  rw [heq, List.all_append, List.all_cons, Bool.and_eq_true_iff, Bool.and_eq_true_iff] at hmid
  cases hmid.2.1

/-- A newline that may as well stand twice. -/
theorem twice (line : Line) (ht : (c.behind pre).Roomy → ∃ t' : Phrase g,
      t'.trace = pre ++ [.newline line, .newline line] ++ post ∧ t'.Fits next ∧
        t'.value scope = t.value scope) :
    t.StretchesIn scope c next pre [.newline line] post := by
  intro es line' fs heq hroom
  cases es with
  | nil =>
    obtain ⟨hline, rfl⟩ := List.cons.inj heq
    rw [List.append_nil] at hroom
    rw [← hline]
    exact ht hroom
  | cons e es =>
    cases es <;> cases (List.cons.inj heq).2

theorem newlines {K : List Line → Phrase h} (lines : List Line)
    (htrace : ∀ ls, (K ls).trace = pre ++ ls.map .newline ++ post)
    (hk : ∀ ls, (ls = [] ↔ lines = []) → (K ls).Fits next ∧
      (K ls).value scope = (K lines).value scope) :
    (K lines).StretchesIn scope c next pre (lines.map .newline) post := by
  intro es line fs heq _
  obtain ⟨ls, _, rfl, rfl, hrest⟩ := List.map_eq_append_iff.mp heq
  obtain ⟨line', rest, rfl, hline, rfl⟩ := List.map_eq_cons_iff.mp hrest
  refine ⟨K (ls ++ line' :: line' :: rest), ?_, hk _ (by simp)⟩
  rw [htrace, ← hline]
  simp

theorem part {K : Phrase g → Phrase h} (ht : t.Stretches scope (c.behind pre) next')
    (htrace : ∀ x, (K x).trace = pre ++ x.trace ++ post)
    (hk : ∀ x, x.Replaces scope t next' → (K x).Fits next ∧
      (K x).value scope = (K t).value scope) :
    (K t).StretchesIn scope c next pre t.trace post := by
  intro es line fs heq hroom
  rw [Surroundings.behind_append] at hroom
  obtain ⟨x, hx, hfits, hvalue⟩ := ht heq hroom
  rw [List.append_nil, List.nil_append] at hx
  have hhead : x.tokens.head? = t.tokens.head? := by
    rw [tokens, tokens, hx, heq]
    exact head?_stretched line
  refine ⟨K x, ?_, hk x ⟨hhead, hfits, hvalue⟩⟩
  rw [htrace, hx]

end StretchesIn

namespace Stretches

open StretchesIn

variable {scope : Scope} {c : Surroundings} {g h k : Symbol} {next next' : Lexeme}
variable {t : Phrase g} {u : Phrase h}

theorem leaf (ht : t.trace.all Event.isSolid = true) : t.Stretches scope c next := fixed ht

theorem between {K : Phrase g → Phrase h} (pre post : List Event)
    (hs : (pre ++ post).all Event.isSolid = true) (ht : t.Stretches scope (c.behind pre) next')
    (htrace : ∀ x, (K x).trace = pre ++ x.trace ++ post)
    (hk : ∀ x, x.Replaces scope t next' → (K x).Fits next ∧
      (K x).value scope = (K t).value scope) : (K t).Stretches scope c next := by
  rw [List.all_append, Bool.and_eq_true_iff] at hs
  rw [Stretches, htrace, List.append_assoc]
  refine .append (.fixed hs.1) (.append (.part ht ?_ hk) (.fixed hs.2))
  simpa using htrace

theorem behind {K : Phrase g → Phrase h} (pre : List Event) (hs : pre.all Event.isSolid = true)
    (ht : t.Stretches scope (c.behind pre) next') (htrace : ∀ x, (K x).trace = pre ++ x.trace)
    (hk : ∀ x, x.Replaces scope t next' → (K x).Fits next ∧
      (K x).value scope = (K t).value scope) : (K t).Stretches scope c next :=
  between pre [] (by rwa [List.append_nil]) ht (by simpa using htrace) hk

theorem both {K : Phrase g → Phrase h → Phrase k} (pre mid : List Event)
    (hs : (pre ++ mid).all Event.isSolid = true) (hft : t.Fits next') (hfu : u.Fits next)
    (ht : t.Stretches scope (c.behind pre) next')
    (hu : u.Stretches scope (c.behind (pre ++ t.trace ++ mid)) next)
    (htrace : ∀ x y, (K x y).trace = pre ++ x.trace ++ (mid ++ y.trace))
    (hk : ∀ x y, x.Replaces scope t next' → y.Replaces scope u next → (K x y).Fits next ∧
      (K x y).value scope = (K t u).value scope) : (K t u).Stretches scope c next := by
  rw [List.all_append, Bool.and_eq_true_iff] at hs
  rw [Stretches, htrace]
  refine .append (.append (.fixed hs.1) (.part (K := (K · u)) ht ?_ ?_))
    (.append (.fixed hs.2) (.part (K := K t) hu ?_ ?_))
  · intro x
    simp [htrace]
  · exact fun x hx => hk x u hx (.refl hfu)
  · intro y
    simp [htrace]
  · exact fun y hy => hk t y (.refl hft) hy

theorem newline {K : Phrase g → Phrase g} (line : Line)
    (ht : t.Stretches scope (c.behind [.newline line]) next)
    (htrace : ∀ x, (K x).trace = .newline line :: x.trace)
    (hk : ∀ x, x.Replaces scope t next → (K x).Fits next ∧
      (K x).value scope = (K t).value scope)
    (htwice : c.Roomy → (K (K t)).Fits next ∧ (K (K t)).value scope = (K t).value scope) :
    (K t).Stretches scope c next := by
  rw [Stretches, htrace, ← List.singleton_append]
  refine .append (.twice line ?_) (.part ht ?_ hk)
  · intro hroom
    refine ⟨K (K t), ?_, htwice hroom⟩
    rw [htrace, htrace]
    simp
  · intro x
    simp [htrace]

theorem content {K : Phrase .line → List Line → Phrase h → Phrase .content} {l : Phrase .line}
    {newlines : List Line} (pre : List Event) (hs : pre.all Event.isSolid = true)
    (hfl : l.Fits next') (hfu : u.Fits next) (hl : l.Stretches scope (c.behind pre) next')
    (hu : u.Stretches scope (c.behind (pre ++ l.trace ++ newlines.map .newline)) next)
    (htrace : ∀ x ls y, (K x ls y).trace = pre ++ x.trace ++ (ls.map .newline ++ y.trace))
    (hk : ∀ x ls y, x.Replaces scope l next' → (ls = [] ↔ newlines = []) →
      y.Replaces scope u next → (K x ls y).Fits next ∧
        (K x ls y).value scope = (K l newlines u).value scope) :
    (K l newlines u).Stretches scope c next := by
  rw [Stretches, htrace]
  refine .append (.append (.fixed hs) (.part (K := (K · newlines u)) hl ?_ ?_))
    (.append (.newlines (K := (K l · u)) newlines ?_ ?_) (.part (K := K l newlines) hu ?_ ?_))
  · intro x
    simp [htrace]
  · exact fun x hx => hk x newlines u hx Iff.rfl (.refl hfu)
  · intro ls
    simp [htrace]
  · exact fun ls hls => hk l ls u (.refl hfl) hls (.refl hfu)
  · intro y
    simp [htrace]
  · exact fun y hy => hk l newlines y (.refl hfl) Iff.rfl hy

theorem html {line : Line} {content : String} {nested : Phrase .nested} {lines : Phrase .html}
    {more : Phrase .items} (hf : (Phrase.html line content nested lines more).Fits next)
    (hn : nested.Stretches scope (c.behind [.read ⟨line, .textHtml content⟩])
      (lines.lead (more.lead next)))
    (hl : lines.Stretches scope (c.behind ([.read ⟨line, .textHtml content⟩] ++ nested.trace))
      (more.lead next))
    (hm : more.Stretches scope
      (c.behind ([.read ⟨line, .textHtml content⟩] ++ nested.trace ++ lines.trace)) next) :
    (Phrase.html line content nested lines more).Stretches scope c next := by
  obtain ⟨hfn, hfl, hfm⟩ := hf
  have htrace (x : Phrase .nested) (y : Phrase .html) (z : Phrase .items) :
      (Phrase.html line content x y z).trace =
        [.read ⟨line, .textHtml content⟩] ++ x.trace ++ y.trace ++ z.trace := rfl
  have hk (x : Phrase .nested) (y : Phrase .html) (z : Phrase .items)
      (hx : x.Replaces scope nested (lines.lead (more.lead next)))
      (hy : y.Replaces scope lines (more.lead next)) (hz : z.Replaces scope more next) :
      (Phrase.html line content x y z).Fits next ∧ (Phrase.html line content x y z).value scope =
        (Phrase.html line content nested lines more).value scope := by
    refine ⟨?_, by simp only [value, hx.value, hy.value, hz.value]⟩
    simp only [Fits, lead_congr hy.head, lead_congr hz.head]
    exact ⟨hx.fits, hy.fits, hz.fits⟩
  rw [Stretches, htrace]
  refine .append (.append (.append (.fixed rfl)
    (.part (K := (.html line content · lines more)) hn ?_ ?_))
    (.part (K := (.html line content nested · more)) hl ?_ ?_))
    (.part (K := .html line content nested lines) hm ?_ ?_)
  · intro x
    simp
  · exact fun x hx => hk x lines more hx (.refl hfl) (.refl hfm)
  · intro y
    simp
  · exact fun y hy => hk nested y more (.refl hfn) hy (.refl hfm)
  · intro z
    simp
  · exact fun z hz => hk nested lines z (.refl hfn) (.refl hfl) hz

end Stretches

/-- What may stand for a content that opens with a shorthand opens with the same one. -/
theorem Replaces.fits_division {scope : Scope} {next : Lexeme} {x t : Phrase .content}
    (hx : x.Replaces scope t next) (hf : (division t).Fits next) : (division x).Fits next := by
  obtain ⟨⟨u, hu, hk⟩, -⟩ := hf
  have hfits : x.Fits (.following [] next) := hx.fits
  have hhead : (x.tokens ++ []).head? = some u := by
    rw [List.append_nil, hx.head, tokens_content, List.head?_append, hu]
    rfl
  have hs : u.isShorthand = true := by
    rcases hk with hk | hk <;> simp [Token.isShorthand, hk]
  obtain ⟨more, hheads⟩ := exists_heads_eq_of_head? hfits hs hhead
  exact ⟨⟨u, by rw [hheads]; rfl, hk⟩, hx.fits⟩

variable {c : Surroundings} {g : Symbol} {next : Lexeme}

/-- Where there is room, a newline in a phrase can be read twice. -/
theorem stretches (t : Phrase g) (scope : Scope) (hf : t.Fits next) (hc : c.Suits g) :
    t.Stretches scope c next := by
  induction t generalizing next c with
  | done | noBody | textEnd | noPipeless | htmlEnd | nestedNone | lineEnd | noBranches
  | fallThrough | noAlternative | mixinBlock | inherit | doctype | yield | oldCall =>
    exact .leaf rfl
  | tag _ _ _ _ ih | buffered _ _ _ ih | call _ _ _ _ ih | namedBlock _ _ _ _ ih
  | inclusion _ _ _ _ _ ih | comment _ _ _ _ ih | dot _ _ ih | lineColon _ _ ih
  | expansionColon _ _ ih =>
    refine .behind [_] rfl (ih hf trivial) (fun _ => rfl) fun x hx => ⟨hx.fits, ?_⟩
    simp only [value, hx.value]
  | someBody _ ih | nestedBody _ ih | lineCode _ ih | expansionBody _ ih | statement _ ih =>
    refine .behind [] rfl (ih hf trivial) (fun _ => rfl) fun x hx => ⟨hx.fits, ?_⟩
    simp only [value, hx.value]
  | lineText _ ih | textLines _ ih =>
    refine .behind [] rfl (ih hf.2 trivial) (fun _ => rfl) fun x hx => ⟨?_, ?_⟩
    · simp only [Fits, lead_congr hx.head]
      exact ⟨hf.1, hx.fits⟩
    · simp only [value, hx.value, startLine_congr hx.head]
  | division t ih =>
    refine .behind [] rfl (ih hf.2 trivial) (fun _ => rfl) fun x hx => ⟨hx.fits_division hf, ?_⟩
    simp only [value, hx.value, startLine_congr hx.head]
  | someAlternative line code b ih =>
    refine .behind [_] rfl (ih hf.2 trivial) (fun _ => rfl) fun x hx => ⟨⟨hf.1, hx.fits⟩, ?_⟩
    simp only [value, hx.value]
  | textPiece line content more ih =>
    refine .behind [.read ⟨line, .text content⟩] rfl (ih hf (hc.of_marks rfl)) (fun _ => rfl)
      fun x hx => ⟨hx.fits, ?_⟩
    simp only [value, hx.value]
  | newline line more ih | branchNewline line more ih =>
    refine .newline line (ih hf trivial) (fun _ => rfl) (fun x hx => ⟨hx.fits, ?_⟩)
      fun _ => ⟨hf, rfl⟩
    simp only [value, hx.value]
  | body opening width items closing ih =>
    refine .between (K := (.body opening width · closing)) [_] [_] rfl (ih hf trivial)
      (fun _ => rfl) fun x hx => ⟨hx.fits, ?_⟩
    simp only [value, hx.value]
  | somePipeless opening pieces closing ih =>
    refine .between (K := (.somePipeless opening · closing)) [.read ⟨opening, .startPipeless⟩]
      [_] rfl (ih hf rfl) (fun _ => rfl) fun x hx => ⟨hx.fits, ?_⟩
    simp only [value, hx.value]
  | case line source opening width bs closing ih =>
    refine .between (K := (.case line source opening width · closing)) [_, _] [_] rfl
      (ih hf trivial) (fun _ => rfl) fun x hx => ⟨hx.fits, ?_⟩
    simp only [value, hx.value]
  | definition line name args b ih =>
    refine .between (K := .definition line name args) [_, _] [_] rfl
      (ih hf trivial) (fun _ => rfl) fun x hx => ⟨hx.fits, ?_⟩
    simp only [value, hx.value]
  | code line code b ih =>
    refine .between (K := .code line code) [_] _ ?_
      (ih hf trivial) (fun _ => rfl) fun x hx => ⟨hx.fits, ?_⟩
    · split <;> rfl
    · simp only [value, hx.value]
  | filter line name group b ih =>
    refine .behind (_ :: (group.map fun g => .read (groupToken g)).toList) ?_ (ih hf.2 trivial)
      (fun _ => rfl) fun x hx => ⟨?_, ?_⟩
    · cases group <;> rfl
    · simp only [Fits, lead_congr hx.head]
      exact ⟨hf.1, hx.fits⟩
    · simp only [value, hx.value]
  | @textBreak p line more ih =>
    refine .newline line (ih hf.2 (hc.of_marks rfl)) (fun _ => rfl)
      (fun x hx => ⟨⟨hf.1, hx.fits⟩, ?_⟩) fun hroom => ⟨⟨hf.1, hf⟩, ?_⟩
    · have hopens : x.opensWithText = true ↔ more.opensWithText = true := by
        rw [x.opensWithText_iff_lead hx.fits, more.opensWithText_iff_lead hf.2, lead_congr hx.head]
      simp only [value, hx.value, hopens]
    · have hp : p ≠ .pipeless := by
        rintro rfl
        exact hroom.marks hc
      have hsingle : ¬ (p = .pipeless ∨ (textBreak (p := p) line more).opensWithText = true) :=
        not_or.mpr ⟨hp, Bool.false_ne_true⟩
      exact if_neg hsingle
  | nestedNewline line =>
    refine .twice line fun hroom => ?_
    cases hroom.html.symm.trans hc
  | item e more ihe ih =>
    obtain ⟨hne, he, hm⟩ := hf
    refine .both [] [] rfl he hm (ihe he trivial) (ih hm trivial) (fun _ _ => rfl)
      fun x y hx hy => ⟨?_, by simp only [value, hx.value, hy.value]⟩
    simp only [Fits, lead_congr hx.head, lead_congr hy.head]
    exact ⟨hne, hx.fits, hy.fits⟩
  | textInterpolation opening e closing more ihe ih =>
    refine .both (K := (.textInterpolation opening · closing ·))
      [.read ⟨opening, .startInterpolation⟩] [.read ⟨closing, .endInterpolation⟩] rfl hf.1 hf.2
      (ihe hf.1 trivial) (ih hf.2 ?_) (fun _ _ => rfl)
      fun x y hx hy => ⟨⟨hx.fits, hy.fits⟩, by simp only [value, hx.value, hy.value]⟩
    -- The text goes on under the marks it began with, since the interpolation closes its own.
    refine hc.of_marks ?_
    rw [Surroundings.behind_append]
    exact congrArg List.tail (Closes.traceClosed.trace e hf.1 _)
  | each line head b a ihb iha =>
    refine .both [_] [] rfl hf.1 hf.2 (ihb hf.1 trivial) (iha hf.2 trivial) (fun _ _ => rfl)
      fun x y hx hy => ⟨?_, by simp only [value, hx.value, hy.value]⟩
    simp only [Fits, lead_congr hy.head]
    exact ⟨hx.fits, hy.fits⟩
  | branch line source x more ihx ih =>
    refine .both [_] [] ?_ hf.1 hf.2 (ihx hf.1 trivial) (ih hf.2 trivial) (fun _ _ => rfl)
      fun x y hx hy => ⟨?_, by simp only [value, hx.value, hy.value]⟩
    · cases source <;> rfl
    · simp only [Fits, lead_congr hy.head]
      exact ⟨hx.fits, hy.fits⟩
  | htmlLine line content nested lines ihn ihl | rawHtml line content nested lines ihn ihl =>
    refine .both [.read ⟨line, .textHtml content⟩] [] rfl hf.1 hf.2 (ihn hf.1 rfl)
      (ihl hf.2 trivial) (fun _ _ => rfl)
      fun x y hx hy => ⟨?_, by simp only [value, hx.value, hy.value]⟩
    simp only [Fits, lead_congr hy.head]
    exact ⟨hx.fits, hy.fits⟩
  | html line content nested lines more ihn ihl ih =>
    exact .html hf (ihn hf.1 rfl) (ihl hf.2.1 trivial) (ih hf.2.2 trivial)
  | plain heads l newlines b ihl ihb =>
    obtain ⟨hheads, hunique, hl, hne, hb⟩ := hf
    refine .content (K := .plain heads) (heads.map .read ++ [.notices (Head.notices false heads)])
      ?_ hl hb (ihl hl trivial) (ihb hb trivial) ?_
      fun x ls y hx hls hy => ⟨?_, by simp only [value, hx.value, hy.value]⟩
    · rw [List.all_append, Event.all_isSolid_heads hheads]
      rfl
    · intro x ls y
      simp
    · simp only [Fits, hls, lead_congr hy.head]
      exact ⟨hheads, hunique, hx.fits, hne, hy.fits⟩
  | dotted heads dotLine l newlines b ihl ihb =>
    obtain ⟨hheads, hunique, hl, hne, hb⟩ := hf
    refine .content (K := .dotted heads dotLine)
      (heads.map .read ++ [.notices (Head.notices false heads), .read ⟨dotLine, .dot⟩])
      ?_ hl hb (ihl hl trivial) (ihb hb trivial) ?_
      fun x ls y hx hls hy => ⟨?_, by simp only [value, hx.value, hy.value]⟩
    · rw [List.all_append, Event.all_isSolid_heads hheads]
      rfl
    · intro x ls y
      simp
    · simp only [Fits, hls, lead_congr hy.head]
      exact ⟨hheads, hunique, hx.fits, hne, hy.fits⟩

end Phrase

end TemplateTree
