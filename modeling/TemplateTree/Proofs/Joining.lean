import TemplateTree.Proofs.Acceptance
import TemplateTree.Proofs.Endings

/-!
Templates one after the other. What stands at the end of a stream may read newlines that come to
stand behind it, but it stands for the same; so nothing leaks from one template into the next
behind a newline, unless that begins with text.
-/

namespace TemplateTree
set_option autoImplicit false

/-- The kinds of tokens that go on with what stands in front of them, perhaps over newlines. -/
def TokenKind.continues : TokenKind → Bool
  | .newline => true
  | .indent => true
  | .startPipeless => true
  | .text => true
  | .startInterpolation => true
  | .textHtml => true
  | _ => false

theorem TokenKind.not_takes (k : TokenKind) (hk : k.continues = false) :
    TextPlace.lines.takes k = false := by
  cases k <;> first | rfl | cases hk

/-- What is seen where some newlines stand in front of a lexeme. -/
def Lexeme.behind (next : Lexeme) (lines : List Line) : Lexeme :=
  if lines = [] then next else .newline

/-- The symbols that may stand last in an item, so that newlines may come to stand behind them.
Pipeless text is none of them: in it a newline is part of the text. -/
def Symbol.endsSilently : Symbol → Bool
  | .items => false
  | .branches => false
  | .expansion => false
  | .text .pipeless => false
  | _ => true

namespace Lexeme

variable {next : Lexeme} {lines : List Line}

theorem behind_of_ne_nil (h : lines ≠ []) : next.behind lines = .newline := if_neg h

theorem kind_behind (hn : next.kind.continues = false) {k : TokenKind} (hk : k ≠ .newline)
    (hc : k.continues = true) : (next.behind lines).kind ≠ k := by
  rw [behind]
  split
  · intro he
    rw [he, hc] at hn
    cases hn
  · exact hk.symm

end Lexeme

namespace Phrase

variable {g h : Symbol}

/-- A phrase that reads some newlines more at its end and stands for the same. -/
structure Grows (t t' : Phrase g) (lines : List Line) : Prop where
  trace_eq : t'.trace = t.trace ++ lines.map .newline
  value_eq : ∀ scope, t'.value scope = t.value scope

/-- Of the newlines that come to stand behind it, a phrase reads those that it may. -/
def Takes (t : Phrase g) (lines : List Line) (next : Lexeme) : Prop :=
  ∃ taken left t', lines = taken ++ left ∧ t.Grows t' taken ∧ t'.Fits (next.behind left)

namespace Grows

variable {t t' : Phrase g} {lines : List Line}

theorem refl (t : Phrase g) : t.Grows t [] := ⟨(List.append_nil _).symm, fun _ => rfl⟩

theorem tokens_eq (h : t.Grows t' lines) :
    t'.tokens = t.tokens ++ lines.map fun line => ⟨line, .newline⟩ := by
  rw [tokens, h.trace_eq, List.filterMap_append, List.filterMap_map, ← List.filterMap_eq_map]
  rfl

theorem head?_eq (h : t.Grows t' lines) (ht : t.tokens ≠ []) :
    t'.tokens.head? = t.tokens.head? := by
  rw [h.tokens_eq, List.head?_append_of_ne_nil _ ht]

theorem lead_eq (h : t.Grows t' lines) (ht : t.tokens ≠ []) {next next' : Lexeme} :
    t'.lead next' = t.lead next := by
  rw [lead, lead, h.head?_eq ht]
  cases htokens : t.tokens with
  | nil => exact absurd htokens ht
  | cons u us => rfl

theorem startLine_eq (h : t.Grows t' lines) (ht : t.tokens ≠ []) :
    t'.startLine = t.startLine := by
  rw [startLine, startLine, h.head?_eq ht]

end Grows

namespace Takes

variable {t : Phrase g} {lines : List Line} {next : Lexeme}

theorem none (ht : t.Fits .newline) (hlines : lines ≠ []) : t.Takes lines next :=
  ⟨[], lines, t, rfl, .refl t, by rwa [Lexeme.behind_of_ne_nil hlines]⟩

/-- What a phrase takes, so does one that it stands at the end of. -/
theorem under {f : Phrase g → Phrase h} (pre : List Event) (ht : t.Takes lines next)
    (htrace : ∀ t', (f t').trace = pre ++ t'.trace)
    (hvalue : ∀ {t' taken}, t.Grows t' taken → ∀ scope, (f t').value scope = (f t).value scope)
    (hfits : ∀ {t' taken left}, t.Grows t' taken → t'.Fits (next.behind left) →
      (f t').Fits (next.behind left)) :
    (f t).Takes lines next := by
  obtain ⟨taken, left, t', hlines, hgrows, hf⟩ := ht
  refine ⟨taken, left, f t', hlines, ⟨?_, hvalue hgrows⟩, hfits hgrows hf⟩
  rw [htrace, htrace, hgrows.trace_eq, List.append_assoc]

end Takes

theorem Starts.not_continues {e : Phrase .expression} {k : TokenKind} (hs : e.Starts k)
    (ht : k ≠ .text) (hh : k ≠ .textHtml) (hi : k ≠ .startInterpolation) :
    k.continues = false := by
  cases hs <;> first | rfl | contradiction

theorem Starts.ne_newline {e : Phrase .expression} {k : TokenKind} (hs : e.Starts k) :
    k ≠ .newline := by
  cases hs <;> nofun

theorem exists_head?_tokens {e : Phrase .expression} {next : Lexeme} (hf : e.Fits next) :
    ∃ t ∈ e.tokens.head?, e.Starts t.kind := by
  obtain ⟨ev, es, t, htrace, ht, hs⟩ := e.exists_opener hf
  refine ⟨t, ?_, hs⟩
  rw [tokens, htrace, List.filterMap_cons_some ht]
  rfl

theorem tokens_ne_nil {e : Phrase .expression} {next : Lexeme} (hf : e.Fits next) :
    e.tokens ≠ [] := by
  obtain ⟨t, ht, -⟩ := exists_head?_tokens hf
  intro hnil
  rw [hnil] at ht
  cases ht

/-! Text. Newlines at the end of lines of text are read and say nothing. -/

/-- Nothing but newlines. -/
def breaks {p : TextPlace} (lines : List Line) : Phrase (.text p) := lines.foldr .textBreak .textEnd

theorem trace_breaks {p : TextPlace} (lines : List Line) :
    (breaks lines : Phrase (.text p)).trace = lines.map .newline := by
  induction lines with
  | nil => rfl
  | cons line lines ih =>
    rw [List.map_cons, ← ih]
    rfl

theorem opensWithText_breaks {p : TextPlace} (lines : List Line) :
    (breaks lines : Phrase (.text p)).opensWithText = false := by
  cases lines <;> rfl

theorem value_breaks (scope : Scope) (lines : List Line) :
    (breaks lines : Phrase (.text .lines)).value scope = [] := by
  induction lines with
  | nil => rfl
  | cons line lines ih =>
    change (if TextPlace.lines = .pipeless ∨ (breaks lines).opensWithText = true then _ else _) = []
    rw [opensWithText_breaks, if_neg (by simp)]
    exact ih

theorem fits_breaks {next : Lexeme} (hn : TextPlace.lines.takes next.kind = false)
    (lines : List Line) : (breaks lines : Phrase (.text .lines)).Fits next := by
  induction lines with
  | nil => exact hn
  | cons line lines ih => exact ⟨nofun, ih⟩

theorem Grows.opensWithText_eq {p : TextPlace} {t t' : Phrase (.text p)} {lines : List Line}
    (h : t.Grows t' lines) : t'.opensWithText = t.opensWithText := by
  have htrace := h.trace_eq
  cases t with
  | textEnd => cases lines <;> cases t' <;> simp_all [opensWithText, Event.newline]
  | textPiece => cases t' <;> simp_all [opensWithText, Event.newline]
  | textBreak => cases t' <;> simp_all [opensWithText, Event.newline]
  | textInterpolation => cases t' <;> simp_all [opensWithText, Event.newline]

theorem tokens_ne_nil_of_takes {p : TextPlace} {t : Phrase g}
    (ht : p.takes (t.lead .eos).kind = true) : t.tokens ≠ [] := by
  intro hnil
  rw [lead, hnil] at ht
  cases ht

/-! HTML. A line of HTML may read one newline behind it. -/

theorem takes_html {nested : Phrase .nested} {more : Phrase .html} {lines : List Line}
    {next : Lexeme} (hn : next.kind.continues = false)
    (hnested : nested.Fits .eos → nested.Takes lines next) (hmore : more.Takes lines next)
    (hf : nested.Fits (more.lead .eos)) (line : Line) (content : String) :
    (htmlLine line content nested more).Takes lines next := by
  cases more with
  | htmlEnd =>
    refine (hnested hf).under (f := fun x => htmlLine line content x htmlEnd)
      [.read ⟨line, .textHtml content⟩] ?_ ?_ ?_
    · intro x
      exact (List.append_nil _)
    · intro x taken hx scope
      simp only [value, hx.value_eq]
    · intro x taken left hx hfx
      exact ⟨hfx, Lexeme.kind_behind hn nofun rfl⟩
  | htmlLine =>
    refine hmore.under (f := htmlLine line content nested)
      (.read ⟨line, .textHtml content⟩ :: nested.trace) ?_ ?_ ?_
    · intro x
      rfl
    · intro x taken hx scope
      simp only [value, hx.value_eq]
    · intro x taken left hx hfx
      refine ⟨?_, hfx⟩
      rw [hx.lead_eq (List.cons_ne_nil _ _)]
      exact hf

theorem Grows.exists_htmlLine {line : Line} {content : String} {nested : Phrase .nested}
    {more t' : Phrase .html} {lines : List Line}
    (h : (htmlLine line content nested more).Grows t' lines) :
    ∃ nested' more', t' = htmlLine line content nested' more' ∧
      ∀ scope, nested'.value scope ++ more'.value scope =
        nested.value scope ++ more.value scope := by
  cases t' with
  | htmlEnd => cases h.trace_eq
  | htmlLine line' content' nested' more' =>
    have htrace := h.trace_eq
    simp only [trace, List.cons_append, List.cons.injEq, Event.read.injEq, Token.mk.injEq,
      Lexeme.textHtml.injEq] at htrace
    obtain ⟨⟨rfl, rfl⟩, _⟩ := htrace
    exact ⟨nested', more', rfl, fun scope => (List.cons_eq_cons.mp (h.value_eq scope)).2⟩

/-! The content of a tag or call. It reads all newlines unless it has a body. -/

theorem Grows.heads_eq {c c' : Phrase .content} {lines : List Line} (h : c.Grows c' lines)
    {t : Token} (ht : t ∈ c.heads.head?) : t ∈ c'.heads.head? := by
  obtain ⟨ts, hts⟩ := List.head?_eq_some_iff.mp ht
  have hc : c.trace = (some t).toList.map .read ++ _ := trace_content_iff.mpr ⟨ts, hts, rfl⟩
  have hc' := h.trace_eq
  rw [hc, List.append_assoc] at hc'
  obtain ⟨us, hus, -⟩ := trace_content_iff.mp hc'
  rw [hus]
  rfl

theorem fits_body {b : Phrase .body} {next next' : Lexeme} (hf : b.Fits next) : b.Fits next' := by
  cases b
  exact hf

/-- A part that is not there, or that ends by itself. -/
def Closed (b : Phrase h) : Prop :=
  (b.trace = [] ∧
    ∀ next : Lexeme, next.kind ≠ .indent → next.kind ≠ .startPipeless → b.Fits next) ∨
  (b.tokens ≠ [] ∧ ∀ next, b.Fits next)

theorem closed_optionalBody {b : Phrase .optionalBody} (hf : b.Fits .eos) : b.Closed := by
  cases b with
  | noBody => exact .inl ⟨rfl, fun next hi _ => hi⟩
  | someBody b =>
    refine .inr ⟨?_, fun _ => fits_body hf⟩
    cases b
    exact List.cons_ne_nil _ _

theorem closed_optionalPipeless {b : Phrase .optionalPipeless} (hf : b.Fits .eos) : b.Closed := by
  cases b with
  | noPipeless => exact .inl ⟨rfl, fun next _ hp => hp⟩
  | somePipeless => exact .inr ⟨List.cons_ne_nil _ _, fun _ => hf⟩

theorem Closed.fits_newline {b : Phrase h} (hb : b.Closed) : b.Fits .newline := by
  rcases hb with ⟨-, hany⟩ | ⟨-, hany⟩
  · exact hany _ nofun nofun
  · exact hany _

section

variable {b : Phrase h} {f : Phrase .line → List Line → Phrase .content} {P : Prop}

/-- A content whose line and newlines may be exchanged, in front of a closed part. -/
theorem takes_content {l : Phrase .line} {newlines lines : List Line} {next : Lexeme}
    (pre : List Event) (htrace : ∀ l newlines, (f l newlines).trace =
      pre ++ l.trace ++ newlines.map .newline ++ b.trace)
    (hvalue : ∀ {l l' newlines newlines'}, (∀ scope, l'.value scope = l.value scope) →
      ∀ scope, (f l' newlines').value scope = (f l newlines).value scope)
    (hfits : ∀ {l newlines next}, (f l newlines).Fits next ↔
      P ∧ l.Fits ((b.lead next).behind newlines) ∧ (b.lead next).kind ≠ .newline ∧ b.Fits next)
    (hb : b.Closed) (hl : l.Fits .eos → l.Takes lines next) (hlines : lines ≠ [])
    (hn : next.kind.continues = false) (hf : (f l newlines).Fits .eos) :
    (f l newlines).Takes lines next := by
  obtain ⟨hP, hfl, hk, hfb⟩ := hfits.mp hf
  rcases hb with ⟨hnil, hany⟩ | ⟨hne, hany⟩
  · have hlead (next : Lexeme) : b.lead next = next := by rw [lead, tokens, hnil]; rfl
    have hne {k : TokenKind} (hk : k.continues = true) : next.kind ≠ k := by
      rintro rfl
      rw [hn] at hk
      cases hk
    have hfb : b.Fits next := hany next (hne rfl) (hne rfl)
    rw [hlead] at hfl
    cases newlines with
    | nil =>
      obtain ⟨taken, left, l', rfl, hgrows, hfl'⟩ := hl hfl
      refine ⟨taken ++ left, [], f l' left, by simp, ⟨?_, hvalue hgrows.value_eq⟩, ?_⟩
      · simp [htrace, hgrows.trace_eq, hnil]
      · exact hfits.mpr ⟨hP, by rwa [hlead], by rw [hlead]; exact hne rfl, hfb⟩
    | cons newline newlines =>
      refine ⟨lines, [], f l (newline :: newlines ++ lines), by simp,
        ⟨?_, hvalue fun _ => rfl⟩, ?_⟩
      · simp [htrace, hnil]
      · exact hfits.mpr ⟨hP, hfl, by rw [hlead]; exact hne rfl, hfb⟩
  · have hlead : b.lead .newline = b.lead .eos := by
      rw [lead, lead]
      cases ht : b.tokens with
      | nil => exact absurd ht hne
      | cons u us => rfl
    exact .none (hfits.mpr ⟨hP, by rwa [hlead], by rwa [hlead], hany _⟩) hlines

end

theorem takes_plain {heads : List Token} {l : Phrase .line} {newlines lines : List Line}
    {b : Phrase .optionalBody} {next : Lexeme} (hl : l.Fits .eos → l.Takes lines next)
    (hlines : lines ≠ []) (hn : next.kind.continues = false)
    (hf : (plain heads l newlines b).Fits .eos) : (plain heads l newlines b).Takes lines next :=
  takes_content (f := fun l newlines => plain heads l newlines b)
    (P := (∀ t ∈ heads, t.isHead = true) ∧ (Head.uniqueNames (heads.flatMap Token.attributes)).Nodup)
    (heads.map .read ++ [.notices (Head.notices false heads)]) (fun l newlines => by simp)
    (fun h scope => by simp [h]) (and_assoc.symm) (closed_optionalBody hf.2.2.2.2)
    hl hlines hn hf

theorem takes_dotted {heads : List Token} {dotLine : Line} {l : Phrase .line}
    {newlines lines : List Line} {b : Phrase .optionalPipeless} {next : Lexeme}
    (hl : l.Fits .eos → l.Takes lines next) (hlines : lines ≠ []) (hn : next.kind.continues = false)
    (hf : (dotted heads dotLine l newlines b).Fits .eos) :
    (dotted heads dotLine l newlines b).Takes lines next :=
  takes_content (f := fun l newlines => dotted heads dotLine l newlines b)
    (P := (∀ t ∈ heads, t.isHead = true) ∧ (Head.uniqueNames (heads.flatMap Token.attributes)).Nodup)
    (heads.map .read ++ [.notices (Head.notices false heads), .read ⟨dotLine, .dot⟩])
    (fun l newlines => by simp) (fun h scope => by simp [h]) (and_assoc.symm)
    (closed_optionalPipeless hf.2.2.2.2) hl hlines hn hf

theorem takes {t : Phrase g} (hg : g.endsSilently = true) {lines : List Line} (hlines : lines ≠ [])
    {next : Lexeme} (hn : next.kind.continues = false) (hf : t.Fits .eos) :
    t.Takes lines next := by
  induction t with
  | done | newline | html | item | noBranches | branchNewline | branch | fallThrough
    | expansionColon | expansionBody => cases hg
  | body | somePipeless | nestedNewline | lineEnd | mixinBlock | case | inherit | doctype
    | yield => exact .none hf hlines
  | someBody | nestedBody | definition => exact .none (fits_body hf) hlines
  | noBody | noPipeless => exact .none nofun hlines
  | @textEnd p =>
    cases p with
    | inLine => exact .none rfl hlines
    | lines =>
      refine ⟨lines, [], breaks lines, by simp, ⟨trace_breaks lines, fun scope => ?_⟩, ?_⟩
      · exact value_breaks scope lines
      · exact fits_breaks (next.kind.not_takes hn) lines
    | pipeless => cases hg
  | textPiece line content more ih =>
    exact (ih hg hf).under [.read ⟨line, .text content⟩] (fun _ => rfl)
      (fun h scope => by simp [h.value_eq]) (fun _ h => h)
  | textBreak line more ih =>
    exact (ih hg hf.2).under [.newline line] (fun _ => rfl)
      (fun h scope => by simp only [value, h.value_eq, h.opensWithText_eq]) (fun _ h => ⟨hf.1, h⟩)
  | textInterpolation opening e closing more ihe ih =>
    exact (ih hg hf.2).under
      (.read ⟨opening, .startInterpolation⟩ :: e.trace ++ [.read ⟨closing, .endInterpolation⟩])
      (fun _ => by simp) (fun h scope => by simp [h.value_eq]) (fun _ h => ⟨hf.1, h⟩)
  | htmlEnd => exact .none nofun hlines
  | htmlLine line content nested more ihn ih =>
    exact takes_html hn (ihn rfl) (ih rfl hf.2) hf.1 line content
  | nestedNone =>
    obtain ⟨line, left, rfl⟩ := List.exists_cons_of_ne_nil hlines
    exact ⟨[line], left, nestedNewline line, rfl, ⟨rfl, fun _ => rfl⟩, trivial⟩
  | code line c b => exact .none (closed_optionalBody hf).fits_newline hlines
  | lineText pieces ih =>
    have hne := tokens_ne_nil_of_takes hf.1
    exact (ih rfl hf.2).under [] (fun _ => rfl)
      (fun h scope => by simp only [value, h.value_eq, h.startLine_eq hne])
      (fun h hfit => ⟨by rw [h.lead_eq hne]; exact hf.1, hfit⟩)
  | lineCode c ih =>
    exact (ih rfl hf).under [] (fun _ => rfl) (fun h scope => by simp [h.value_eq]) (fun _ h => h)
  | lineColon colon e ih =>
    exact (ih rfl hf).under [.read ⟨colon, .colon⟩] (fun _ => rfl)
      (fun h scope => by simp [h.value_eq]) (fun _ h => h)
  | plain heads l newlines b ihl => exact takes_plain (ihl rfl) hlines hn hf
  | dotted heads dotLine l newlines b ihl => exact takes_dotted (ihl rfl) hlines hn hf
  | noAlternative => exact .none rfl hlines
  | someAlternative => exact .none ⟨hf.1, fits_body hf.2⟩ hlines
  | tag line name selfClosing c ih =>
    exact (ih rfl hf).under [.read ⟨line, .tag name selfClosing⟩] (fun _ => rfl)
      (fun h scope => by simp [h.value_eq]) (fun _ h => h)
  | buffered line source c ih =>
    exact (ih rfl hf).under [.read ⟨line, .interpolation source⟩] (fun _ => rfl)
      (fun h scope => by simp [h.value_eq]) (fun _ h => h)
  | division c ih =>
    have hne : c.tokens ≠ [] := tokens_ne_nil hf
    obtain ⟨⟨t, ht, hk⟩, hfc⟩ := hf
    exact (ih rfl hfc).under [] (fun _ => rfl)
      (fun h scope => by simp only [value, h.value_eq, h.startLine_eq hne])
      (fun h hfit => ⟨⟨t, h.heads_eq ht, hk⟩, hfit⟩)
  | call line name args c ih =>
    exact (ih rfl hf).under [.read ⟨line, .call name args⟩] (fun _ => rfl)
      (fun h scope => by simp [h.value_eq]) (fun _ h => h)
  | oldCall => exact .none nofun hlines
  | namedBlock line name mode b => exact .none (closed_optionalBody hf).fits_newline hlines
  | inclusion line path via attrs b =>
    exact .none (closed_optionalBody hf).fits_newline hlines
  | statement c ih =>
    exact (ih rfl hf).under [] (fun _ => rfl) (fun h scope => by simp [h.value_eq]) (fun _ h => h)
  | each line head b a =>
    refine .none ⟨fits_body hf.1, ?_⟩ hlines
    cases a with
    | noAlternative => rfl
    | someAlternative => exact ⟨hf.2.1, fits_body hf.2.2⟩
  | filter line name group b =>
    refine .none ⟨fun hg => ?_, (closed_optionalPipeless hf.2).fits_newline⟩ hlines
    cases b with
    | noPipeless => nofun
    | somePipeless => exact hf.1 hg
  | comment line text buffered b => exact .none (closed_optionalPipeless hf).fits_newline hlines
  | dot line b => exact .none (closed_optionalPipeless hf).fits_newline hlines
  | textLines pieces ih =>
    have hne := tokens_ne_nil_of_takes hf.1
    exact (ih rfl hf.2).under [] (fun _ => rfl)
      (fun h scope => by simp only [value, h.value_eq, h.startLine_eq hne])
      (fun h hfit => ⟨by rw [h.lead_eq hne]; exact hf.1, hfit⟩)
  | rawHtml line content nested more ihn ih =>
    -- It takes what the same lines take as a run of HTML, and wraps the result.
    obtain ⟨taken, left, t', hlines, hgrows, hfit⟩ :=
      takes_html hn (ihn rfl) (ih rfl hf.2) hf.1 line content
    obtain ⟨nested', more', rfl, hvalue⟩ := hgrows.exists_htmlLine
    refine ⟨taken, left, rawHtml line content nested' more', hlines,
      ⟨hgrows.trace_eq, fun scope => ?_⟩, hfit⟩
    simp only [value, hvalue]

/-! Items. What stands behind a newline follows what stands in front of it. -/

/-- Items behind newlines. -/
def behindLines (lines : List Line) (u : Phrase .items) : Phrase .items := lines.foldr .newline u

section

variable {u : Phrase .items} {lines : List Line}

theorem trace_behindLines : (u.behindLines lines).trace = lines.map .newline ++ u.trace := by
  induction lines with
  | nil => rfl
  | cons line lines ih =>
    rw [List.map_cons, List.cons_append, ← ih]
    rfl

theorem value_behindLines (scope : Scope) : (u.behindLines lines).value scope = u.value scope := by
  induction lines with
  | nil => rfl
  | cons line lines ih => exact ih

theorem fits_behindLines {next : Lexeme} (hu : u.Fits next) : (u.behindLines lines).Fits next := by
  induction lines with
  | nil => exact hu
  | cons line lines ih => exact ih

theorem dropWhile_behindLines (hu : ∀ t ∈ u.tokens.head?, t.kind ≠ .newline) :
    ((u.behindLines lines).tokens.dropWhile fun t => t.kind == .newline) = u.tokens := by
  induction lines with
  | nil =>
    cases htokens : u.tokens with
    | nil => rw [behindLines, List.foldr_nil, htokens, List.dropWhile_nil]
    | cons t ts =>
      have ht : t.kind ≠ .newline := hu t (by rw [htokens]; rfl)
      rw [behindLines, List.foldr_nil, htokens, List.dropWhile_cons_of_neg (by simpa using ht)]
  | cons line lines ih => exact ih

theorem lead_behindLines {next : Lexeme} :
    (u.behindLines lines).lead next = (u.lead next).behind lines := by
  cases lines <;> rfl

end

/-- Items, newlines behind them, and other items behind these. -/
structure Joins (t : Phrase .items) (lines : List Line) (u v : Phrase .items) : Prop where
  trace_eq : v.trace = t.trace ++ lines.map .newline ++ u.trace
  value_eq : ∀ scope, v.value scope = t.value scope ++ u.value scope
  fits : v.Fits .eos

theorem Joins.lead_eq {t u v : Phrase .items} {lines : List Line} (h : t.Joins lines u v)
    (ht : t.tokens ≠ []) : v.lead .eos = t.lead .eos := by
  have htokens : v.tokens = t.tokens ++ (lines.map Event.newline ++ u.trace).filterMap
      Event.token? := by
    rw [tokens, h.trace_eq, List.append_assoc, List.filterMap_append, tokens]
  rw [lead, lead, htokens, List.head?_append_of_ne_nil _ ht]

theorem eq_done_or_tokens_ne_nil {t : Phrase .items} (ht : t.Fits .eos) :
    t = .done ∨ t.tokens ≠ [] := by
  cases t with
  | done => exact .inl rfl
  | newline | html => exact .inr (List.cons_ne_nil _ _)
  | item e more =>
    refine .inr fun hnil => tokens_ne_nil ht.2.1 ?_
    rw [tokens, trace, List.filterMap_append] at hnil
    exact (List.append_eq_nil_iff.mp hnil).1

/-- Where nothing but the beginning of other items follows, an expression reads of the newlines in
front of them what it may, and the others are read between the items. -/
theorem exists_joins {u : Phrase .items} (hu : u.Fits .eos)
    (hk : (u.lead .eos).kind.continues = false) {lines : List Line} (hlines : lines ≠ [])
    (t : Phrase .items) (ht : t.Fits .eos) : ∃ v, t.Joins lines u v := by
  induction t using items_induction with
  | done =>
    refine ⟨u.behindLines lines, trace_behindLines, fun scope => ?_, fits_behindLines hu⟩
    exact value_behindLines scope
  | newline line more ih =>
    obtain ⟨v, hv⟩ := ih ht
    refine ⟨.newline line v, ?_, hv.value_eq, hv.fits⟩
    simp [hv.trace_eq]
  | item e more ih =>
    obtain ⟨hfirst, hfe, hmore⟩ := ht
    rcases eq_done_or_tokens_ne_nil hmore with rfl | hne
    · obtain ⟨taken, left, e', rfl, hgrows, hfe'⟩ := takes rfl hlines hk hfe
      refine ⟨.item e' (u.behindLines left), ?_, fun scope => ?_, ?_, ?_, fits_behindLines hu⟩
      · simp [hgrows.trace_eq, trace_behindLines]
      · simp [hgrows.value_eq, value_behindLines]
      · rwa [hgrows.lead_eq (tokens_ne_nil hfe)]
      · rwa [lead_behindLines]
    · obtain ⟨v, hv⟩ := ih hmore
      refine ⟨.item e v, ?_, fun scope => ?_, ?_⟩
      · simp [hv.trace_eq]
      · simp [hv.value_eq]
      · rw [Fits, hv.lead_eq hne]
        exact ⟨hfirst, hfe, hv.fits⟩
  | html line content nested run more ih =>
    obtain ⟨hnested, hrun, hmore⟩ := ht
    rcases eq_done_or_tokens_ne_nil hmore with rfl | hne
    · obtain ⟨taken, left, t', rfl, hgrows, hf⟩ :=
        takes (t := htmlLine line content nested run) rfl hlines hk ⟨hnested, hrun⟩
      obtain ⟨nested', run', rfl, hvalue⟩ := hgrows.exists_htmlLine
      have htrace := hgrows.trace_eq
      refine ⟨.html line content nested' run' (u.behindLines left), ?_, fun scope => ?_, ?_⟩
      · simp only [trace] at htrace ⊢
        simp [htrace, trace_behindLines]
      · simp [hvalue, value_behindLines]
      · rw [Fits, lead_behindLines]
        exact ⟨hf.1, hf.2, fits_behindLines hu⟩
    · obtain ⟨v, hv⟩ := ih hmore
      refine ⟨.html line content nested run v, ?_, fun scope => ?_, ?_⟩
      · simp [hv.trace_eq]
      · simp [hv.value_eq]
      · rw [Fits, hv.lead_eq hne]
        exact ⟨hnested, hrun, hv.fits⟩

/-- Items are newlines and what follows them, which goes on with nothing unless it begins with
text. -/
theorem exists_behindLines (t : Phrase .items) (ht : t.Fits .eos) :
    ∃ (lines : List Line) (u : Phrase .items), t = u.behindLines lines ∧ u.Fits .eos ∧
      ∀ v ∈ u.tokens.head?, v.kind ≠ .newline ∧
        (v.kind ≠ .text → v.kind ≠ .textHtml → v.kind ≠ .startInterpolation →
          v.kind.continues = false) := by
  induction t using items_induction with
  | done => exact ⟨[], .done, rfl, trivial, nofun⟩
  | newline line more ih =>
    obtain ⟨lines, u, rfl, hu, hfirst⟩ := ih ht
    exact ⟨line :: lines, u, rfl, hu, hfirst⟩
  | html line content nested run more =>
    refine ⟨[], _, rfl, ht, fun v hv => ?_⟩
    cases hv
    exact ⟨nofun, fun _ hh => absurd rfl hh⟩
  | item e more =>
    refine ⟨[], _, rfl, ht, fun v hv => ?_⟩
    obtain ⟨w, hw, hs⟩ := exists_head?_tokens ht.2.1
    obtain ⟨ws, hws⟩ := List.head?_eq_some_iff.mp hw
    rw [tokens, trace, List.filterMap_append, ← tokens, hws] at hv
    cases hv
    exact ⟨hs.ne_newline, hs.not_continues⟩

end Phrase

namespace Template

variable {file : Option String} {a b : List Token} {p q : Parsed}

/-- A template behind another one and a newline is read as it is alone, unless it begins with
text. -/
theorem parse_append (ha : ∀ t ∈ a, t.isEos = false) (hb : ∀ t ∈ b, t.isEos = false)
    (hp : parse file a = .ok p) (hq : parse file b = .ok q)
    (hfirst : ∀ t ∈ (b.dropWhile fun t => t.kind == .newline).head?,
      t.kind ≠ .text ∧ t.kind ≠ .textHtml ∧ t.kind ≠ .startInterpolation) (line : Line) :
    parse file (a ++ ⟨line, .newline⟩ :: b) =
      .ok ⟨.ofNodes ⟨0, file⟩ (p.root.nodes ++ q.root.nodes), p.warnings ++ q.warnings⟩ := by
  obtain ⟨t, ht, rfl, htlaw, rfl⟩ := (parse_ok_of_proper ha).mp hp
  obtain ⟨w, hw, rfl, hwlaw, rfl⟩ := (parse_ok_of_proper hb).mp hq
  obtain ⟨lines, u, rfl, hu, hhead⟩ := w.exists_behindLines hw
  have hcont : (u.lead .eos).kind.continues = false := by
    rw [Phrase.dropWhile_behindLines fun t ht => (hhead t ht).1] at hfirst
    rw [Phrase.lead]
    cases htokens : u.tokens with
    | nil => rfl
    | cons v vs =>
      have hv : v ∈ u.tokens.head? := by rw [htokens]; rfl
      obtain ⟨ht, hh, hi⟩ := hfirst v hv
      exact (hhead v hv).2 ht hh hi
  obtain ⟨v, hv⟩ := Phrase.exists_joins hu hcont (List.cons_ne_nil line lines) t ht
  have htrace : v.trace = t.trace ++ .newline line :: (u.behindLines lines).trace := by
    rw [hv.trace_eq, Phrase.trace_behindLines]
    simp
  have htokens : v.tokens = t.tokens ++ ⟨line, .newline⟩ :: (u.behindLines lines).tokens := by
    rw [Phrase.tokens, htrace, List.filterMap_append]
    rfl
  have hvalue : v.value ⟨file⟩ = t.value ⟨file⟩ ++ (u.behindLines lines).value ⟨file⟩ := by
    rw [hv.value_eq, Phrase.value_behindLines]
  have hlaw : Lawful v.trace := by
    rw [htrace, Lawful, lawfulAfter_append, lawfulAfter_cons]
    refine ⟨htlaw, trivial, ?_⟩
    have hbehind : LawfulAfter ((t.trace ++ [.newline line]) ++ []) (u.behindLines lines).trace :=
      LawfulAfter.behind hwlaw
    rwa [List.append_nil] at hbehind
  rw [← htokens, parse_tokens hv.fits hlaw, parsed, hvalue, htrace, List.flatMap_append,
    List.map_append]
  rfl

/-- A call in the old way, and a tag with HTML behind a colon, which reads what follows it on its
line. -/
def htmlInTag : List Token :=
  [⟨1, .mixin "m" none⟩, ⟨2, .newline⟩, ⟨2, .tag "p" false⟩, ⟨2, .colon⟩, ⟨2, .textHtml "<b>"⟩]

/-- Another call in the old way, behind a newline. -/
def callOnNextLine : List Token := [⟨4, .newline⟩, ⟨4, .mixin "n" none⟩]

theorem parse_append_htmlInTag :
    ∃ p q, (∀ t ∈ htmlInTag, t.isEos = false) ∧ (∀ t ∈ callOnNextLine, t.isEos = false) ∧
      parse none htmlInTag = .ok p ∧ parse none callOnNextLine = .ok q ∧
      (∀ t ∈ (callOnNextLine.dropWhile fun t => t.kind == .newline).head?,
        t.kind ≠ .text ∧ t.kind ≠ .textHtml ∧ t.kind ≠ .startInterpolation) ∧
      p.root.nodes.length = 2 ∧ q.root.nodes.length = 1 ∧
      parse none (htmlInTag ++ ⟨3, .newline⟩ :: callOnNextLine) =
        .ok ⟨.ofNodes ⟨0, none⟩ (p.root.nodes ++ q.root.nodes), p.warnings ++ q.warnings⟩ := by
  have ha : ∀ t ∈ htmlInTag, t.isEos = false := by decide
  have hb : ∀ t ∈ callOnNextLine, t.isEos = false := by decide
  obtain ⟨p, hp, hlength⟩ : ∃ p, parse none htmlInTag = .ok p ∧ p.root.nodes.length = 2 :=
    exists_parsed (by decide +kernel)
  obtain ⟨q, hq, hlength'⟩ : ∃ q, parse none callOnNextLine = .ok q ∧ q.root.nodes.length = 1 :=
    exists_parsed (by decide +kernel)
  have hfirst : ∀ t ∈ (callOnNextLine.dropWhile fun t => t.kind == .newline).head?,
      t.kind ≠ .text ∧ t.kind ≠ .textHtml ∧ t.kind ≠ .startInterpolation := by decide
  exact ⟨p, q, ha, hb, hp, hq, hfirst, hlength, hlength', parse_append ha hb hp hq hfirst 3⟩

end Template

end TemplateTree
