import TemplateTree.Proofs.Assembly
import TemplateTree.Proofs.HtmlRuns

/-!
Where else branches end up in a tree. An else that the lexer did not link stands in a list of
nodes right behind the node of an expression that ends with a conditional: the conditional itself,
or a tag or call with the conditional at the end of its line. It never stands on such a line, so
its left neighbour need not be a line of code. At most one newline separates the two, and they stay
neighbours where a body nested under HTML moves into the list around it.
-/

namespace TemplateTree
set_option autoImplicit false

namespace Node

theorem consHtml_append {x : Node} (hx : x.htmlText? = none) (n : Node) (xs ys : List Node) :
    consHtml n (xs ++ x :: ys) = consHtml n xs ++ x :: ys := by
  cases xs with
  | nil =>
    simp only [List.nil_append, consHtml, hx]
    cases n.htmlText? <;> rfl
  | cons m xs =>
    simp only [List.cons_append, consHtml]
    split <;> rfl

theorem joinHtml_append_cons {x : Node} (hx : x.htmlText? = none) (xs ys : List Node) :
    joinHtml (xs ++ x :: ys) = joinHtml xs ++ x :: joinHtml ys := by
  induction xs with
  | nil => exact consHtml_of_not_html hx _
  | cons n xs ih =>
    change consHtml n (joinHtml (xs ++ x :: ys)) = consHtml n (joinHtml xs) ++ x :: joinHtml ys
    rw [ih, consHtml_append hx]

/-- Joining adjacent HTML leaves other neighbours as they are. -/
theorem infix_joinHtml {x y : Node} {nodes : List Node} (hx : x.htmlText? = none)
    (hy : y.htmlText? = none) (h : [x, y] <:+: nodes) : [x, y] <:+: joinHtml nodes := by
  obtain ⟨pre, post, rfl⟩ := h
  refine ⟨joinHtml pre, joinHtml post, ?_⟩
  simp only [List.append_assoc, List.cons_append, List.nil_append]
  rw [joinHtml_append_cons hx, ← List.nil_append (y :: post), joinHtml_append_cons hy]
  rfl

end Node

namespace Phrase

/-- What goes into a list of nodes, in the order of the stream: an expression as a whole, or a
token that belongs to none. -/
inductive Entry where
  | expression (e : Phrase .expression)
  | token (t : Token)

namespace Entry

def newline (line : Line) : Entry := token ⟨line, .newline⟩

def html (line : Line) (content : String) : Entry := token ⟨line, .textHtml content⟩

def tokens : Entry → List Token
  | expression e => e.tokens
  | token t => [t]

end Entry

/-- What stands at one level, with the bodies nested under HTML spread out. For an expression this
is what stands right under it. -/
@[simp] def entries : {g : Symbol} → Phrase g → List Entry
  | _, newline line more => .newline line :: more.entries
  | _, html line content nested lines more =>
    [.html line content] ++ nested.entries ++ lines.entries ++ more.entries
  | _, item e more => .expression e :: more.entries
  | _, body opening width items closing =>
    [.token ⟨opening, .indent width⟩] ++ items.entries ++ [.token ⟨closing, .outdent⟩]
  | _, someBody b => b.entries
  | _, htmlLine line content nested lines =>
    [.html line content] ++ nested.entries ++ lines.entries
  | _, nestedBody b => b.entries
  | _, nestedNewline line => [.newline line]
  | _, code _ _ b => b.entries
  | _, plain _ _ _ b => b.entries
  | _, expansionBody b => b.entries
  | _, someAlternative _ _ b => b.entries
  | _, tag _ _ _ c => c.entries
  | _, buffered _ _ c => c.entries
  | _, division c => c.entries
  | _, call _ _ _ c => c.entries
  | _, definition _ _ _ b => b.entries
  | _, namedBlock _ _ _ b => b.entries
  | _, inclusion _ _ _ _ b => b.entries
  | _, statement c => c.entries
  | _, each _ _ b a => b.entries ++ a.entries
  | _, rawHtml line content nested lines =>
    [.html line content] ++ nested.entries ++ lines.entries
  | _, _ => []

/-- A line of code that is an else the lexer did not link. -/
def IsBareElse : Phrase .expression → Prop
  | statement (code _ c _) => c.isElse = true ∧ c.hasIf = false
  | _ => False

/-- Ends with a conditional, on the line of a head or by itself, and then the given newlines. -/
def EndsInConditional : {g : Symbol} → Phrase g → List Line → Prop
  | _, code _ c _, behind => c.isIf = true ∧ behind = []
  | _, lineCode c, behind => c.EndsInConditional behind
  | _, lineColon _ e, behind => e.EndsInConditional behind
  | _, plain _ l newlines b, behind =>
    b = noBody ∧ ∃ earlier, l.EndsInConditional earlier ∧ behind = earlier ++ newlines
  | _, dotted _ _ l newlines b, behind =>
    b = noPipeless ∧ ∃ earlier, l.EndsInConditional earlier ∧ behind = earlier ++ newlines
  | _, tag _ _ _ c, behind => c.EndsInConditional behind
  | _, buffered _ _ c, behind => c.EndsInConditional behind
  | _, division c, behind => c.EndsInConditional behind
  | _, call _ _ _ c, behind => c.EndsInConditional behind
  | _, statement c, behind => c.EndsInConditional behind
  | _, _, _ => False

/-- Ends with a conditional, with at most one newline behind it when the given ones are counted. -/
def AdmitsElse {g : Symbol} (t : Phrase g) (lines : List Line) : Prop :=
  ∃ behind, t.EndsInConditional behind ∧ (behind ++ lines).length ≤ 1

section

variable {before : List Event}

/-- Behind the closing token of a body no conditional was just finished. -/
theorem not_afterConditional_body (b : Phrase .body) : ¬ AfterConditional (before ++ b.trace) := by
  cases b with
  | body opening width items closing =>
    rw [trace, ← List.append_assoc]
    exact not_afterConditional_concat rfl nofun

theorem afterConditional_optionalBody (b : Phrase .optionalBody)
    (h : AfterConditional (before ++ b.trace)) : b = .noBody ∧ AfterConditional before := by
  cases b with
  | noBody => exact ⟨rfl, by simpa [trace] using h⟩
  | someBody b => exact absurd h (not_afterConditional_body b)

theorem afterConditional_optionalPipeless (b : Phrase .optionalPipeless)
    (h : AfterConditional (before ++ b.trace)) : b = .noPipeless ∧ AfterConditional before := by
  cases b with
  | noPipeless => exact ⟨rfl, by simpa [trace] using h⟩
  | somePipeless opening pieces closing =>
    rw [trace, ← List.append_assoc] at h
    exact absurd h (not_afterConditional_concat rfl nofun)

theorem afterConditional_alternative (a : Phrase .alternative)
    (h : AfterConditional (before ++ a.trace)) : a = .noAlternative ∧ AfterConditional before := by
  cases a with
  | noAlternative => exact ⟨rfl, by simpa [trace] using h⟩
  | someAlternative line c b =>
    rw [trace, List.append_cons] at h
    exact absurd h (not_afterConditional_body b)

/-- A run of text can only go on behind a conditional with a newline. -/
theorem afterConditional_text {p : TextPlace} (pieces : Phrase (.text p))
    (h : AfterConditional (before ++ pieces.trace)) : AfterConditional before := by
  induction pieces using text_induction generalizing before with
  | textEnd => simpa [trace] using h
  | textPiece line content more ih =>
    rw [trace, List.append_cons] at h
    exact absurd (ih h) (not_afterConditional_concat rfl nofun)
  | textBreak line more ih =>
    rw [trace, List.append_cons] at h
    exact .inl (afterConditional_newline.mp (ih h))
  | textInterpolation opening e closing more ih =>
    rw [trace, ← List.append_assoc, List.append_cons] at h
    exact absurd (ih h) (not_afterConditional_concat rfl nofun)

theorem afterConditional_nested (nested : Phrase .nested)
    (h : AfterConditional (before ++ nested.trace)) : AfterConditional before := by
  cases nested with
  | nestedNone => simpa [trace] using h
  | nestedBody b => exact absurd h (not_afterConditional_body b)
  | nestedNewline line => exact .inl (afterConditional_newline.mp h)

theorem not_afterConditional_nested {line : Line} {content : String} (nested : Phrase .nested) :
    ¬ AfterConditional (before ++ .read ⟨line, .textHtml content⟩ :: nested.trace) := by
  intro h
  rw [List.append_cons] at h
  exact absurd (afterConditional_nested nested h) (not_afterConditional_concat rfl nofun)

theorem afterConditional_html (lines : Phrase .html)
    (h : AfterConditional (before ++ lines.trace)) : AfterConditional before := by
  induction lines using html_induction generalizing before with
  | htmlEnd => simpa [trace] using h
  | htmlLine line content nested lines ih =>
    rw [trace, ← List.append_assoc] at h
    exact absurd (ih h) (not_afterConditional_nested nested)

/-- No run of HTML ends with a conditional. -/
theorem not_afterConditional_html {line : Line} {content : String} (nested : Phrase .nested)
    (lines : Phrase .html) : ¬ AfterConditional
      (before ++ (.read ⟨line, .textHtml content⟩ :: nested.trace ++ lines.trace)) := by
  intro h
  rw [← List.append_assoc] at h
  exact not_afterConditional_nested nested (afterConditional_html lines h)

/-- Expressions whose line may end with code. -/
def mayEndInCode : Phrase .expression → Bool
  | tag .. => true
  | buffered .. => true
  | division _ => true
  | call .. => true
  | statement _ => true
  | _ => false

/-- Behind any other expression a conditional can only have been finished before it. -/
theorem afterConditional_other (e : Phrase .expression) (he : e.mayEndInCode = false)
    (h : AfterConditional (before ++ e.trace)) : AfterConditional before := by
  cases e with
  | tag | buffered | division | call | statement => cases he
  | definition line name args b =>
    rw [trace, ← List.append_assoc, afterConditional_quiet (e := .leaveMixin) rfl nofun,
      List.append_cons, List.append_cons] at h
    exact absurd h (not_afterConditional_body b)
  | oldCall line name args =>
    rw [trace, List.append_cons, afterConditional_quiet (e := .notices _) rfl nofun] at h
    exact absurd h (not_afterConditional_concat rfl nofun)
  | mixinBlock | inherit | doctype | yield =>
    exact absurd h (not_afterConditional_concat rfl nofun)
  | namedBlock line name mode b | inclusion line path via attrs b =>
    rw [trace, List.append_cons] at h
    exact absurd (afterConditional_optionalBody b h).2 (not_afterConditional_concat rfl nofun)
  | each line head b a =>
    rw [trace, ← List.append_assoc, List.append_cons] at h
    exact absurd (afterConditional_alternative a h).2 (not_afterConditional_body b)
  | case line source opening width bs closing =>
    rw [trace, ← List.append_assoc] at h
    exact absurd h (not_afterConditional_concat rfl nofun)
  | filter line name group b =>
    rw [trace, ← List.append_assoc] at h
    have h := (afterConditional_optionalPipeless b h).2
    cases group with
    | none => exact absurd h (not_afterConditional_concat rfl nofun)
    | some g =>
      rw [Option.map_some, Option.toList_some, List.append_cons] at h
      exact absurd h (not_afterConditional_concat rfl nofun)
  | comment line text buffered b | dot line b =>
    rw [trace, List.append_cons] at h
    exact absurd (afterConditional_optionalPipeless b h).2 (not_afterConditional_concat rfl nofun)
  | textLines pieces => exact afterConditional_text pieces h
  | rawHtml line content nested lines => exact absurd h (not_afterConditional_html nested lines)

/-- The symbols whose phrases may end with a conditional. -/
def mayEnd : Symbol → Bool
  | .expression => true
  | .content => true
  | .line => true
  | .code => true
  | _ => false

/-- When a conditional was finished right before the given newlines behind a phrase, the phrase
ends with it or consists of nothing but perhaps a newline behind it. -/
theorem admitsElse_or {g : Symbol} (t : Phrase g) (hg : mayEnd g = true) {lines : List Line}
    (h : AfterConditional (before ++ t.trace ++ lines.map .newline)) :
    t.AdmitsElse lines ∨ AfterConditional before := by
  induction t generalizing before lines with
  | code line c b =>
    obtain ⟨hlines, h⟩ := afterConditional_newlines h
    by_cases hc : c.isIf = true
    · exact .inl ⟨[], ⟨hc, rfl⟩, hlines⟩
    · rw [trace, if_neg hc, List.append_nil, List.append_cons] at h
      exact absurd (afterConditional_optionalBody b h).2 (not_afterConditional_concat rfl nofun)
  | lineEnd => exact .inr (by simpa [trace] using (afterConditional_newlines h).2)
  | lineText pieces => exact .inr (afterConditional_text pieces (afterConditional_newlines h).2)
  | lineCode c ih => exact ih rfl h
  | lineColon colon e ih =>
    rw [trace, List.append_cons] at h
    exact .inl ((ih rfl h).resolve_right (not_afterConditional_concat rfl nofun))
  | plain heads l newlines b ihl =>
    have hb := (afterConditional_newlines h).2
    rw [trace, ← List.append_assoc] at hb
    obtain ⟨rfl, -⟩ := afterConditional_optionalBody b hb
    have hl : AfterConditional ((before ++ heads.map .read ++
        [.notices (Head.notices false heads)]) ++ l.trace ++ (newlines ++ lines).map .newline) := by
      simpa [trace] using h
    rcases ihl rfl hl with ⟨earlier, hends, hlen⟩ | h
    · exact .inl ⟨earlier ++ newlines, ⟨rfl, earlier, hends, rfl⟩, by rwa [List.append_assoc]⟩
    · exact .inr (afterConditional_reads
        ((afterConditional_quiet (e := .notices _) rfl nofun).mp h))
  | dotted heads dotLine l newlines b ihl =>
    have hb := (afterConditional_newlines h).2
    rw [trace, ← List.append_assoc] at hb
    obtain ⟨rfl, -⟩ := afterConditional_optionalPipeless b hb
    have hl : AfterConditional ((before ++ heads.map .read ++
        [.notices (Head.notices false heads)] ++ [.read ⟨dotLine, .dot⟩]) ++ l.trace ++
          (newlines ++ lines).map .newline) := by
      simpa [trace] using h
    obtain ⟨earlier, hends, hlen⟩ :=
      (ihl rfl hl).resolve_right (not_afterConditional_concat rfl nofun)
    exact .inl ⟨earlier ++ newlines, ⟨rfl, earlier, hends, rfl⟩, by rwa [List.append_assoc]⟩
  | tag line name selfClosing c ih | buffered line source c ih | call line name args c ih =>
    rw [trace, List.append_cons] at h
    exact .inl ((ih rfl h).resolve_right (not_afterConditional_concat rfl nofun))
  | division c ih | statement c ih => exact ih rfl h
  | definition | oldCall | mixinBlock | namedBlock | inclusion | each | case | inherit | doctype
    | yield | filter | comment | dot | textLines | rawHtml =>
    exact .inr (afterConditional_other _ rfl (afterConditional_newlines h).2)
  | _ => cases hg

theorem admitsElse (e : Phrase .expression) {next : Lexeme} (hf : e.Fits next) {lines : List Line}
    (h : AfterConditional (before ++ e.trace ++ lines.map .newline)) : e.AdmitsElse lines := by
  obtain ⟨ev, es, t, htrace, ht, hs⟩ := e.exists_opener hf
  have hk : t.kind ≠ .newline := by
    intro hk
    rw [hk] at hs
    cases hs
  rw [htrace, List.append_assoc, List.cons_append] at h
  have hown : AfterConditional ([] ++ e.trace ++ lines.map .newline) := by
    rw [htrace]
    exact afterConditional_append ht hk h
  exact (e.admitsElse_or rfl hown).resolve_right not_afterConditional_nil

/-- An else that the lexer did not link may only stand behind a conditional. -/
theorem afterConditional_of_isBareElse (e : Phrase .expression) (hl : LawfulAfter before e.trace)
    (he : e.IsBareElse) : AfterConditional before := by
  cases e with
  | statement c =>
    cases c with
    | code line c b =>
      have h := (lawfulAfter_cons.mp hl).1 he.1
      exact h.resolve_left fun h => by rw [he.2] at h; cases h
  | _ => cases he

end

variable (scope : Scope)

/-- Of what stands in a list, the given expression comes last, but for newlines, and an else may
follow these. -/
def BehindConditional (pre : List Entry) (f : Phrase .expression) : Prop :=
  ∃ (init : List Entry) (lines : List Line),
    pre = init ++ .expression f :: lines.map Entry.newline ∧ f.AdmitsElse lines

/-- Every else that the lexer did not link stands right behind an expression that ends with a
conditional, with at most one newline in between, and their nodes are neighbours in the list. -/
def ElsesFollow (es : List Entry) (nodes : List Node) : Prop :=
  ∀ pre e post, es = pre ++ .expression e :: post → e.IsBareElse →
    ∃ f, BehindConditional pre f ∧ [f.value scope, e.value scope] <:+: nodes

/-- The same, but that an else may also come first, behind a conditional before the list. -/
def Linked (before : List Event) (es : List Entry) (nodes : List Node) : Prop :=
  ∀ pre e post, es = pre ++ .expression e :: post → e.IsBareElse →
    (∃ (lines : List Line) (rest : List Node), pre = lines.map Entry.newline ∧
      AfterConditional (before ++ lines.map .newline) ∧ nodes = e.value scope :: rest) ∨
    ∃ f, BehindConditional pre f ∧ [f.value scope, e.value scope] <:+: nodes

theorem htmlText?_of_ends (e : Phrase .expression) {behind : List Line}
    (h : e.EndsInConditional behind) :
    (e.value scope).htmlText? = none := by
  cases e with
  | statement c =>
    cases c
    rfl
  | tag | buffered | division | call => rfl
  | _ => cases h

theorem htmlText?_of_isBareElse (e : Phrase .expression) (h : e.IsBareElse) :
    (e.value scope).htmlText? = none := by
  cases e with
  | statement c =>
    cases c
    rfl
  | _ => cases h


theorem BehindConditional.behind {pre : List Entry} {f : Phrase .expression}
    (h : BehindConditional pre f) (earlier : List Entry) : BehindConditional (earlier ++ pre) f := by
  obtain ⟨init, lines, rfl, hf⟩ := h
  exact ⟨earlier ++ init, lines, (List.append_assoc ..).symm, hf⟩

theorem BehindConditional.htmlText?_eq_none {pre : List Entry} {f : Phrase .expression}
    (h : BehindConditional pre f) : (f.value scope).htmlText? = none := by
  obtain ⟨_, _, -, _, hends, -⟩ := h
  exact f.htmlText?_of_ends scope hends

namespace ElsesFollow

variable {scope} {es fs : List Entry} {ms ns : List Node}

theorem nil : ElsesFollow scope [] ns := by
  intro pre e post he
  cases pre <;> cases he

theorem token (t : Token) : ElsesFollow scope [.token t] ns := by
  intro pre e post he
  cases pre with
  | nil => cases he
  | cons _ pre => cases pre <;> cases he

theorem append (h : ElsesFollow scope es ms) (h' : ElsesFollow scope fs ns) :
    ElsesFollow scope (es ++ fs) (ms ++ ns) := by
  intro pre e post he hb
  rcases append_eq_append_cons he with ⟨mid, rfl, -⟩ | ⟨mid, rfl, hfs⟩
  · obtain ⟨f, hf, hpair⟩ := h pre e mid rfl hb
    exact ⟨f, hf, hpair.trans (List.prefix_append ms ns).isInfix⟩
  · obtain ⟨f, hf, hpair⟩ := h' mid e post hfs hb
    exact ⟨f, hf.behind es, hpair.trans (List.suffix_append ms ns).isInfix⟩

theorem joinHtml (h : ElsesFollow scope es ns) : ElsesFollow scope es (Node.joinHtml ns) := by
  intro pre e post he hb
  obtain ⟨f, hf, hpair⟩ := h pre e post he hb
  exact ⟨f, hf, Node.infix_joinHtml (hf.htmlText?_eq_none scope)
    (e.htmlText?_of_isBareElse scope hb) hpair⟩

end ElsesFollow

namespace Linked

variable {scope} {before : List Event} {es : List Entry} {ns : List Node}

theorem newline {line : Line} (h : Linked scope (before ++ [.newline line]) es ns) :
    Linked scope before (.newline line :: es) ns := by
  intro pre e post he hb
  cases pre with
  | nil => cases he
  | cons _ pre =>
    obtain ⟨rfl, hes⟩ := List.cons.inj he
    rcases h pre e post hes hb with ⟨lines, rest, rfl, hafter, hn⟩ | ⟨f, hf, hpair⟩
    · rw [List.append_assoc] at hafter
      exact .inl ⟨line :: lines, rest, rfl, hafter, hn⟩
    · exact .inr ⟨f, hf.behind [.newline line], hpair⟩

theorem item {first : Phrase .expression} {next : Lexeme} (hf : first.Fits next)
    (hl : LawfulAfter before first.trace) (h : Linked scope (before ++ first.trace) es ns) :
    Linked scope before (.expression first :: es) (first.value scope :: ns) := by
  intro pre e post he hb
  cases pre with
  | nil =>
    obtain ⟨hfirst, -⟩ := List.cons.inj he
    cases hfirst
    refine .inl ⟨[], ns, rfl, ?_, rfl⟩
    simpa using afterConditional_of_isBareElse first hl hb
  | cons _ pre =>
    obtain ⟨rfl, hes⟩ := List.cons.inj he
    rcases h pre e post hes hb with ⟨lines, rest, rfl, hafter, rfl⟩ | ⟨f, hf, hpair⟩
    · exact .inr ⟨first, ⟨[], lines, rfl, first.admitsElse hf hafter⟩, [], rest, rfl⟩
    · exact .inr ⟨f, hf.behind [.expression first], List.infix_cons hpair⟩

end Linked

end Phrase

namespace Template

end Template

end TemplateTree
