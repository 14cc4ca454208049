import TemplateTree.Proofs.Acceptance

/-!
Runs of HTML. What is read as one run gives the lines of the run, each with the nodes of the body
that is nested under it, and of these each group of adjacent HTML becomes one text. The bodies may
hold runs of their own; whether these were joined before makes no difference.
-/

namespace TemplateTree
set_option autoImplicit false

namespace Phrase

variable (scope : Scope)

/-- The nodes of a run of HTML before adjacent HTML is joined. -/
def htmlPieces (line : Line) (content : String) (nested : Phrase .nested)
    (lines : Phrase .html) : List Node :=
  scope.htmlText line content :: (nested.value scope ++ lines.value scope)

/-- What stands at one level, in a body or in a run of HTML, with no HTML joined in it or in the
bodies nested under HTML. -/
def loose : {g : Symbol} → Phrase g → List Node
  | _, newline _ more => more.loose
  | _, html line content nested lines more =>
    scope.htmlText line content :: (nested.loose ++ lines.loose) ++ more.loose
  | _, item e more => e.value scope :: more.loose
  | _, body _ _ items _ => items.loose
  | _, htmlLine line content nested lines =>
    scope.htmlText line content :: (nested.loose ++ lines.loose)
  | _, nestedBody b => b.loose
  | _, _ => []

/-- The nodes of a run of HTML with no HTML joined at any depth. -/
def looseHtml (line : Line) (content : String) (nested : Phrase .nested)
    (lines : Phrase .html) : List Node :=
  scope.htmlText line content :: (nested.loose scope ++ lines.loose scope)

/-- A phrase stands for its loose nodes but for HTML that was joined. -/
def Loosens : {g : Symbol} → Phrase g → Prop
  | .items, t => Node.SameJoined (t.value scope) (t.loose scope)
  | .body, t => Node.SameJoined (t.value scope).nodes (t.loose scope)
  | .html, t => Node.SameJoined (t.value scope) (t.loose scope)
  | .nested, t => Node.SameJoined (t.value scope) (t.loose scope)
  | _, _ => True

theorem sameJoined_htmlPieces (line : Line) (content : String) {nested : Phrase .nested}
    {lines : Phrase .html} (hn : nested.Loosens scope) (hl : lines.Loosens scope) :
    Node.SameJoined (htmlPieces scope line content nested lines)
      (looseHtml scope line content nested lines) :=
  (hn.append hl).cons _

theorem loosens {g : Symbol} (t : Phrase g) : t.Loosens scope := by
  induction t with
  | done | htmlEnd | nestedNone | nestedNewline => exact .refl []
  | newline _ more ih => exact ih
  | item e more _ ih => exact ih.cons (e.value scope)
  | body _ _ items _ ih => exact ih
  | nestedBody b ih => exact ih
  | html line content nested lines more ihn ihl ih =>
    have hrun := (Node.SameJoined.joinHtml (htmlPieces scope line content nested lines)).trans
      (sameJoined_htmlPieces scope line content ihn ihl)
    exact hrun.append ih
  | htmlLine line content nested lines ihn ihl =>
    exact sameJoined_htmlPieces scope line content ihn ihl
  | _ => trivial

end Phrase

namespace Grammar

variable {scope : Scope} {n : Nat} {line : Line} {content : String} {s s' : State}
variable {nodes : List Node}

/-- A run of HTML gives its lines and the nodes nested under them, with one text for each group of
adjacent HTML, whether or not HTML was joined within the bodies. No HTML is left next to HTML, and
nothing gets lost. -/
theorem htmlFrom_groups (hp : s.Plain)
    (h : (htmlFrom scope (answer .slot scope n) line content).Runs s nodes s') :
    ∃ (nested : Phrase .nested) (lines : Phrase .html),
      nested.Fits (lines.lead s'.cursor.peek.lexeme) ∧ lines.Fits s'.cursor.peek.lexeme ∧
      Leads (nested.trace ++ lines.trace) s s' ∧
      nodes = Node.groupHtml (Phrase.htmlPieces scope line content nested lines) ∧
      nodes = Node.groupHtml (Phrase.looseHtml scope line content nested lines) ∧
      (nodes.IsChain fun m n => Node.bothHtml m n = false) ∧
      nodes.filter (!·.isHtml) =
        (Phrase.looseHtml scope line content nested lines).filter (!·.isHtml) ∧
      "\n".intercalate (nodes.filterMap Node.htmlText?) = "\n".intercalate
        ((Phrase.looseHtml scope line content nested lines).filterMap Node.htmlText?) := by
  obtain ⟨-, _, ⟨nested, lines, hn, hl, rfl, m, hnested, hlines⟩, hnodes⟩ :=
    ((htmlFrom_meets (answer_meets n) line content).runs hp trivial).mp h
  have hsame := Phrase.sameJoined_htmlPieces scope line content (nested.loosens scope)
    (lines.loosens scope)
  have hloose : nodes = Node.joinHtml (Phrase.looseHtml scope line content nested lines) :=
    hnodes.trans hsame.eq
  refine ⟨nested, lines, hn, hl, Leads.append_iff.mpr ⟨m, hnested, hlines⟩, ?_, ?_, ?_, ?_, ?_⟩
  · rw [hnodes, Node.joinHtml_eq]
    rfl
  · rw [hloose, Node.joinHtml_eq]
  · rw [hloose]
    exact Node.isChain_joinHtml _
  · rw [hloose, Node.filter_joinHtml]
  · rw [hloose, Node.intercalate_joinHtml]

/-- A list whose first item holds a tag between two lines of HTML. -/
theorem htmlFrom_groups_list :
    let s : State := .start (.ofTokens [⟨2, .indent 2⟩, ⟨2, .textHtml "<li>"⟩, ⟨2, .newline⟩,
      ⟨3, .tag "b" false⟩, ⟨3, .newline⟩, ⟨4, .textHtml "</li>"⟩, ⟨5, .outdent⟩,
      ⟨5, .textHtml "</ul>"⟩])
    ∃ nodes s', (htmlFrom ⟨none⟩ (answer .slot ⟨none⟩ 9) 1 "<ul>").Runs s nodes s' ∧
      nodes.filterMap Node.htmlText? = ["<ul>\n<li>", "</li>\n</ul>"] ∧
      ∃ (nested : Phrase .nested) (lines : Phrase .html),
        Leads (nested.trace ++ lines.trace) s s' ∧
        nodes = Node.groupHtml (Phrase.looseHtml ⟨none⟩ 1 "<ul>" nested lines) := by
  intro s
  have hp : s.Plain := rfl
  have hok : (htmlFrom ⟨none⟩ (answer .slot ⟨none⟩ 9) 1 "<ul>" s (by decide)).toOption.map
      (fun answer => answer.value.filterMap Node.htmlText?) =
        some ["<ul>\n<li>", "</li>\n</ul>"] := by decide +kernel
  obtain ⟨nodes, s', h, hhtml⟩ := Routine.exists_runs _ hok
  obtain ⟨nested, lines, -, -, hl, -, hnodes, -⟩ := htmlFrom_groups hp h
  exact ⟨nodes, s', h, hhtml, nested, lines, hl, hnodes⟩

end Grammar

end TemplateTree
