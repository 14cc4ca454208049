import TemplateTree.Proofs.Specs.Answer
import TemplateTree.Proofs.Trees

/-!
Runs of text at block level. A run takes texts, interpolations and newlines as long as they come.
Every text and every interpolation gives one node, and a newline gives one in front of text only.
So in a run without interpolations the texts of the nodes are the lines of the run, with one line
break between any two of them, however many newlines part them.
-/

namespace TemplateTree
set_option autoImplicit false

/-- A piece of a run of text. -/
inductive TextPiece where
  | text (line : Line) (content : String)
  | newline (line : Line)
  | interpolation (opening : Line) (e : Phrase .expression) (closing : Line)

namespace TextPiece

/-- What happens while a piece is read. -/
def trace : TextPiece → List Event
  | text line content => [.read ⟨line, .text content⟩]
  | newline line => [.newline line]
  | interpolation opening e closing =>
    .read ⟨opening, .startInterpolation⟩ :: e.trace ++ [.read ⟨closing, .endInterpolation⟩]

def isText : TextPiece → Bool
  | text .. => true
  | _ => false

def isNewline : TextPiece → Bool
  | newline _ => true
  | _ => false

def isInterpolation : TextPiece → Bool
  | interpolation .. => true
  | _ => false

def content : TextPiece → String
  | text _ content => content
  | _ => ""

/-- An interpolation holds one expression up to its end. -/
def Fits : TextPiece → Prop
  | interpolation _ e _ => e.Fits .endInterpolation
  | _ => True

variable (scope : Scope)

/-- What a piece in front of another one stands for. -/
def nodes (next : Option TextPiece) : TextPiece → List Node
  | text line content => [scope.text line content]
  | newline line => if next.any isText then [scope.text line "\n"] else []
  | interpolation _ e _ => [e.value scope]

/-- What a run stands for, piece by piece. -/
def runNodes : List TextPiece → List Node
  | [] => []
  | piece :: more => piece.nodes scope more.head? ++ runNodes more

/-- The lines of a run. What stands between two newlines is no line if it is nothing. -/
def lines (run : List TextPiece) : List String :=
  ((run.splitOnP isNewline).filter (!·.isEmpty)).map fun line => String.join (line.map content)

end TextPiece

/-- The text of a node. -/
def Node.text? (n : Node) : Option String :=
  match n.shape with
  | .text content _ => some content
  | _ => none

namespace Phrase

variable {scope : Scope}

/-- The pieces of a run of text. -/
def textPieces : {g : Symbol} → Phrase g → List TextPiece
  | _, textPiece line content more => .text line content :: more.textPieces
  | _, textBreak line more => .newline line :: more.textPieces
  | _, textInterpolation opening e closing more =>
    .interpolation opening e closing :: more.textPieces
  | _, _ => []

theorem trace_textPieces {p : TextPlace} (t : Phrase (.text p)) :
    t.textPieces.flatMap TextPiece.trace = t.trace := by
  apply text_induction (P := fun t => t.textPieces.flatMap TextPiece.trace = t.trace) _ _ _ _ t
  · rfl
  · intro line content more ih
    rw [textPieces, List.flatMap_cons, ih]
    rfl
  · intro line more ih
    rw [textPieces, List.flatMap_cons, ih]
    rfl
  · intro opening e closing more ih
    rw [textPieces, List.flatMap_cons, ih]
    simp [TextPiece.trace]

theorem opensWithText_textPieces {p : TextPlace} (t : Phrase (.text p)) :
    t.textPieces.head?.any TextPiece.isText = t.opensWithText := by
  cases t <;> rfl

theorem runNodes_textPieces (t : Phrase (.text .lines)) :
    TextPiece.runNodes scope t.textPieces = t.value scope := by
  apply text_induction (P := fun t => TextPiece.runNodes scope t.textPieces = t.value scope)
    _ _ _ _ t
  · rfl
  · intro line content more ih
    rw [textPieces, TextPiece.runNodes, ih]
    rfl
  · intro line more ih
    rw [textPieces, TextPiece.runNodes, ih, TextPiece.nodes, opensWithText_textPieces]
    cases h : more.opensWithText <;> simp [h]
  · intro opening e closing more ih
    rw [textPieces, TextPiece.runNodes, ih]
    rfl

/-- The pieces of a run fit, and nothing that could continue the run comes behind them. -/
theorem fits_textPieces (t : Phrase (.text .lines)) {next : Lexeme} (hf : t.Fits next) :
    (∀ piece ∈ t.textPieces, piece.Fits) ∧ TextPlace.lines.takes next.kind = false := by
  revert hf
  apply text_induction (P := fun t => t.Fits next → (∀ piece ∈ t.textPieces, piece.Fits) ∧
    TextPlace.lines.takes next.kind = false) _ _ _ _ t
  · intro hf
    exact ⟨nofun, hf⟩
  · intro line content more ih hf
    exact ⟨List.forall_mem_cons.mpr ⟨trivial, (ih hf).1⟩, (ih hf).2⟩
  · intro line more ih hf
    exact ⟨List.forall_mem_cons.mpr ⟨trivial, (ih hf.2).1⟩, (ih hf.2).2⟩
  · intro opening e closing more ih hf
    exact ⟨List.forall_mem_cons.mpr ⟨hf.1, (ih hf.2).1⟩, (ih hf.2).2⟩

end Phrase

/-! The lines of a run. -/

namespace TextPiece

variable {run : List TextPiece}

theorem splitOnP_newline (line : Line) (run : List TextPiece) :
    (newline line :: run).splitOnP isNewline = [] :: run.splitOnP isNewline := by
  rw [List.splitOnP_cons_eq_if_modifyHead]
  rfl

theorem splitOnP_text (line : Line) (a : String) (run : List TextPiece) :
    (text line a :: run).splitOnP isNewline =
      (run.splitOnP isNewline).modifyHead (List.cons (text line a)) := by
  rw [List.splitOnP_cons_eq_if_modifyHead]
  rfl

theorem lines_newline (line : Line) (run : List TextPiece) :
    lines (newline line :: run) = lines run := by
  rw [lines, splitOnP_newline]
  rfl

theorem lines_text_nil (line : Line) (a : String) : lines [text line a] = [a] := by
  rw [lines, splitOnP_text]
  simp [content]

theorem lines_text_newline (line line' : Line) (a : String) (run : List TextPiece) :
    lines (text line a :: newline line' :: run) = a :: lines run := by
  rw [lines, splitOnP_text, splitOnP_newline]
  simp [lines, content]

theorem lines_text_text (line line' : Line) (a b : String) (run : List TextPiece) :
    ∃ c cs, lines (text line' b :: run) = c :: cs ∧
      lines (text line a :: text line' b :: run) = (a ++ c) :: cs := by
  cases hrun : run.splitOnP isNewline with
  | nil => exact absurd hrun (List.splitOnP_ne_nil _ _)
  | cons group groups =>
    refine ⟨String.join (b :: group.map content),
      (groups.filter (!·.isEmpty)).map fun line => String.join (line.map content), ?_, ?_⟩
    · rw [lines, splitOnP_text, hrun]
      simp [content]
    · rw [lines, splitOnP_text, splitOnP_text, hrun]
      simp [content]

theorem lines_text_ne_nil (line : Line) (a : String) (run : List TextPiece) :
    lines (text line a :: run) ≠ [] := by
  cases hrun : run.splitOnP isNewline with
  | nil => exact absurd hrun (List.splitOnP_ne_nil _ _)
  | cons group groups => simp [lines, splitOnP_text, hrun]

/-- The line break in front of the first line, if newlines stand there. -/
def leadingBreak (run : List TextPiece) : String :=
  if run.head?.any isNewline ∧ lines run ≠ [] then "\n" else ""

theorem leadingBreak_of_not_newline {piece : TextPiece} (h : piece.isNewline = false) :
    leadingBreak (piece :: run) = "" := if_neg (by simp [h])

theorem leadingBreak_newline_text (line line' : Line) (a : String) (run : List TextPiece) :
    leadingBreak (newline line :: text line' a :: run) = "\n" := by
  refine if_pos ⟨rfl, ?_⟩
  rw [lines_newline]
  exact lines_text_ne_nil line' a run

/-- The texts of the nodes that a run stands for, one behind the other. -/
def joined (scope : Scope) (run : List TextPiece) : String :=
  String.join ((runNodes scope run).filterMap Node.text?)

theorem joined_text (scope : Scope) (line : Line) (a : String) (run : List TextPiece) :
    joined scope (text line a :: run) = a ++ joined scope run := String.join_cons

theorem joined_newline_text (scope : Scope) (line line' : Line) (a : String)
    (run : List TextPiece) : joined scope (newline line :: text line' a :: run) =
      "\n" ++ joined scope (text line' a :: run) := String.join_cons

/-- The texts of the nodes are the lines of the run, with one line break between any two. -/
theorem joined_eq (scope : Scope) (h : ∀ piece ∈ run, piece.isInterpolation = false) :
    joined scope run = leadingBreak run ++ "\n".intercalate (lines run) := by
  induction run with
  | nil => rfl
  | cons piece run ih =>
    obtain ⟨hpiece, hrun⟩ := List.forall_mem_cons.mp h
    have ih := ih hrun
    cases piece with
    | interpolation => cases hpiece
    | text line a =>
      rw [joined_text, ih, leadingBreak_of_not_newline rfl, String.empty_append]
      cases run with
      | nil =>
        rw [lines_text_nil]
        simp [leadingBreak, lines]
      | cons piece run =>
        cases piece with
        | interpolation => cases hrun _ List.mem_cons_self
        | text line' b =>
          obtain ⟨c, cs, hlines, hmore⟩ := lines_text_text line line' a b run
          rw [hmore, hlines, leadingBreak_of_not_newline rfl, String.empty_append,
            String.intercalate_cons_append]
        | newline line' =>
          rw [lines_text_newline, leadingBreak, lines_newline]
          cases hlines : lines run with
          | nil => simp
          | cons c cs => simp [isNewline, String.append_assoc]
    | newline line =>
      cases run with
      | nil => rfl
      | cons piece run =>
        cases piece with
        | interpolation => cases hrun _ List.mem_cons_self
        | text line' b =>
          rw [joined_newline_text, ih, leadingBreak_of_not_newline rfl, leadingBreak_newline_text,
            lines_newline, String.empty_append]
        | newline line' =>
          have hlead : leadingBreak (newline line :: newline line' :: run) =
              leadingBreak (newline line' :: run) := by
            rw [leadingBreak, leadingBreak, lines_newline]
            rfl
          rw [hlead, lines_newline, ← ih]
          rfl

end TextPiece

namespace Grammar

variable {scope : Scope} {n : Nat} {place : Option Nat} {t : Token} {s s' : State} {v : Node}

theorem exists_textLines {e : Phrase .expression} (h : e.Starts t.kind)
    (ht : t.kind = .text ∨ t.kind = .startInterpolation) : ∃ pieces, e = .textLines pieces := by
  rcases ht with ht | ht
  · rw [ht] at h
    cases h
    exact ⟨_, rfl⟩
  · rw [ht] at h
    cases h
    exact ⟨_, rfl⟩

/-- A run of text at block level goes as far as it can. It stands for its pieces, alone or in a
block on the line of its first token, and without interpolations their texts are its lines. -/
theorem expressionFrom_text (ht : t.kind = .text ∨ t.kind = .startInterpolation) (hp : s.Plain)
    (hline : s.cursor.line = t.line)
    (h : (expressionFrom .slot scope (answer .slot scope n) place t).Runs s v s') :
    ∃ (run : List TextPiece) (es : List Event), run.flatMap TextPiece.trace = .read t :: es ∧
      Leads es s s' ∧ TextPlace.lines.takes s'.cursor.peek.kind = false ∧
      (∀ piece ∈ run, piece.Fits) ∧
      v = scope.collapse t.line (TextPiece.runNodes scope run) ∧
      ((∀ piece ∈ run, piece.isInterpolation = false) →
        String.join ((TextPiece.runNodes scope run).filterMap Node.text?) =
          "\n".intercalate (TextPiece.lines run)) := by
  obtain ⟨-, e, hf, rfl, hs, ev, es, htrace, hu, -, hl⟩ :=
    ((expressionFrom_meets (answer_meets n) place t).runs hp hline).mp h
  obtain ⟨pieces, rfl⟩ := exists_textLines hs ht
  obtain ⟨hpieces, hstop⟩ := pieces.fits_textPieces hf.2
  have hrun : pieces.trace = .read t :: es ∧ pieces.startLine = t.line ∧
      TextPiece.leadingBreak pieces.textPieces = "" := by
    have htrace : pieces.trace = ev :: es := htrace
    cases pieces with
    | textEnd => cases htrace
    | textPiece line content more =>
      cases htrace
      cases hu
      exact ⟨rfl, rfl, TextPiece.leadingBreak_of_not_newline rfl⟩
    | textBreak line more =>
      cases htrace
      cases hu
      rcases ht with ht | ht <;> cases ht
    | textInterpolation opening e closing more =>
      cases htrace
      cases hu
      exact ⟨rfl, rfl, TextPiece.leadingBreak_of_not_newline rfl⟩
  obtain ⟨htrace, hstart, hlead⟩ := hrun
  refine ⟨pieces.textPieces, es, pieces.trace_textPieces.trans htrace, hl, hstop, hpieces,
    ?_, ?_⟩
  · rw [Phrase.value, hstart, Phrase.runNodes_textPieces]
  · intro hnone
    have hjoined := TextPiece.joined_eq scope hnone
    rw [hlead, String.empty_append] at hjoined
    exact hjoined

/-- Two lines that blank ones part, in front of the end of a body. -/
theorem expressionFrom_text_twoLines :
    let s : State := .start (.ofTokens [⟨1, .newline⟩, ⟨2, .newline⟩, ⟨3, .text "b"⟩,
      ⟨3, .text "c"⟩, ⟨3, .newline⟩, ⟨4, .outdent⟩])
    ∃ v s', (expressionFrom .slot ⟨none⟩ (answer .slot ⟨none⟩ 7) none
        ⟨0, .text "a"⟩).Runs s v s' ∧
      v.children.filterMap Node.text? = ["a", "\n", "b", "c"] ∧
      ∃ run, v = Scope.collapse ⟨none⟩ 0 (TextPiece.runNodes ⟨none⟩ run) := by
  intro s
  have hp : s.Plain := rfl
  have hok : (expressionFrom .slot ⟨none⟩ (answer .slot ⟨none⟩ 7) none ⟨0, .text "a"⟩ s
      (by decide)).toOption.map (fun answer => answer.value.children.filterMap Node.text?) =
        some ["a", "\n", "b", "c"] := by decide +kernel
  obtain ⟨v, s', h, htexts⟩ :=
    Routine.exists_runs (f := fun v : Node => v.children.filterMap Node.text?) _ hok
  have ht : (⟨0, .text "a"⟩ : Token).kind = .text := rfl
  obtain ⟨run, -, -, -, -, -, hv, -⟩ := expressionFrom_text (.inl ht) hp rfl h
  exact ⟨v, s', h, htexts, run, hv⟩

end Grammar

end TemplateTree
