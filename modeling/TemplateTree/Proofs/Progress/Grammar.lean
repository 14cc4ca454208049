import TemplateTree.Proofs.Progress.Plan
import TemplateTree.Proofs.Simulation

/-!
The plans of the grammar's routines, in the order of the grammar, and the logs of its answers.
-/

namespace TemplateTree
set_option autoImplicit false

open Routine (Plan Dispatch Entry Reading Stays Log)

theorem Linking.cursor_rememberElse (s : State) : (rememberElse s).cursor = s.cursor := by
  unfold rememberElse
  split
  · rfl
  · split <;> rfl

namespace Token

variable {t : Token}

theorem proper_of_lexeme {l : Lexeme} (h : t.lexeme = l) (hl : l.kind ≠ .eos) : t.kind ≠ .eos := by
  rwa [kind, h]

theorem lexeme_of_kind (h : t.kind = .eos) : t.lexeme = .eos := congrArg lexeme (eq_eos h)

theorem proper_of_isAlternative (h : Grammar.isAlternative t.lexeme = true) : t.kind ≠ .eos := by
  intro he
  rw [lexeme_of_kind he] at h
  cases h

end Token

/-- A token of a proper lexeme is read. -/
def Routine.Entry.readsLexeme {n : Nat} {below : Below n} {dispatch : Dispatch n}
    {place : Option Nat} {t : Token} {l : Lexeme} {α : Type} {r : Routine n α} (h : t.lexeme = l)
    (proper : l.kind ≠ .eos) (plan : Plan below none r) :
    Entry below dispatch place t (some r) :=
  .reads (t.proper_of_lexeme h proper) plan

namespace Routine.Stays

variable {n : Nat} {α : Type}

protected theorem pure (a : α) : Stays (Pure.pure a : Routine n α) := by
  intro s h b hb
  cases hb
  rfl

protected theorem fail (cause : Cause) (line : Line) :
    Stays (Routine.fail cause line : Routine n α) := by
  intro s h b hb
  cases hb

end Routine.Stays

namespace Grammar

variable {n : Nat} (scope : Scope) (below : Below n) (dispatch : Dispatch n) {k : Option Token}

def acceptIfPlan (test : Token → Bool) (h : ∀ t, test t = true → t.kind ≠ .eos) :
    Plan below k (Routine.acceptIf test) :=
  .peek fun t => .ite _ (fun ht => .bind (.next (h t ht)) fun _ => .pure _) fun _ => .pure _

def acceptPlan (kind : TokenKind) (h : kind ≠ .eos) : Plan below k (Routine.accept kind) :=
  acceptIfPlan below _ fun _ ht => beq_iff_eq.mp ht ▸ h

def expectPlan (kind : TokenKind) (h : kind ≠ .eos) : Plan below k (Routine.expect kind) :=
  .peek fun _ => .ite _ (fun ht => .next (ht ▸ h)) fun _ => .fail ..

def bodyPlan : Plan below k (body scope below) :=
  .bind (expectPlan below .indent nofun) fun _ => .bind (.ask (.items true)) fun _ =>
    .bind (expectPlan below .outdent nofun) fun _ => .pure _

def body?Plan : Plan below k (body? scope below) :=
  .peek fun _ => .ite _ (fun _ => .bind (bodyPlan scope below) fun _ => .pure _) fun _ => .pure _

def expansionPlan : Plan below k (expansion scope below) :=
  .bind (acceptPlan below .colon nofun) fun
    | some _ => .look fun _ => .bind (.ask .expression) fun _ => .pure _
    | none => bodyPlan scope below

def interpolationPlan : Plan below k (interpolation below) :=
  .bind (.ask .expression) fun _ => .bind (expectPlan below .endInterpolation nofun) fun _ =>
    .pure _

def pipelessBody?Plan : Plan below k (pipelessBody? scope below) :=
  .bind (acceptPlan below .startPipeless nofun) fun
    | some _ => .bind (.ask .pipeless) fun _ => .pure _
    | none => .pure _

def pipelessBodyPlan (line : Line) : Plan below k (pipelessBody scope below line) :=
  .bind (pipelessBody?Plan scope below) fun _ => .pure _

/-! ### Runs of text -/

def textRunReading (spansLines : Bool) :
    Reading below dispatch (.textRun spansLines) (textRun scope below spansLines) := by
  refine .loop rfl (fun place t => ?_) fun t => .pure _
  split
  next h => exact .readsLexeme h nofun (.bind (.ask _) fun _ => .pure _)
  next h =>
    exact .readsLexeme h nofun (.bind (interpolationPlan below) fun _ =>
      .bind (.ask _) fun _ => .pure _)
  next h =>
    split
    · exact .readsLexeme h nofun (.peek fun _ => .bind (.ask _) fun _ => .pure _)
    · exact .stops
  next => exact .stops

def pipelessReading : Reading below dispatch .pipeless (pipeless scope below) := by
  refine .loop rfl (fun place t => ?_) fun t => .fail _ _
  split
  next h => exact .readsLexeme h nofun (.pure _)
  next h => exact .readsLexeme h nofun (.bind (.ask _) fun _ => .pure _)
  next h => exact .readsLexeme h nofun (.bind (.ask _) fun _ => .pure _)
  next h =>
    exact .readsLexeme h nofun (.bind (interpolationPlan below) fun _ =>
      .bind (.ask _) fun _ => .pure _)
  next => exact .stops

def htmlNestedPlan : Plan below k (htmlNested scope below) :=
  .bind (body?Plan scope below) fun
    | some _ => .pure _
    | none => .bind (acceptPlan below .newline nofun) fun _ => .pure _

def htmlLinePlan (line : Line) (content : String) :
    Plan below k (htmlLine scope below line content) :=
  .bind (htmlNestedPlan scope below) fun _ => .bind (.ask .htmlRun) fun _ => .pure _

def htmlRunReading : Reading below dispatch .htmlRun (htmlRun scope below) := by
  refine .loop rfl (fun place t => ?_) fun t => .pure _
  split
  next h => exact .readsLexeme h nofun (htmlLinePlan scope below ..)
  next => exact .stops

def htmlPlan (line : Line) (content : String) : Plan below k (htmlFrom scope below line content) :=
  .bind (htmlLinePlan scope below line content) fun _ => .pure _

def textPlan (line : Line) (first : Node) : Plan below k (textFrom scope below line first) :=
  .bind (.ask (.textRun true)) fun _ => .pure _

/-! ### Tags and calls -/

def finishBranchPlan (c : CodeLine) : Plan below k (finishBranch .slot c) :=
  .ite _ (fun _ => .modify _ _ Linking.cursor_rememberElse) fun _ => .pure _

def checkElsePlan (place : Option Nat) (line : Line) (c : CodeLine) :
    Plan below k (checkElse .slot place line c) :=
  .look fun _ => .ite _ (fun _ => .fail _ _) fun _ => .pure _

def codePlan (place : Option Nat) (line : Line) (c : CodeLine) :
    Plan below k (codeFrom .slot scope below place line c) :=
  .bind (checkElsePlan below place line c) fun _ => .bind (body?Plan scope below) fun _ =>
    .bind (finishBranchPlan below c) fun _ => .pure _

def lineContentPlan (line : Line) : Plan below k (lineContent .slot scope below line) := by
  refine .peek fun first => ?_
  obtain ⟨firstLine, lexeme⟩ := first
  cases lexeme with
  | text => exact .bind (.ask _) fun _ => .pure _
  | startInterpolation => exact .bind (.ask _) fun _ => .pure _
  | code c =>
    exact .look fun place => .bind (.next nofun) fun t =>
      .bind (codePlan scope below place t.line c) fun _ => .pure _
  | colon => exact .bind (expansionPlan scope below) fun _ => .pure _
  | newline | indent | outdent | eos | startPipeless | endInterpolation => exact .pure _
  | _ => exact .fail _ _

def headPlan (selfClosing : Bool) (shorthand : Option { t : Token // t.isHead = true }) :
    Plan below k (head selfClosing shorthand) :=
  .bind (.headRun shorthand) fun _ => .bind (.ofExcept _) fun _ =>
    .bind (.modify _ _ fun _ => rfl) fun _ => .pure _

def bodyAfterPlan (line : Line) (textOnly : Bool) (inLine : Block) :
    Plan below k (bodyAfter scope below line textOnly inLine) :=
  .ite _ (fun _ => pipelessBodyPlan scope below line)
    fun _ => .bind (body?Plan scope below) fun _ => .pure _

def contentPlan (line : Line) (selfClosing : Bool)
    (shorthand : Option { t : Token // t.isHead = true }) :
    Plan below k (content .slot scope below line selfClosing shorthand) :=
  .bind (headPlan below selfClosing shorthand) fun _ =>
    .bind (acceptPlan below .dot nofun) fun _ => .bind (lineContentPlan scope below line) fun _ =>
      .bind .skipNewlines fun _ => .bind (bodyAfterPlan scope below line _ _) fun _ => .pure _

def tagPlan (line : Line) (name : String) (selfClosing buffered : Bool)
    (shorthand : Option { t : Token // t.isHead = true }) :
    Plan below k (tagFrom .slot scope below line name selfClosing buffered shorthand) :=
  .bind (contentPlan scope below line selfClosing shorthand) fun _ => .pure _

def callPlan (line : Line) (name : String) (args : Option String) :
    Plan below k (callFrom .slot scope below line name args) :=
  .bind (contentPlan scope below line false none) fun _ => .pure _

def mixinPlan (line : Line) (name : String) (args : Option String) :
    Plan below k (mixinFrom scope below line name args) :=
  .peek fun _ => .ite _
    (fun _ => .bind (.modify _ _ fun _ => rfl) fun _ => .bind (bodyPlan scope below) fun _ =>
      .bind (.modify _ _ fun _ => rfl) fun _ => .pure _)
    fun _ => .bind (.modify _ _ fun _ => rfl) fun _ => .pure _

/-! ### Expressions, items and branches -/

def casePlan (line : Line) (source : String) : Plan below k (caseFrom scope below line source) :=
  .bind (expectPlan below .indent nofun) fun _ => .bind (.ask .branches) fun _ =>
    .bind (expectPlan below .outdent nofun) fun _ => .pure _

def branchPlan (line : Line) (source : String) :
    Plan below k (branchFrom scope below line source) :=
  .peek fun _ => .ite _ (fun _ => .bind (expansionPlan scope below) fun _ => .pure _)
    fun _ => .pure _

def alternative?Plan : Plan below k (alternative? scope below) :=
  .bind (acceptIfPlan below _ fun _ => Token.proper_of_isAlternative) fun
    | some _ => .bind (bodyPlan scope below) fun _ => .pure _
    | none => .pure _

def eachPlan (line : Line) (head : LoopHead) : Plan below k (eachFrom scope below line head) :=
  .bind (bodyPlan scope below) fun _ => .bind (alternative?Plan scope below) fun _ => .pure _

def filterPlan (line : Line) (name : String) : Plan below k (filterFrom scope below line name) :=
  .bind (acceptPlan below .attrs nofun) fun _ =>
    .bind (pipelessBodyPlan scope below line) fun _ => .pure _

def commentPlan (line : Line) (text : String) (buffered : Bool) :
    Plan below k (commentFrom scope below line text buffered) :=
  .bind (pipelessBody?Plan scope below) fun
    | some _ => .pure _
    | none => .pure _

def mixinBlockPlan (line : Line) : Plan below k (mixinBlockFrom scope line) :=
  .look fun _ => .ite _ (fun _ => .fail _ _) fun _ => .pure _

def expressionPlan (place : Option Nat) (t : Token) :
    Plan below k (expressionFrom .slot scope below place t) := by
  delta expressionFrom
  split
  next => exact tagPlan scope below ..
  next => exact tagPlan scope below ..
  next => exact tagPlan scope below ..
  next => exact tagPlan scope below ..
  next => exact mixinPlan scope below ..
  next => exact callPlan scope below ..
  next => exact mixinBlockPlan scope below ..
  next => exact .bind (body?Plan scope below) fun _ => .pure _
  next => exact casePlan scope below ..
  next => exact eachPlan scope below ..
  next => exact codePlan scope below ..
  next => exact .pure _
  next => exact .bind (body?Plan scope below) fun _ => .pure _
  next => exact .pure _
  next => exact filterPlan scope below ..
  next => exact commentPlan scope below ..
  next => exact .bind (pipelessBodyPlan scope below _) fun _ => .pure _
  next => exact textPlan scope below ..
  next => exact .bind (interpolationPlan below) fun _ => textPlan scope below ..
  next => exact .bind (htmlPlan scope below ..) fun _ => .pure _
  next => exact .pure _
  next => exact .fail ..

theorem expressionFrom_eos {place : Option Nat} {t : Token} (h : t.kind = .eos) :
    expressionFrom .slot scope below place t = Routine.fail (.noExpression t.kind) t.line := by
  unfold expressionFrom
  rw [Token.lexeme_of_kind h]

/-! The same answers with the dispatcher left open. -/

def anyExpressionBy : Routine (n + 1) Node :=
  Routine.opening (fun place t => some (dispatch place t))
    (fun t => Routine.fail (.noExpression t.kind) t.line)

def itemsBy (inBody : Bool) : Routine (n + 1) (List Node) :=
  Routine.opening
    (fun place t =>
      match t.lexeme with
      | .eos => none
      | .outdent =>
        if inBody then none
        else some do
          let node ← dispatch place t
          return node :: (← below (.items inBody))
      | .newline => some (below (.items inBody))
      | .textHtml content => some do
        let run ← htmlFrom scope below t.line content
        return run ++ (← below (.items inBody))
      | _ => some do
        let node ← dispatch place t
        return node :: (← below (.items inBody)))
    (fun _ => return [])

def extendBy : Below (n + 1)
  | .expression => anyExpressionBy dispatch
  | .items inBody => itemsBy scope below dispatch inBody
  | .textRun spansLines => textRun scope below spansLines
  | .pipeless => pipeless scope below
  | .htmlRun => htmlRun scope below
  | .branches => branches scope below

/-- No expression starts with the end of a body, so it does not matter that items refuse it without
asking. -/
theorem itemsBy_expressionFrom (inBody : Bool) :
    itemsBy scope below (expressionFrom .slot scope below) inBody =
      items .slot scope below inBody := by
  unfold itemsBy items
  congr 1
  funext place t
  obtain ⟨line, lexeme⟩ := t
  cases lexeme <;> rfl

theorem extendBy_expressionFrom :
    extendBy scope below (expressionFrom .slot scope below) = extend .slot scope below := by
  funext goal
  cases goal with
  | items inBody => exact itemsBy_expressionFrom scope below inBody
  | _ => rfl

def anyExpressionReading : Reading below dispatch .expression (anyExpressionBy dispatch) :=
  .expression fun _ _ => .dispatches

def itemsReading (inBody : Bool) :
    Reading below dispatch (.items inBody) (itemsBy scope below dispatch inBody) := by
  refine .loop rfl (fun place t => ?_) fun t => .pure _
  split
  next => exact .stops
  next =>
    split
    · exact .stops
    · exact .dispatchesThen fun _ => .bind (.ask _) fun _ => .pure _
  next h => exact .readsLexeme h nofun (.ask _)
  next h =>
    exact .readsLexeme h nofun
      (.bind (htmlPlan scope below ..) fun _ => .bind (.ask _) fun _ => .pure _)
  next => exact .dispatchesThen fun _ => .bind (.ask _) fun _ => .pure _

def branchesReading : Reading below dispatch .branches (branches scope below) := by
  refine .loop rfl (fun place t => ?_) fun t => ?_
  · split
    next => exact .stops
    next h => exact .readsLexeme h nofun (.ask _)
    next h =>
      exact .readsLexeme h nofun (.bind (branchPlan scope below ..) fun _ =>
        .bind (.ask _) fun _ => .pure _)
    next h =>
      exact .readsLexeme h nofun (.bind (branchPlan scope below ..) fun _ =>
        .bind (.ask _) fun _ => .pure _)
    next => exact .fails _ _
  · split
    · exact .pure _
    · exact .fail _ _

def reading : (goal : Goal) → Reading below dispatch goal (extendBy scope below dispatch goal)
  | .expression => anyExpressionReading below dispatch
  | .items inBody => itemsReading scope below dispatch inBody
  | .textRun spansLines => textRunReading scope below dispatch spansLines
  | .pipeless => pipelessReading scope below dispatch
  | .htmlRun => htmlRunReading scope below dispatch
  | .branches => branchesReading scope below dispatch

/-- What is done to answer a question about fewer than `n` tokens. -/
def log : (n : Nat) → Log n
  | 0 => fun _ _ h => absurd h (Nat.not_lt_zero _)
  | n + 1 => fun goal =>
    (reading scope (answer .slot scope n) (expressionFrom .slot scope (answer .slot scope n))
      goal).acts (log n) (expressionPlan scope (answer .slot scope n))

end Grammar

/-- What is done to parse a stream. -/
def Template.acts (file : Option String) (ts : List Token) : List Act :=
  Grammar.log ⟨file⟩ ((Cursor.ofTokens ts).size + 1) (.items false) (.start (.ofTokens ts))
    (Nat.lt_succ_self _)

end TemplateTree
