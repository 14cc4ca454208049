import TemplateTree.Proofs.Parallel.Basic

/-!
The answers of the grammar are parallel, whatever their linkings and bounds, and however they are
relabelled. One lemma stands for each routine.
-/

namespace TemplateTree
set_option autoImplicit false

theorem Grammar.expansion_eq {n : Nat} (scope : Scope) (below : Below n) :
    Grammar.expansion scope below = (do
      match ← Routine.accept .colon with
      | some colon => do
        let node ← expression below
        return scope.block colon.line [node]
      | none => body scope below) := Routine.accept_look_line

namespace Parallel

variable {label : Relabelling} {linking linking' : Linking} {n n' : Nat} {scope : Scope}
variable {below : Below n} {below' : Below n'}

section Goal

variable (hb : ∀ goal, Parallel label linking linking' .anywhere (label.answer goal · = ·)
  (below goal) (below' goal))
include hb

theorem body : Parallel label linking linking' .anywhere (label.block · = ·)
    (Grammar.body scope below) (Grammar.body (label.scope scope) below') := by
  refine (expect (by decide)).bind fun t u h => (hb (.items true)).bind_image fun nodes => ?_
  exact (expect (by decide)).map fun _ _ _ => by rw [h.line_eq, label.block_scope]

theorem body? : Parallel label linking linking' .anywhere (Option.map label.block · = ·)
    (Grammar.body? scope below) (Grammar.body? (label.scope scope) below') := by
  refine .peek fun place t u h => .anywhere ?_
  rw [h.kind_eq]
  split
  · exact (body hb).map fun _ _ => congrArg some
  · exact .pure rfl

theorem expansion : Parallel label linking linking' .anywhere (label.block · = ·)
    (Grammar.expansion scope below) (Grammar.expansion (label.scope scope) below') := by
  rw [Grammar.expansion_eq, Grammar.expansion_eq]
  refine (accept (by decide)).bind fun o o' h => ?_
  cases h with
  | some h =>
    refine (hb .expression).map fun _ _ hn => ?_
    rw [h.line_eq, label.block_scope, ← hn]
    rfl
  | none => exact body hb

theorem interpolation : Parallel label linking linking' .anywhere (label.node · = ·)
    (Grammar.interpolation below) (Grammar.interpolation below') := by
  refine (hb .expression).bind_image fun node => ?_
  exact (expect (by decide)).map fun _ _ _ => rfl

theorem pipelessBody? : Parallel label linking linking' .anywhere (Option.map label.block · = ·)
    (Grammar.pipelessBody? scope below) (Grammar.pipelessBody? (label.scope scope) below') := by
  refine (accept (by decide)).bind fun o o' h => ?_
  cases h with
  | some h =>
    exact (hb .pipeless).map fun _ _ hn => by
      rw [h.line_eq, Option.map_some, label.block_scope, ← hn]
  | none => exact .pure rfl

theorem pipelessBody (line : Line) : Parallel label linking linking' .anywhere (label.block · = ·)
    (Grammar.pipelessBody scope below line)
    (Grammar.pipelessBody (label.scope scope) below' (label.line line)) := by
  refine (pipelessBody? hb).map fun b _ h => ?_
  rw [← h]
  cases b with
  | some b => rfl
  | none => exact label.block_scope scope line []

end Goal

section Run

variable (hb : ∀ goal, Parallel label linking linking' .anywhere (label.answer goal · = ·)
  (below goal) (below' goal))
include hb

theorem textRun (spansLines : Bool) : Parallel label linking linking' .anywhere
    (List.map label.node · = ·) (Grammar.textRun scope below spansLines)
    (Grammar.textRun (label.scope scope) below' spansLines) := by
  refine opening_rel (fun place t u h => ?_) ?_ (fun _ _ _ _ => .anywhere (.pure rfl)) ?_
  · cases h with
    | code => exact .none
    | token =>
      dsimp only [Relabelling.token]
      split
      · exact .some (.anywhere ((hb _).map fun _ _ h => by rw [← h]; rfl))
      · refine .some (.anywhere ((interpolation hb).bind_image fun node => ?_))
        exact (hb _).map fun _ _ h => by rw [← h]; rfl
      · split
        · refine .some (.anywhere (.peek fun _ following _ hf => .anywhere ?_))
          refine (hb _).map fun _ _ h => ?_
          rw [hf.kind_eq, ← h]
          split <;> rfl
        · exact .none
      · exact .none
  · rintro ⟨line, lexeme⟩ u h ht
    cases lexeme <;> cases ht
    exact .inl fun _ => rfl
  · rintro place ⟨line, lexeme⟩ r hk hr
    cases lexeme <;> cases hk <;> cases hr

theorem pipeless : Parallel label linking linking' .anywhere (List.map label.node · = ·)
    (Grammar.pipeless scope below) (Grammar.pipeless (label.scope scope) below') := by
  refine opening_rel (fun place t u h => ?_) ?_ (fun place t u h => ?_) ?_
  · cases h with
    | code => exact .none
    | token =>
      dsimp only [Relabelling.token]
      split
      · exact .some (.anywhere (.pure rfl))
      · exact .some (.anywhere ((hb .pipeless).map fun _ _ h => by rw [← h]; rfl))
      · exact .some (.anywhere ((hb .pipeless).map fun _ _ h => by rw [← h]; rfl))
      · refine .some (.anywhere ((interpolation hb).bind_image fun node => ?_))
        exact (hb .pipeless).map fun _ _ h => by rw [← h]; rfl
      · exact .none
  · rintro ⟨line, lexeme⟩ u h ht
    cases lexeme <;> cases ht
    exact .inl fun _ => rfl
  · rw [h.kind_eq, h.line_eq]
    exact .stuckBefore rfl
  · rintro place ⟨line, lexeme⟩ r hk hr
    cases lexeme <;> cases hk <;> cases hr

theorem htmlNested : Parallel label linking linking' .anywhere (List.map label.node · = ·)
    (Grammar.htmlNested scope below) (Grammar.htmlNested (label.scope scope) below') := by
  refine (body? hb).bind_image fun nested => ?_
  cases nested with
  | some nested => exact .pure (label.nodes_block nested).symm
  | none => exact (accept (by decide)).map fun _ _ _ => rfl

theorem htmlLine (line : Line) (content : String) :
    Parallel label linking linking' .anywhere (List.map label.node · = ·)
      (Grammar.htmlLine scope below line content)
      (Grammar.htmlLine (label.scope scope) below' (label.line line) content) := by
  refine (htmlNested hb).bind_image fun nested => ?_
  refine (hb .htmlRun).map fun _ _ h => ?_
  rw [← h, List.map_cons, List.map_append, label.htmlText_scope]

theorem htmlRun : Parallel label linking linking' .anywhere (List.map label.node · = ·)
    (Grammar.htmlRun scope below) (Grammar.htmlRun (label.scope scope) below') := by
  refine opening_rel (fun place t u h => ?_) ?_ (fun _ _ _ _ => .anywhere (.pure rfl)) ?_
  · cases h with
    | code => exact .none
    | token =>
      dsimp only [Relabelling.token]
      split
      · exact .some (.anywhere (htmlLine hb _ _))
      · exact .none
  · rintro ⟨line, lexeme⟩ u h ht
    cases lexeme <;> cases ht
    exact .inl fun _ => rfl
  · rintro place ⟨line, lexeme⟩ r hk hr
    cases lexeme <;> cases hk <;> cases hr

theorem htmlFrom (line : Line) (content : String) :
    Parallel label linking linking' .anywhere (List.map label.node · = ·)
      (Grammar.htmlFrom scope below line content)
      (Grammar.htmlFrom (label.scope scope) below' (label.line line) content) :=
  (htmlLine hb line content).map fun _ _ h => by
    rw [← h, Node.mergeHtml_eq, Node.mergeHtml_eq, label.joinHtml_map]

theorem textFrom (line : Line) (first : Node) :
    Parallel label linking linking' .anywhere (label.node · = ·)
      (Grammar.textFrom scope below line first)
      (Grammar.textFrom (label.scope scope) below' (label.line line) (label.node first)) :=
  (hb (.textRun true)).map fun _ _ h => by rw [← h, label.node_collapse, List.map_cons]

end Run

section Head

theorem finishBranch {c c' : CodeLine} (h : c'.isIf = c.isIf) :
    Parallel label linking linking' .anywhere Eq
      (Grammar.finishBranch linking c : Routine n Unit)
      (Grammar.finishBranch linking' c' : Routine n' Unit) := by
  unfold Grammar.finishBranch
  rw [h]
  split
  · exact .finish
  · exact .pure rfl

variable (hb : ∀ goal, Parallel label linking linking' .anywhere (label.answer goal · = ·)
  (below goal) (below' goal))
include hb

theorem codeFrom (place : Option Nat) (line : Line) {c c' : CodeLine}
    (h : Token.Alike label ⟨line, .code c⟩ ⟨label.line line, .code c'⟩) :
    Parallel label linking linking'
      (.behind place ⟨line, .code c⟩ ⟨label.line line, .code c'⟩) (label.node · = ·)
      (Grammar.codeFrom linking scope below place line c)
      (Grammar.codeFrom linking' (label.scope scope) below' place (label.line line) c') := by
  refine bind_eq (.checkElse place line h) fun _ => ?_
  refine (body? hb).bind_image fun nested => ?_
  refine (finishBranch (by cases h <;> rfl)).map fun _ _ _ => ?_
  rw [label.node_codeNode]
  cases h <;> rfl

/-- What stands in line with a tag is a block and perhaps some code. -/
theorem lineContent (line : Line) : Parallel label linking linking' .anywhere
    (Prod.map label.block (Option.map label.node) · = ·)
    (Grammar.lineContent linking scope below line)
    (Grammar.lineContent linking' (label.scope scope) below' (label.line line)) := by
  have hnone : Prod.map label.block (Option.map label.node) (scope.block line [], none) =
      ((label.scope scope).block (label.line line) [], none) := by
    rw [Prod.map_apply, label.block_scope]
    rfl
  refine .peek fun place t u h => ?_
  have hcode {t u : Token} {c c' : CodeLine} (h : t.Alike label u) (ht : t.lexeme = .code c)
      (hu : u.lexeme = .code c') : Parallel label linking linking' (.before place t u)
        (Prod.map label.block (Option.map label.node) · = ·)
        (do
          let place ← Routine.look fun s => s.cursor.position 1
          let t ← Routine.next
          return (scope.block line [],
            some (← Grammar.codeFrom linking scope below place t.line c)))
        (do
          let place ← Routine.look fun s => s.cursor.position 1
          let t ← Routine.next
          return ((label.scope scope).block (label.line line) [],
            some (← Grammar.codeFrom linking' (label.scope scope) below' place t.line c'))) := by
    obtain ⟨line', _⟩ := t
    obtain ⟨_, _⟩ := u
    cases ht
    cases hu
    cases h.line_eq
    refine .lookPlace nofun (.next rfl ?_)
    refine (codeFrom hb place line' h).map fun _ _ h => ?_
    rw [← h, Prod.map_apply, label.block_scope]
    rfl
  cases h with
  | code line' c b => exact hcode (.code line' c b) rfl rfl
  | token t =>
    obtain ⟨line', lexeme⟩ := t
    cases lexeme with
    | text | startInterpolation =>
      refine .anywhere ((hb (.textRun false)).map fun _ _ h => ?_)
      rw [← h, Prod.map_apply, label.block_scope, List.map_singleton, label.node_collapse]
      rfl
    | code c => exact hcode (.token ⟨line', .code c⟩) rfl rfl
    | colon =>
      refine .anywhere ((expansion hb).map fun _ _ h => ?_)
      rw [← h]
      rfl
    | _ => first | exact .anywhere (.pure hnone) | exact .stuckBefore rfl

theorem bodyAfter (line : Line) (textOnly : Bool) (inLine : Block) :
    Parallel label linking linking' .anywhere (label.block · = ·)
      (Grammar.bodyAfter scope below line textOnly inLine)
      (Grammar.bodyAfter (label.scope scope) below' (label.line line) textOnly
        (label.block inLine)) := by
  unfold Grammar.bodyAfter
  split
  · exact pipelessBody hb line
  · exact (body? hb).map fun _ _ h => by rw [← h, label.followedBy_block]

/-- What follows a head does not depend on how the head was read. -/
theorem contentBehind (line : Line) (head : Head) :
    Parallel label linking linking' .anywhere (label.content · = ·)
      (do
        let textOnly := (← Routine.accept .dot).isSome
        let inLine ← Grammar.lineContent linking scope below line
        Routine.skipNewlines
        let body ← Grammar.bodyAfter scope below line textOnly inLine.1
        return ⟨head, textOnly, body, inLine.2⟩)
      (do
        let textOnly := (← Routine.accept .dot).isSome
        let inLine ← Grammar.lineContent linking' (label.scope scope) below' (label.line line)
        Routine.skipNewlines
        let body ← Grammar.bodyAfter (label.scope scope) below' (label.line line) textOnly inLine.1
        return ⟨head, textOnly, body, inLine.2⟩) := by
  refine (accept (by decide)).bind fun o o' ho => ?_
  rw [show o'.isSome = o.isSome by cases ho <;> rfl]
  refine (lineContent hb line).bind_image fun inLine => .bind_eq .skipNewlines fun _ => ?_
  exact (bodyAfter hb line _ _).map fun _ _ h => by rw [← h]; rfl

variable {c : Stance} {shorthand : Option { t : Token // t.isHead = true }}

theorem content (line : Line) (selfClosing : Bool)
    (hs : ∃ place t u, c = .behind place t u ∧ u.line = label.line t.line ∧ t.Opens shorthand) :
    Parallel label linking linking' c (label.content · = ·)
      (Grammar.content linking scope below line selfClosing shorthand)
      (Grammar.content linking' (label.scope scope) below' (label.line line) selfClosing
        (shorthand.map label.opener)) :=
  (head selfClosing hs).bind_eq fun head => contentBehind hb line head

theorem tagFrom (line : Line) (name : String) (selfClosing buffered : Bool)
    (hs : ∃ place t u, c = .behind place t u ∧ u.line = label.line t.line ∧ t.Opens shorthand) :
    Parallel label linking linking' c (label.node · = ·)
      (Grammar.tagFrom linking scope below line name selfClosing buffered shorthand)
      (Grammar.tagFrom linking' (label.scope scope) below' (label.line line) name selfClosing
        buffered (shorthand.map label.opener)) :=
  (content hb line selfClosing hs).map fun _ _ h => by rw [← h, label.node_tag]

theorem callFrom (line : Line) (name : String) (args : Option String)
    (hs : ∃ place t u, c = .behind place t u ∧ u.line = label.line t.line ∧ t.Opens none) :
    Parallel label linking linking' c (label.node · = ·)
      (Grammar.callFrom linking scope below line name args)
      (Grammar.callFrom linking' (label.scope scope) below' (label.line line) name args) := by
  have hcontent : Parallel label linking linking' c (label.content · = ·)
      (Grammar.content linking scope below line false none)
      (Grammar.content linking' (label.scope scope) below' (label.line line) false none) :=
    content hb line false hs
  exact hcontent.map fun _ _ h => by rw [← h, label.node_call]

theorem mixinFrom (line : Line) (name : String) (args : Option String) :
    Parallel label linking linking' .anywhere (label.node · = ·)
      (Grammar.mixinFrom scope below line name args)
      (Grammar.mixinFrom (label.scope scope) below' (label.line line) name args) := by
  refine .peek fun place t u h => .anywhere ?_
  rw [h.kind_eq]
  split
  · exact .inMixin (body hb) fun _ _ h => by rw [← h]; rfl
  · exact .map (.addNotices _) fun _ _ _ => rfl

end Head

section Expression

theorem mixinBlockFrom (place : Option Nat) (t u : Token) :
    Parallel label linking linking' (.behind place t u) (label.node · = ·)
      (Grammar.mixinBlockFrom scope t.line : Routine n Node)
      (Grammar.mixinBlockFrom (label.scope scope) (label.line t.line) : Routine n' Node) := by
  refine .lookDepth (if_pos rfl) (fun _ _ h h' => ?_) fun depth => ?_
  · rw [if_neg h, if_neg h']
  split
  · exact .stuckBehind (by simp [Cause.found?])
  · exact .anywhere (.pure rfl)

variable (hb : ∀ goal, Parallel label linking linking' .anywhere (label.answer goal · = ·)
  (below goal) (below' goal))
include hb

theorem caseFrom (line : Line) (source : String) :
    Parallel label linking linking' .anywhere (label.node · = ·)
      (Grammar.caseFrom scope below line source)
      (Grammar.caseFrom (label.scope scope) below' (label.line line) source) := by
  refine (expect (by decide)).bind fun t u h => (hb .branches).bind_image fun nodes => ?_
  refine (expect (by decide)).map fun _ _ _ => ?_
  rw [h.line_eq, label.node_scope, Relabelling.shape, label.block_scope]

theorem branchFrom (line : Line) (source : String) :
    Parallel label linking linking' .anywhere (label.node · = ·)
      (Grammar.branchFrom scope below line source)
      (Grammar.branchFrom (label.scope scope) below' (label.line line) source) := by
  refine .peek fun place t u h => .anywhere ?_
  dsimp only
  rw [h.kind_eq]
  split
  · exact (expansion hb).map fun _ _ h => by rw [← h]; rfl
  · exact .pure rfl

theorem alternative? : Parallel label linking linking' .anywhere (Option.map label.block · = ·)
    (Grammar.alternative? scope below) (Grammar.alternative? (label.scope scope) below') := by
  refine .bind (acceptIf (fun t u h => by cases h <;> rfl) fun t ht => ?_) fun o o' h => ?_
  · obtain ⟨line, lexeme⟩ := t
    cases lexeme <;> first | rfl | cases ht
  · cases h with
    | some _ => exact (body hb).map fun _ _ h => by rw [← h]; rfl
    | none => exact .pure rfl

theorem eachFrom (line : Line) (loop : LoopHead) :
    Parallel label linking linking' .anywhere (label.node · = ·)
      (Grammar.eachFrom scope below line loop)
      (Grammar.eachFrom (label.scope scope) below' (label.line line) loop) := by
  refine (body hb).bind_image fun main => ?_
  refine (alternative? hb).map fun _ _ h => ?_
  rw [← h, label.node_scope, Relabelling.shape, label.block?_eq]

theorem filterFrom (line : Line) (name : String) :
    Parallel label linking linking' .anywhere (label.node · = ·)
      (Grammar.filterFrom scope below line name)
      (Grammar.filterFrom (label.scope scope) below' (label.line line) name) := by
  refine (accept (by decide)).bind fun o o' h => ?_
  have hattrs : Grammar.groupAttrs o' = Grammar.groupAttrs o := by
    cases h with
    | some h => cases h <;> rfl
    | none => rfl
  rw [hattrs]
  exact (pipelessBody hb line).map fun _ _ h => by rw [← h]; rfl

theorem commentFrom (line : Line) (text : String) (buffered : Bool) :
    Parallel label linking linking' .anywhere (label.node · = ·)
      (Grammar.commentFrom scope below line text buffered)
      (Grammar.commentFrom (label.scope scope) below' (label.line line) text buffered) := by
  refine (pipelessBody? hb).bind_image fun body => ?_
  cases body <;> exact .pure rfl

theorem aroundBody? {line : Line} {f f' : Option Block → Shape Node}
    (hf : ∀ b, label.shape (f b) = f' (b.map label.block)) :
    Parallel label linking linking' .anywhere (label.node · = ·)
      (do
        let nested ← Grammar.body? scope below
        return scope.node line (f nested))
      (do
        let nested ← Grammar.body? (label.scope scope) below'
        return (label.scope scope).node (label.line line) (f' nested)) :=
  (body? hb).map fun _ _ h => by rw [← h, label.node_scope, hf]

theorem expressionFrom (place : Option Nat) {t u : Token} (h : t.Alike label u) :
    Parallel label linking linking' (.behind place t u) (label.node · = ·)
      (Grammar.expressionFrom linking scope below place t)
      (Grammar.expressionFrom linking' (label.scope scope) below' place u) := by
  cases h with
  | code line c b => exact codeFrom hb place line (.code line c b)
  | token t =>
    obtain ⟨line, lexeme⟩ := t
    cases lexeme with
    | tag | interpolation => exact tagFrom hb _ _ _ _ ⟨place, _, _, rfl, rfl, rfl, rfl⟩
    | idName name => exact tagFrom hb line "div" _ _ ⟨place, _, _, rfl, rfl, rfl, rfl⟩
    | className name => exact tagFrom hb line "div" _ _ ⟨place, _, _, rfl, rfl, rfl, rfl⟩
    | mixin => exact .anywhere (mixinFrom hb _ _ _)
    | call => exact callFrom hb _ _ _ ⟨place, _, _, rfl, rfl, rfl, rfl⟩
    | mixinBlock => exact mixinBlockFrom place _ _
    | block =>
      refine .anywhere (aroundBody? hb fun b => ?_)
      cases b <;> simp
    | case => exact .anywhere (caseFrom hb _ _)
    | each => exact .anywhere (eachFrom hb _ _)
    | code c => exact codeFrom hb place line (.token ⟨line, .code c⟩)
    | inherit | doctype => exact .anywhere (.pure rfl)
    | yield => exact .anywhere (.pure (label.node_ofBlock _))
    | inclusion =>
      refine .anywhere (aroundBody? hb fun b => ?_)
      cases b <;> simp [Relabelling.token]
    | filter => exact .anywhere (filterFrom hb _ _)
    | comment => exact .anywhere (commentFrom hb _ _ _)
    | dot => exact .anywhere ((pipelessBody hb _).map fun _ _ h => by rw [← h, label.node_ofBlock])
    | text => exact .anywhere (textFrom hb _ _)
    | startInterpolation =>
      exact .anywhere ((interpolation hb).bind_image fun first => textFrom hb _ first)
    | textHtml =>
      refine .anywhere ((htmlFrom hb _ _).map fun _ _ h => ?_)
      rw [← h, label.node_ofBlock, label.block_scope]
      rfl
    | _ =>
      refine .stuckBehind ?_
      rintro kind hk
      cases hk
      rfl

omit hb in
/-- Behind a token that opens a head, an expression begins with the head. -/
theorem readsHead_expressionFrom {place : Option Nat} {t : Token}
    (h : t.kind.opensHead = true) :
    (Grammar.expressionFrom linking scope below place t).ReadsHead t := by
  have hcontent {line : Line} {selfClosing : Bool}
      {shorthand : Option { t : Token // t.isHead = true }} (ho : t.Opens shorthand) :
      (Grammar.content linking scope below line selfClosing shorthand).ReadsHead t := by
    refine .bind (.inr fun s e hp hline hlt he => ?_)
    have hopened : Routine.OpenedBy shorthand s := by
      intro v hv
      rw [ho.eq v hv]
      exact hline
    rw [Routine.fails_head hp hopened, Routine.headsAt, ho.2]
    exact ⟨hlt, he selfClosing⟩
  obtain ⟨line, lexeme⟩ := t
  cases lexeme with
  | tag | interpolation | idName | className | call => exact (hcontent ⟨rfl, rfl⟩).bind
  | _ => cases h

theorem anyExpression : Parallel label linking linking' .anywhere (label.node · = ·)
    (Grammar.anyExpression linking scope below)
    (Grammar.anyExpression linking' (label.scope scope) below') := by
  refine opening_rel (fun place t u h => .some (expressionFrom hb place h)) ?_
    (fun place t u h => ?_) ?_
  · rintro ⟨line, lexeme⟩ u h ht
    cases lexeme <;> cases ht
    cases h
    exact .inr ⟨_, rfl, fun _ => rfl, fun _ => rfl, rfl, rfl⟩
  · rw [h.kind_eq, h.line_eq]
    exact .stuckBefore rfl
  · rintro place t r hk ⟨⟩
    exact readsHead_expressionFrom hk

theorem items (inBody : Bool) : Parallel label linking linking' .anywhere
    (List.map label.node · = ·) (Grammar.items linking scope below inBody)
    (Grammar.items linking' (label.scope scope) below' inBody) := by
  refine opening_rel (fun place t u h => ?_) ?_ (fun _ _ _ _ => .anywhere (.pure rfl)) ?_
  · have hnode : Parallel label linking linking' (.behind place t u) (List.map label.node · = ·)
        (do
          let node ← Grammar.expressionFrom linking scope below place t
          return node :: (← below (.items inBody)))
        (do
          let node ← Grammar.expressionFrom linking' (label.scope scope) below' place u
          return node :: (← below' (.items inBody))) :=
      (expressionFrom hb place h).bind_image fun node =>
        (hb (.items inBody)).map fun _ _ h => by rw [← h]; rfl
    cases h with
    | code => exact .some hnode
    | token =>
      dsimp only [Relabelling.token] at hnode ⊢
      split
      · exact .none
      · split
        · exact .none
        · refine .some (.stuckBehind ?_)
          rintro kind hk
          cases hk
          rfl
      · exact .some (.anywhere (hb (.items inBody)))
      · refine .some (.anywhere ((htmlFrom hb _ _).bind_image fun run => ?_))
        exact (hb (.items inBody)).map fun _ _ h => by rw [← h, List.map_append]
      · exact .some hnode
  · rintro ⟨line, lexeme⟩ u h ht
    cases lexeme <;> cases ht
    exact .inl fun _ => rfl
  · rintro place ⟨line, lexeme⟩ r hk hr
    cases lexeme <;> cases hk <;> cases hr <;> exact .bind (readsHead_expressionFrom rfl)

theorem branches : Parallel label linking linking' .anywhere (List.map label.node · = ·)
    (Grammar.branches scope below) (Grammar.branches (label.scope scope) below') := by
  have hstuck {place : Option Nat} {t u : Token} :
      Parallel label linking linking' (.behind place t u) (List.map label.node · = ·)
        (Routine.fail (.inCase t.kind) t.line : Routine n (List Node))
        (Routine.fail (.inCase t.kind) (label.line t.line) : Routine n' (List Node)) := by
    refine .stuckBehind ?_
    rintro kind hk
    cases hk
    rfl
  refine opening_rel (fun place t u h => ?_) ?_ (fun place t u h => ?_) ?_
  · cases h with
    | code line c b => exact .some hstuck
    | token =>
      dsimp only [Relabelling.token]
      split
      · exact .none
      · exact .some (.anywhere (hb .branches))
      · refine .some (.anywhere ((branchFrom hb _ _).bind_image fun branch => ?_))
        exact (hb .branches).map fun _ _ h => by rw [← h]; rfl
      · refine .some (.anywhere ((branchFrom hb _ _).bind_image fun branch => ?_))
        exact (hb .branches).map fun _ _ h => by rw [← h]; rfl
      · exact .some hstuck
  · rintro ⟨line, lexeme⟩ u h ht
    cases lexeme <;> cases ht
    cases h
    exact .inr ⟨_, rfl, fun _ => rfl, fun _ => rfl, rfl, rfl⟩
  · rw [h.kind_eq, h.line_eq]
    split
    · exact .anywhere (.pure rfl)
    · exact .stuckBefore rfl
  · rintro place ⟨line, lexeme⟩ r hk hr
    cases lexeme <;> cases hk <;> cases hr <;> exact .fail _ _

end Expression

/-- The same question has parallel answers, whatever is reported about where they were found. -/
theorem answer (scope : Scope) (n n' : Nat) (goal : Goal) :
    Parallel label linking linking' .anywhere (label.answer goal · = ·)
      (Grammar.answer linking scope n goal)
      (Grammar.answer linking' (label.scope scope) n' goal) := by
  induction n generalizing n' goal with
  | zero => exact .vacuous (.inl rfl)
  | succ n ih =>
    cases n' with
    | zero => exact .vacuous (.inr rfl)
    | succ n' =>
      cases goal with
      | expression => exact anyExpression (ih n')
      | items inBody => exact items (ih n') inBody
      | textRun spansLines => exact textRun (ih n') spansLines
      | pipeless => exact pipeless (ih n')
      | htmlRun => exact htmlRun (ih n')
      | branches => exact branches (ih n')

/-- The same question about the same scope has parallel answers. -/
theorem answer_same (scope : Scope) (n n' : Nat) (goal : Goal) :
    Parallel .same linking linking' .anywhere Eq (Grammar.answer linking scope n goal)
      (Grammar.answer linking' scope n' goal) := by
  have h : Parallel .same linking linking' .anywhere (Relabelling.same.answer goal · = ·)
      (Grammar.answer linking scope n goal) (Grammar.answer linking' scope n' goal) :=
    answer scope n n' goal
  rw [← Routine.bind_pure (Grammar.answer linking scope n goal),
    ← Routine.bind_pure (Grammar.answer linking' scope n' goal)]
  exact h.map fun a _ ha => (Relabelling.answer_same goal a).symm.trans ha

end Parallel

end TemplateTree
