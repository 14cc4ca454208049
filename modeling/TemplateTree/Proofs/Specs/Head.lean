import TemplateTree.Proofs.Specs.Run

/-!
Specifications of the routines that read tags and mixin calls.
-/

namespace TemplateTree
set_option autoImplicit false

/-- What a line of code is behind its token, which stood at the given position. -/
def CodeLine.ReadBy (scope : Scope) (place : Option Nat) (line : Line) (c : CodeLine) (s : State)
    (v : Node) (s' : State) : Prop :=
  ∃ b : Phrase .optionalBody, b.Fits s'.cursor.peek.lexeme ∧
    v = Grammar.codeNode scope line c (b.value scope) ∧ (Event.code line c).Allowed place s ∧
      ∃ m, Leads b.trace s m ∧ Leads (if c.isIf then [.finish] else []) m s'

theorem CodeLine.readBy_iff {scope : Scope} {line : Line} {c : CodeLine} {s s' : State} {v : Node}
    (hh : s.cursor.tokens.head? = some ⟨line, .code c⟩) :
    Symbol.code.ReadBy scope s v s' ↔ c.ReadBy scope (s.cursor.position 1) line s.next v s' := by
  constructor
  · rintro ⟨t, hf, rfl, hl⟩
    cases t with
    | code _ _ b =>
      simp only [Phrase.trace, List.cons_append, Leads.cons_iff, Leads.append_iff] at hl
      obtain ⟨m, h, k, h₁, h₂⟩ := hl
      obtain ⟨hc, rfl, ha⟩ := (Event.step_of_token rfl).mp h
      cases hh.symm.trans hc
      exact ⟨b, hf, rfl, ha, k, h₁, h₂⟩
  · rintro ⟨b, hf, rfl, ha, k, h₁, h₂⟩
    refine ⟨.code line c b, hf, rfl, ?_⟩
    simp only [Phrase.trace, List.cons_append, Leads.cons_iff, Leads.append_iff]
    exact ⟨_, (Event.step_of_token rfl).mpr ⟨hh, rfl, ha⟩, k, h₁, h₂⟩

/-- What stands behind a head whose name stands on the given line. -/
def InLine.ReadBy (scope : Scope) (line : Line) (s : State) (v : Block × Option Node)
    (s' : State) : Prop :=
  ∃ l : Phrase .line, l.Fits s'.cursor.peek.lexeme ∧ v = l.value scope line ∧ Leads l.trace s s'

/-- What a run of head tokens is behind the shorthand that opens it. -/
def Head.ReadBy (selfClosing : Bool) (shorthand : Option Token) (s : State) (v : Head)
    (s' : State) : Prop :=
  ∃ (more : List Token) (m : State), (∀ t ∈ more, t.isHead = true) ∧
    Leads (more.map .read) s m ∧ m.cursor.peek.isHead = false ∧
      (uniqueNames ((shorthand.toList ++ more).flatMap Token.attributes)).Nodup ∧
        v = gather selfClosing (shorthand.toList ++ more) ∧
          s' = m.addNotices (notices false (shorthand.toList ++ more))

/-- What follows the name of a tag or call behind the shorthand that opens it. -/
def Content.ReadBy (scope : Scope) (line : Line) (selfClosing : Bool) (shorthand : Option Token)
    (s : State) (v : Content) (s' : State) : Prop :=
  ∃ c : Phrase .content, c.Fits s'.cursor.peek.lexeme ∧ v = c.value scope line selfClosing ∧
    ∃ es, c.trace = shorthand.toList.map .read ++ es ∧ Leads es s s'

/-- What a mixin is behind its name: a definition when a body follows, otherwise an old call. -/
def Mixin.ReadBy (scope : Scope) (line : Line) (name : String) (args : Option String) (s : State)
    (v : Node) (s' : State) : Prop :=
  (∃ b : Phrase .body, b.Fits s'.cursor.peek.lexeme ∧
    v = scope.node line (.mixin ⟨name, args, false, [], []⟩ (some (b.value scope))) ∧
      ∃ m, Leads b.trace s.enterMixin m ∧ s' = m.leaveMixin) ∨
  (s.cursor.peek.kind ≠ .indent ∧
    v = scope.node line (.mixin ⟨name, args, true, [], []⟩ none) ∧
      s' = s.addNotices [⟨.deprecatedMixinCall name, line⟩])

namespace Phrase

variable {s s' : State}

/-- What happens behind the head tokens at the beginning of a content. -/
def afterHeads : Phrase .content → List Event
  | plain _ l newlines b => l.trace ++ newlines.map .newline ++ b.trace
  | dotted _ dotLine l newlines b =>
    .read ⟨dotLine, .dot⟩ :: l.trace ++ newlines.map .newline ++ b.trace

theorem trace_content (c : Phrase .content) : c.trace =
    c.heads.map .read ++ .notices (Head.notices false c.heads) :: c.afterHeads := by
  cases c <;> simp [trace, heads, afterHeads]

/-- A content that begins with a shorthand has it as its first head token. -/
theorem trace_content_iff {c : Phrase .content} {shorthand : Option Token} {es : List Event} :
    c.trace = shorthand.toList.map .read ++ es ↔ ∃ more, c.heads = shorthand.toList ++ more ∧
      es = more.map .read ++ .notices (Head.notices false c.heads) :: c.afterHeads := by
  rw [trace_content]
  cases shorthand with
  | none => simp [eq_comm]
  | some t =>
    cases c.heads with
    | nil => simp
    | cons u us => simp [eq_comm]

theorem lexeme_peek_newlines {lines : List Line} (hp : s.Plain)
    (hl : Leads (lines.map .newline) s s') :
    s.cursor.peek.lexeme = if lines = [] then s'.cursor.peek.lexeme else .newline := by
  cases lines with
  | nil => rw [if_pos rfl, hl]
  | cons line lines =>
    obtain ⟨_, h, _⟩ := hl
    rw [if_neg (List.cons_ne_nil _ _), Event.peek_of_step_read hp h]

/-- A line is followed by newlines, all of them, and then by a body. -/
theorem fits_line {g : Symbol} {l : Phrase .line} {newlines : List Line} {b : Phrase g}
    {s₁ s₂ : State} (hp : s.Plain) (hl : Leads l.trace s s₁)
    (hn : Leads (newlines.map .newline) s₁ s₂) (hb : Leads b.trace s₂ s') :
    (l.Fits (if newlines = [] then b.lead s'.cursor.peek.lexeme else .newline) ∧
      (b.lead s'.cursor.peek.lexeme).kind ≠ .newline) ↔
      l.Fits s₁.cursor.peek.lexeme ∧ s₂.cursor.peek.kind ≠ .newline := by
  have hp₁ := hl.plain hp
  rw [lexeme_peek_newlines hp₁ hn, ← b.lexeme_peek (hn.plain hp₁) hb]
  rfl

/-- The kinds of tokens in front of which the rest of a line is what it is. -/
def FollowsHead : Phrase .line → TokenKind → Prop
  | lineEnd, k => k.endsLine = true
  | lineText _, k => TextPlace.inLine.takes k = true
  | lineCode _, k => k = .code
  | lineColon _ _, k => k = .colon

theorem followsHead_of_fits (l : Phrase .line) {next : Lexeme} (hf : l.Fits next) :
    l.FollowsHead (l.lead next).kind := by
  cases l with
  | lineEnd => exact hf
  | lineText => exact hf.1
  | lineCode c =>
    cases c
    rfl
  | lineColon => rfl

theorem followsHead_of_leads (l : Phrase .line) (hp : s.Plain)
    (hf : l.Fits s'.cursor.peek.lexeme) (hl : Leads l.trace s s') :
    l.FollowsHead s.cursor.peek.kind := by
  have h := congrArg Lexeme.kind (l.lexeme_peek hp hl)
  change s.cursor.peek.kind = _ at h
  rw [h]
  exact l.followsHead_of_fits hf

theorem FollowsHead.not_head {l : Phrase .line} {t : Token} (h : l.FollowsHead t.kind) :
    t.isHead = false ∧ t.kind ≠ .dot := by
  obtain ⟨line, lexeme⟩ := t
  cases l <;> cases lexeme <;> cases h <;> exact ⟨rfl, nofun⟩

/-- A line does not begin with a head token. -/
theorem isHead_lead_line {l : Phrase .line} {next : Lexeme} (hf : l.Fits next) :
    (l.lead next).isHead = false :=
  ((l.followsHead_of_fits hf).not_head (t := ⟨0, l.lead next⟩)).1

theorem FollowsHead.eq_lineEnd {l : Phrase .line} {k : TokenKind} (h : l.FollowsHead k)
    (hk : k.endsLine = true) : l = .lineEnd := by
  cases l with
  | lineEnd => rfl
  | lineText => cases k <;> cases hk <;> cases h
  | lineCode => cases h; cases hk
  | lineColon => cases h; cases hk

theorem FollowsHead.eq_lineText {l : Phrase .line} {k : TokenKind} (h : l.FollowsHead k)
    (hk : TextPlace.inLine.takes k = true) : ∃ pieces, l = .lineText pieces := by
  cases l with
  | lineEnd => cases k <;> cases hk <;> cases h
  | lineText pieces => exact ⟨pieces, rfl⟩
  | lineCode => cases h; cases hk
  | lineColon => cases h; cases hk

/-- A run of text that takes its first token begins on that token's line. -/
theorem startLine_eq {p : TextPlace} (pieces : Phrase (.text p)) (hp : s.Plain)
    (hf : pieces.Fits s'.cursor.peek.lexeme) (hl : Leads pieces.trace s s')
    (ht : p.takes s.cursor.peek.kind = true) : pieces.startLine = s.cursor.peek.line := by
  rw [State.peek_eq hp, hl.tokens_eq hp]
  cases pieces with
  | textEnd =>
    cases hl
    exact absurd ht (by rw [show p.takes s.cursor.peek.kind = false from hf]; nofun)
  | textPiece => rfl
  | textBreak => rfl
  | textInterpolation => rfl

end Phrase

namespace Grammar

open Routine

variable {n : Nat} {scope : Scope} {below : Below n}
variable (hb : ∀ goal, Meets Anywhere (below goal) (goal.ReadBy scope))

theorem checkElse_meets (place : Option Nat) (line : Line) (c : CodeLine) :
    Meets Anywhere (checkElse .slot place line c : Routine n Unit)
      fun s _ s' => (Event.code line c).Allowed place s ∧ s' = s := by
  have hcheck (admitted : Bool) : Meets (fun s => Anywhere s ∧ Linking.slot.admits s place c = admitted)
      (if c.isElse && !admitted then Routine.fail .elseWithoutIf line else return : Routine n Unit)
      (fun s _ s' => (c.isElse = true → Linking.slot.admits s place c = true) ∧ s' = s) := by
    split
    · next h =>
      simp only [Bool.and_eq_true, Bool.not_eq_true'] at h
      refine (Meets.fail _ _).congr ?_
      rintro s _ s' _ ⟨_, ha⟩
      refine ⟨False.elim, fun hc => ?_⟩
      rw [ha, h.2] at hc
      cases hc.1 h.1
    · next h =>
      simp only [Bool.and_eq_true, Bool.not_eq_true', not_and, Bool.not_eq_false] at h
      refine (Meets.pure ()).congr ?_
      rintro s _ s' _ ⟨_, ha⟩
      rw [ha]
      exact ⟨fun hs => ⟨h, hs.2⟩, fun hs => ⟨rfl, hs.2⟩⟩
  exact Meets.look hcheck

theorem finishBranch_meets (c : CodeLine) :
    Meets Anywhere (finishBranch .slot c : Routine n Unit)
      fun s _ s' => Leads (if c.isIf then [.finish] else []) s s' := by
  unfold finishBranch
  split
  · refine (Meets.modify ?_).congr ?_
    · intro s
      exact Event.cursor_of_step (e := .finish) rfl rfl
    · intro s _ s' _ _
      exact ⟨fun h => ⟨s', h, rfl⟩, fun ⟨_, h, hs⟩ => hs.trans h⟩
  · refine (Meets.pure ()).congr ?_
    intro s _ s' _ _
    exact ⟨fun h => h.2, fun h => ⟨rfl, h⟩⟩

include hb in

theorem codeFrom_meets (place : Option Nat) (line : Line) (c : CodeLine) :
    Meets Anywhere (codeFrom .slot scope below place line c) (c.ReadBy scope place line) := by
  refine ((checkElse_meets place line c).bind fun _ => (body?_meets hb).bind fun nested =>
    (finishBranch_meets c).map fun _ => codeNode scope line c nested).congr ?_
  intro s v s' hp _
  have hpeek {m : State} (h : Leads (if c.isIf then [.finish] else []) m s') :
      s'.cursor.peek = m.cursor.peek := by
    split at h
    · obtain ⟨_, h, rfl⟩ := h
      rw [Event.cursor_of_step rfl h]
    · rw [h]
  constructor
  · rintro ⟨_, _, ⟨ha, rfl⟩, _, m, ⟨b, hf, rfl, h₁⟩, _, h₂, rfl⟩
    exact ⟨b, by rwa [hpeek h₂], rfl, ha, m, h₁, h₂⟩
  · rintro ⟨b, hf, rfl, ha, m, h₁, h₂⟩
    exact ⟨(), s, ⟨ha, rfl⟩, _, m, ⟨b, by rwa [← hpeek h₂], rfl, h₁⟩, (), h₂, rfl⟩

theorem lineEnd_meets {first : Token} (line : Line) (hk : first.kind.endsLine = true) :
    Meets (fun s => Anywhere s ∧ s.cursor.peek = first)
      (return (scope.block line [], none) : Routine n (Block × Option Node))
      (InLine.ReadBy scope line) := by
  refine (Meets.pure _).congr ?_
  rintro s v s' hp ⟨_, rfl⟩
  constructor
  · rintro ⟨rfl, rfl⟩
    exact ⟨.lineEnd, hk, rfl, rfl⟩
  · rintro ⟨l, hf, rfl, hl⟩
    cases (l.followsHead_of_leads hp hf hl).eq_lineEnd hk
    exact ⟨rfl, hl⟩

include hb in
theorem lineText_meets {first : Token} (line : Line)
    (hk : TextPlace.inLine.takes first.kind = true) :
    Meets (fun s => Anywhere s ∧ s.cursor.peek = first)
      (do
        let nodes ← below (.textRun false)
        return (scope.block line [scope.collapse first.line nodes], none))
      (InLine.ReadBy scope line) := by
  refine (((hb (.textRun false)).map fun nodes =>
    (scope.block line [scope.collapse first.line nodes], none)).weaken fun _ _ => trivial).congr ?_
  rintro s v s' hp ⟨_, rfl⟩
  constructor
  · rintro ⟨_, ⟨pieces, hf, rfl, hl⟩, rfl⟩
    refine ⟨.lineText pieces, ⟨?_, hf⟩, ?_, hl⟩
    · rwa [← pieces.lexeme_peek hp hl]
    · rw [← pieces.startLine_eq hp hf hl hk]
      rfl
  · rintro ⟨l, hf, rfl, hl⟩
    obtain ⟨pieces, rfl⟩ := (l.followsHead_of_leads hp hf hl).eq_lineText hk
    refine ⟨_, ⟨pieces, hf.2, rfl, hl⟩, ?_⟩
    rw [← pieces.startLine_eq hp hf.2 hl hk]
    rfl

include hb in
theorem lineCode_meets {first : Line} (line : Line) (c : CodeLine) :
    Meets (fun s => Anywhere s ∧ s.cursor.peek = ⟨first, .code c⟩)
      (do
        let place ← Routine.look fun s => s.cursor.position 1
        let t ← Routine.next
        return (scope.block line [], some (← codeFrom .slot scope below place t.line c)))
      (InLine.ReadBy scope line) := by
  refine (Meets.look fun place => (Meets.next.bind fun t =>
    (codeFrom_meets hb place t.line c).map fun node =>
      (scope.block line [], some node)).weaken ?_).congr ?_
  · rintro s ⟨⟨_, hpeek⟩, _⟩
    rw [hpeek]
    nofun
  rintro s v s' hp ⟨_, hpeek⟩
  have hh : s.cursor.tokens.head? = some ⟨first, .code c⟩ := by
    rw [← hpeek]
    exact State.head?_of_peek hp (by rw [hpeek]; nofun)
  constructor
  · rintro ⟨t, _, h, _, hc, rfl⟩
    obtain ⟨rfl, rfl⟩ := (Event.step_read_head hh).mp h
    obtain ⟨t, hf, rfl, hl⟩ := (CodeLine.readBy_iff hh).mpr hc
    exact ⟨.lineCode t, hf, rfl, hl⟩
  · rintro ⟨l, hf, rfl, hl⟩
    have h := l.followsHead_of_leads hp hf hl
    rw [hpeek] at h
    cases l with
    | lineCode t =>
      exact ⟨_, _, (Event.step_read_head hh).mpr ⟨rfl, rfl⟩, _,
        (CodeLine.readBy_iff hh).mp ⟨t, hf, rfl, hl⟩, rfl⟩
    | _ => cases h

include hb in
theorem lineColon_meets {first : Line} (line : Line) :
    Meets (fun s => Anywhere s ∧ s.cursor.peek = ⟨first, .colon⟩)
      (do return (← expansion scope below, none)) (InLine.ReadBy scope line) := by
  refine (((expansion_meets hb).map fun b => (b, none)).weaken fun _ _ => trivial).congr ?_
  rintro s v s' hp ⟨_, hpeek⟩
  constructor
  · rintro ⟨_, ⟨x, hf, hv, hl⟩, rfl⟩
    cases x with
    | fallThrough => cases hv
    | expansionColon colon e =>
      cases hv
      exact ⟨.lineColon colon e, hf, rfl, hl⟩
    | expansionBody b =>
      have h := b.kind_peek hp hl
      rw [hpeek] at h
      cases h
  · rintro ⟨l, hf, rfl, hl⟩
    have h := l.followsHead_of_leads hp hf hl
    rw [hpeek] at h
    cases l with
    | lineColon colon e => exact ⟨_, ⟨.expansionColon colon e, hf, rfl, hl⟩, rfl⟩
    | _ => cases h

include hb in
theorem lineContent_meets (line : Line) :
    Meets Anywhere (lineContent .slot scope below line) (InLine.ReadBy scope line) := by
  refine Meets.peek (S := fun _ => InLine.ReadBy scope line) ?_
  rintro ⟨first, lexeme⟩
  cases lexeme with
  | text | startInterpolation => exact lineText_meets hb line rfl
  | newline | indent | outdent | eos | startPipeless | endInterpolation => exact lineEnd_meets line rfl
  | code c => exact lineCode_meets hb line c
  | colon => exact lineColon_meets hb line
  | _ =>
    refine (Meets.fail _ _).congr ?_
    rintro s v s' hp ⟨_, hpeek⟩
    refine ⟨False.elim, ?_⟩
    rintro ⟨l, hf, rfl, hl⟩
    have h := l.followsHead_of_leads hp hf hl
    rw [hpeek] at h
    cases l <;> cases h

/-- The run of head tokens, with the shorthand that opens it, if one does. -/
theorem head_meets (selfClosing : Bool) (shorthand : Option { t : Token // t.isHead = true }) :
    Meets (OpenedBy shorthand) (Grammar.head selfClosing shorthand : Routine n Head)
      (Head.ReadBy selfClosing (shorthand.map Subtype.val)) := by
  refine (Meets.headRun.bind fun run => (Meets.ofExcept (x := Head.ofRun selfClosing run)).bind
    fun head => (Meets.addNotices (Head.notices false run)).map fun _ => head).congr ?_
  intro s v s' hp _
  constructor
  · rintro ⟨_, _, ⟨more, rfl, hk, hl, hm⟩, _, m, ⟨ho, rfl⟩, _, rfl, rfl⟩
    obtain ⟨hn, rfl⟩ := Head.ofRun_ok.mp ho
    exact ⟨more, m, hk, hl, hm, hn, rfl, rfl⟩
  · rintro ⟨more, m, hk, hl, hm, hn, rfl, rfl⟩
    exact ⟨_, m, ⟨more, rfl, hk, hl, hm⟩, _, m, ⟨Head.ofRun_ok.mpr ⟨hn, rfl⟩, rfl⟩, (), rfl, rfl⟩

include hb in
theorem bodyAfter_meets (line : Line) (textOnly : Bool) (inLine : Block) :
    Meets Anywhere (bodyAfter scope below line textOnly inLine) fun s v s' =>
      if textOnly then ∃ b, Symbol.optionalPipeless.ReadBy scope s b s' ∧
        v = b.getD (scope.block line [])
      else ∃ b, Symbol.optionalBody.ReadBy scope s b s' ∧ v = inLine.followedBy b := by
  unfold bodyAfter
  cases textOnly with
  | false => exact (body?_meets hb).map fun b => inLine.followedBy b
  | true => exact pipelessBody_meets hb line

theorem isHead_opened {shorthand : Option { t : Token // t.isHead = true }} {more : List Token}
    (hk : ∀ t ∈ more, t.isHead = true) :
    ∀ t ∈ (shorthand.map Subtype.val).toList ++ more, t.isHead = true := by
  intro t ht
  rcases List.mem_append.mp ht with ht | ht
  · cases shorthand with
    | none => cases ht
    | some u =>
      cases List.mem_singleton.mp ht
      exact u.2
  · exact hk t ht

include hb in
theorem content_meets (line : Line) (selfClosing : Bool)
    (shorthand : Option { t : Token // t.isHead = true }) :
    Meets (OpenedBy shorthand) (content .slot scope below line selfClosing shorthand)
      (Content.ReadBy scope line selfClosing (shorthand.map Subtype.val)) := by
  refine ((head_meets selfClosing shorthand).bind fun head => (Meets.acceptIf fun _ => rfl).bind
    fun dot => (lineContent_meets hb line).bind fun inLine => Meets.skipNewlines.bind fun _ =>
      (bodyAfter_meets hb line dot.isSome inLine.1).map
        fun body => (⟨head, dot.isSome, body, inLine.2⟩ : Content)).congr ?_
  intro s v s' hp _
  constructor
  · rintro ⟨_, _, ⟨more, m, hk, hm, _, hn, rfl, rfl⟩, dot, s₂, hdot, _, s₃, ⟨l, hl, rfl, h₃⟩, _, s₄,
      ⟨newlines, h₄, hnl⟩, body, hbody, rfl⟩
    have hp₁ (ns : List Notice) : (m.addNotices ns).Plain := hm.plain hp
    obtain ⟨t, rfl, ht, h₂⟩ | ⟨rfl, ht, rfl⟩ := hdot
    · obtain ⟨dotLine, rfl⟩ := Token.eq_of_kind_eq (l := .dot) rfl (beq_iff_eq.mp ht)
      obtain ⟨_, ⟨b, hf, rfl, h₅⟩, rfl⟩ := hbody
      have hline := (Phrase.fits_line (Event.plain_of_step (hp₁ _) h₂) h₃ h₄ h₅).mpr ⟨hl, hnl⟩
      refine ⟨.dotted ((shorthand.map Subtype.val).toList ++ more) dotLine l newlines b,
        ⟨isHead_opened hk, hn, hline.1, hline.2, hf⟩, rfl, _,
        Phrase.trace_content_iff.mpr ⟨more, rfl, rfl⟩, ?_⟩
      simp only [Phrase.afterHeads, List.cons_append, Leads.append_iff, Leads.cons_iff]
      exact ⟨m, hm, _, rfl, s₂, h₂, s₄, ⟨s₃, h₃, h₄⟩, h₅⟩
    · obtain ⟨_, ⟨b, hf, rfl, h₅⟩, rfl⟩ := hbody
      have hline := (Phrase.fits_line (hp₁ _) h₃ h₄ h₅).mpr ⟨hl, hnl⟩
      refine ⟨.plain ((shorthand.map Subtype.val).toList ++ more) l newlines b,
        ⟨isHead_opened hk, hn, hline.1, hline.2, hf⟩, rfl, _,
        Phrase.trace_content_iff.mpr ⟨more, rfl, rfl⟩, ?_⟩
      simp only [Phrase.afterHeads, Leads.append_iff, Leads.cons_iff]
      exact ⟨m, hm, _, rfl, s₄, ⟨s₃, h₃, h₄⟩, h₅⟩
  · rintro ⟨c, hf, rfl, es, htrace, hl⟩
    obtain ⟨more, hheads, rfl⟩ := Phrase.trace_content_iff.mp htrace
    cases c with
    | plain heads l newlines b =>
      cases hheads
      obtain ⟨hheads, hn, hl', hnl, hf⟩ := hf
      simp only [Phrase.afterHeads, Leads.append_iff, Leads.cons_iff] at hl
      obtain ⟨m, hm, _, rfl, s₄, ⟨s₃, h₃, h₄⟩, h₅⟩ := hl
      have hp₁ (ns : List Notice) : (m.addNotices ns).Plain := hm.plain hp
      have hline := (Phrase.fits_line (hp₁ _) h₃ h₄ h₅).mp ⟨hl', hnl⟩
      have hnot := (l.followsHead_of_leads (hp₁ _) hline.1 h₃).not_head
      exact ⟨_, _, ⟨more, m, fun t ht => hheads t (List.mem_append_right _ ht), hm, hnot.1, hn, rfl,
        rfl⟩, none, _, .inr ⟨rfl, beq_eq_false_iff_ne.mpr hnot.2, rfl⟩, _, s₃,
        ⟨l, hline.1, rfl, h₃⟩, (), s₄, ⟨newlines, h₄, hline.2⟩, _, ⟨_, ⟨b, hf, rfl, h₅⟩, rfl⟩, rfl⟩
    | dotted heads dotLine l newlines b =>
      cases hheads
      obtain ⟨hheads, hn, hl', hnl, hf⟩ := hf
      simp only [Phrase.afterHeads, List.cons_append, Leads.append_iff, Leads.cons_iff] at hl
      obtain ⟨m, hm, _, rfl, s₂, h₂, s₄, ⟨s₃, h₃, h₄⟩, h₅⟩ := hl
      have hp₁ (ns : List Notice) : (m.addNotices ns).Plain := hm.plain hp
      have hline := (Phrase.fits_line (Event.plain_of_step (hp₁ _) h₂) h₃ h₄ h₅).mp ⟨hl', hnl⟩
      have hnot : m.cursor.peek.isHead = false := by
        have h := Event.peek_of_step_read (hp₁ _) h₂
        rw [show m.cursor.peek = _ from h]
        rfl
      exact ⟨_, _, ⟨more, m, fun t ht => hheads t (List.mem_append_right _ ht), hm, hnot, hn, rfl,
        rfl⟩, some _, s₂, .inl ⟨_, rfl, rfl, h₂⟩, _, s₃, ⟨l, hline.1, rfl, h₃⟩, (), s₄,
        ⟨newlines, h₄, hline.2⟩, _, ⟨_, ⟨b, hf, rfl, h₅⟩, rfl⟩, rfl⟩

include hb in
theorem tagFrom_meets (line : Line) (name : String) (selfClosing buffered : Bool)
    (shorthand : Option { t : Token // t.isHead = true }) :
    Meets (OpenedBy shorthand) (tagFrom .slot scope below line name selfClosing buffered shorthand)
      fun s v s' => ∃ c, Content.ReadBy scope line selfClosing (shorthand.map Subtype.val) s c s' ∧
        v = c.tag scope line name buffered :=
  (content_meets hb line selfClosing shorthand).map (Content.tag scope line name buffered)

include hb in
theorem callFrom_meets (line : Line) (name : String) (args : Option String) :
    Meets Anywhere (callFrom .slot scope below line name args) fun s v s' =>
      ∃ c, Content.ReadBy scope line false none s c s' ∧ v = c.call scope line name args :=
  ((content_meets hb line false none).map (Content.call scope line name args)).weaken
    fun _ _ _ ht => by cases ht

include hb in
theorem mixinFrom_meets (line : Line) (name : String) (args : Option String) :
    Meets Anywhere (mixinFrom scope below line name args) (Mixin.ReadBy scope line name args) := by
  refine Meets.peek (S := fun _ => Mixin.ReadBy scope line name args) ?_
  intro first
  split
  · next hk =>
    refine (Meets.enterMixin.bind fun _ => (body_meets hb).bind fun definition =>
      Meets.leaveMixin.map fun _ => scope.node line
        (.mixin ⟨name, args, false, [], []⟩ (some definition))).congr ?_
    rintro s v s' hp ⟨_, rfl⟩
    constructor
    · rintro ⟨_, _, rfl, _, m, ⟨b, hf, rfl, hl⟩, _, rfl, rfl⟩
      exact .inl ⟨b, hf, rfl, m, hl, rfl⟩
    · rintro (⟨b, hf, rfl, m, hl, rfl⟩ | ⟨hn, _⟩)
      · exact ⟨(), _, rfl, _, m, ⟨b, hf, rfl, hl⟩, (), rfl, rfl⟩
      · exact absurd hk hn
  · next hk =>
    refine ((Meets.addNotices [⟨.deprecatedMixinCall name, line⟩]).map fun _ => scope.node line
      (.mixin ⟨name, args, true, [], []⟩ none)).congr ?_
    rintro s v s' hp ⟨_, rfl⟩
    constructor
    · rintro ⟨_, rfl, rfl⟩
      exact .inr ⟨hk, rfl, rfl⟩
    · rintro (⟨b, _, _, m, hl, _⟩ | ⟨_, rfl, rfl⟩)
      · exact absurd (b.kind_peek (s := s.enterMixin) hp hl) hk
      · exact ⟨(), rfl, rfl⟩

end Grammar

end TemplateTree
