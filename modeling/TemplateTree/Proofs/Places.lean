import TemplateTree.Proofs.Specs.Answer

/-!
Where tokens stand. Most tokens mean the same wherever they stand; what the others mean is found
by going through the stream in a situation, which remembers the token before and what is open. The
grammar finds the same: the tokens of a phrase have the roles that the phrase gives them.
-/

namespace TemplateTree
set_option autoImplicit false

/-- What the tokens before say about the next one. -/
inductive Spot where
  /-- Behind a name or a head token, where a head goes on. -/
  | head
  /-- Behind the dot of a head. -/
  | headDot
  /-- Behind the head of a loop. -/
  | loop
  /-- Behind the body of a loop. -/
  | loopEnd
  /-- In a run of text. -/
  | text (p : TextPlace)
  | elsewhere
deriving DecidableEq, Repr, Inhabited

/-- Something that is open. -/
inductive Frame where
  | body (ofLoop : Bool)
  /-- An interpolation into a run of text. -/
  | interpolation (p : TextPlace)
deriving DecidableEq, Repr, Inhabited

structure Situation where
  spot : Spot
  frames : List Frame
deriving DecidableEq, Repr, Inhabited

/-- What a token is where its kind does not tell. -/
inductive Role where
  | plain
  /-- A shorthand that opens a tag of its own. -/
  | division
  /-- The else of a loop. -/
  | alternative
  /-- The dot of a head. -/
  | textOnly
  /-- A newline within text. -/
  | lineBreak
deriving DecidableEq, Repr, Inhabited

structure Placed where
  token : Token
  role : Role
deriving DecidableEq, Repr, Inhabited

def Token.plain (t : Token) : Placed := ⟨t, .plain⟩

/-- The place of text that stands at a spot. -/
def Spot.textPlace : Spot → TextPlace
  | head => .inLine
  | headDot => .inLine
  | text p => p
  | _ => .lines

namespace Situation

/-- Before a stream. -/
def start : Situation := ⟨.elsewhere, []⟩

/-- The role of a token in a situation and in front of a lexeme. -/
def role (p : Situation) (t : Token) (next : Lexeme) : Role :=
  match t.lexeme with
  | .idName _ => if p.spot = .head then .plain else .division
  | .className _ => if p.spot = .head then .plain else .division
  | .code c => if p.spot = .loopEnd ∧ c.source = "else" then .alternative else .plain
  | .dot => if p.spot = .head then .textOnly else .plain
  | .newline =>
    if p.spot = .text .pipeless ∨ p.spot = .text .lines ∧ next.kind = .text then .lineBreak
    else .plain
  | _ => .plain

/-- The situation behind a token. -/
def after (p : Situation) (t : Token) : Situation :=
  match t.lexeme with
  | .tag .. => { p with spot := .head }
  | .interpolation _ => { p with spot := .head }
  | .call .. => { p with spot := .head }
  | .idName _ => { p with spot := .head }
  | .className _ => { p with spot := .head }
  | .attrs .. => p
  | .attributeBlock _ => p
  | .dot => { p with spot := if p.spot = .head then .headDot else .elsewhere }
  | .each _ => { p with spot := .loop }
  | .indent _ => ⟨.elsewhere, .body (p.spot == .loop) :: p.frames⟩
  | .outdent =>
    ⟨if p.frames.head? = some (.body true) then .loopEnd else .elsewhere, p.frames.tail⟩
  | .text _ => { p with spot := .text p.spot.textPlace }
  | .startInterpolation => ⟨.elsewhere, .interpolation p.spot.textPlace :: p.frames⟩
  | .endInterpolation =>
    match p.frames with
    | .interpolation within :: frames => ⟨.text within, frames⟩
    | frames => ⟨.elsewhere, frames⟩
  | .startPipeless => { p with spot := .text .pipeless }
  | .newline =>
    { p with spot :=
        if p.spot = .text .pipeless ∨ p.spot = .text .lines then p.spot else .elsewhere }
  | _ => { p with spot := .elsewhere }

def run (p : Situation) (ts : List Token) : Situation := ts.foldl after p

/-- The roles of tokens that begin in a situation and that a lexeme follows. -/
def placed (p : Situation) : List Token → Lexeme → List Placed
  | [], _ => []
  | t :: ts, next =>
    ⟨t, p.role t ((ts.head?.map Token.lexeme).getD next)⟩ :: (p.after t).placed ts next

section Step

variable (p : Situation) (line : Line)

theorem role_newline (next : Lexeme) : p.role ⟨line, .newline⟩ next =
    if p.spot = .text .pipeless ∨ p.spot = .text .lines ∧ next.kind = .text then .lineBreak
    else .plain := rfl

theorem after_newline : p.after ⟨line, .newline⟩ =
    ⟨if p.spot = .text .pipeless ∨ p.spot = .text .lines then p.spot else .elsewhere, p.frames⟩ :=
  rfl

theorem after_dot : p.after ⟨line, .dot⟩ =
    ⟨if p.spot = .head then .headDot else .elsewhere, p.frames⟩ := rfl

theorem after_outdent : p.after ⟨line, .outdent⟩ =
    ⟨if p.frames.head? = some (.body true) then .loopEnd else .elsewhere, p.frames.tail⟩ := rfl

theorem after_endInterpolation {within : TextPlace} {frames : List Frame}
    (h : p.frames = .interpolation within :: frames) :
    p.after ⟨line, .endInterpolation⟩ = ⟨.text within, frames⟩ := by
  obtain ⟨spot, _⟩ := p
  cases h
  rfl

end Step

end Situation

/-- The tokens of a stream up to its end, with their roles. -/
def Template.placed (ts : List Token) : List Placed :=
  Situation.start.placed (ts.takeWhile fun t => !t.isEos) .eos

namespace Phrase

/-- The tokens of a phrase with the roles that the phrase gives them, the tokens of a content
without its head. -/
@[simp] def placed : {g : Symbol} → Phrase g → List Placed
  | _, done => []
  | _, newline line more => Token.plain ⟨line, .newline⟩ :: more.placed
  | _, html line content nested lines more =>
    Token.plain ⟨line, .textHtml content⟩ :: nested.placed ++ lines.placed ++ more.placed
  | _, item e more => e.placed ++ more.placed
  | _, body opening width items closing =>
    Token.plain ⟨opening, .indent width⟩ :: items.placed ++ [Token.plain ⟨closing, .outdent⟩]
  | _, noBody => []
  | _, someBody b => b.placed
  | _, textEnd => []
  | _, textPiece line content more => Token.plain ⟨line, .text content⟩ :: more.placed
  | _, textBreak (p := p) line more =>
    ⟨⟨line, .newline⟩, if p = .pipeless ∨ more.opensWithText then .lineBreak else .plain⟩ ::
      more.placed
  | _, textInterpolation opening e closing more =>
    Token.plain ⟨opening, .startInterpolation⟩ :: e.placed ++
      Token.plain ⟨closing, .endInterpolation⟩ :: more.placed
  | _, noPipeless => []
  | _, somePipeless opening pieces closing =>
    Token.plain ⟨opening, .startPipeless⟩ :: pieces.placed ++
      [Token.plain ⟨closing, .endPipeless⟩]
  | _, htmlEnd => []
  | _, htmlLine line content nested lines =>
    Token.plain ⟨line, .textHtml content⟩ :: nested.placed ++ lines.placed
  | _, nestedNone => []
  | _, nestedBody b => b.placed
  | _, nestedNewline line => [Token.plain ⟨line, .newline⟩]
  | _, code line c b => Token.plain ⟨line, .code c⟩ :: b.placed
  | _, lineEnd => []
  | _, lineText pieces => pieces.placed
  | _, lineCode c => c.placed
  | _, lineColon colon e => Token.plain ⟨colon, .colon⟩ :: e.placed
  | _, plain _ l newlines b =>
    l.placed ++ newlines.map (fun line => Token.plain ⟨line, .newline⟩) ++ b.placed
  | _, dotted _ dotLine l newlines b =>
    ⟨⟨dotLine, .dot⟩, .textOnly⟩ :: l.placed ++
      newlines.map (fun line => Token.plain ⟨line, .newline⟩) ++ b.placed
  | _, noBranches => []
  | _, branchNewline line more => Token.plain ⟨line, .newline⟩ :: more.placed
  | _, branch line source x more =>
    Token.plain ⟨line, branchLexeme source⟩ :: x.placed ++ more.placed
  | _, fallThrough => []
  | _, expansionColon colon e => Token.plain ⟨colon, .colon⟩ :: e.placed
  | _, expansionBody b => b.placed
  | _, noAlternative => []
  | _, someAlternative line c b => ⟨⟨line, .code c⟩, .alternative⟩ :: b.placed
  | _, tag line name selfClosing c =>
    Token.plain ⟨line, .tag name selfClosing⟩ :: c.heads.map Token.plain ++ c.placed
  | _, buffered line source c =>
    Token.plain ⟨line, .interpolation source⟩ :: c.heads.map Token.plain ++ c.placed
  | _, division c =>
    (c.heads.take 1).map (fun t => ⟨t, .division⟩) ++ c.heads.tail.map Token.plain ++ c.placed
  | _, call line name args c =>
    Token.plain ⟨line, .call name args⟩ :: c.heads.map Token.plain ++ c.placed
  | _, definition line name args b => Token.plain ⟨line, .mixin name args⟩ :: b.placed
  | _, oldCall line name args => [Token.plain ⟨line, .mixin name args⟩]
  | _, mixinBlock line => [Token.plain ⟨line, .mixinBlock⟩]
  | _, namedBlock line name mode b => Token.plain ⟨line, .block name mode⟩ :: b.placed
  | _, inclusion line path via attrs b =>
    Token.plain ⟨line, .inclusion path via attrs⟩ :: b.placed
  | _, statement c => c.placed
  | _, each line head b a => Token.plain ⟨line, .each head⟩ :: b.placed ++ a.placed
  | _, case line source opening width bs closing =>
    Token.plain ⟨line, .case source⟩ :: Token.plain ⟨opening, .indent width⟩ :: bs.placed ++
      [Token.plain ⟨closing, .outdent⟩]
  | _, inherit line path => [Token.plain ⟨line, .inherit path⟩]
  | _, doctype line name => [Token.plain ⟨line, .doctype name⟩]
  | _, yield line => [Token.plain ⟨line, .yield⟩]
  | _, filter line name group b =>
    Token.plain ⟨line, .filter name⟩ :: (group.map fun g => (groupToken g).plain).toList ++
      b.placed
  | _, comment line content isBuffered b =>
    Token.plain ⟨line, .comment content isBuffered⟩ :: b.placed
  | _, dot line b => Token.plain ⟨line, .dot⟩ :: b.placed
  | _, textLines pieces => pieces.placed
  | _, rawHtml line content nested lines =>
    Token.plain ⟨line, .textHtml content⟩ :: nested.placed ++ lines.placed

end Phrase

/-! Going through tokens one after the other. -/

namespace Situation

/-- Going through the tokens, with the lexeme behind them, gives them their roles and ends at the
other situation. -/
structure Passes (p : Situation) (ts : List Token) (next : Lexeme) (ps : List Placed)
    (q : Situation) : Prop where
  placed : p.placed ts next = ps
  run : p.run ts = q

theorem map_token_placed (p : Situation) (ts : List Token) (next : Lexeme) :
    (p.placed ts next).map Placed.token = ts := by
  induction ts generalizing p with
  | nil => rfl
  | cons t ts ih => rw [placed, List.map_cons, ih]

namespace Passes

variable {p q r : Situation} {ts us : List Token} {ps qs : List Placed} {next : Lexeme} {t : Token}

theorem nil : p.Passes [] next [] p := ⟨rfl, rfl⟩

theorem cons {ro : Role} (hr : p.role t ((ts.head?.map Token.lexeme).getD next) = ro)
    (h : (p.after t).Passes ts next ps q) : p.Passes (t :: ts) next (⟨t, ro⟩ :: ps) q where
  placed := by rw [Situation.placed, hr, h.placed]
  run := h.run

theorem cons_plain (hr : ∀ next, p.role t next = .plain) (h : (p.after t).Passes ts next ps q) :
    p.Passes (t :: ts) next (t.plain :: ps) q :=
  h.cons (hr _)

theorem append (h₁ : p.Passes ts ((us.head?.map Token.lexeme).getD next) ps q)
    (h₂ : q.Passes us next qs r) : p.Passes (ts ++ us) next (ps ++ qs) r := by
  induction ts generalizing p ps with
  | nil =>
    obtain ⟨rfl, rfl⟩ := h₁
    exact h₂
  | cons t ts ih =>
    obtain ⟨rfl, hrun⟩ := h₁
    refine (ih ⟨rfl, hrun⟩).cons ?_
    cases ts <;> rfl

end Passes

end Situation

end TemplateTree
