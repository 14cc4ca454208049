import TemplateTree.Cursor
import TemplateTree.Diagnostic.Basic

/-!
Parsing routines. A routine of bound `n` runs where fewer than `n` tokens remain, and leaves no
more than it found; so routines compose, and one that has read a token may call any routine of
the smaller bound. This is what makes the grammar's recursion end.
-/

namespace TemplateTree
set_option autoImplicit false

/-- What a parse carries along. The mixin depth counts the mixin definitions that enclose the place;
the else link is the position of the else token that directly follows the conditional finished
last. -/
structure State where
  cursor : Cursor
  mixinDepth : Nat
  elseLink : Option Nat
  notices : List Notice
deriving DecidableEq, Repr, Inhabited

namespace State

def size (s : State) : Nat := s.cursor.size

def start (c : Cursor) : State := ⟨c, 0, none, []⟩

def addNotices (ns : List Notice) (s : State) : State := { s with notices := s.notices ++ ns }

def enterMixin (s : State) : State := { s with mixinDepth := s.mixinDepth + 1 }

def leaveMixin (s : State) : State := { s with mixinDepth := s.mixinDepth - 1 }

end State

/-- How an else branch comes to know of the conditional it belongs to. -/
structure Linking where
  /-- What a conditional does when its body is read. -/
  finish : State → State
  /-- Whether an else branch may stand at a position. -/
  admits : State → Option Nat → CodeLine → Bool
  size_finish : ∀ s, (finish s).size ≤ s.size

namespace Linking

/-- The branches of a conditional stand next to each other, with at most one newline between
them. Remembers where the else token that follows stands. -/
def rememberElse (s : State) : State :=
  if s.cursor.peek.isElse then { s with elseLink := s.cursor.position 1 }
  else if s.cursor.peek.kind = .newline ∧ (s.cursor.lookahead 2).isElse then
    { s with elseLink := s.cursor.position 2 }
  else s

theorem size_rememberElse (s : State) : (rememberElse s).size ≤ s.size := by
  unfold rememberElse
  split
  · exact Nat.le_refl _
  · split <;> exact Nat.le_refl _

/-- One slot holds the position of the else token that may come next. The lexer may also have
linked an else token itself. -/
def slot : Linking where
  finish := rememberElse
  admits s place c := c.hasIf || (place.isSome && place == s.elseLink)
  size_finish := size_rememberElse

end Linking

/-- What a routine answers with when it started in the given state. -/
structure Answer (s : State) (α : Type) where
  value : α
  state : State
  size_le : state.size ≤ s.size

def Routine (n : Nat) (α : Type) : Type := (s : State) → s.size < n → Except Fault (Answer s α)

namespace Routine

variable {n : Nat} {α β : Type}

protected def pure (a : α) : Routine n α := fun s _ => .ok ⟨a, s, Nat.le_refl _⟩

protected def bind (r : Routine n α) (f : α → Routine n β) : Routine n β := fun s h =>
  match r s h with
  | .error e => .error e
  | .ok a =>
    match f a.value a.state (Nat.lt_of_le_of_lt a.size_le h) with
    | .error e => .error e
    | .ok b => .ok ⟨b.value, b.state, Nat.le_trans b.size_le a.size_le⟩

instance : Monad (Routine n) where
  pure := Routine.pure
  bind := Routine.bind

def fail (cause : Cause) (line : Line) : Routine n α := fun _ _ => .error ⟨cause, line⟩

/-- A result computed without reading. -/
def ofExcept (r : Except Fault α) : Routine n α := fun s _ =>
  match r with
  | .error e => .error e
  | .ok a => .ok ⟨a, s, Nat.le_refl _⟩

/-- What can be seen of the state. -/
def look (f : State → α) : Routine n α := fun s _ => .ok ⟨f s, s, Nat.le_refl _⟩

def peek : Routine n Token := look fun s => s.cursor.peek

/-- Reads a token, or the end of the stream. -/
def next : Routine n Token := fun s _ =>
  .ok ⟨s.cursor.advance.1, { s with cursor := s.cursor.advance.2 }, Cursor.size_advance _⟩

/-- A change that reads nothing. -/
def modify (f : State → State) (size_le : ∀ s, (f s).size ≤ s.size) : Routine n Unit := fun s _ =>
  .ok ⟨(), f s, size_le s⟩

def addNotices (ns : List Notice) : Routine n Unit :=
  modify (State.addNotices ns) fun _ => Nat.le_refl _

def enterMixin : Routine n Unit := modify State.enterMixin fun _ => Nat.le_refl _

def leaveMixin : Routine n Unit := modify State.leaveMixin fun _ => Nat.le_refl _

/-- Reads the next token if it passes a test. -/
def acceptIf (test : Token → Bool) : Routine n (Option Token) := do
  if test (← peek) then return some (← next) else return none

/-- Reads the next token if it is of the given kind. -/
def accept (kind : TokenKind) : Routine n (Option Token) := acceptIf fun t => t.kind == kind

/-- Reads the next token, which must be of the given kind. -/
def expect (kind : TokenKind) : Routine n Token := do
  let found ← peek
  if found.kind = kind then next else fail (.expected kind found.kind) found.line

/-- Reads all newlines that come next. -/
def skipNewlines : Routine n Unit := fun s _ =>
  let run := s.cursor.remaining.takeWhile fun t => t.kind == .newline
  .ok ⟨(), { s with cursor := s.cursor.skip run.length }, Cursor.size_skip _ _⟩

/-- Reads the run of head tokens that comes next. A shorthand that opens an expression is put
back first, so that the run starts with it. -/
def headRun (opening : Option { t : Token // t.isHead = true }) : Routine n (List Token) :=
  fun s _ =>
    match opening with
    | none =>
      .ok ⟨s.cursor.spanHead.1, { s with cursor := s.cursor.spanHead.2 }, Cursor.size_spanHead _⟩
    | some t =>
      let c := s.cursor.defer t
      .ok ⟨c.spanHead.1, { s with cursor := c.spanHead.2 }, Cursor.size_spanHead_defer _ t.2⟩

/-- Decides on the next token and its position: either reads it and goes on below, or leaves it
to the other routine, which also gets the end of the stream. -/
def opening (go : Option Nat → Token → Option (Routine n α))
    (stop : Token → Routine (n + 1) α) : Routine (n + 1) α := fun s h =>
  match s.cursor.next? with
  | none => stop s.cursor.eos s h
  | some (t, c) =>
    match go (s.cursor.position 1) t with
    | none => stop t s h
    | some r =>
      have hc : c.1.size + 1 = s.size := c.2
      match r { s with cursor := c } (show c.1.size < n by omega) with
      | .error e => .error e
      | .ok a =>
        have ha : a.state.size ≤ c.1.size := a.size_le
        .ok ⟨a.value, a.state, by omega⟩

end Routine

end TemplateTree
