import TemplateTree.Grammar.Expression

/-!
What a routine does on its way, as a log. A result does not tell how often the dispatcher was
entered or how a loop went on, so the log is kept beside it. It is taken along a plan: the plan of
a routine shows how the routine is put together out of the few things routines are made of, and
the type of the plan names the routine itself. What is logged is not for a plan to choose. A
question can be planned in no other way than as one, and its goal tells what is asked. How an
expression is read behind its first token is left open, so whoever reads one has to name the
dispatcher.

All places are given by the number of tokens left. A routine that puts a token back puts back the
one it has just read, so these are tokens of the stream.
-/

namespace TemplateTree
set_option autoImplicit false

/-- The loops of the grammar: those that it asks itself to go on with, and two that a routine goes
through on its own. -/
inductive Loop where
  | goal (goal : Goal)
  /-- The run of head tokens behind a name. -/
  | heads
  /-- The newlines between a tag's line and its body. -/
  | newlines
deriving DecidableEq, Repr

inductive Act where
  /-- The dispatcher is entered. -/
  | dispatch (left : Nat)
  /-- The expression is read that was dispatched on at the start. -/
  | finish (start left : Nat)
  /-- A loop is entered or goes on, in a turn of a loop or a call that began at the start. -/
  | turn (loop : Loop) (start left : Nat)
deriving DecidableEq, Repr

namespace Goal

/-- Whatever is asked for but one expression is read by a loop. -/
def isLoop : Goal → Bool
  | expression => false
  | _ => true

/-- What a question means by itself. It leads into a loop or on in it, unless it asks for one
expression. -/
def turns (goal : Goal) (start left : Nat) : List Act :=
  if goal.isLoop then [.turn (.goal goal) start left] else []

end Goal

/-- The turns of a loop that reads a token in each of them. -/
def Cursor.turns (loop : Loop) : Nat → Cursor → List Act
  | 0, _ => []
  | k + 1, c => .turn loop c.size c.advance.2.size :: turns loop k c.advance.2

namespace Routine

/-- The logs of the answers below. -/
abbrev Log (n : Nat) : Type := (goal : Goal) → (s : State) → s.size < n → List Act

section Plan

variable {n : Nat} (below : Below n)

/-- How a routine is put together, given the token that is known to come next, if one is. No plan
reads the end of a stream. -/
inductive Plan : Option Token → {α : Type} → Routine n α → Type 1 where
  | pure {k : Option Token} {α : Type} (a : α) : Plan k (Pure.pure a : Routine n α)
  | fail {k : Option Token} {α : Type} (cause : Cause) (line : Line) :
    Plan k (Routine.fail cause line : Routine n α)
  | ofExcept {k : Option Token} {α : Type} (x : Except Fault α) :
    Plan k (Routine.ofExcept x : Routine n α)
  | next {t : Token} (proper : t.kind ≠ .eos) : Plan (some t) Routine.next
  | modify {k : Option Token} (f : State → State) (size_le : ∀ s, (f s).size ≤ s.size)
    (cursor_eq : ∀ s, (f s).cursor = s.cursor) : Plan k (Routine.modify f size_le)
  | skipNewlines {k : Option Token} : Plan k Routine.skipNewlines
  | headRun {k : Option Token} (shorthand : Option { t : Token // t.isHead = true }) :
    Plan k (Routine.headRun shorthand)
  | ask {k : Option Token} (goal : Goal) : Plan k (below goal)
  | bind {k : Option Token} {α β : Type} {r : Routine n α} {f : α → Routine n β}
    (first : Plan k r) (rest : ∀ a, Plan none (f a)) : Plan k (r >>= f)
  | peek {k : Option Token} {β : Type} {f : Token → Routine n β} (rest : ∀ t, Plan (some t) (f t)) :
    Plan k (Routine.peek >>= f)
  | look {k : Option Token} {α β : Type} {g : State → α} {f : α → Routine n β}
    (rest : ∀ a, Plan k (f a)) : Plan k (Routine.look g >>= f)
  | ite {k : Option Token} {α : Type} {r r' : Routine n α} {c : Prop} (choice : Decidable c)
    (yes : c → Plan k r) (no : ¬ c → Plan k r') : Plan k (if c then r else r')

/-- How an expression is read behind its first token, which stood at a position. -/
abbrev Dispatch (n : Nat) : Type := Option Nat → Token → Routine n Node

variable (dispatch : Dispatch n)

/-- What a token leads to where routines decide on it: it is left, or read by a routine, or an
expression is dispatched on it. -/
inductive Entry (place : Option Nat) (t : Token) : {α : Type} → Option (Routine n α) → Type 1 where
  | stops {α : Type} : Entry place t (none : Option (Routine n α))
  | fails {α : Type} (cause : Cause) (line : Line) :
    Entry place t (some (Routine.fail cause line : Routine n α))
  | reads {α : Type} {r : Routine n α} (proper : t.kind ≠ .eos) (plan : Plan below none r) :
    Entry place t (some r)
  | dispatches : Entry place t (some (dispatch place t))
  | dispatchesThen {α : Type} {f : Node → Routine n α} (rest : ∀ e, Plan below none (f e)) :
    Entry place t (some (dispatch place t >>= f))

/-- A routine that reads nothing. -/
def Stays {α : Type} (r : Routine n α) : Prop := ∀ s h a, r s h = .ok a → a.state = s

/-- How the answer to a goal is put together, which decides on the token that comes next. A loop
leaves the end of the stream; where an expression is asked for, it is refused. -/
inductive Reading : Goal → {α : Type} → Routine (n + 1) α → Type 1 where
  | loop {goal : Goal} {α : Type} {go : Option Nat → Token → Option (Routine n α)}
    {stop : Token → Routine (n + 1) α} (isLoop : goal.isLoop = true)
    (entry : ∀ place t, Entry below dispatch place t (go place t)) (stays : ∀ t, Stays (stop t)) :
    Reading goal (Routine.opening go stop)
  | expression {α : Type} {go : Option Nat → Token → Option (Routine n α)} {cause : Token → Cause}
    {line : Token → Line} (entry : ∀ place t, Entry below dispatch place t (go place t)) :
    Reading .expression (Routine.opening go fun t => Routine.fail (cause t) (line t))

end Plan

section Acts

variable {n : Nat} {α : Type} {below : Below n} (log : Log n)

/-- What is logged behind a routine, if it gets there. -/
def thenLog {s : State} (x : Except Fault (Answer s α)) (more : Answer s α → List Act) : List Act :=
  match x with
  | .error _ => []
  | .ok a => more a

/-- What a planned routine does in a state, with the number of tokens left when the turn began. -/
def Plan.acts (start : Nat) : ∀ {k : Option Token} {α : Type} {r : Routine n α},
    Plan below k r → (s : State) → s.size < n → List Act
  | _, _, _, .pure _, _, _ => []
  | _, _, _, .fail _ _, _, _ => []
  | _, _, _, .ofExcept _, _, _ => []
  | _, _, _, .next _, _, _ => []
  | _, _, _, .modify _ _ _, _, _ => []
  | _, _, _, .skipNewlines, s, _ =>
    s.cursor.turns .newlines (s.cursor.remaining.takeWhile fun t => t.kind == .newline).length
  | _, _, _, .headRun shorthand, s, _ =>
    let c := match shorthand with
      | none => s.cursor
      | some t => s.cursor.defer t
    c.turns .heads c.spanHead.1.length
  | _, _, _, .ask goal, s, h => goal.turns start s.size ++ log goal s h
  | _, _, _, .bind (r := r) first rest, s, h =>
    first.acts start s h ++ thenLog (r s h) fun a =>
      (rest a.value).acts start a.state (Nat.lt_of_le_of_lt a.size_le h)
  | _, _, _, .peek rest, s, h => (rest s.cursor.peek).acts start s h
  | _, _, _, .look (g := g) rest, s, h => (rest (g s)).acts start s h
  | _, _, _, .ite choice yes no, s, h =>
    match choice with
    | .isTrue hc => (yes hc).acts start s h
    | .isFalse hc => (no hc).acts start s h

variable {dispatch : Dispatch n} (called : ∀ place t, Plan below none (dispatch place t))

/-- A call of the dispatcher on a token just read, from its dispatch to its end. -/
def callActs (place : Option Nat) (t : Token) (s : State) (h : s.size < n) : List Act :=
  .dispatch (s.size + 1) :: ((called place t).acts log (s.size + 1) s h ++
    thenLog (dispatch place t s h) fun a => [.finish (s.size + 1) a.state.size])

/-- What is done behind a token just read. -/
def Entry.acts {place : Option Nat} {t : Token} {o : Option (Routine n α)}
    (entry : Entry below dispatch place t o) (s : State) (h : s.size < n) : List Act :=
  match entry with
  | .stops => []
  | .fails _ _ => []
  | .reads _ plan => plan.acts log (s.size + 1) s h
  | .dispatches => callActs log called place t s h
  | .dispatchesThen rest => callActs log called place t s h ++
    thenLog (dispatch place t s h) fun a =>
      (rest a.value).acts log (s.size + 1) a.state (Nat.lt_of_le_of_lt a.size_le h)

/-- Behind a token that was read the routines below may go on. -/
theorem size_lt_behind {s : State} (c : { c' : Cursor // c'.size + 1 = s.cursor.size })
    (h : s.size < n + 1) : c.1.size < n := by
  have hc : c.1.size + 1 = s.size := c.2
  omega

/-- What is done about the token that comes next, or about the end of the stream. -/
def entryActs {go : Option Nat → Token → Option (Routine n α)}
    (entry : ∀ place t, Entry below dispatch place t (go place t)) (atEnd : List Act) (s : State)
    (h : s.size < n + 1) : List Act :=
  match s.cursor.next? with
  | none => atEnd
  | some (t, c) =>
    (entry (s.cursor.position 1) t).acts log called { s with cursor := c } (size_lt_behind c h)

def Reading.acts {goal : Goal} {R : Routine (n + 1) α} (reading : Reading below dispatch goal R)
    (s : State) (h : s.size < n + 1) : List Act :=
  match reading with
  | .loop _ entry _ => entryActs log called entry [] s h
  | .expression entry => entryActs log called entry [.dispatch s.size] s h

end Acts

end Routine

end TemplateTree
