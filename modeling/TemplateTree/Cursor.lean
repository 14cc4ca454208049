import TemplateTree.Token.Basic

/-!
Cursors over a list of tokens, with lookahead and pushback. What remains to be read is the list
of the deferred tokens, the latest first, followed by the tokens not yet taken from the list.
Past the end a cursor answers with the end of the stream, as often as it is asked. Positions
count the tokens of the list, so what is deferred never moves them.
-/

namespace TemplateTree
set_option autoImplicit false

structure Cursor where
  deferred : List Token
  tokens : List Token
  /-- How many tokens were taken from the list. -/
  consumed : Nat
  /-- The line of the token read last. -/
  line : Line
  /-- The line on which the stream ends. -/
  endLine : Line
deriving DecidableEq, Repr, Inhabited

namespace Cursor

/-- A cursor before the first of the given tokens, of a stream that ends on the given line. -/
def start (tokens : List Token) (endLine : Line) : Cursor := ⟨[], tokens, 0, 0, endLine⟩

/-- The line of the last token, zero if there is none. -/
def lastLine (ts : List Token) : Line := (ts.getLast?.map Token.line).getD 0

/-- A cursor over a list that ends with its last token. -/
def ofTokens (ts : List Token) : Cursor := start ts (lastLine ts)

def remaining (c : Cursor) : List Token := c.deferred ++ c.tokens

def size (c : Cursor) : Nat := c.deferred.length + c.tokens.length

def eos (c : Cursor) : Token := .eos c.endLine

/-- The next token, if there is one, and the cursor behind it, which has one token less. -/
def next? (c : Cursor) : Option (Token × { c' : Cursor // c'.size + 1 = c.size }) :=
  match c with
  | ⟨t :: ds, ts, consumed, line, endLine⟩ =>
    some (t, ⟨⟨ds, ts, consumed, t.line, endLine⟩, by simp only [size, List.length_cons]; omega⟩)
  | ⟨[], t :: ts, consumed, line, endLine⟩ =>
    some (t, ⟨⟨[], ts, consumed + 1, t.line, endLine⟩, by
      simp only [size, List.length_cons, List.length_nil]; omega⟩)
  | ⟨[], [], _, _, _⟩ => none

/-- Reads a token, or the end of the stream. -/
def advance (c : Cursor) : Token × Cursor :=
  match c.next? with
  | some (t, c') => (t, c')
  | none => (c.eos, { c with line := c.endLine })

/-- The token that the given number of reads would arrive at, counted from one. -/
def lookahead (c : Cursor) (n : Nat) : Token :=
  match c.deferred[n - 1]? with
  | some t => t
  | none => (c.tokens[n - 1 - c.deferred.length]?).getD c.eos

def peek (c : Cursor) : Token := c.lookahead 1

/-- The place in the list of the token looked ahead at, if it comes from the list. -/
def position (c : Cursor) (n : Nat) : Option Nat :=
  if n - 1 < c.deferred.length then none
  else
    let i := n - 1 - c.deferred.length
    if (c.tokens[i]?).isSome then some (c.consumed + i) else none

/-- Puts a token in front of what remains. -/
def defer (c : Cursor) (t : Token) : Cursor := { c with deferred := t :: c.deferred }

/-- Reads several tokens. -/
def skip : Nat → Cursor → Cursor
  | 0, c => c
  | k + 1, c => skip k c.advance.2

/-- The longest run of head tokens that comes next, and the cursor behind it. -/
def spanHead (c : Cursor) : List Token × Cursor :=
  let run := c.remaining.takeWhile Token.isHead
  (run, c.skip run.length)

theorem size_advance (c : Cursor) : c.advance.2.size ≤ c.size := by
  unfold advance
  split
  · next t c' _ => exact Nat.le_of_succ_le (Nat.le_of_eq c'.2)
  · exact Nat.le_refl _

theorem size_skip (k : Nat) (c : Cursor) : (c.skip k).size ≤ c.size := by
  induction k generalizing c with
  | zero => exact Nat.le_refl _
  | succ k ih => exact Nat.le_trans (ih _) (size_advance c)

theorem size_spanHead (c : Cursor) : c.spanHead.2.size ≤ c.size := size_skip _ c

/-- Reading a token that was put back leads to where it was put back. -/
theorem advance_defer (c : Cursor) (t : Token) :
    (c.defer t).advance = (t, { c with line := t.line }) := rfl

/-- A head token that is put back is read again with the run it opens. -/
theorem size_spanHead_defer (c : Cursor) {t : Token} (h : t.isHead = true) :
    (c.defer t).spanHead.2.size ≤ c.size := by
  have hr : (c.defer t).remaining = t :: c.remaining := rfl
  simp only [spanHead, hr, List.takeWhile_cons, h, if_true, List.length_cons, skip, advance_defer]
  exact size_skip _ { c with line := t.line }

end Cursor

end TemplateTree
