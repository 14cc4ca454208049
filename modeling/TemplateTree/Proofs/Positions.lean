import Mathlib.Data.Nat.PSub
import TemplateTree.Proofs.Runs

/-!
Cursors and lists. Whatever was read from a cursor and put back to it, the cursor shows what a
list shows from which reading takes the first entry and to which putting back adds one in front.
In that list every token of the stream has its number from the start, and no move changes a
number. A cursor stores no numbers: it computes them from how many tokens it has taken, and the
two agree behind every history of moves.
-/

namespace TemplateTree
set_option autoImplicit false

namespace Cursor

/-- What can be done to a cursor. -/
inductive Move where
  | advance
  | defer (t : Token)
deriving DecidableEq, Repr

/-- The cursor behind several moves. -/
def after (c : Cursor) : List Move → Cursor
  | [] => c
  | .advance :: moves => c.advance.2.after moves
  | .defer t :: moves => (c.defer t).after moves

/-! ### Moves on lists -/

namespace Move

variable {α β : Type}

/-- What several moves make of a list. A token that is put back is entered in a certain form. -/
def leave (enter : Token → α) : List Move → List α → List α
  | [], l => l
  | .advance :: moves, l => leave enter moves l.tail
  | .defer t :: moves, l => leave enter moves (enter t :: l)

/-- The tokens that were put back and not read since, the latest first. -/
def pending (moves : List Move) : List Token := leave id moves []

variable (enter : Token → α) (moves : List Move)

theorem map_leave (f : α → β) (l : List α) :
    (leave enter moves l).map f = leave (f ∘ enter) moves (l.map f) := by
  induction moves generalizing l with
  | nil => rfl
  | cons m moves ih =>
    cases m with
    | advance => simp only [leave, ih, List.map_tail]
    | defer t => simp only [leave, ih, List.map_cons, Function.comp_apply]

/-- What moves do not find in the front of a list they take from the rest. -/
theorem leave_append (l rest : List α) :
    ∃ k ≤ rest.length, leave enter moves (l ++ rest) = leave enter moves l ++ rest.drop k := by
  induction moves generalizing l rest with
  | nil => exact ⟨0, Nat.zero_le _, rfl⟩
  | cons m moves ih =>
    cases m with
    | defer t => exact ih (enter t :: l) rest
    | advance =>
      cases l with
      | cons a l => exact ih l rest
      | nil =>
        -- Nothing is left in front, so the rest begins to go.
        cases rest with
        | nil => exact ih [] []
        | cons a rest =>
          obtain ⟨k, hk, heq⟩ := ih [] rest
          exact ⟨k + 1, Nat.succ_le_succ hk, heq⟩

theorem leave_eq (l : List α) :
    ∃ k ≤ l.length, leave enter moves l = (pending moves).map enter ++ l.drop k := by
  obtain ⟨k, hk, heq⟩ := leave_append enter moves [] l
  rw [pending, map_leave]
  exact ⟨k, hk, heq⟩

end Move

/-! ### Numbers -/

/-- A token that remains to be read, with its number in the stream unless it was put back. -/
structure Numbered where
  token : Token
  number : Option Nat
deriving DecidableEq, Repr

namespace Numbered

def putBack (t : Token) : Numbered := ⟨t, none⟩

/-- The tokens of a stream, of which the first has the given number. -/
def stream (start : Nat) (ts : List Token) : List Numbered :=
  (ts.zipIdx start).map fun entry => ⟨entry.1, some entry.2⟩

variable {ts : List Token} {t : Token} {i : Nat}

theorem map_token_stream (start : Nat) : (stream start ts).map token = ts := by
  rw [stream, List.map_map]
  exact List.zipIdx_map_fst start ts

theorem map_token_putBack (ds : List Token) : (ds.map putBack).map token = ds := by
  rw [List.map_map]
  exact List.map_id ds

theorem length_stream (start : Nat) : (stream start ts).length = ts.length := by
  rw [← List.length_map token, map_token_stream]

theorem getElem?_stream (start : Nat) :
    (stream start ts)[i]? = ts[i]?.map fun t => ⟨t, some (start + i)⟩ := by
  rw [stream, List.getElem?_map, List.getElem?_zipIdx, Option.map_map]
  rfl

theorem getElem?_of_mem_stream (h : ⟨t, some i⟩ ∈ stream 0 ts) : ts[i]? = some t := by
  obtain ⟨⟨u, j⟩, hmem, heq⟩ := List.mem_map.mp h
  cases heq
  exact List.mk_mem_zipIdx_iff_getElem?.mp hmem

theorem not_mem_map_putBack {ds : List Token} : ⟨t, some i⟩ ∉ ds.map putBack := by
  intro h
  obtain ⟨d, -, heq⟩ := List.mem_map.mp h
  cases heq

end Numbered

/-- What several moves leave of a stream whose tokens were numbered before. -/
def Move.remainder (moves : List Move) (ts : List Token) : List Numbered :=
  leave .putBack moves (Numbered.stream 0 ts)

theorem Move.remainder_eq (moves : List Move) (ts : List Token) : ∃ k ≤ ts.length,
    remainder moves ts = (pending moves).map .putBack ++ (Numbered.stream 0 ts).drop k := by
  obtain ⟨k, hk, heq⟩ := leave_eq .putBack moves (Numbered.stream 0 ts)
  rw [Numbered.length_stream] at hk
  exact ⟨k, hk, heq⟩

theorem Move.getElem?_of_mem_remainder {moves : List Move} {ts : List Token} {t : Token} {i : Nat}
    (h : ⟨t, some i⟩ ∈ remainder moves ts) : ts[i]? = some t := by
  obtain ⟨k, -, heq⟩ := remainder_eq moves ts
  rw [heq] at h
  rcases List.mem_append.mp h with h | h
  · exact absurd h Numbered.not_mem_map_putBack
  · exact Numbered.getElem?_of_mem_stream (List.mem_of_mem_drop h)

/-- What remains to be read, with the numbers that the cursor's count gives. -/
def entries (c : Cursor) : List Numbered :=
  c.deferred.map .putBack ++ Numbered.stream c.consumed c.tokens

variable (c : Cursor) (moves : List Move) (n : Nat)

/-! ### Histories of moves -/

theorem deferred_advance : c.advance.2.deferred = c.deferred.tail := by
  cases c using front_cases <;> rfl

theorem entries_advance : c.advance.2.entries = c.entries.tail := by
  cases c using front_cases <;> rfl

theorem endLine_advance : c.advance.2.endLine = c.endLine := by
  cases c using front_cases <;> rfl

/-- What follows a list move by move follows it along every history. -/
theorem follows_after {α : Type} {view : Cursor → List α} {enter : Token → α}
    (hadvance : ∀ c, view c.advance.2 = (view c).tail)
    (hdefer : ∀ c t, view (c.defer t) = enter t :: view c) :
    view (c.after moves) = Move.leave enter moves (view c) := by
  induction moves generalizing c with
  | nil => rfl
  | cons m moves ih =>
    cases m with
    | advance => rw [after, ih, hadvance, Move.leave]
    | defer t => rw [after, ih, hdefer, Move.leave]

theorem deferred_after : (c.after moves).deferred = Move.leave id moves c.deferred :=
  follows_after c moves deferred_advance fun _ _ => rfl

theorem entries_after : (c.after moves).entries = Move.leave .putBack moves c.entries :=
  follows_after c moves entries_advance fun _ _ => rfl

theorem endLine_after : (c.after moves).endLine = c.endLine := by
  induction moves generalizing c with
  | nil => rfl
  | cons m moves ih =>
    cases m with
    | advance => rw [after, ih, endLine_advance]
    | defer t => exact ih (c.defer t)

/-! ### What a cursor shows -/

theorem map_token_entries : c.entries.map Numbered.token = c.remaining := by
  rw [entries, List.map_append, Numbered.map_token_putBack, Numbered.map_token_stream]
  rfl

theorem remaining_advance : c.advance.2.remaining = c.remaining.tail := by
  rw [← map_token_entries, entries_advance, List.map_tail, map_token_entries]

theorem lookahead_succ : c.lookahead (n + 1) = c.remaining[n]?.getD c.eos := by
  rw [lookahead, remaining, Nat.add_sub_cancel]
  cases hd : c.deferred[n]? with
  | some t =>
    obtain ⟨hlt, -⟩ := List.getElem?_eq_some_iff.mp hd
    rw [List.getElem?_append_left hlt, hd]
    rfl
  | none => rw [List.getElem?_append_right (List.getElem?_eq_none_iff.mp hd)]

theorem position_succ : c.position (n + 1) = c.entries[n]?.bind Numbered.number := by
  simp only [position, entries, Nat.add_sub_cancel]
  by_cases hn : n < c.deferred.length
  · rw [if_pos hn, List.getElem?_append_left (by rwa [List.length_map]), List.getElem?_map,
      List.getElem?_eq_getElem hn]
    rfl
  · rw [if_neg hn, List.getElem?_append_right (by rw [List.length_map]; omega), List.length_map,
      Numbered.getElem?_stream]
    cases c.tokens[n - c.deferred.length]? <;> rfl

/-- A position is the number of the token looked ahead at. -/
theorem position_eq_some {i : Nat} :
    c.position (n + 1) = some i ↔ c.entries[n]? = some ⟨c.lookahead (n + 1), some i⟩ := by
  rw [position_succ, lookahead_succ, ← map_token_entries, List.getElem?_map]
  cases c.entries[n]? with
  | none => exact ⟨nofun, nofun⟩
  | some e =>
    obtain ⟨t, number⟩ := e
    constructor
    · rintro rfl
      rfl
    · intro h
      cases h
      rfl

/-- Looking ahead with differences that must exist. There is no answer where one of them would lie
below zero. -/
def lookahead? (c : Cursor) (n : Nat) : Option Token := do
  let index ← (max n 1).psub 1
  match c.deferred[index]? with
  | some t => return t
  | none =>
    let rest ← index.psub c.deferred.length
    return c.tokens[rest]?.getD c.eos

theorem lookahead?_eq : c.lookahead? n = some (c.lookahead n) := by
  have hindex : (max n 1).psub 1 = some (n - 1) := by
    rw [Nat.psub_eq_sub (Nat.le_max_right n 1)]
    congr 1
    omega
  rw [lookahead?, hindex, lookahead, Option.bind_eq_bind, Option.bind_some]
  cases hd : c.deferred[n - 1]? with
  | some t => rfl
  | none =>
    -- The second difference is only taken where no token put back was found.
    have hle : c.deferred.length ≤ n - 1 := List.getElem?_eq_none_iff.mp hd
    simp only [Nat.psub_eq_sub hle]
    rfl

/-- What remains behind further moves stands as deep as the tokens put back push it, and keeps its
position. -/
theorem position_after : ∃ j ≤ c.remaining.length,
    (c.after moves).remaining = Move.pending moves ++ c.remaining.drop j ∧
      ∀ n, (c.after moves).position ((Move.pending moves).length + n + 1) =
        c.position (j + n + 1) := by
  obtain ⟨j, hj, heq⟩ := Move.leave_eq .putBack moves c.entries
  rw [← entries_after] at heq
  refine ⟨j, ?_, ?_, ?_⟩
  · rwa [← map_token_entries, List.length_map]
  · rw [← map_token_entries, heq, List.map_append, List.map_drop, map_token_entries,
      Numbered.map_token_putBack]
  · intro n
    rw [position_succ, position_succ, heq, List.getElem?_append_right (by simp), List.length_map,
      Nat.add_sub_cancel_left, List.getElem?_drop]

/-- A cursor of a stream is a list with fixed numbers, whatever was read from it and put back to
it. What remains are the tokens put back and not read since, the latest first, in front of the
stream without its first `k` tokens. Looking ahead shows what remains, and behind it the end of
the stream, on the line of its last token; no difference that it takes lies below zero. Reading
gives and removes what is looked ahead at, and leaves the cursor on its line. There is a position
exactly where a token of the stream is looked ahead at, and it is the number which that token had
from the start. So whatever happens further, what still remains of the tokens then keeps its
positions at its new depth. -/
theorem after_refines_list (ts : List Token) (moves : List Move) :
    let c := (ofTokens ts).after moves
    (∃ k ≤ ts.length, c.deferred = Move.pending moves ∧ c.remaining = c.deferred ++ ts.drop k ∧
        Move.remainder moves ts = c.deferred.map .putBack ++ (Numbered.stream 0 ts).drop k) ∧
      (∀ n, c.lookahead (n + 1) = c.remaining[n]?.getD (.eos (lastLine ts)) ∧
        c.lookahead? (n + 1) = some (c.lookahead (n + 1))) ∧
      (c.advance.1 = c.lookahead 1 ∧ c.advance.2.remaining = c.remaining.tail ∧
        c.advance.2.line = (c.lookahead 1).line) ∧
      (∀ n i, c.position (n + 1) = some i ↔
        (Move.remainder moves ts)[n]? = some ⟨c.lookahead (n + 1), some i⟩) ∧
      (∀ n i, c.position (n + 1) = some i → ts[i]? = some (c.lookahead (n + 1))) ∧
      ∀ later, ∃ j ≤ c.remaining.length,
        (c.after later).remaining = Move.pending later ++ c.remaining.drop j ∧
          ∀ n, (c.after later).position ((Move.pending later).length + n + 1) =
            c.position (j + n + 1) := by
  intro c
  have hdeferred : c.deferred = Move.pending moves := deferred_after (ofTokens ts) moves
  have hentries : c.entries = Move.remainder moves ts := entries_after (ofTokens ts) moves
  have heos : c.eos = .eos (lastLine ts) := congrArg Token.eos (endLine_after (ofTokens ts) moves)
  refine ⟨?remains, ?lookahead, ⟨?reads, c.remaining_advance, ?line⟩, ?position, ?place,
    c.position_after⟩
  case remains =>
    obtain ⟨k, hk, heq⟩ := Move.remainder_eq moves ts
    rw [← hdeferred] at heq
    refine ⟨k, hk, hdeferred, ?_, heq⟩
    rw [← map_token_entries, hentries, heq, List.map_append, List.map_drop,
      Numbered.map_token_putBack, Numbered.map_token_stream]
  case lookahead =>
    intro n
    rw [← heos]
    exact ⟨c.lookahead_succ n, c.lookahead?_eq (n + 1)⟩
  case reads => exact Routine.advance_fst c
  case line => exact (Routine.line_advance c).trans (congrArg Token.line (Routine.advance_fst c))
  case position =>
    intro n i
    rw [← hentries]
    exact c.position_eq_some n
  case place =>
    intro n i h
    have hentry := (c.position_eq_some n).mp h
    rw [hentries] at hentry
    exact Move.getElem?_of_mem_remainder (List.mem_of_getElem? hentry)

/-- A token put back has no position and moves none, also when it is read again. -/
example :
    let ts : List Token := [⟨1, .tag "p" false⟩, ⟨1, .text "hello"⟩, ⟨1, .newline⟩]
    let shown (moves : List Move) := [1, 2, 3, 4].map ((ofTokens ts).after moves).position
    shown [] = [some 0, some 1, some 2, none] ∧
      shown [.defer ⟨1, .colon⟩] = [none, some 0, some 1, some 2] ∧
      shown [.defer ⟨1, .colon⟩, .advance, .advance] = [some 1, some 2, none, none] := by
  decide

end Cursor

end TemplateTree
