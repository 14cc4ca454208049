import TemplateTree.Proofs.ElseLink
import TemplateTree.Proofs.Simulation

/-!
Else branches linked by marks in the stream. A finished conditional may also write into the else
token that follows that it belongs to a conditional, and then an else branch only needs to look at
its own token. The slot stands for all these marks: those it has forgotten are on tokens that were
read already.
-/

namespace TemplateTree
set_option autoImplicit false

/-- A line of code that knows of a conditional before it. -/
def Token.withIf (t : Token) : Token :=
  match t.lexeme with
  | .code c => ⟨t.line, .code { c with hasIf := true }⟩
  | _ => t

/-- Marks the first token if it opens an else branch. -/
def markFirst : List Token → List Token
  | [] => []
  | t :: ts => if t.isElse then t.withIf :: ts else t :: ts

/-- Marks the else token that directly follows, at most one newline further on. -/
def markElse : List Token → List Token
  | [] => []
  | t :: ts =>
    if t.isElse then t.withIf :: ts
    else if t.kind = .newline then t :: markFirst ts
    else t :: ts

theorem length_markFirst (ts : List Token) : (markFirst ts).length = ts.length := by
  cases ts with
  | nil => rfl
  | cons t ts =>
    rw [markFirst]
    split <;> rfl

theorem length_markElse (ts : List Token) : (markElse ts).length = ts.length := by
  cases ts with
  | nil => rfl
  | cons t ts =>
    rw [markElse]
    split
    · rfl
    · split
      · exact congrArg Nat.succ (length_markFirst ts)
      · rfl

namespace Linking

/-- Conditionals mark the else token that follows them in the stream, and an else branch must be
marked. -/
def backPatching : Linking where
  finish s := { s with cursor := { s.cursor with tokens := markElse s.cursor.tokens } }
  admits _ _ c := c.hasIf
  size_finish s := by simp only [State.size, Cursor.size, length_markElse, Nat.le_refl]

end Linking

namespace Token

variable {t : Token}

theorem alike_withIf (t : Token) : t.Alike .same t.withIf := by
  obtain ⟨line, lexeme⟩ := t
  cases lexeme with
  | code c => exact .code line c true
  | _ => exact .refl _

theorem withIf_withIf (t : Token) : t.withIf.withIf = t.withIf := by
  obtain ⟨line, lexeme⟩ := t
  cases lexeme <;> rfl

theorem withIf_of_newline (h : t.kind = .newline) : t.withIf = t := by
  obtain ⟨line, lexeme⟩ := t
  cases lexeme <;> cases h
  rfl

end Token

/-- The tokens from the given position on, with the mark that the link stands for. -/
def patch (link : Option Nat) (place : Nat) : List Token → List Token
  | [] => []
  | t :: ts => (if link = some place then t.withIf else t) :: patch link (place + 1) ts

section Patch

variable {link : Option Nat} {place : Nat} {t : Token} {ts : List Token}

/-- A link that points back marks nothing. -/
theorem patch_of_lt (h : ∀ i ∈ link, i < place) : patch link place ts = ts := by
  induction ts generalizing place with
  | nil => rfl
  | cons t ts ih =>
    have hne : link ≠ some place := fun hl => Nat.lt_irrefl _ (h place hl)
    rw [patch, if_neg hne, ih fun i hi => Nat.lt_succ_of_lt (h i hi)]

theorem alike_ite_withIf (p : Prop) [Decidable p] (t : Token) :
    t.Alike .same (if p then t.withIf else t) := by
  split
  · exact t.alike_withIf
  · exact .refl t

/-- A finished conditional marks what its link points to from then on, and no mark is lost. -/
theorem patch_elseAhead (h : ∀ i ∈ link, i ≤ place + 1 ∧
    (i = place + 1 → ∃ t ∈ ts.head?, t.kind = .newline)) :
    patch ((elseAhead place ts).or link) place ts = markElse (patch link place ts) := by
  cases ts with
  | nil => rfl
  | cons t ts =>
    have halike := alike_ite_withIf (link = some place) t
    by_cases he : t.isElse = true
    · have hlink : ∀ i ∈ link, i < place + 1 := by
        intro i hi
        refine Nat.lt_of_le_of_ne (h i hi).1 fun heq => ?_
        obtain ⟨_, ht, hn⟩ := (h i hi).2 heq
        cases ht
        exact Token.not_isElse_of_newline hn he
      have hor : (elseAhead place (t :: ts)).or link = some place := by
        rw [elseAhead, if_pos he]
        rfl
      rw [hor, patch, patch, markElse, halike.isElse_eq, if_pos he, if_pos rfl,
        patch_of_lt hlink, patch_of_lt fun i hi => by cases hi; exact Nat.lt_succ_self _]
      split
      · rw [Token.withIf_withIf]
      · rfl
    · by_cases hn : t.kind = .newline
      · have ht (p : Prop) [Decidable p] : (if p then t.withIf else t) = t := by
          rw [Token.withIf_of_newline hn, ite_self]
        rw [patch, patch, markElse, ht, ht, if_neg he, if_pos hn]
        cases ts with
        | nil => rfl
        | cons u us =>
          have hlink : ∀ i ∈ link, i < place + 2 := fun i hi => Nat.lt_succ_of_le (h i hi).1
          have halike := alike_ite_withIf (link = some (place + 1)) u
          by_cases hu : u.isElse = true
          · have hor : (elseAhead place (t :: u :: us)).or link = some (place + 1) := by
              rw [elseAhead, if_neg he, if_pos ⟨hn, hu⟩]
              rfl
            rw [hor, patch, patch, markFirst, halike.isElse_eq, if_pos hu, if_pos rfl,
              patch_of_lt hlink, patch_of_lt fun i hi => by cases hi; exact Nat.lt_succ_self _]
            split
            · rw [Token.withIf_withIf]
            · rfl
          · have hor : (elseAhead place (t :: u :: us)).or link = link := by
              rw [elseAhead, if_neg he, if_neg fun h => hu h.2]
              rfl
            rw [hor, patch, markFirst, halike.isElse_eq, if_neg hu]
      · have hor : (elseAhead place (t :: ts)).or link = link := by
          rw [elseAhead, if_neg he, if_neg fun h => hn h.1]
          rfl
        rw [hor, patch, markElse, halike.isElse_eq, if_neg he, halike.kind_eq, if_neg hn]

theorem patch_none : patch none place ts = ts := patch_of_lt nofun

theorem alike_patch (link : Option Nat) (place : Nat) (ts : List Token) :
    List.Forall₂ (Token.Alike .same) ts (patch link place ts) := by
  induction ts generalizing place with
  | nil => exact .nil
  | cons t ts ih => exact .cons (alike_ite_withIf _ t) (ih (place + 1))

end Patch

namespace State

variable {s : State} {t : Token} {ts : List Token}

/-- The state of a parse that marks the stream where this one has its link. -/
def patched (s : State) : State :=
  { s with
    cursor := { s.cursor with tokens := patch s.elseLink s.cursor.consumed s.cursor.tokens }
    elseLink := none }

theorem tokens_patched (ht : s.cursor.tokens = t :: ts) : s.patched.cursor.tokens =
    (if s.elseLink = some s.cursor.consumed then t.withIf else t) ::
      patch s.elseLink (s.cursor.consumed + 1) ts := by
  rw [patched, ht, patch]

theorem next_patched (hp : s.Plain) (ht : s.cursor.tokens = t :: ts) :
    s.patched.next = s.next.patched := by
  have hp' : s.patched.Plain := hp
  rw [next_eq hp' (tokens_patched ht), next_eq hp ht,
    (alike_ite_withIf (s.elseLink = some s.cursor.consumed) t).line_eq]
  rfl

/-- A mark admits an else branch where the link does. -/
theorem admits_patched {line : Line} {d d' : CodeLine} {us : List Token}
    (ht : s.cursor.tokens = ⟨line, .code d⟩ :: ts)
    (hu : s.patched.cursor.tokens = ⟨line, .code d'⟩ :: us) :
    Linking.backPatching.admits s.next.patched (some s.cursor.consumed) d' =
      Linking.slot.admits s.next (some s.cursor.consumed) d := by
  rw [tokens_patched ht] at hu
  have hd := (List.cons.inj hu).1
  change d'.hasIf = (d.hasIf || (true && some s.cursor.consumed == s.elseLink))
  split at hd
  · next hl =>
    cases hd
    simp [hl]
  · next hl =>
    cases hd
    simp [Ne.symm hl]

/-- A conditional that is finished marks what it lets the slot point to. -/
theorem finish_patched (hp : s.Plain) (hn : s.LinkNear) :
    Linking.backPatching.finish s.patched = (Linking.slot.finish s).patched := by
  change _ = (Linking.rememberElse s).patched
  rw [rememberElse_eq hp]
  simp only [patched, Linking.backPatching]
  rw [patch_elseAhead]
  intro i hi
  refine ⟨(hn i hi).1, fun heq => ?_⟩
  have hk := (hn i hi).2 heq
  refine ⟨_, head?_of_peek hp fun h => ?_, hk⟩
  rw [h] at hk
  cases hk

end State

/-- Marks in the stream go along with the slot. -/
def patching : Simulation .same .slot .backPatching where
  Rel s u := s.Plain ∧ s.LinkNear ∧ u = s.patched
  plain := by
    rintro s _ ⟨hp, _, rfl⟩
    exact ⟨hp, hp⟩
  streams := by
    rintro s _ ⟨_, _, rfl⟩
    exact .of_alike (alike_patch _ _ _) rfl
  consumed := by
    rintro s _ ⟨_, _, rfl⟩
    rfl
  mixinDepth := by
    rintro s _ ⟨_, _, rfl⟩
    rfl
  notices := by
    rintro s _ ⟨_, _, rfl⟩
    exact (Relabelling.map_notice_same s.notices).symm
  next := by
    rintro s _ t ts v us ⟨hp, hn, rfl⟩ ht _ _ _
    exact ⟨State.plain_next hp ht, hn.next hp ht, State.next_patched hp ht⟩
  admits := by
    rintro s _ line d ts d' us ⟨hp, _, rfl⟩ ht hu _
    rw [State.next_patched hp ht]
    exact State.admits_patched ht hu
  finish := by
    rintro s _ ⟨hp, hn, rfl⟩
    exact ⟨State.plain_rememberElse hp, hn.rememberElse hp, State.finish_patched hp hn⟩
  addNotices := by
    rintro s _ ns ⟨hp, hn, rfl⟩
    rw [Relabelling.map_notice_same]
    exact ⟨hp, hn, rfl⟩
  enterMixin := by
    rintro s _ ⟨hp, hn, rfl⟩
    exact ⟨hp, hn, rfl⟩
  leaveMixin := by
    rintro s _ ⟨hp, hn, rfl⟩
    exact ⟨hp, hn, rfl⟩

namespace Template

theorem readItems_backPatching (file : Option String) (ts : List Token) :
    readItems .backPatching file (.ofTokens ts) = readItems .slot file (.ofTokens ts) := by
  have hstart : patching.Rel (.start (.ofTokens ts)) (.start (.ofTokens ts)) := by
    refine ⟨rfl, nofun, ?_⟩
    rw [State.patched, State.start, patch_none]
  exact (patching.readItems_eq file hstart).trans (Relabelling.items_same _)

/-- Marks in the stream and the slot lead to the same tree and warnings, or to the same error. -/
theorem parse_eq_backPatching (file : Option String) (ts : List Token) :
    parse file ts = parseLinking .backPatching file ts := by
  rw [parse, parseLinking, parseLinking, readItems_backPatching]

end Template

end TemplateTree
