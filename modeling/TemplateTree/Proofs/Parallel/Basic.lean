import TemplateTree.Proofs.Relabelling
import TemplateTree.Proofs.Runs

/-!
Two parsers side by side. Routines are parallel when they are built in the same way, up to the
linking and the bound, up to what their tokens know about else branches, and up to a relabelling
of what is reported. The answers of the grammar are parallel; so a property of two runs that every
way of building routines respects holds of the whole parse.
-/

namespace TemplateTree
set_option autoImplicit false

/-- Tokens of which the second is the first one relabelled, except perhaps that they do not agree
on whether something stands before an else. -/
inductive Token.Alike (label : Relabelling) : Token → Token → Prop where
  | token (t : Token) : Alike label t (label.token t)
  | code (line : Line) (c : CodeLine) (hasIf : Bool) :
    Alike label ⟨line, .code c⟩ ⟨label.line line, .code { c with hasIf := hasIf }⟩

namespace Token.Alike

variable {label : Relabelling} {t u : Token}

theorem refl (t : Token) : t.Alike .same t := .token t

theorem line_eq (h : t.Alike label u) : u.line = label.line t.line := by
  cases h <;> rfl

theorem kind_eq (h : t.Alike label u) : u.kind = t.kind := by
  cases h <;> rfl

theorem isElse_eq (h : t.Alike label u) : u.isElse = t.isElse := by
  cases h <;> rfl

end Token.Alike

/-! Tokens that open heads. -/

/-- The kinds of tokens that open the head of a tag or call. -/
def TokenKind.opensHead : TokenKind → Bool
  | .tag => true
  | .interpolation => true
  | .call => true
  | .idName => true
  | .className => true
  | _ => false

/-- The kinds of tokens that are read by themselves: they open no head and end no stream. -/
def TokenKind.standsAlone (k : TokenKind) : Bool := k != .eos && !k.opensHead

theorem TokenKind.ne_eos_of_standsAlone {k : TokenKind} (h : k.standsAlone = true) : k ≠ .eos := by
  rintro rfl
  cases h

namespace Token

/-- What a token that opens a head gives to the run of its head tokens: a shorthand is the first
of them. -/
def ownHead (t : Token) : List Token := [t].filter isHead

/-- The token opens a head, which begins with the shorthand if there is one. -/
def Opens (t : Token) (shorthand : Option { t : Token // t.isHead = true }) : Prop :=
  t.kind.opensHead = true ∧ (shorthand.map Subtype.val).toList = t.ownHead

theorem Opens.eq {t : Token} {shorthand : Option { t : Token // t.isHead = true }}
    (h : t.Opens shorthand) : ∀ v ∈ shorthand, v.1 = t := by
  rintro v ⟨⟩
  have hv : v.1 ∈ t.ownHead := h.2 ▸ List.mem_singleton_self v.1
  exact List.mem_singleton.mp (List.mem_filter.mp hv).1

end Token

/-- Behind the token the routine comes to nothing, or it fails where the head that the token opens
is refused. -/
def Routine.ReadsHead {n : Nat} {α : Type} (r : Routine n α) (t : Token) : Prop :=
  (∀ s a s', ¬ r.Runs s a s') ∨ ∀ s e, s.Plain → s.cursor.line = t.line → s.size < n →
    (∀ selfClosing, Head.ofRun selfClosing
      (t.ownHead ++ s.cursor.tokens.takeWhile Token.isHead) = .error e) → r.Fails s e

namespace Routine.ReadsHead

variable {n : Nat} {α β : Type} {r : Routine n α} {t : Token}

theorem fail (cause : Cause) (line : Line) : (Routine.fail cause line : Routine n α).ReadsHead t :=
  .inl fun _ _ _ => not_runs_fail

theorem bind {f : α → Routine n β} (h : r.ReadsHead t) : (r >>= f).ReadsHead t := by
  rcases h with h | h
  · left
    intro s b s' hr
    obtain ⟨a, m, hra, _⟩ := runs_bind.mp hr
    exact h s a m hra
  · right
    intro s e hp hline hlt he
    exact fails_bind.mpr (.inl (h s e hp hline hlt he))

end Routine.ReadsHead

/-- Where two parallel runs stand. -/
inductive Stance where
  | anywhere
  /-- The tokens come next, at the given position. -/
  | before (place : Option Nat) (t u : Token)
  /-- The tokens were read last, and stood at the given position. -/
  | behind (place : Option Nat) (t u : Token)

theorem Stance.shorthand_behind {label : Relabelling} {c : Stance}
    {shorthand : Option { t : Token // t.isHead = true }}
    (h : ∃ place t u, c = .behind place t u ∧ u.line = label.line t.line ∧ t.Opens shorthand) :
    ∀ t ∈ shorthand, ∃ place u, c = .behind place t.1 u ∧ u.line = label.line t.1.line := by
  obtain ⟨place, t, u, rfl, hline, hopen⟩ := h
  intro v hv
  rw [hopen.eq v hv]
  exact ⟨place, u, rfl, hline⟩

/-- Two ways to open that open something for the same tokens, up to what makes them alike. -/
def OpenAlike {n n' : Nat} {α : Type} (label : Relabelling)
    (go : Option Nat → Token → Option (Routine n α))
    (go' : Option Nat → Token → Option (Routine n' α)) : Prop :=
  ∀ place t u, t.Alike label u → (go place t).isSome = (go' place u).isSome

namespace OpenAlike

variable {n n' : Nat} {α : Type} {label : Relabelling} {place : Option Nat} {t u : Token}
variable {go : Option Nat → Token → Option (Routine n α)}
variable {go' : Option Nat → Token → Option (Routine n' α)}

theorem eq_none (h : OpenAlike label go go') (ht : t.Alike label u) (hg : go place t = none) :
    go' place u = none := by
  have hsome := h place t u ht
  rw [hg] at hsome
  exact Option.not_isSome_iff_eq_none.mp (by rw [← hsome]; nofun)

theorem exists_eq_some {r : Routine n α} (h : OpenAlike label go go') (ht : t.Alike label u)
    (hg : go place t = some r) : ∃ r', go' place u = some r' := by
  have hsome := h place t u ht
  rw [hg] at hsome
  exact Option.isSome_iff_exists.mp hsome.symm

end OpenAlike

/-- Ends of streams open nothing, or are refused as they are where nothing is opened. -/
def RefuseEnds {n n' : Nat} {α : Type} (label : Relabelling)
    (go : Option Nat → Token → Option (Routine n α))
    (go' : Option Nat → Token → Option (Routine n' α)) (stop : Token → Routine (n + 1) α)
    (stop' : Token → Routine (n' + 1) α) : Prop :=
  ∀ t u, t.Alike label u → t.kind = .eos → (∀ place, go place t = none) ∨
    ∃ cause : Cause, cause.found? = some .eos ∧
      (∀ place, go place t = some (Routine.fail cause t.line)) ∧
      (∀ place, go' place u = some (Routine.fail cause u.line)) ∧
      stop t = Routine.fail cause t.line ∧ stop' u = Routine.fail cause u.line

/-- The routines are built in the same way, and so are their answers as far as the relation says.
What the second one reports is relabelled. -/
inductive Parallel (label : Relabelling) (linking linking' : Linking) : {n n' : Nat} → {α : Type} →
    Stance → (α → α → Prop) → Routine n α → Routine n' α → Prop where
  | anywhere {n n' : Nat} {α : Type} {c : Stance} {R : α → α → Prop} {r : Routine n α}
    {r' : Routine n' α} : Parallel label linking linking' .anywhere R r r' →
      Parallel label linking linking' c R r r'
  /-- Nothing runs where fewer than no tokens remain. -/
  | vacuous {n n' : Nat} {α : Type} {c : Stance} {R : α → α → Prop} {r : Routine n α}
    {r' : Routine n' α} : n = 0 ∨ n' = 0 → Parallel label linking linking' c R r r'
  | pure {n n' : Nat} {α : Type} {R : α → α → Prop} {a a' : α} : R a a' →
    Parallel label linking linking' .anywhere R (Pure.pure a : Routine n α)
      (Pure.pure a' : Routine n' α)
  | bind {n n' : Nat} {α β : Type} {c : Stance} {R : α → α → Prop} {S : β → β → Prop}
    {r : Routine n α} {r' : Routine n' α} {f : α → Routine n β} {f' : α → Routine n' β} :
    Parallel label linking linking' c R r r' →
    (∀ a a', R a a' → Parallel label linking linking' .anywhere S (f a) (f' a')) →
      Parallel label linking linking' c S (r >>= f) (r' >>= f')
  /-- Whether a mixin is open decides only whether something is refused. -/
  | lookDepth {n n' : Nat} {β : Type} {c : Stance} {S : β → β → Prop} {f : Nat → Routine n β}
    {f' : Nat → Routine n' β} {line : Line} : f' 0 = Routine.fail .anonymousBlock line →
    (∀ depth depth', depth ≠ 0 → depth' ≠ 0 → f' depth = f' depth') →
    (∀ depth, Parallel label linking linking' c S (f depth) (f' depth)) →
      Parallel label linking linking' c S (Routine.look State.mixinDepth >>= f)
        (Routine.look State.mixinDepth >>= f')
  | lookPlace {n n' : Nat} {β : Type} {place : Option Nat} {t u : Token} {S : β → β → Prop}
    {f : Option Nat → Routine n β} {f' : Option Nat → Routine n' β} : t.kind ≠ .eos →
    Parallel label linking linking' (.before place t u) S (f place) (f' place) →
      Parallel label linking linking' (.before place t u) S
        (Routine.look (fun s => s.cursor.position 1) >>= f)
        (Routine.look (fun s => s.cursor.position 1) >>= f')
  | checkElse {n n' : Nat} (place : Option Nat) (line : Line) {d d' : CodeLine} :
    Token.Alike label ⟨line, .code d⟩ ⟨label.line line, .code d'⟩ →
      Parallel label linking linking'
        (.behind place ⟨line, .code d⟩ ⟨label.line line, .code d'⟩) Eq
        (Grammar.checkElse linking place line d : Routine n Unit)
        (Grammar.checkElse linking' place (label.line line) d' : Routine n' Unit)
  | peek {n n' : Nat} {β : Type} {S : β → β → Prop} {f : Token → Routine n β}
    {f' : Token → Routine n' β} :
    (∀ place t u, t.Alike label u →
      Parallel label linking linking' (.before place t u) S (f t) (f' u)) →
      Parallel label linking linking' .anywhere S (Routine.peek >>= f) (Routine.peek >>= f')
  /-- The next token is refused. -/
  | stuckBefore {n n' : Nat} {α : Type} {R : α → α → Prop} {place : Option Nat} {t u : Token}
    {cause : Cause} : cause.found? = some t.kind →
      Parallel label linking linking' (.before place t u) R
        (Routine.fail cause t.line : Routine n α)
        (Routine.fail cause (label.line t.line) : Routine n' α)
  /-- The token that was read last is refused. -/
  | stuckBehind {n n' : Nat} {α : Type} {R : α → α → Prop} {place : Option Nat} {t u : Token}
    {cause : Cause} : (∀ kind ∈ cause.found?, kind = t.kind) →
      Parallel label linking linking' (.behind place t u) R
        (Routine.fail cause t.line : Routine n α)
        (Routine.fail cause (label.line t.line) : Routine n' α)
  | next {n n' : Nat} {β : Type} {place : Option Nat} {t u : Token} {S : β → β → Prop}
    {f : Token → Routine n β} {f' : Token → Routine n' β} : t.kind.standsAlone = true →
    Parallel label linking linking' (.behind place t u) S (f t) (f' u) →
      Parallel label linking linking' (.before place t u) S (Routine.next >>= f)
        (Routine.next >>= f')
  | skipNewlines {n n' : Nat} : Parallel label linking linking' .anywhere Eq
    (Routine.skipNewlines : Routine n Unit) (Routine.skipNewlines : Routine n' Unit)
  | head {n n' : Nat} {c : Stance} (selfClosing : Bool)
    {shorthand : Option { t : Token // t.isHead = true }} :
    (∃ place t u, c = .behind place t u ∧ u.line = label.line t.line ∧ t.Opens shorthand) →
      Parallel label linking linking' c Eq (Grammar.head selfClosing shorthand : Routine n Head)
        (Grammar.head selfClosing (shorthand.map label.opener) : Routine n' Head)
  | finish {n n' : Nat} : Parallel label linking linking' .anywhere Eq
    (Routine.modify linking.finish linking.size_finish : Routine n Unit)
    (Routine.modify linking'.finish linking'.size_finish : Routine n' Unit)
  | addNotices {n n' : Nat} (ns : List Notice) : Parallel label linking linking' .anywhere Eq
    (Routine.addNotices ns : Routine n Unit)
    (Routine.addNotices (ns.map label.notice) : Routine n' Unit)
  /-- A mixin that is entered is left again. -/
  | inMixin {n n' : Nat} {α β : Type} {R : α → α → Prop} {S : β → β → Prop} {r : Routine n α}
    {r' : Routine n' α} {f f' : α → β} : Parallel label linking linking' .anywhere R r r' →
    (∀ a a', R a a' → S (f a) (f' a')) →
      Parallel label linking linking' .anywhere S
        (Routine.enterMixin >>= fun _ => r >>= fun a => Routine.leaveMixin >>= fun _ =>
          Pure.pure (f a))
        (Routine.enterMixin >>= fun _ => r' >>= fun a => Routine.leaveMixin >>= fun _ =>
          Pure.pure (f' a))
  /-- An explicit end of the stream is read only to be refused, as the end of the list is. -/
  | opening {n n' : Nat} {α : Type} {R : α → α → Prop}
    {go : Option Nat → Token → Option (Routine n α)}
    {go' : Option Nat → Token → Option (Routine n' α)}
    {stop : Token → Routine (n + 1) α} {stop' : Token → Routine (n' + 1) α} :
    OpenAlike label go go' →
    (∀ place t u r r', t.Alike label u → go place t = some r → go' place u = some r' →
      Parallel label linking linking' (.behind place t u) R r r') →
    RefuseEnds label go go' stop stop' →
    (∀ place u r', u.kind.opensHead = true → go' place u = some r' → r'.ReadsHead u) →
    (∀ place t u, t.Alike label u →
      Parallel label linking linking' (.before place t u) R (stop t) (stop' u)) →
      Parallel label linking linking' .anywhere R (Routine.opening go stop)
        (Routine.opening go' stop')

namespace Parallel

section Rules

variable {label : Relabelling} {linking linking' : Linking} {n n' : Nat} {α β : Type} {c : Stance}
variable {R : α → α → Prop} {S : β → β → Prop} {r : Routine n α} {r' : Routine n' α}

theorem map {f f' : α → β} (h : Parallel label linking linking' c R r r')
    (hf : ∀ a a', R a a' → S (f a) (f' a')) :
    Parallel label linking linking' c S (r >>= fun a => Pure.pure (f a))
      (r' >>= fun a => Pure.pure (f' a)) :=
  h.bind fun a a' ha => .pure (hf a a' ha)

theorem bind_eq {f : α → Routine n β} {f' : α → Routine n' β}
    (h : Parallel label linking linking' c Eq r r')
    (hf : ∀ a, Parallel label linking linking' .anywhere S (f a) (f' a)) :
    Parallel label linking linking' c S (r >>= f) (r' >>= f') :=
  h.bind fun a _ ha => ha ▸ hf a

/-- What follows an answer of which the second routine gives the image. -/
theorem bind_image {g : α → α} {f : α → Routine n β} {f' : α → Routine n' β}
    (h : Parallel label linking linking' c (g · = ·) r r')
    (hf : ∀ a, Parallel label linking linking' .anywhere S (f a) (f' (g a))) :
    Parallel label linking linking' c S (r >>= f) (r' >>= f') :=
  h.bind fun a _ ha => ha ▸ hf a

theorem acceptIf {test : Token → Bool} (ht : ∀ t u, t.Alike label u → test u = test t)
    (he : ∀ t : Token, test t = true → t.kind.standsAlone = true) :
    Parallel label linking linking' .anywhere (Option.Rel (Token.Alike label))
      (Routine.acceptIf test : Routine n (Option Token))
      (Routine.acceptIf test : Routine n' (Option Token)) := by
  refine .peek fun place t u h => ?_
  rw [ht t u h]
  split
  · next hp => exact .next (he t hp) (.anywhere (.pure (.some h)))
  · exact .anywhere (.pure .none)

theorem accept {kind : TokenKind} (hk : kind.standsAlone = true) :
    Parallel label linking linking' .anywhere (Option.Rel (Token.Alike label))
      (Routine.accept kind : Routine n (Option Token))
      (Routine.accept kind : Routine n' (Option Token)) := by
  refine acceptIf (fun t u h => by rw [h.kind_eq]) fun t ht => ?_
  rwa [beq_iff_eq.mp ht]

theorem expect {kind : TokenKind} (hk : kind.standsAlone = true) :
    Parallel label linking linking' .anywhere (Token.Alike label)
      (Routine.expect kind : Routine n Token) (Routine.expect kind : Routine n' Token) := by
  refine .peek fun place t u h => ?_
  rw [h.kind_eq, h.line_eq]
  split
  · next ht =>
    rw [← Routine.bind_pure Routine.next, ← Routine.bind_pure Routine.next]
    exact .next (ht ▸ hk) (.anywhere (.pure h))
  · exact .stuckBefore rfl

theorem opening_rel {go : Option Nat → Token → Option (Routine n α)}
    {go' : Option Nat → Token → Option (Routine n' α)} {stop : Token → Routine (n + 1) α}
    {stop' : Token → Routine (n' + 1) α}
    (hgo : ∀ place t u, t.Alike label u →
      Option.Rel (Parallel label linking linking' (.behind place t u) R) (go place t) (go' place u))
    (he : RefuseEnds label go go' stop stop')
    (hs : ∀ place t u, t.Alike label u →
      Parallel label linking linking' (.before place t u) R (stop t) (stop' u))
    (hopen : ∀ place u r', u.kind.opensHead = true → go' place u = some r' → r'.ReadsHead u) :
    Parallel label linking linking' .anywhere R (Routine.opening go stop)
      (Routine.opening go' stop') := by
  refine .opening (fun place t u h => ?_) (fun place t u r r' h hr hr' => ?_) he hopen hs
  · have hrel := hgo place t u h
    generalize go place t = o at hrel ⊢
    generalize go' place u = o' at hrel ⊢
    cases hrel <;> rfl
  · have hrel := hgo place t u h
    rw [hr, hr'] at hrel
    cases hrel with
    | some hp => exact hp

end Rules

end Parallel

end TemplateTree
