import TemplateTree.Proofs.Locality.Rules
import TemplateTree.Proofs.Roles

/-!
Heads that are refused. Where one stream goes on with a token that opens a head and is read beyond
it, every stream that agrees with it up to this token is read up to this token in the same way, and
then the run of head tokens that follows is read. So a stream in which this run is refused fails
with what the run is refused with.
-/

namespace TemplateTree
set_option autoImplicit false

namespace Situation

variable {p : Situation} {t : Token}

/-- In the situation the token opens the head of a tag or call. A shorthand does unless a head goes
on there. -/
def opensHead (p : Situation) (t : Token) : Bool :=
  t.kind.opensHead && !(t.isHead && p.spot == .head)

theorem kind_of_opensHead (h : p.opensHead t = true) : t.kind.opensHead = true :=
  (Bool.and_eq_true_iff.mp h).1

theorem isEos_of_opensHead (h : p.opensHead t = true) : t.isEos = false := by
  have hk := kind_of_opensHead h
  obtain ⟨_, lexeme⟩ := t
  cases lexeme <;> first | rfl | cases hk

theorem not_opensHead (ht : t.isHead = true) (hp : p.spot = .head) : p.opensHead t = false := by
  simp [opensHead, ht, hp]

theorem spot_after_of_opensHead (h : t.kind.opensHead = true) : (p.after t).spot = .head := by
  obtain ⟨line, lexeme⟩ := t
  cases lexeme <;> first | rfl | cases h

theorem run_append (p : Situation) (ts us : List Token) : p.run (ts ++ us) = (p.run ts).run us :=
  List.foldl_append

theorem run_heads {heads : List Token} (hp : p.spot = .head) (h : ∀ t ∈ heads, t.isHead = true) :
    p.run heads = p := by
  have hpass : p.Passes heads .eos (heads.map Token.plain) p := .heads hp h
  exact hpass.run

end Situation

/-- What a stance says of the situation: a head goes on behind a token that opens one. -/
def Stance.Follows (p : Situation) : Stance → Prop
  | behind _ t _ => t.kind.opensHead = true → p.spot = .head
  | _ => True

/-- Ahead of the first state stands a token that opens a head. The second state shares the stream
up to this token, and goes on with a head that is refused. -/
structure RefusedAhead (p : Situation) (s u : State) (ahead : List Token) (t : Token)
    (after : List Token) (e : Fault) : Prop where
  tokens : s.cursor.tokens = ahead ++ t :: after
  opens : (p.run ahead).opensHead t = true
  shares : State.Shares (ahead.length + 1) s u
  refused : ∀ selfClosing, Head.ofRun selfClosing (t.ownHead ++
    (u.cursor.tokens.drop (ahead.length + 1)).takeWhile Token.isHead) = .error e

namespace RefusedAhead

variable {p : Situation} {ahead after : List Token} {s u m v : State} {w t : Token} {e : Fault}
variable {j : Nat}

theorem kind (h : RefusedAhead p s u ahead t after e) : t.kind.opensHead = true :=
  Situation.kind_of_opensHead h.opens

theorem behind (h : RefusedAhead p s u ahead t after e) (hj : j ≤ ahead.length)
    (hs : State.Passes j s m) (hu : State.Passes j u v)
    (hm : State.Shares (ahead.length - j + 1) m v) :
    RefusedAhead (p.run (ahead.take j)) m v (ahead.drop j) t after e where
  tokens := by rw [hs.tokens, h.tokens, List.drop_append_of_le_length hj]
  opens := by
    rw [← Situation.run_append, List.take_append_drop]
    exact h.opens
  shares := by
    rw [List.length_drop]
    exact hm
  refused := by
    have hlen : j + ((ahead.drop j).length + 1) = ahead.length + 1 := by
      rw [List.length_drop]
      omega
    rw [hu.tokens, List.drop_drop, hlen]
    exact h.refused

theorem next (h : RefusedAhead p s u (w :: ahead) t after e) (hw : w.kind ≠ .eos) :
    RefusedAhead (p.after w) s.next u.next ahead t after e := by
  obtain ⟨us, hus, hn⟩ := h.shares.next h.tokens
  exact h.behind (j := 1) (Nat.succ_le_succ (Nat.zero_le _)) (.next h.shares.plain h.tokens hw)
    (.next h.shares.plain' hus hw) hn

end RefusedAhead

/-- A run that goes beyond a token takes it and all tokens before it. -/
theorem forall_of_lt_takeWhile {p : Token → Bool} {ahead after : List Token} {t : Token}
    (h : ahead.length < ((ahead ++ t :: after).takeWhile p).length) :
    (∀ x ∈ ahead, p x = true) ∧ p t = true := by
  induction ahead with
  | nil =>
    rw [List.nil_append, List.takeWhile_cons] at h
    split at h
    · next ht => exact ⟨nofun, ht⟩
    · cases h
  | cons a ahead ih =>
    rw [List.cons_append, List.takeWhile_cons] at h
    split at h
    · next ha =>
      obtain ⟨hahead, ht⟩ := ih (Nat.lt_of_succ_lt_succ h)
      exact ⟨List.forall_mem_cons.mpr ⟨ha, hahead⟩, ht⟩
    · cases h

section Refuses

variable {n n' : Nat} {α β : Type}

/-- Where the first routine reads beyond a token that opens a head, the second one refuses what
the first one would refuse there. -/
structure Refuses (c : Stance) (r : Routine n α) (r' : Routine n' α) : Prop where
  fails : ∀ {p s u ahead t after e a s'}, RefusedAhead p s u ahead t after e → c.Follows p →
    c.Met s s → c.Met s u → s.size < n' → u.size < n' → r.Runs s a s' →
      s'.cursor.tokens.length ≤ after.length → r'.Fails u e

namespace Refuses

open Routine State

variable {c : Stance} {R : α → α → Prop} {S : β → β → Prop}
variable {r : Routine n α} {r' : Routine n' α}

theorem vacuous (h : n = 0 ∨ n' = 0) : Refuses c r r' := by
  constructor
  intro p s u ahead t after e a s' _ _ _ _ hlt _ hr _
  have := hr.size_lt
  omega

theorem anywhere (h : Refuses .anywhere r r') : Refuses c r r' := by
  constructor
  intro p s u ahead t after e a s' hahead _ _ _ hs hu hr hle
  exact h.fails hahead trivial trivial trivial hs hu hr hle

theorem of_takeWhile (q : Token → Bool) (hq : ∀ t : Token, t.kind.opensHead = true → q t = false)
    (h : ∀ s a s', s.Plain → r.Runs s a s' → s'.cursor.tokens =
      s.cursor.tokens.drop (s.cursor.tokens.takeWhile q).length) : Refuses c r r' := by
  constructor
  intro p s u ahead t after e a s' hahead _ _ _ _ _ hr hle
  rw [h s a s' hahead.shares.plain hr, hahead.tokens, List.length_drop, List.length_append,
    List.length_cons] at hle
  have hbeyond : ahead.length < ((ahead ++ t :: after).takeWhile q).length := by omega
  have ht : q t = true := (forall_of_lt_takeWhile hbeyond).2
  rw [hq t hahead.kind] at ht
  cases ht

theorem of_still (h : ∀ s a s', s.Plain → r.Runs s a s' → s'.cursor.tokens = s.cursor.tokens) :
    Refuses c r r' := by
  refine of_takeWhile (fun _ => false) (fun _ _ => rfl) fun s a s' hp hr => ?_
  rw [h s a s' hp hr]
  cases s.cursor.tokens <;> rfl

theorem fail (cause : Cause) (line : Line) : Refuses c (Routine.fail cause line : Routine n α) r' :=
  of_still fun _ _ _ _ hr => absurd hr not_runs_fail

theorem pure (a : α) : Refuses c (Pure.pure a : Routine n α) r' := by
  apply of_still
  intro s _ s' _ hr
  rw [(runs_pure.mp hr).2.2]

theorem modify {g : State → State} {hg : ∀ s, (g s).size ≤ s.size} {r' : Routine n' Unit}
    (h : ∀ {s}, s.Plain → (g s).cursor = s.cursor) :
    Refuses c (Routine.modify g hg : Routine n Unit) r' := by
  apply of_still
  intro s _ s' hp hr
  rw [(runs_modify.mp hr).2, h hp]

theorem bind {f : α → Routine n β} {f' : α → Routine n' β} (h : Local c R r r')
    (hr : Refuses c r r') (hf : ∀ a a', R a a' → Refuses .anywhere (f a) (f' a')) :
    Refuses c (r >>= f) (r' >>= f') := by
  constructor
  intro p s u ahead t after e b s' hahead hfollows hs hu hlt hlt' hrun hle
  obtain ⟨a, m, hra, hrf⟩ := runs_bind.mp hrun
  -- The first of the two routines reads beyond the head, or the head stands ahead of the second.
  by_cases hm : m.cursor.tokens.length ≤ after.length
  · exact fails_bind.mpr (.inl (hr.fails hahead hfollows hs hu hlt hlt' hra hm))
  · obtain ⟨j, a', ha, hover⟩ := h.runs hahead.shares.plain hs hlt hra
    have hj : j ≤ ahead.length := by
      rw [hover.passes.tokens, hahead.tokens, List.length_drop, List.length_append,
        List.length_cons] at hm
      omega
    have hshares := hahead.shares
    rw [show ahead.length + 1 = j + (ahead.length - j + 1) by omega] at hshares
    obtain ⟨v, hrv, hmv, hpass⟩ := hover.replay (ahead.length - j) u hshares hu hlt'
    have hfails : (f' a').Fails v e :=
      (hf a a' ha).fails (hahead.behind hj hover.passes hpass hmv) trivial trivial trivial
        (Nat.lt_of_le_of_lt hra.size_le hlt) (Nat.lt_of_le_of_lt hrv.size_le hlt') hrf hle
    exact fails_bind.mpr (.inr ⟨a', v, hrv, hfails⟩)

theorem look {γ : Type} {g : State → γ} {f : γ → Routine n β} {f' : γ → Routine n' β}
    (hf : ∀ {s u : State}, Shares 1 s u → c.Met s s → c.Met s u → g u = g s ∧
      ∃ c' : Stance, (∀ p, c.Follows p → c'.Follows p) ∧ c'.Met s s ∧ c'.Met s u ∧
        Refuses c' (f (g s)) (f' (g s))) :
    Refuses c (Routine.look g >>= f) (Routine.look g >>= f') := by
  constructor
  intro p s u ahead t after e b s' hahead hfollows hs hu hlt hlt' hrun hle
  have hshares := hahead.shares.mono (Nat.succ_le_succ (Nat.zero_le _))
  obtain ⟨hg, c', hc', hs', hu', h⟩ := hf hshares hs hu
  rw [runs_look_bind] at hrun
  rw [fails_look_bind, hg]
  exact h.fails hahead (hc' p hfollows) hs' hu' hlt hlt' hrun hle

theorem next {place : Option Nat} {t v : Token} {f : Token → Routine n β}
    {f' : Token → Routine n' β} (hk : t.kind.standsAlone = true)
    (hf : Refuses (.behind place t v) (f t) (f' v)) :
    Refuses (.before place t v) (Routine.next >>= f) (Routine.next >>= f') := by
  constructor
  intro p s u ahead w after e b s' hahead _ hs hu hlt hlt' hrun hle
  obtain ⟨rfl, rfl, -, rfl, -⟩ := hs
  have hplain := hahead.shares.plain
  obtain ⟨ts, ht⟩ := exists_cons_of_peek hplain (TokenKind.ne_eos_of_standsAlone hk)
  cases ahead with
  | nil =>
    have hw : s.cursor.peek = w := peek_cons hplain hahead.tokens
    rw [hw, TokenKind.standsAlone, hahead.kind, Bool.not_true, Bool.and_false] at hk
    cases hk
  | cons w' ahead =>
    obtain rfl : w' = s.cursor.peek := (peek_cons hplain hahead.tokens).symm
    have hshares := hahead.shares.mono (Nat.succ_le_succ (Nat.zero_le _))
    rw [runs_next_bind] at hrun
    rw [fails_next_bind, hshares.peek.1]
    refine ⟨hlt', hf.fails (hahead.next (TokenKind.ne_eos_of_standsAlone hk))
      Situation.spot_after_of_opensHead ?_ ?_ ?_ ?_ hrun.2 hle⟩
    · rw [position_cons hplain ht]
      exact Local.met_behind (.refl 1 hplain) ht
    · rw [position_cons hplain ht]
      exact Local.met_behind hshares ht
    · exact Nat.lt_of_le_of_lt (Cursor.size_advance _) hlt
    · exact Nat.lt_of_le_of_lt (Cursor.size_advance _) hlt'

theorem head (selfClosing : Bool) {shorthand : Option { t : Token // t.isHead = true }}
    (h : ∃ place w v, c = .behind place w v ∧ w.Opens shorthand) :
    Refuses c (Grammar.head selfClosing shorthand : Routine n Head)
      (Grammar.head selfClosing shorthand : Routine n' Head) := by
  obtain ⟨place, w, v, rfl, hopens⟩ := h
  constructor
  intro p s u ahead t after e a s' hahead hfollows hs _ _ _ hrun hle
  have hopened : OpenedBy shorthand s := by
    intro x hx
    rw [hopens.eq x hx]
    exact hs.2.1
  obtain ⟨_, _, rfl⟩ := (runs_head hahead.shares.plain hopened).mp hrun
  have hpass : Passes (s.cursor.tokens.takeWhile Token.isHead).length s
    (s.behindRun Token.isHead) := (passes_run hahead.shares.plain fun t => Local.kind_of_isHead).2
  have hbehind : (s.behindRun Token.isHead).cursor.tokens.length ≤ after.length := hle
  rw [hpass.tokens, hahead.tokens, List.length_drop, List.length_append, List.length_cons]
    at hbehind
  have hbeyond : ahead.length < ((ahead ++ t :: after).takeWhile Token.isHead).length := by omega
  obtain ⟨hheads, ht⟩ := forall_of_lt_takeWhile hbeyond
  -- So the token is one more of the head that is read here, where none opens another.
  have hspot : p.spot = .head := hfollows hopens.1
  have hopen := hahead.opens
  rw [Situation.run_heads hspot hheads, Situation.not_opensHead ht hspot] at hopen
  cases hopen

section Opening

variable {go : Option Nat → Token → Option (Routine n α)}
variable {go' : Option Nat → Token → Option (Routine n' α)}
variable {stop : Token → Routine (n + 1) α} {stop' : Token → Routine (n' + 1) α}

theorem opening
    (hsome : OpenAlike .same go go')
    (hlocal : ∀ place t u r r', t.Alike .same u → go place t = some r → go' place u = some r' →
      Local (.behind place t u) R r r')
    (hgo : ∀ place t u r r', t.Alike .same u → go place t = some r → go' place u = some r' →
      Refuses (.behind place t u) r r')
    (he : RefuseEnds .same go go' stop stop')
    (hreads : ∀ place u r', u.kind.opensHead = true → go' place u = some r' → r'.ReadsHead u)
    (hstop : ∀ place t u, t.Alike .same u → Refuses (.before place t u) (stop t) (stop' u)) :
    Refuses .anywhere (Routine.opening go stop) (Routine.opening go' stop') := by
  constructor
  intro p s u ahead t after e a s' hahead _ _ _ hlt hlt' hrun hle
  have hplain := hahead.shares.plain
  have hplain' := hahead.shares.plain'
  have hshares := hahead.shares.mono (Nat.succ_le_succ (Nat.zero_le _))
  obtain ⟨w, ws, hw⟩ : ∃ w ws, s.cursor.tokens = w :: ws := by
    rw [hahead.tokens]
    cases ahead <;> exact ⟨_, _, rfl⟩
  obtain ⟨us, hus, _⟩ := hshares.next hw
  cases hg : go (some s.cursor.consumed) w with
  | none =>
    have hs : ∀ x ∈ s.cursor.tokens.head?, go (s.cursor.position 1) x = none := by
      rw [position_cons hplain hw, hw]
      rintro _ ⟨⟩
      exact hg
    rw [Runs, opening_stop hplain hs] at hrun
    rw [Fails, Local.opening_stop_of_shares hsome hshares hs]
    exact (hstop _ _ _ (.refl _)).fails hahead trivial (Local.met_before (.refl 1 hplain))
      (Local.met_before hshares) hlt hlt' hrun hle
  | some q =>
    obtain ⟨q', hg'⟩ := hsome.exists_eq_some (.refl w) hg
    rw [runs_opening hplain hw hg] at hrun
    rw [fails_opening hplain' hus (hshares.consumed ▸ hg')]
    have hmet := Local.met_behind (.refl 1 hplain) hw
    have hsize := size_next hplain hw
    have hsize' := size_next hplain' hus
    cases ahead with
    | nil =>
      obtain ⟨rfl, rfl⟩ := List.cons.inj (hw.symm.trans hahead.tokens)
      rcases hreads _ w q' hahead.kind hg' with hnever | hfails
      · -- What the first routine reads here, the second one would read as well.
        obtain ⟨_, _, _, hover⟩ := (hlocal _ w w q q' (.refl w) hg hg').runs
          (plain_next hplain hw) hmet (by omega) hrun
        obtain ⟨_, hruns, _⟩ := hover.replay 0 s.next (.refl _ (plain_next hplain hw)) hmet
          (by omega)
        exact absurd hruns (hnever _ _ _)
      · have hrefused := hahead.refused
        rw [hus] at hrefused
        apply hfails u.next e (plain_next hplain' hus) (line_next hplain' (by rw [hus]; rfl))
        · omega
        · rw [tokens_next hplain' hus]
          exact hrefused
    | cons x ahead =>
      obtain ⟨rfl, _⟩ := List.cons.inj (hw.symm.trans hahead.tokens)
      have hk : w.kind ≠ .eos := by
        intro hk
        rcases he w w (.refl w) hk with hnone | ⟨cause, _, hfail, _⟩
        · cases (hnone _).symm.trans hg
        · cases (hfail _).symm.trans hg
          exact not_runs_fail hrun
      exact (hgo _ w w q q' (.refl w) hg hg').fails (hahead.next hk)
        Situation.spot_after_of_opensHead hmet (Local.met_behind hshares hw) (by omega)
        (by omega) hrun hle

end Opening

end Refuses

end Refuses

theorem Parallel.refuses {n n' : Nat} {α : Type} {c : Stance} {R : α → α → Prop}
    {r : Routine n α} {r' : Routine n' α} (h : Parallel .same .slot .slot c R r r') :
    Refuses c r r' := by
  induction h with
  | anywhere _ ih => exact .anywhere ih
  | vacuous h => exact .vacuous h
  | pure _ => exact .pure _
  | bind h _ ihr ihf => exact .bind h.local ihr ihf
  | lookDepth _ _ _ ih =>
    refine .look fun {s u} hu hs hmet => ⟨hu.mixinDepth, _, fun _ h => h, hs, hmet, ih s.mixinDepth⟩
  | lookPlace _ _ ih =>
    refine .look fun {s u} _ hs hmet => ⟨?_, _, fun _ h => h, hs, hmet, ?_⟩
    · rw [hmet.2.2.2.1, hmet.2.2.2.2]
    · rw [hs.2.2.2.1]
      exact ih
  | checkElse place line _ =>
    refine .of_still fun s _ s' _ hr => ?_
    rw [Grammar.checkElse, Routine.runs_look_bind] at hr
    split at hr
    · exact absurd hr Routine.not_runs_fail
    · rw [(Routine.runs_pure.mp hr).2.2]
  | peek _ ih =>
    exact .look fun hu _ _ => ⟨hu.peek.1, .before _ _ _, fun _ _ => trivial,
      Local.met_before (.refl 1 hu.plain), Local.met_before hu, ih _ _ _ (.refl _)⟩
  | stuckBefore _ => exact .fail _ _
  | stuckBehind _ => exact .fail _ _
  | next hk _ ih => exact .next hk ih
  | skipNewlines =>
    refine .of_takeWhile (fun t => t.kind == .newline) ?_ fun s _ s' hp hr => ?_
    · intro t ht
      apply beq_eq_false_iff_ne.mpr
      intro hk
      rw [hk] at ht
      cases ht
    · rw [Routine.runs_skipNewlines, State.remaining_eq hp] at hr
      rw [hr.2]
      refine (State.passes_run hp fun t ht => ?_).2.tokens
      rw [beq_iff_eq.mp ht]
      decide
  | @head _ _ _ selfClosing shorthand hs =>
    rw [Relabelling.map_opener_same]
    obtain ⟨place, t, u, hc, _, hopens⟩ := hs
    exact .head selfClosing ⟨place, t, u, hc, hopens⟩
  | finish =>
    refine .modify fun {s} hp => ?_
    change (Linking.rememberElse s).cursor = s.cursor
    rw [State.rememberElse_eq hp]
  | addNotices ns => exact .modify fun _ => rfl
  | inMixin h _ ih =>
    exact .bind .enterMixin (.modify fun _ => rfl) fun _ _ _ => .bind h.local ih fun _ _ _ =>
      .bind .leaveMixin (.modify fun _ => rfl) fun _ _ _ => .pure _
  | opening hsome hgo he hreads _ ihgo ihstop =>
    exact .opening hsome (fun place t u r r' ht hr hr' => (hgo place t u r r' ht hr hr').local)
      ihgo he hreads ihstop

end TemplateTree
