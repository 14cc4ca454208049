import Mathlib.Data.List.Forall2
import Mathlib.Data.List.TakeWhile
import TemplateTree.Proofs.Parallel.Answer
import TemplateTree.Proofs.Parse

/-!
Simulations between parsers. A relation between states that every step of a parse keeps, and whose
states show the grammar the same up to a relabelling, takes every run of one parser to a run of
the other and every failure to the same failure, relabelled.
-/

namespace TemplateTree
set_option autoImplicit false

/-- Streams whose tokens are related up to the end of the first, and whose ends are on the same
line, relabelled. An end that stands in a stream hides what follows it, and is like the end of the
list. -/
inductive Streams (T : Token → Token → Prop) (label : Relabelling) (endLine endLine' : Line) :
    List Token → List Token → Prop where
  | ended {ts us : List Token} {line : Line} : ts.head?.getD (.eos endLine) = .eos line →
    us.head?.getD (.eos endLine') = .eos (label.line line) → Streams T label endLine endLine' ts us
  | cons {t u : Token} {ts us : List Token} : t.kind ≠ .eos → T t u →
    Streams T label endLine endLine' ts us → Streams T label endLine endLine' (t :: ts) (u :: us)

theorem Token.eq_eos {t : Token} (h : t.kind = .eos) : t = .eos t.line := by
  obtain ⟨line, lexeme⟩ := t
  cases lexeme <;> cases h
  rfl

namespace Streams

variable {T T' : Token → Token → Prop} {label : Relabelling} {endLine endLine' : Line}
variable {ts us : List Token} {t u : Token}

theorem imp (hT : ∀ t u, T t u → T' t u) (h : Streams T label endLine endLine' ts us) :
    Streams T' label endLine endLine' ts us := by
  induction h with
  | ended ht hu => exact .ended ht hu
  | cons hk htu _ ih => exact .cons hk (hT _ _ htu) ih

/-- What is related token by token, ends included. -/
theorem of_forall₂ (hT : ∀ t u, T t u → t.Alike label u) {ts' us' : List Token}
    (h : List.Forall₂ T ts us) (he : Streams T label endLine endLine' ts' us') :
    Streams T label endLine endLine' (ts ++ ts') (us ++ us') := by
  induction h with
  | nil => exact he
  | @cons t u ts us htu _ ih =>
    by_cases hk : t.kind = .eos
    · have hu : u = .eos (label.line t.line) := by
        rw [← (hT t u htu).line_eq]
        exact Token.eq_eos ((hT t u htu).kind_eq.trans hk)
      exact .ended (Token.eq_eos hk) hu
    · exact .cons hk htu ih

theorem of_alike (h : List.Forall₂ (Token.Alike label) ts us) (he : endLine' = label.line endLine) :
    Streams (Token.Alike label) label endLine endLine' ts us := by
  have hend : Streams (Token.Alike label) label endLine endLine' [] [] :=
    .ended rfl (congrArg Token.eos he)
  have hall := of_forall₂ (fun _ _ h => h) h hend
  rwa [List.append_nil, List.append_nil] at hall

theorem alike_head (h : Streams (Token.Alike label) label endLine endLine' ts us) :
    (ts.head?.getD (.eos endLine)).Alike label (us.head?.getD (.eos endLine')) := by
  cases h with
  | ended ht hu =>
    rw [ht, hu]
    exact .token (.eos _)
  | cons _ htu _ => exact htu

/-- What stands in front of the end of the first stream stands in the second one. -/
theorem exists_cons (h : Streams T label endLine endLine' (t :: ts) us) (hk : t.kind ≠ .eos) :
    ∃ u us', us = u :: us' ∧ T t u ∧ Streams T label endLine endLine' ts us' := by
  cases h with
  | ended ht _ =>
    cases ht
    exact absurd rfl hk
  | cons _ htu h => exact ⟨_, _, rfl, htu, h⟩

/-- The runs at the beginning of tokens that pass a test which neither a line of code nor an end
passes. -/
theorem takeWhile_eq {p : Token → Bool}
    (h : Streams (Token.Alike label) label endLine endLine' ts us)
    (hp : ∀ t, p (label.token t) = p t) (hc : ∀ line c, p ⟨line, .code c⟩ = false)
    (he : ∀ line, p (.eos line) = false) :
    us.takeWhile p = (ts.takeWhile p).map label.token := by
  have hended {e : Line} {vs : List Token} {line : Line}
      (hv : vs.head?.getD (.eos e) = .eos line) : vs.takeWhile p = [] := by
    cases vs with
    | nil => rfl
    | cons v vs =>
      obtain rfl : v = .eos line := hv
      exact List.takeWhile_cons_of_neg (by rw [he]; nofun)
  induction h with
  | ended ht hu => rw [hended ht, hended hu, List.map_nil]
  | cons _ htu _ ih =>
    cases htu with
    | token t =>
      rw [List.takeWhile_cons, List.takeWhile_cons, hp, ih]
      split <;> rfl
    | code line c b =>
      rw [List.takeWhile_cons, List.takeWhile_cons, hc, hc]
      rfl

end Streams

/-- A relation between states under which the second parser does what the first one does. -/
structure Simulation (label : Relabelling) (linking linking' : Linking) where
  Rel : State → State → Prop
  plain : ∀ {s u}, Rel s u → s.Plain ∧ u.Plain
  streams : ∀ {s u}, Rel s u →
    Streams (Token.Alike label) label s.cursor.endLine u.cursor.endLine s.cursor.tokens
      u.cursor.tokens
  consumed : ∀ {s u}, Rel s u → u.cursor.consumed = s.cursor.consumed
  mixinDepth : ∀ {s u}, Rel s u → u.mixinDepth = s.mixinDepth
  notices : ∀ {s u}, Rel s u → u.notices = s.notices.map label.notice
  next : ∀ {s u t ts v us}, Rel s u → s.cursor.tokens = t :: ts → u.cursor.tokens = v :: us →
    t.kind ≠ .eos → t.Alike label v → Rel s.next u.next
  admits : ∀ {s u line d ts d' us}, Rel s u → s.cursor.tokens = ⟨line, .code d⟩ :: ts →
    u.cursor.tokens = ⟨label.line line, .code d'⟩ :: us →
      Token.Alike label ⟨line, .code d⟩ ⟨label.line line, .code d'⟩ →
        linking'.admits u.next (some s.cursor.consumed) d' =
          linking.admits s.next (some s.cursor.consumed) d
  finish : ∀ {s u}, Rel s u → Rel (linking.finish s) (linking'.finish u)
  addNotices : ∀ {s u ns}, Rel s u → Rel (s.addNotices ns) (u.addNotices (ns.map label.notice))
  enterMixin : ∀ {s u}, Rel s u → Rel s.enterMixin u.enterMixin
  leaveMixin : ∀ {s u}, Rel s u → Rel s.leaveMixin u.leaveMixin

namespace Simulation

variable {label : Relabelling} {linking linking' : Linking}
variable (sim : Simulation label linking linking') {s u : State} {t v : Token} {ts us : List Token}

theorem alike_peek (h : sim.Rel s u) : s.cursor.peek.Alike label u.cursor.peek := by
  obtain ⟨hp, hp'⟩ := sim.plain h
  rw [State.peek_eq hp, State.peek_eq hp']
  exact (sim.streams h).alike_head

theorem exists_cons (h : sim.Rel s u) (ht : s.cursor.tokens = t :: ts) (hk : t.kind ≠ .eos) :
    ∃ v us, u.cursor.tokens = v :: us ∧ t.Alike label v ∧ sim.Rel s.next u.next := by
  have hs := sim.streams h
  rw [ht] at hs
  obtain ⟨v, us, hu, htv, _⟩ := hs.exists_cons hk
  exact ⟨v, us, hu, htv, sim.next h ht hu hk htv⟩

theorem position_eq (h : sim.Rel s u) (hk : s.cursor.peek.kind ≠ .eos) :
    u.cursor.position 1 = s.cursor.position 1 := by
  obtain ⟨hp, hp'⟩ := sim.plain h
  obtain ⟨ts, ht⟩ := State.exists_cons_of_peek hp hk
  obtain ⟨v, us, hu, _⟩ := sim.exists_cons h ht hk
  rw [State.position_cons hp ht, State.position_cons hp' hu, sim.consumed h]

theorem skip (h : sim.Rel s u) {k : Nat} (hk : k ≤ s.cursor.tokens.length)
    (he : ∀ t ∈ s.cursor.tokens.take k, t.kind ≠ .eos) : sim.Rel (s.skip k) (u.skip k) := by
  induction k generalizing s u with
  | zero => exact h
  | succ k ih =>
    obtain ⟨t, ts, ht⟩ := List.exists_cons_of_length_pos (Nat.lt_of_lt_of_le (Nat.succ_pos k) hk)
    have hts := State.tokens_next (sim.plain h).1 ht
    rw [ht] at hk he
    obtain ⟨hte, he⟩ := List.forall_mem_cons.mp he
    obtain ⟨_, _, _, _, hn⟩ := sim.exists_cons h ht hte
    rw [State.skip_succ, State.skip_succ]
    apply ih hn
    · rw [hts]
      exact Nat.le_of_succ_le_succ hk
    · rwa [hts]

/-- Both parsers find the same run of tokens that pass a test, and go on alike behind it. -/
theorem run {p : Token → Bool} (h : sim.Rel s u) (hp : ∀ t, p (label.token t) = p t)
    (hc : ∀ line c, p ⟨line, .code c⟩ = false) (he : ∀ line, p (.eos line) = false) :
    u.cursor.tokens.takeWhile p = (s.cursor.tokens.takeWhile p).map label.token ∧
      sim.Rel (s.skip (s.cursor.tokens.takeWhile p).length)
        (u.skip (u.cursor.tokens.takeWhile p).length) := by
  have hrun := (sim.streams h).takeWhile_eq hp hc he
  refine ⟨hrun, ?_⟩
  rw [hrun, List.length_map]
  have hprefix := List.takeWhile_prefix (l := s.cursor.tokens) p
  apply sim.skip h hprefix.length_le
  rw [← List.prefix_iff_eq_take.mp hprefix]
  intro t ht hk
  have hpt := List.mem_takeWhile_imp ht
  rw [Token.eq_eos hk, he] at hpt
  cases hpt

/-- What a stance says of two states. -/
def Stands (s u : State) : Stance → Prop
  | .anywhere => True
  | .before place t v => s.cursor.position 1 = place ∧ s.cursor.peek = t ∧ u.cursor.peek = v
  | .behind place t v => ∃ m k ts us, sim.Rel m k ∧ s = m.next ∧ u = k.next ∧
    m.cursor.tokens = t :: ts ∧ k.cursor.tokens = v :: us ∧ place = some m.cursor.consumed

/-- The second routine goes along with the first one. -/
structure Follows {n n' : Nat} {α : Type} (c : Stance) (R : α → α → Prop) (r : Routine n α)
    (r' : Routine n' α) : Prop where
  runs : ∀ {s u a s'}, sim.Rel s u → sim.Stands s u c → u.size < n' → r.Runs s a s' →
    ∃ a' u', r'.Runs u a' u' ∧ R a a' ∧ sim.Rel s' u'
  fails : ∀ {s u e}, sim.Rel s u → sim.Stands s u c → u.size < n' → r.Fails s e →
    r'.Fails u (label.fault e)

namespace Follows

open Routine

variable {sim}
variable {n n' : Nat} {α β : Type} {c : Stance} {R : α → α → Prop} {S : β → β → Prop}
variable {r : Routine n α} {r' : Routine n' α}

theorem vacuous (h : n = 0 ∨ n' = 0) : sim.Follows c R r r' where
  runs _ _ hlt hr := by
    have := hr.size_lt
    omega
  fails _ _ hlt hf := by
    have := hf.size_lt
    omega

theorem pure {a a' : α} (ha : R a a') :
    sim.Follows .anywhere R (Pure.pure a : Routine n α) (Pure.pure a' : Routine n' α) where
  runs h _ hlt hr := by
    obtain ⟨_, rfl, rfl⟩ := runs_pure.mp hr
    exact ⟨a', _, runs_pure.mpr ⟨hlt, rfl, rfl⟩, ha, h⟩
  fails _ _ _ hf := absurd hf not_fails_pure

theorem bind {f : α → Routine n β} {f' : α → Routine n' β} (h : sim.Follows c R r r')
    (hf : ∀ a a', R a a' → sim.Follows .anywhere S (f a) (f' a')) :
    sim.Follows c S (r >>= f) (r' >>= f') where
  runs hs hc hlt hr := by
    obtain ⟨a, m, hr, hfr⟩ := runs_bind.mp hr
    obtain ⟨a', k, hr', ha, hm⟩ := h.runs hs hc hlt hr
    obtain ⟨b', u', hfr', hb⟩ :=
      (hf a a' ha).runs hm trivial (Nat.lt_of_le_of_lt hr'.size_le hlt) hfr
    exact ⟨b', u', runs_bind.mpr ⟨a', k, hr', hfr'⟩, hb⟩
  fails hs hc hlt hr := by
    obtain hr | ⟨a, m, hr, hff⟩ := fails_bind.mp hr
    · exact fails_bind.mpr (.inl (h.fails hs hc hlt hr))
    · obtain ⟨a', k, hr', ha, hm⟩ := h.runs hs hc hlt hr
      exact fails_bind.mpr (.inr ⟨a', k, hr', (hf a a' ha).fails hm trivial
        (Nat.lt_of_le_of_lt hr'.size_le hlt) hff⟩)

theorem look {g g' : State → α} {f : α → Routine n β} {f' : α → Routine n' β}
    (hf : ∀ {s u}, sim.Rel s u → sim.Stands s u c →
      ∃ c', sim.Stands s u c' ∧ sim.Follows c' S (f (g s)) (f' (g' u))) :
    sim.Follows c S (Routine.look g >>= f) (Routine.look g' >>= f') where
  runs hs hc hlt hr := by
    simp only [runs_look_bind] at hr ⊢
    obtain ⟨c', hc', h⟩ := hf hs hc
    exact h.runs hs hc' hlt hr
  fails hs hc hlt hr := by
    simp only [fails_look_bind] at hr ⊢
    obtain ⟨c', hc', h⟩ := hf hs hc
    exact h.fails hs hc' hlt hr

theorem fail (cause : Cause) (line : Line) :
    sim.Follows c R (Routine.fail cause line : Routine n α)
      (Routine.fail cause (label.line line) : Routine n' α) where
  runs _ _ _ hr := absurd hr not_runs_fail
  fails _ _ hlt hf := by
    obtain ⟨_, rfl⟩ := fails_fail.mp hf
    exact fails_fail.mpr ⟨hlt, rfl⟩

theorem modify {g g' : State → State} {hg : ∀ s, (g s).size ≤ s.size}
    {hg' : ∀ s, (g' s).size ≤ s.size} (h : ∀ {s u}, sim.Rel s u → sim.Rel (g s) (g' u)) :
    sim.Follows c Eq (Routine.modify g hg : Routine n Unit)
      (Routine.modify g' hg' : Routine n' Unit) where
  runs hs _ hlt hr := by
    obtain ⟨_, rfl⟩ := runs_modify.mp hr
    exact ⟨(), _, runs_modify.mpr ⟨hlt, rfl⟩, rfl, h hs⟩
  fails _ _ _ hf := absurd hf not_fails_modify

theorem next {place : Option Nat} {t v : Token} {f : Token → Routine n β}
    {f' : Token → Routine n' β} (hk : t.kind ≠ .eos)
    (hf : sim.Follows (.behind place t v) S (f t) (f' v)) :
    sim.Follows (.before place t v) S (Routine.next >>= f) (Routine.next >>= f') := by
  have hnext {s u : State} (h : sim.Rel s u) (hc : sim.Stands s u (.before place t v)) :
      sim.Rel s.next u.next ∧ sim.Stands s.next u.next (.behind place t v) := by
    obtain ⟨hp, hp'⟩ := sim.plain h
    obtain ⟨rfl, rfl, rfl⟩ := hc
    obtain ⟨ts, ht⟩ := State.exists_cons_of_peek hp hk
    obtain ⟨v, us, hu, _, hn⟩ := sim.exists_cons h ht hk
    refine ⟨hn, s, u, ts, us, h, rfl, rfl, ht, ?_, State.position_cons hp ht⟩
    rw [State.peek_cons hp' hu, hu]
  have hsize (u : State) (hlt : u.size < n') : u.next.size < n' :=
    Nat.lt_of_le_of_lt (Cursor.size_advance _) hlt
  constructor
  · intro s u b s' h hc hlt hr
    obtain ⟨hn, hbehind⟩ := hnext h hc
    obtain ⟨-, rfl, rfl⟩ := hc
    rw [runs_next_bind] at hr
    simp only [runs_next_bind]
    obtain ⟨b', u', h⟩ := hf.runs hn hbehind (hsize u hlt) hr.2
    exact ⟨b', u', ⟨hlt, h.1⟩, h.2⟩
  · intro s u e h hc hlt hr
    obtain ⟨hn, hbehind⟩ := hnext h hc
    obtain ⟨-, rfl, rfl⟩ := hc
    rw [fails_next_bind] at hr ⊢
    exact ⟨hlt, hf.fails hn hbehind (hsize u hlt) hr.2⟩

theorem checkElse {place : Option Nat} {line : Line} {d d' : CodeLine}
    (h : Token.Alike label ⟨line, .code d⟩ ⟨label.line line, .code d'⟩) :
    sim.Follows (.behind place ⟨line, .code d⟩ ⟨label.line line, .code d'⟩) Eq
      (Grammar.checkElse linking place line d : Routine n Unit)
      (Grammar.checkElse linking' place (label.line line) d' : Routine n' Unit) := by
  apply look
  intro s u _ hc
  refine ⟨.anywhere, trivial, ?_⟩
  obtain ⟨m, k, ts, us, hm, rfl, rfl, ht, hu, rfl⟩ := hc
  rw [sim.admits hm ht hu h, show d'.isElse = d.isElse from h.isElse_eq]
  split
  · exact fail _ _
  · exact pure rfl

theorem peek {f : Token → Routine n β} {f' : Token → Routine n' β}
    (hf : ∀ place t v, t.Alike label v → sim.Follows (.before place t v) S (f t) (f' v)) :
    sim.Follows .anywhere S (Routine.peek >>= f) (Routine.peek >>= f') :=
  look fun {s u} h _ => ⟨.before (s.cursor.position 1) s.cursor.peek u.cursor.peek,
    ⟨rfl, rfl, rfl⟩, hf _ _ _ (sim.alike_peek h)⟩

theorem skipNewlines : sim.Follows .anywhere Eq (Routine.skipNewlines : Routine n Unit)
    (Routine.skipNewlines : Routine n' Unit) where
  runs h _ hlt hr := by
    obtain ⟨hp, hp'⟩ := sim.plain h
    obtain ⟨_, hs⟩ := sim.run (p := fun t => t.kind == .newline) h (fun _ => rfl)
      (fun _ _ => rfl) fun _ => rfl
    simp only [runs_skipNewlines, State.remaining_eq hp, State.remaining_eq hp'] at hr ⊢
    obtain ⟨_, rfl⟩ := hr
    exact ⟨(), _, ⟨hlt, rfl⟩, trivial, hs⟩
  fails _ _ _ hf := absurd hf not_fails_skipNewlines

theorem head (selfClosing : Bool) {shorthand : Option { t : Token // t.isHead = true }}
    (hs : ∀ t ∈ shorthand, ∃ place v, c = .behind place t.1 v ∧ v.line = label.line t.1.line) :
    sim.Follows c Eq (Grammar.head selfClosing shorthand : Routine n Head)
      (Grammar.head selfClosing (shorthand.map label.opener) : Routine n' Head) := by
  have hopen {s u : State} (hc : sim.Stands s u c) :
      OpenedBy shorthand s ∧ OpenedBy (shorthand.map label.opener) u := by
    constructor
    · intro t ht
      obtain ⟨place, v, rfl, _⟩ := hs t ht
      obtain ⟨m, k, ts, us, hm, rfl, _, htokens, _⟩ := hc
      exact State.line_next (sim.plain hm).1 (by rw [htokens]; rfl)
    · intro t' ht'
      obtain ⟨t, ht, rfl⟩ := Option.map_eq_some_iff.mp ht'
      obtain ⟨place, v, rfl, hv⟩ := hs t ht
      obtain ⟨m, k, ts, us, hm, _, rfl, _, htokens, _⟩ := hc
      rw [State.line_next (sim.plain hm).2 (by rw [htokens]; rfl), hv]
      rfl
  have hrun {s u : State} (h : sim.Rel s u) := sim.run (p := Token.isHead) h (fun _ => rfl)
    (fun _ _ => rfl) fun _ => rfl
  have hheads {s u : State} (h : sim.Rel s u) :
      headsAt (shorthand.map label.opener) u = (headsAt shorthand s).map label.token := by
    rw [headsAt, headsAt, (hrun h).1, List.map_append]
    cases shorthand <;> rfl
  constructor
  · intro s u v s' h hc hlt hr
    obtain ⟨hp, hp'⟩ := sim.plain h
    obtain ⟨ho, ho'⟩ := hopen hc
    obtain ⟨_, hv, rfl⟩ := (runs_head hp ho).mp hr
    refine ⟨v, _, (runs_head hp' ho').mpr ⟨hlt, ?_, rfl⟩, rfl, ?_⟩
    · rw [hheads h, label.ofRun_map, hv]
      rfl
    · rw [hheads h, label.notices_map]
      exact sim.addNotices (hrun h).2
  · intro s u e h hc hlt hf
    obtain ⟨hp, hp'⟩ := sim.plain h
    obtain ⟨ho, ho'⟩ := hopen hc
    obtain ⟨_, hv⟩ := (fails_head hp ho).mp hf
    refine (fails_head hp' ho').mpr ⟨hlt, ?_⟩
    rw [hheads h, label.ofRun_map, hv]
    rfl

section Opening

variable {go : Option Nat → Token → Option (Routine n α)}
variable {go' : Option Nat → Token → Option (Routine n' α)}
variable {stop : Token → Routine (n + 1) α} {stop' : Token → Routine (n' + 1) α}

/-- Where the stream ends, an end that is refused leads to the same fault whether it stands in the
stream or not. -/
theorem opening_refused {s : State} {t : Token} {cause : Cause} (hp : s.Plain)
    (ht : s.cursor.peek = t) (hgo : ∀ place, go place t = some (Routine.fail cause t.line))
    (hstop : stop t = Routine.fail cause t.line) :
    (∀ a s', ¬ (Routine.opening go stop).Runs s a s') ∧
      ∀ e, (Routine.opening go stop).Fails s e ↔ s.size < n + 1 ∧ e = ⟨cause, t.line⟩ := by
  cases hs : s.cursor.tokens with
  | nil =>
    have heq : Routine.opening go stop s = (Routine.fail cause t.line : Routine (n + 1) α) s := by
      rw [opening_stop hp (by rw [hs]; nofun), ht, hstop]
    constructor
    · intro a s' hr
      rw [Runs, heq] at hr
      exact not_runs_fail hr
    · intro e
      rw [Fails, heq]
      exact fails_fail
  | cons t' ts =>
    rw [State.peek_cons hp hs] at ht
    subst ht
    constructor
    · intro a s' hr
      exact not_runs_fail ((runs_opening hp hs (hgo _)).mp hr)
    · intro e
      rw [fails_opening hp hs (hgo _), fails_fail, ← State.size_next hp hs, Nat.succ_lt_succ_iff]

variable (sim go go' stop stop') in
/-- How two openings go on from related states. -/
inductive Openings (s u : State) : Prop where
  /-- Neither has anything to go on with. -/
  | stop : Routine.opening go stop s = stop s.cursor.peek s →
    Routine.opening go' stop' u = stop' u.cursor.peek u → Openings s u
  /-- Both refuse an end. -/
  | refused (cause : Cause) (line : Line) : (∀ a s', ¬ (Routine.opening go stop).Runs s a s') →
    (∀ e, (Routine.opening go stop).Fails s e → e = ⟨cause, line⟩) →
    (∀ e, (Routine.opening go' stop').Fails u e ↔
      u.size < n' + 1 ∧ e = label.fault ⟨cause, line⟩) → Openings s u
  /-- Both go on with the token that comes next. -/
  | go {t v : Token} {ts us : List Token} {r : Routine n α} {r' : Routine n' α} :
    s.cursor.tokens = t :: ts → u.cursor.tokens = v :: us → t.Alike label v →
    sim.Rel s.next u.next → go (some s.cursor.consumed) t = some r →
    go' (some s.cursor.consumed) v = some r' → Openings s u

theorem openings {s u : State} (h : sim.Rel s u)
    (hsome : OpenAlike label go go')
    (he : RefuseEnds label go go' stop stop') :
    Openings sim go go' stop stop' s u := by
  obtain ⟨hp, hp'⟩ := sim.plain h
  have halike := sim.alike_peek h
  by_cases hk : s.cursor.peek.kind = .eos
  · rcases he _ _ halike hk with hgo | ⟨cause, _, hfail, hfail', hs, hs'⟩
    · apply Openings.stop
      · apply opening_stop hp
        intro t ht
        rw [← State.peek_of_head? hp ht]
        exact hgo _
      · apply opening_stop hp'
        intro v hv
        rw [← State.peek_of_head? hp' hv]
        exact hsome.eq_none halike (hgo _)
    · obtain ⟨hruns, hfails⟩ := opening_refused hp rfl hfail hs
      have hfails' := (opening_refused hp' rfl hfail' hs').2
      rw [halike.line_eq] at hfails'
      exact .refused cause s.cursor.peek.line hruns (fun e h => ((hfails e).mp h).2) hfails'
  · obtain ⟨ts, ht⟩ := State.exists_cons_of_peek hp hk
    obtain ⟨v, us, hu, ha, hn⟩ := sim.exists_cons h ht hk
    cases hg : go (some s.cursor.consumed) s.cursor.peek with
    | none =>
      apply Openings.stop
      · apply opening_stop hp
        rw [State.position_cons hp ht, ht]
        rintro _ ⟨⟩
        exact hg
      · apply opening_stop hp'
        rw [State.position_cons hp' hu, sim.consumed h, hu]
        rintro _ ⟨⟩
        exact hsome.eq_none ha hg
    | some r =>
      obtain ⟨r', hg'⟩ := hsome.exists_eq_some ha hg
      exact .go ht hu ha hn hg hg'

theorem opening
    (hsome : OpenAlike label go go')
    (hgo : ∀ place t v r r', t.Alike label v → go place t = some r → go' place v = some r' →
      sim.Follows (.behind place t v) R r r')
    (he : RefuseEnds label go go' stop stop')
    (hstop : ∀ place t v, t.Alike label v → sim.Follows (.before place t v) R (stop t) (stop' v)) :
    sim.Follows .anywhere R (Routine.opening go stop) (Routine.opening go' stop') := by
  constructor
  · intro s u a s' h _ hlt hr
    obtain ⟨hp, hp'⟩ := sim.plain h
    cases openings h hsome he with
    | stop hs hs' =>
      rw [Runs, hs] at hr
      simp only [Runs, hs']
      exact (hstop _ _ _ (sim.alike_peek h)).runs h ⟨rfl, rfl, rfl⟩ hlt hr
    | refused _ _ hruns => exact absurd hr (hruns a s')
    | @go t v ts us r r' ht hu ha hn hg hg' =>
      rw [runs_opening hp ht hg] at hr
      rw [← sim.consumed h] at hg'
      simp only [runs_opening hp' hu hg']
      have hsize := State.size_next hp' hu
      refine (hgo _ t v r r' ha hg (sim.consumed h ▸ hg')).runs hn ?_ (by omega) hr
      exact ⟨s, u, ts, us, h, rfl, rfl, ht, hu, rfl⟩
  · intro s u e h _ hlt hf
    obtain ⟨hp, hp'⟩ := sim.plain h
    cases openings h hsome he with
    | stop hs hs' =>
      rw [Fails, hs] at hf
      rw [Fails, hs']
      exact (hstop _ _ _ (sim.alike_peek h)).fails h ⟨rfl, rfl, rfl⟩ hlt hf
    | refused _ _ _ hfails hfails' =>
      rw [hfails e hf]
      exact (hfails' _).mpr ⟨hlt, rfl⟩
    | @go t v ts us r r' ht hu ha hn hg hg' =>
      rw [fails_opening hp ht hg] at hf
      have hg'' := sim.consumed h ▸ hg'
      rw [fails_opening hp' hu hg'']
      have hsize := State.size_next hp' hu
      refine (hgo _ t v r r' ha hg hg').fails hn ?_ (by omega) hf
      exact ⟨s, u, ts, us, h, rfl, rfl, ht, hu, rfl⟩

end Opening

end Follows

end Simulation

/-- Parallel routines go along with each other in every simulation. -/
theorem Parallel.follows {label : Relabelling} {linking linking' : Linking}
    (sim : Simulation label linking linking') {n n' : Nat} {α : Type} {c : Stance}
    {R : α → α → Prop} {r : Routine n α} {r' : Routine n' α}
    (h : Parallel label linking linking' c R r r') : sim.Follows c R r r' := by
  induction h with
  | anywhere _ ih => exact ⟨fun h _ => ih.runs h trivial, fun h _ => ih.fails h trivial⟩
  | vacuous h => exact .vacuous h
  | pure h => exact .pure h
  | bind _ _ ihr ihf => exact ihr.bind ihf
  | lookDepth _ _ _ ih =>
    refine .look fun {s u} h hc => ⟨_, hc, ?_⟩
    rw [sim.mixinDepth h]
    exact ih s.mixinDepth
  | lookPlace hk _ ih =>
    refine .look fun h hc => ⟨_, hc, ?_⟩
    obtain ⟨rfl, rfl, _⟩ := hc
    rwa [sim.position_eq h hk]
  | checkElse _ _ h => exact .checkElse h
  | peek _ ih => exact .peek ih
  | stuckBefore _ => exact .fail _ _
  | stuckBehind _ => exact .fail _ _
  | next hk _ ih => exact .next (TokenKind.ne_eos_of_standsAlone hk) ih
  | skipNewlines => exact .skipNewlines
  | head selfClosing hs => exact .head selfClosing (Stance.shorthand_behind hs)
  | finish => exact .modify sim.finish
  | addNotices ns => exact .modify sim.addNotices
  | inMixin _ hf ih =>
    exact .bind (.modify sim.enterMixin) fun _ _ _ => ih.bind fun a a' ha =>
      .bind (.modify sim.leaveMixin) fun _ _ _ => .pure (hf a a' ha)
  | opening hsome _ he _ _ ihgo ihstop => exact .opening hsome ihgo he ihstop

namespace Simulation

variable {label : Relabelling} {linking linking' : Linking}
variable (sim : Simulation label linking linking')

theorem answer_follows (scope : Scope) (n n' : Nat) (goal : Goal) :
    sim.Follows .anywhere (label.answer goal · = ·) (Grammar.answer linking scope n goal)
      (Grammar.answer linking' (label.scope scope) n' goal) :=
  (Parallel.answer scope n n' goal).follows sim

/-- What is read from a stream is read from every stream that it is related to, relabelled. -/
theorem readItems_eq (file : Option String) {c c' : Cursor}
    (h : sim.Rel (.start c) (.start c')) : Template.readItems linking' (label.file file) c' =
      label.items (Template.readItems linking file c) := by
  have hlt : (State.start c').size < c'.size + 1 := Nat.lt_succ_self _
  have hfollows := sim.answer_follows ⟨file⟩ (c.size + 1) (c'.size + 1) (.items false)
  cases hr : Template.readItems linking file c with
  | error e =>
    rw [Template.readItems_error] at hr
    exact Template.readItems_error.mpr (hfollows.fails h trivial hlt hr)
  | ok r =>
    obtain ⟨nodes, ns⟩ := r
    obtain ⟨s', hruns, rfl⟩ := Template.readItems_ok.mp hr
    obtain ⟨_, u', hruns', rfl, hrel⟩ := hfollows.runs h trivial hlt hruns
    exact Template.readItems_ok.mpr ⟨u', hruns', (sim.notices hrel).symm⟩

end Simulation

end TemplateTree
