import TemplateTree.Proofs.Reading

/-!
Specifications of routines. A routine meets a relation when its runs are exactly the relation's
pairs. Sequences of routines meet compositions, so a specification is assembled from those of the
parts.
-/

namespace TemplateTree
set_option autoImplicit false

namespace Routine

variable {n : Nat} {α β : Type}

/-- Where nothing was put back and the condition holds, the runs are those that the relation
allows, and they put nothing back. -/
structure Meets (C : State → Prop) (r : Routine n α) (R : State → α → State → Prop) : Prop where
  runs : ∀ {s a s'}, s.Plain → C s → (r.Runs s a s' ↔ s.size < n ∧ R s a s')
  keeps : ∀ {s a s'}, s.Plain → C s → R s a s' → s'.Plain ∧ s'.size ≤ s.size

/-- The condition that says nothing. -/
def Anywhere (_ : State) : Prop := True

namespace Meets

variable {C D : State → Prop} {r : Routine n α} {R R' : State → α → State → Prop}
variable {f : α → Routine n β} {S : α → State → β → State → Prop}

theorem congr (h : Meets C r R)
    (hR : ∀ {s a s'}, s.Plain → C s → (R s a s' ↔ R' s a s')) : Meets C r R' where
  runs hp hc := by rw [h.runs hp hc, hR hp hc]
  keeps hp hc h' := h.keeps hp hc ((hR hp hc).mpr h')

theorem weaken (h : Meets D r R) (hC : ∀ s, C s → D s) : Meets C r R where
  runs hp hc := h.runs hp (hC _ hc)
  keeps hp hc := h.keeps hp (hC _ hc)

theorem pure (a : α) : Meets C (Pure.pure a : Routine n α) fun s b s' => b = a ∧ s' = s where
  runs _ _ := runs_pure
  keeps hp _ := by
    rintro ⟨_, rfl⟩
    exact ⟨hp, Nat.le_refl _⟩

theorem fail (cause : Cause) (line : Line) :
    Meets C (Routine.fail cause line : Routine n α) fun _ _ _ => False where
  runs _ _ := by simp
  keeps _ _ := False.elim

theorem bind (hr : Meets C r R) (hf : ∀ a, Meets Anywhere (f a) (S a)) :
    Meets C (r >>= f) fun s b s' => ∃ a m, R s a m ∧ S a m b s' where
  runs {s b s'} hp hc := by
    rw [runs_bind]
    constructor
    · rintro ⟨a, m, har, hbf⟩
      obtain ⟨hlt, hR⟩ := (hr.runs hp hc).mp har
      have hm := hr.keeps hp hc hR
      exact ⟨hlt, a, m, hR, ((hf a).runs hm.1 trivial).mp hbf |>.2⟩
    · rintro ⟨hlt, a, m, hR, hS⟩
      have hm := hr.keeps hp hc hR
      exact ⟨a, m, (hr.runs hp hc).mpr ⟨hlt, hR⟩,
        ((hf a).runs hm.1 trivial).mpr ⟨Nat.lt_of_le_of_lt hm.2 hlt, hS⟩⟩
  keeps hp hc := by
    rintro ⟨a, m, hR, hS⟩
    have hm := hr.keeps hp hc hR
    have hs' := (hf a).keeps hm.1 trivial hS
    exact ⟨hs'.1, Nat.le_trans hs'.2 hm.2⟩

theorem map (f : α → β) (hr : Meets C r R) :
    Meets C (r >>= fun a => Pure.pure (f a)) fun s b s' => ∃ a, R s a s' ∧ b = f a :=
  (hr.bind fun a => pure (f a)).congr fun _ _ => by simp

theorem look {g : State → α} (hf : ∀ a, Meets (fun s => C s ∧ g s = a) (f a) (S a)) :
    Meets C (Routine.look g >>= f) fun s b s' => S (g s) s b s' where
  runs {s _ _} hp hc := by
    rw [runs_look_bind]
    exact (hf (g s)).runs hp ⟨hc, rfl⟩
  keeps {s _ _} hp hc := (hf (g s)).keeps hp ⟨hc, rfl⟩

theorem peek {f : Token → Routine n β} {S : Token → State → β → State → Prop}
    (hf : ∀ t, Meets (fun s => C s ∧ s.cursor.peek = t) (f t) (S t)) :
    Meets C (Routine.peek >>= f) fun s b s' => S s.cursor.peek s b s' := look hf

theorem modify {g : State → State} {size_le : ∀ s, (g s).size ≤ s.size}
    (hg : ∀ s, (g s).cursor = s.cursor) :
    Meets C (Routine.modify g size_le : Routine n Unit) fun s _ s' => s' = g s where
  runs _ _ := runs_modify
  keeps {s _ _} hp _ := by
    rintro rfl
    exact ⟨(congrArg Cursor.deferred (hg s)).trans hp, size_le s⟩

theorem addNotices (ns : List Notice) :
    Meets C (Routine.addNotices ns : Routine n Unit) fun s _ s' => s' = s.addNotices ns :=
  modify fun _ => rfl

theorem enterMixin :
    Meets C (Routine.enterMixin : Routine n Unit) fun s _ s' => s' = s.enterMixin :=
  modify fun _ => rfl

theorem leaveMixin :
    Meets C (Routine.leaveMixin : Routine n Unit) fun s _ s' => s' = s.leaveMixin :=
  modify fun _ => rfl

theorem ofExcept {x : Except Fault α} :
    Meets C (Routine.ofExcept x : Routine n α) fun s a s' => x = .ok a ∧ s' = s where
  runs _ _ := runs_ofExcept
  keeps hp _ := by
    rintro ⟨_, rfl⟩
    exact ⟨hp, Nat.le_refl _⟩

theorem keeps_read {t : Token} {s s' : State} (hp : s.Plain) (h : (Event.read t).Step s s') :
    s'.Plain ∧ s'.size ≤ s.size :=
  ⟨Event.plain_of_step hp h, Event.size_of_step hp h⟩

theorem acceptIf {test : Token → Bool} (he : ∀ line, test (.eos line) = false) :
    Meets C (Routine.acceptIf test : Routine n (Option Token)) fun s o s' =>
      (∃ t, o = some t ∧ test t = true ∧ (Event.read t).Step s s') ∨
        (o = none ∧ test s.cursor.peek = false ∧ s' = s) where
  runs {s o s'} hp _ := by
    rw [runs_acceptIf, and_congr_right]
    intro _
    split
    · next ht =>
      have hstep : (Event.read s.cursor.peek).Step s s.next :=
        Event.step_read_of_peek hp fun h => by
          rw [h, Cursor.eos, he] at ht
          cases ht
      constructor
      · rintro ⟨rfl, rfl⟩
        exact .inl ⟨_, rfl, ht, hstep⟩
      · rintro (⟨t, rfl, _, h⟩ | ⟨_, h, _⟩)
        · exact ⟨congrArg some (Event.peek_of_step_read hp h).symm, (Event.step_read.mp h).2⟩
        · cases h.symm.trans ht
    · next ht =>
      constructor
      · rintro ⟨rfl, rfl⟩
        exact .inr ⟨rfl, eq_false_of_ne_true ht, rfl⟩
      · rintro (⟨t, _, htest, h⟩ | ⟨rfl, _, rfl⟩)
        · rw [Event.peek_of_step_read hp h] at ht
          exact absurd htest ht
        · exact ⟨rfl, rfl⟩
  keeps hp _ := by
    rintro (⟨t, _, _, h⟩ | ⟨_, _, rfl⟩)
    · exact keeps_read hp h
    · exact ⟨hp, Nat.le_refl _⟩

theorem acceptIf_bind {test : Token → Bool} {f : Token → Routine n β} {g : Routine n β}
    {S : Token → State → β → State → Prop} {T : State → β → State → Prop}
    (he : ∀ line, test (.eos line) = false) (hf : ∀ t, Meets Anywhere (f t) (S t))
    (hg : Meets Anywhere g T) :
    Meets C (Routine.acceptIf test >>= fun o => match o with | some t => f t | none => g)
      fun s b s' => (∃ t m, test t = true ∧ (Event.read t).Step s m ∧ S t m b s') ∨
        (test s.cursor.peek = false ∧ T s b s') := by
  have hm (o : Option Token) : Meets Anywhere (match o with | some t => f t | none => g)
      (match o with | some t => S t | none => T) := by
    cases o with
    | some t => exact hf t
    | none => exact hg
  refine ((acceptIf he).bind hm).congr ?_
  intro s b s' _ _
  constructor
  · rintro ⟨o, m, ⟨t, rfl, ht, h⟩ | ⟨rfl, ht, rfl⟩, hS⟩
    · exact .inl ⟨t, m, ht, h, hS⟩
    · exact .inr ⟨ht, hS⟩
  · rintro (⟨t, m, ht, h, hS⟩ | ⟨ht, hT⟩)
    · exact ⟨some t, m, .inl ⟨t, rfl, ht, h⟩, hS⟩
    · exact ⟨none, s, .inr ⟨rfl, ht, rfl⟩, hT⟩

theorem expect {kind : TokenKind} (hk : kind ≠ .eos) :
    Meets C (Routine.expect kind : Routine n Token) fun s t s' =>
      t.kind = kind ∧ (Event.read t).Step s s' where
  runs {s t s'} hp _ := by
    rw [runs_expect, and_congr_right]
    intro _
    constructor
    · rintro ⟨rfl, rfl, rfl⟩
      exact ⟨rfl, Event.step_read_of_peek hp fun h => hk (congrArg Token.kind h)⟩
    · rintro ⟨rfl, h⟩
      have ht := Event.peek_of_step_read hp h
      exact ⟨congrArg Token.kind ht, ht.symm, (Event.step_read.mp h).2⟩
  keeps hp _ := fun h => keeps_read hp h.2

theorem next : Meets (fun s => s.cursor.peek.kind ≠ .eos) (Routine.next : Routine n Token)
    fun s t s' => (Event.read t).Step s s' where
  runs {s t s'} hp hc := by
    rw [runs_next, and_congr_right]
    intro _
    constructor
    · rintro ⟨rfl, rfl⟩
      exact Event.step_read_of_peek hp fun h => hc (congrArg Token.kind h)
    · exact fun h => ⟨(Event.peek_of_step_read hp h).symm, (Event.step_read.mp h).2⟩
  keeps hp _ := keeps_read hp

theorem skipNewlines : Meets C (Routine.skipNewlines : Routine n Unit) fun s _ s' =>
    ∃ lines : List Line, Leads (lines.map .newline) s s' ∧ s'.cursor.peek.kind ≠ .newline where
  runs {s _ s'} hp _ := by
    rw [runs_skipNewlines, State.remaining_eq hp]
    refine and_congr_right fun _ => ?_
    have hrun (run : List Token) := leads_takeWhile (fun t => t.kind == .newline) run s'
      (fun _ => rfl) hp
    constructor
    · intro hs
      obtain ⟨hk, hl, hstop⟩ := (hrun _).mpr ⟨rfl, hs⟩
      obtain ⟨lines, hlines⟩ := Token.exists_newlines hk
      refine ⟨lines, ?_, by simpa using hstop⟩
      rwa [hlines, List.map_map] at hl
    · rintro ⟨lines, hl, hstop⟩
      obtain ⟨hr, rfl⟩ := (hrun (lines.map fun line => ⟨line, .newline⟩)).mp
        ⟨by simp [Token.kind, Lexeme.kind], by rwa [List.map_map], by simpa using hstop⟩
      rw [← hr]
  keeps hp _ := by
    rintro ⟨lines, hl, _⟩
    exact ⟨hl.plain hp, hl.size_le hp⟩

/-- The run of head tokens is read to its end, the shorthand that opens it included. -/
theorem headRun {shorthand : Option { t : Token // t.isHead = true }} :
    Meets (OpenedBy shorthand) (Routine.headRun shorthand : Routine n (List Token))
      fun s run s' => ∃ more : List Token, run = (shorthand.map Subtype.val).toList ++ more ∧
        (∀ t ∈ more, t.isHead = true) ∧ Leads (more.map .read) s s' ∧
          s'.cursor.peek.isHead = false where
  runs {s run s'} hp hc := by
    rw [runs_headRun hp hc, and_congr_right]
    intro _
    have hrun (more : List Token) := leads_takeWhile Token.isHead more s' (fun _ => rfl) hp
    constructor
    · rintro ⟨rfl, hs⟩
      exact ⟨_, rfl, (hrun _).mpr ⟨rfl, hs⟩⟩
    · rintro ⟨more, rfl, h⟩
      obtain ⟨rfl, hs⟩ := (hrun _).mp h
      exact ⟨rfl, hs⟩
  keeps hp _ := by
    rintro ⟨more, _, _, hl, _⟩
    exact ⟨hl.plain hp, hl.size_le hp⟩

/-- A token either opens what is read behind it, or stops what would be read. -/
theorem opening {go : Option Nat → Token → Option (Routine n α)}
    {stop : Token → Routine (n + 1) α}
    (hgo : ∀ {place t r}, go place t = some r → ∃ S, Meets (fun s => s.cursor.line = t.line) r S ∧
      ∀ {s a s'}, s.Plain → s.cursor.position 1 = place → s.cursor.tokens.head? = some t →
        (R s a s' ↔ S s.next a s'))
    (hstop : ∀ t, Meets (fun s => s.cursor.peek = t ∧
      (t.kind = .eos ∨ go (s.cursor.position 1) t = none)) (stop t) R) :
    Meets Anywhere (Routine.opening go stop) R := by
  have hcases {s : State} (hp : s.Plain) :
      (Routine.opening go stop s = stop s.cursor.peek s ∧
        (s.cursor.peek.kind = .eos ∨ go (s.cursor.position 1) s.cursor.peek = none)) ∨
      ∃ t ts r, s.cursor.tokens = t :: ts ∧ go (some s.cursor.consumed) t = some r := by
    refine (opens_or_not go hp).imp_left fun hnone => ⟨opening_stop hp hnone, ?_⟩
    cases ht : s.cursor.tokens with
    | nil => exact .inl (by rw [State.peek_nil hp ht]; rfl)
    | cons t ts =>
      rw [State.peek_cons hp ht]
      exact .inr (hnone t (by rw [ht]; rfl))
  constructor
  · intro s a s' hp _
    obtain ⟨heq, hnone⟩ | ⟨t, ts, r, ht, hg⟩ := hcases hp
    · rw [← (hstop _).runs hp ⟨rfl, hnone⟩, Runs, Runs, heq]
    · obtain ⟨S, hr, hS⟩ := hgo hg
      have hh : s.cursor.tokens.head? = some t := by rw [ht]; rfl
      have hs := State.size_next hp ht
      rw [runs_opening hp ht hg, hr.runs (State.plain_next hp ht) (State.line_next hp hh),
        hS hp (State.position_cons hp ht) hh]
      exact and_congr_left fun _ => by omega
  · intro s a s' hp _ h
    obtain ⟨_, hnone⟩ | ⟨t, ts, r, ht, hg⟩ := hcases hp
    · exact (hstop _).keeps hp ⟨rfl, hnone⟩ h
    · obtain ⟨S, hr, hS⟩ := hgo hg
      have hh : s.cursor.tokens.head? = some t := by rw [ht]; rfl
      have hs := State.size_next hp ht
      have hk := hr.keeps (State.plain_next hp ht) (State.line_next hp hh)
        ((hS hp (State.position_cons hp ht) hh).mp h)
      exact ⟨hk.1, by omega⟩

end Meets

end Routine

end TemplateTree
