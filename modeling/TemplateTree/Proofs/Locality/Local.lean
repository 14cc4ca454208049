import TemplateTree.Proofs.Locality.Sharing
import TemplateTree.Proofs.Parallel.Basic

/-!
How far a parse looks. A routine that answers has looked at the tokens it read and at most at the
one behind them; one that fails has found its fault at a certain token and looked no further. So
streams that agree so far lead to the same answer or fault, and a stream that breaks off earlier
is found to break off.
-/

namespace TemplateTree
set_option autoImplicit false

/-- The fault was found at the token. -/
def Fault.At (e : Fault) (t : Token) : Prop :=
  e.line = t.line ∧ ∀ kind ∈ e.cause.found?, kind = t.kind

/-- What a stance says of two states that are compared. -/
def Stance.Met (s u : State) : Stance → Prop
  | anywhere => True
  | before place t v => t = v ∧ s.cursor.peek = t ∧ u.cursor.peek = t ∧
    s.cursor.position 1 = place ∧ u.cursor.position 1 = place
  | behind place t v => t = v ∧ s.cursor.line = t.line ∧ u.cursor.line = t.line ∧
    (t.isElse = true → (u.elseLink = place ↔ s.elseLink = place))

section Local

variable {n n' : Nat} {α : Type}

/-- Where no token is left, the routine either comes to its end or asks for one more. -/
def Ends (R : α → α → Prop) (r : Routine n α) (u : State) : Prop :=
  (∃ a b u', r.Runs u b u' ∧ R a b ∧ u'.Plain ∧ u'.cursor.tokens = [] ∧
    u'.cursor.endLine = u.cursor.endLine) ∨
  ∃ e, r.Fails u e ∧ e.cause.found? = some .eos ∧ e.line = u.cursor.endLine

/-- Where the stream breaks off after that many tokens or earlier, the routine finds its end. -/
def BreaksOff (c : Stance) (R : α → α → Prop) (r : Routine n α) (k : Nat) (s : State) : Prop :=
  ∀ d ≤ k, ∀ u, State.Shares d s u → u.cursor.tokens.length ≤ d → c.Met s u → u.size < n →
    Ends R r u

/-- A run over some tokens, that looks at most at the token behind them. -/
structure RunsOver (c : Stance) (R : α → α → Prop) (r : Routine n α) (k : Nat) (s : State) (a : α)
    (s' : State) : Prop where
  passes : State.Passes k s s'
  plain : s'.Plain
  replay : ∀ j u, State.Shares (k + (j + 1)) s u → c.Met s u → u.size < n →
    ∃ u', r.Runs u a u' ∧ State.Shares (j + 1) s' u' ∧ State.Passes k u u'
  breaks : BreaksOff c R r k s

/-- A failure behind some tokens, at the token that comes next. -/
structure FailsAt (c : Stance) (R : α → α → Prop) (r : Routine n α) (k : Nat) (s : State)
    (e : Fault) : Prop where
  le : k ≤ s.cursor.tokens.length
  proper : ∀ t ∈ s.cursor.tokens.take k, t.kind ≠ .eos
  found : e.At (s.cursor.tokens[k]?.getD s.cursor.eos)
  replay : ∀ u, State.Shares (k + 1) s u → c.Met s u → u.size < n → r.Fails u e
  breaks : BreaksOff c R r k s

/-- A failure at the token that was read last, whatever comes next. -/
def FailsBehind (c : Stance) (r : Routine n α) (s : State) (e : Fault) : Prop :=
  (∃ place t u, c = .behind place t u ∧ e.At t) ∧
    ∀ u, State.Shares 0 s u → c.Met s u → u.size < n → r.Fails u e

/-- What the first routine does, the second one does on any stream that agrees as far as the first
one has looked. -/
structure Local (c : Stance) (R : α → α → Prop) (r : Routine n α) (r' : Routine n' α) : Prop where
  runs : ∀ {s a s'}, s.Plain → c.Met s s → s.size < n' → r.Runs s a s' →
    ∃ k b, R a b ∧ RunsOver c R r' k s b s'
  fails : ∀ {s e}, s.Plain → c.Met s s → s.size < n' → r.Fails s e →
    (∃ k, FailsAt c R r' k s e) ∨ FailsBehind c r' s e

end Local

namespace Local

open Routine State

variable {n n' : Nat} {α β : Type} {c : Stance} {R : α → α → Prop} {S : β → β → Prop}
variable {r : Routine n α} {r' : Routine n' α} {s u : State}

theorem vacuous (h : n = 0 ∨ n' = 0) : Local c R r r' where
  runs _ _ hlt hr := by
    have := hr.size_lt
    omega
  fails _ _ hlt hf := by
    have := hf.size_lt
    omega

theorem not_failsBehind {e : Fault} (hc : ∀ place t u, c ≠ .behind place t u) :
    ¬ FailsBehind c r s e := by
  rintro ⟨⟨place, t, u, h, _⟩, _⟩
  exact hc place t u h

/-- Where no token is left, a stream that breaks off at once is the stream itself. -/
theorem ends (h : Local c R r r') (hc : ∀ place t u, c ≠ .behind place t u) (hp : u.Plain)
    (hu : u.cursor.tokens = []) (hmet : c.Met u u) (hn : 0 < n) (hn' : 0 < n') : Ends R r' u := by
  have hsize : u.size = 0 := by rw [State.size_eq hp, hu]; rfl
  have hlt : u.size < n' := by omega
  have hlen : u.cursor.tokens.length ≤ 0 := by rw [hu]; exact Nat.le_refl 0
  obtain ⟨a, u', hr⟩ | ⟨e, hf⟩ := r.runs_or_fails (s := u) (by omega)
  · obtain ⟨k, b, _, hk⟩ := h.runs hp hmet hlt hr
    exact hk.breaks 0 (Nat.zero_le k) u (.refl 0 hp) hlen hmet hlt
  · obtain ⟨k, hk⟩ | hb := h.fails hp hmet hlt hf
    · exact hk.breaks 0 (Nat.zero_le k) u (.refl 0 hp) hlen hmet hlt
    · exact absurd hb (not_failsBehind hc)

theorem anywhere (h : Local .anywhere R r r') : Local c R r r' where
  runs hp _ hlt hr := by
    obtain ⟨k, b, hb, hk⟩ := h.runs hp trivial hlt hr
    exact ⟨k, b, hb, hk.passes, hk.plain, fun j u hu _ => hk.replay j u hu trivial,
      fun d hd u hu hl _ => hk.breaks d hd u hu hl trivial⟩
  fails hp _ hlt hf := by
    obtain ⟨k, hk⟩ | hb := h.fails hp trivial hlt hf
    · exact .inl ⟨k, hk.le, hk.proper, hk.found, fun u hu _ => hk.replay u hu trivial,
        fun d hd u hu hl _ => hk.breaks d hd u hu hl trivial⟩
    · exact absurd hb (not_failsBehind fun _ _ _ h => by cases h)

theorem pure {a a' : α} (ha : R a a') :
    Local .anywhere R (Pure.pure a : Routine n α) (Pure.pure a' : Routine n' α) where
  runs hp _ hlt hr := by
    obtain ⟨_, rfl, rfl⟩ := runs_pure.mp hr
    refine ⟨0, a', ha, .refl _, hp, fun j u hu _ hlt => ?_, fun d hd u hu hl _ hlt => ?_⟩
    · rw [Nat.zero_add] at hu
      exact ⟨u, runs_pure.mpr ⟨hlt, rfl, rfl⟩, hu, .refl u⟩
    · refine .inl ⟨_, a', u, runs_pure.mpr ⟨hlt, rfl, rfl⟩, ha, hu.plain', ?_, rfl⟩
      exact List.eq_nil_of_length_eq_zero (by omega)
  fails _ _ _ hf := absurd hf not_fails_pure

/-- Where the first of two routines finds an end, both do. -/
theorem ends_bind {f : α → Routine n β} {f' : α → Routine n' β} (h : Ends R r' u)
    (hf : ∀ a a', R a a' → Local .anywhere S (f a) (f' a')) (hn : 0 < n) :
    Ends S (r' >>= f') u := by
  obtain ⟨a, b, m, hr, hab, hp, hm, hend⟩ | ⟨e, he, hk, hl⟩ := h
  · have hn' := Nat.lt_of_le_of_lt (Nat.zero_le _) hr.size_lt
    obtain ⟨x, y, u', hy, hxy, hp', hu', hend'⟩ | ⟨e, he, hk, hl⟩ :=
      (hf a b hab).ends (fun _ _ _ h => by cases h) hp hm trivial hn hn'
    · exact .inl ⟨x, y, u', runs_bind.mpr ⟨b, m, hr, hy⟩, hxy, hp', hu', hend'.trans hend⟩
    · exact .inr ⟨e, fails_bind.mpr (.inr ⟨b, m, hr, he⟩), hk, hl.trans hend⟩
  · exact .inr ⟨e, fails_bind.mpr (.inl he), hk, hl⟩

/-- A stream that breaks off within what two routines read breaks off in one of them. -/
theorem breaks_bind {f : α → Routine n β} {f' : α → Routine n' β} {j k : Nat} {b : α} {m : State}
    (hr : RunsOver c R r' j s b m) (hf : ∀ a a', R a a' → Local .anywhere S (f a) (f' a'))
    (hk : BreaksOff .anywhere S (f' b) k m) (hn : 0 < n) :
    BreaksOff c S (r' >>= f') (j + k) s := by
  intro d hd u hu hl hc hlt
  by_cases hj : d ≤ j
  · exact ends_bind (hr.breaks d hj u hu hl hc hlt) hf hn
  · obtain ⟨i, rfl⟩ : ∃ i, d = j + (i + 1) := ⟨d - j - 1, by omega⟩
    obtain ⟨v, hb, hv, hpass⟩ := hr.replay i u hu hc hlt
    have hvl : v.cursor.tokens.length ≤ i + 1 := by
      rw [hpass.tokens, List.length_drop]
      omega
    obtain ⟨x, y, u', hy, hxy, hp', hu', hend⟩ | ⟨e, he, hke, hle⟩ :=
      hk (i + 1) (by omega) v hv hvl trivial (Nat.lt_of_le_of_lt hb.size_le hlt)
    · exact .inl ⟨x, y, u', runs_bind.mpr ⟨b, v, hb, hy⟩, hxy, hp', hu',
        hend.trans hpass.endLine⟩
    · exact .inr ⟨e, fails_bind.mpr (.inr ⟨b, v, hb, he⟩), hke, hle.trans hpass.endLine⟩

theorem runsOver_bind {f : α → Routine n β} {f' : α → Routine n' β} {j k : Nat} {b : α} {y : β}
    {m s' : State} (hr : RunsOver c R r' j s b m)
    (hf : ∀ a a', R a a' → Local .anywhere S (f a) (f' a'))
    (hy : RunsOver .anywhere S (f' b) k m y s') (hn : 0 < n) :
    RunsOver c S (r' >>= f') (j + k) s y s' where
  passes := hr.passes.trans hy.passes
  plain := hy.plain
  replay i u hu hc hlt := by
    rw [Nat.add_assoc, ← Nat.add_assoc k] at hu
    obtain ⟨v, hb, hv, hpass⟩ := hr.replay (k + i) u hu hc hlt
    obtain ⟨u', hyr, hs, hpass'⟩ := hy.replay i v hv trivial (Nat.lt_of_le_of_lt hb.size_le hlt)
    exact ⟨u', runs_bind.mpr ⟨b, v, hb, hyr⟩, hs, hpass.trans hpass'⟩
  breaks := breaks_bind hr hf hy.breaks hn

theorem failsAt_bind {f : α → Routine n β} {f' : α → Routine n' β} {j k : Nat} {b : α} {e : Fault}
    {m : State} (hr : RunsOver c R r' j s b m)
    (hf : ∀ a a', R a a' → Local .anywhere S (f a) (f' a'))
    (he : FailsAt .anywhere S (f' b) k m e) (hn : 0 < n) :
    FailsAt c S (r' >>= f') (j + k) s e where
  le := by
    have hle := he.le
    rw [hr.passes.tokens, List.length_drop] at hle
    have := hr.passes.le
    omega
  proper := by
    rw [List.take_add]
    refine List.forall_mem_append.mpr ⟨hr.passes.proper, ?_⟩
    rw [← hr.passes.tokens]
    exact he.proper
  found := by
    have hfound := he.found
    rwa [hr.passes.tokens, List.getElem?_drop, Cursor.eos, hr.passes.endLine] at hfound
  replay u hu hc hlt := by
    obtain ⟨v, hb, hv, _⟩ := hr.replay k u (by rwa [← Nat.add_assoc]) hc hlt
    exact fails_bind.mpr (.inr ⟨b, v, hb,
      he.replay v hv trivial (Nat.lt_of_le_of_lt hb.size_le hlt)⟩)
  breaks := breaks_bind hr hf he.breaks hn

theorem bind {f : α → Routine n β} {f' : α → Routine n' β} (h : Local c R r r')
    (hf : ∀ a a', R a a' → Local .anywhere S (f a) (f' a')) :
    Local c S (r >>= f) (r' >>= f') where
  runs hp hc hlt hr := by
    obtain ⟨a, m, hr, hfr⟩ := runs_bind.mp hr
    have hn := Nat.lt_of_le_of_lt (Nat.zero_le _) hr.size_lt
    obtain ⟨j, b, hab, hj⟩ := h.runs hp hc hlt hr
    obtain ⟨k, y, hxy, hk⟩ := (hf a b hab).runs hj.plain trivial
      (Nat.lt_of_le_of_lt hr.size_le hlt) hfr
    exact ⟨j + k, y, hxy, runsOver_bind hj hf hk hn⟩
  fails hp hc hlt hfails := by
    obtain hfail | ⟨a, m, hr, hfail⟩ := fails_bind.mp hfails
    · have hn := Nat.lt_of_le_of_lt (Nat.zero_le _) hfail.size_lt
      obtain ⟨k, hk⟩ | ⟨hfound, hreplay⟩ := h.fails hp hc hlt hfail
      · exact .inl ⟨k, hk.le, hk.proper, hk.found,
          fun u hu hc hlt => fails_bind.mpr (.inl (hk.replay u hu hc hlt)),
          fun d hd u hu hl hc hlt => ends_bind (hk.breaks d hd u hu hl hc hlt) hf hn⟩
      · exact .inr ⟨hfound, fun u hu hc hlt => fails_bind.mpr (.inl (hreplay u hu hc hlt))⟩
    · have hn := Nat.lt_of_le_of_lt (Nat.zero_le _) hr.size_lt
      obtain ⟨j, b, hab, hj⟩ := h.runs hp hc hlt hr
      obtain ⟨k, hk⟩ | hb := (hf a b hab).fails hj.plain trivial
        (Nat.lt_of_le_of_lt hr.size_le hlt) hfail
      · exact .inl ⟨j + k, failsAt_bind hj hf hk hn⟩
      · exact absurd hb (not_failsBehind fun _ _ _ h => by cases h)

/-! Routines that do the same in another place. -/

section Congr

variable {c' : Stance} {r₁ r₂ : Routine n α} {k : Nat}

theorem ends_congr (h : Ends R r₁ u) (heq : r₂ u = r₁ u) : Ends R r₂ u := by
  simpa only [Ends, Runs, Fails, heq] using h

theorem breaks_congr (h : BreaksOff c R r₁ k s)
    (heq : ∀ u, Shares 1 s u → c'.Met s u → c.Met s u ∧ r₂ u = r₁ u)
    (h₀ : BreaksOff c' R r₂ 0 s) : BreaksOff c' R r₂ k s := by
  intro d hd u hu hl hc hlt
  cases d with
  | zero => exact h₀ 0 (Nat.le_refl 0) u hu hl hc hlt
  | succ d =>
    obtain ⟨hc', hru⟩ := heq u (hu.mono (Nat.succ_le_succ (Nat.zero_le d))) hc
    exact ends_congr (h (d + 1) hd u hu hl hc' hlt) hru

theorem runsOver_congr {a : α} {s' : State} (h : RunsOver c R r₁ k s a s')
    (heq : ∀ u, Shares 1 s u → c'.Met s u → c.Met s u ∧ r₂ u = r₁ u)
    (h₀ : BreaksOff c' R r₂ 0 s) : RunsOver c' R r₂ k s a s' where
  passes := h.passes
  plain := h.plain
  replay j u hu hc hlt := by
    obtain ⟨hc', hru⟩ := heq u (hu.mono (by omega)) hc
    obtain ⟨u', hr, hrest⟩ := h.replay j u hu hc' hlt
    exact ⟨u', by rwa [Runs, hru], hrest⟩
  breaks := breaks_congr h.breaks heq h₀

theorem failsAt_congr {e : Fault} (h : FailsAt c R r₁ k s e)
    (heq : ∀ u, Shares 1 s u → c'.Met s u → c.Met s u ∧ r₂ u = r₁ u)
    (h₀ : BreaksOff c' R r₂ 0 s) : FailsAt c' R r₂ k s e where
  le := h.le
  proper := h.proper
  found := h.found
  replay u hu hc hlt := by
    obtain ⟨hc', hru⟩ := heq u (hu.mono (by omega)) hc
    have hf := h.replay u hu hc' hlt
    rwa [Fails, hru]
  breaks := breaks_congr h.breaks heq h₀

end Congr

section At

variable {c' : Stance} {r₀ : Routine n α} {r₀' : Routine n' α}

theorem runs_at {a : α} {s' : State} (h : Local c R r₀ r₀') (hp : s.Plain) (hc : c.Met s s)
    (hlt : s.size < n') (hr : r₀.Runs s a s')
    (heq : ∀ u, Shares 1 s u → c'.Met s u → c.Met s u ∧ r' u = r₀' u)
    (h₀ : BreaksOff c' R r' 0 s) : ∃ k b, R a b ∧ RunsOver c' R r' k s b s' := by
  obtain ⟨k, b, hab, hk⟩ := h.runs hp hc hlt hr
  exact ⟨k, b, hab, runsOver_congr hk heq h₀⟩

theorem fails_at {e : Fault} (h : Local c R r₀ r₀') (hb : ∀ place t u, c ≠ .behind place t u)
    (hp : s.Plain) (hc : c.Met s s) (hlt : s.size < n') (hf : r₀.Fails s e)
    (heq : ∀ u, Shares 1 s u → c'.Met s u → c.Met s u ∧ r' u = r₀' u)
    (h₀ : BreaksOff c' R r' 0 s) : ∃ k, FailsAt c' R r' k s e := by
  obtain ⟨k, hk⟩ | hbehind := h.fails hp hc hlt hf
  · exact ⟨k, failsAt_congr hk heq h₀⟩
  · exact absurd hbehind (not_failsBehind hb)

/-- Routines that are local ones wherever the past is the same. -/
theorem of_eq (h : ∀ s, c.Met s s → ∃ (r₀ : Routine n α) (r₀' : Routine n' α),
    Local c R r₀ r₀' ∧ r s = r₀ s ∧ ∀ u, Shares 0 s u → c.Met s u → r' u = r₀' u) :
    Local c R r r' := by
  constructor
  · intro s a s' hp hc hlt hr
    obtain ⟨r₀, r₀', hl, hs, hu⟩ := h s hc
    rw [Runs, hs] at hr
    obtain ⟨k, b, hab, hk⟩ := hl.runs hp hc hlt hr
    refine ⟨k, b, hab, runsOver_congr hk (fun u h hc => ⟨hc, hu u (h.mono (Nat.zero_le 1)) hc⟩) ?_⟩
    exact fun d hd u h hl hc hlt => ends_congr
      (hk.breaks d (Nat.le_trans hd (Nat.zero_le k)) u h hl hc hlt)
      (hu u (h.mono (Nat.zero_le d)) hc)
  · intro s e hp hc hlt hf
    obtain ⟨r₀, r₀', hl, hs, hu⟩ := h s hc
    rw [Fails, hs] at hf
    obtain ⟨k, hk⟩ | ⟨hfound, hreplay⟩ := hl.fails hp hc hlt hf
    · refine .inl ⟨k, failsAt_congr hk (fun u h hc => ⟨hc, hu u (h.mono (Nat.zero_le 1)) hc⟩) ?_⟩
      exact fun d hd u h hl hc hlt => ends_congr
        (hk.breaks d (Nat.le_trans hd (Nat.zero_le k)) u h hl hc hlt)
        (hu u (h.mono (Nat.zero_le d)) hc)
    · refine .inr ⟨hfound, fun u h hc hlt => ?_⟩
      rw [Fails, hu u h hc]
      exact hreplay u h hc hlt

end At

/-! Routines that do behind a token what others do in front of it. -/

section Shift

variable {r₁ : Routine n α} {r₂ : Routine n' α} {place : Option Nat} {t : Token} {ts : List Token}
variable {k : Nat}

/-- The second routine is the first one behind the token that comes next. -/
def ReadsInto (r₂ : Routine n' α) (r₁ : Routine n α) (s : State) : Prop :=
  ∀ u, Shares 1 s u → u.size < n' → u.next.size < n ∧
    (∀ a u', r₁.Runs u.next a u' → r₂.Runs u a u') ∧ ∀ e, r₁.Fails u.next e → r₂.Fails u e

theorem met_behind (hu : Shares 1 s u) (ht : s.cursor.tokens = t :: ts) :
    (Stance.behind (some s.cursor.consumed) t t).Met s.next u.next := by
  obtain ⟨us, hus, _⟩ := hu.next (k := 0) ht
  refine ⟨rfl, ?_, ?_, fun he => ?_⟩
  · exact line_next hu.plain (by rw [ht]; rfl)
  · exact line_next hu.plain' (by rw [hus]; rfl)
  · exact hu.link 0 t Nat.one_pos (by rw [ht]; rfl) he

theorem breaks_shift (ht : s.cursor.tokens = t :: ts) (hr : ReadsInto r₂ r₁ s)
    (h : BreaksOff (.behind (some s.cursor.consumed) t t) R r₁ k s.next)
    (h₀ : BreaksOff c R r₂ 0 s) : BreaksOff c R r₂ (1 + k) s := by
  intro d hd u hu hl hc hlt
  cases d with
  | zero => exact h₀ 0 (Nat.le_refl 0) u hu hl hc hlt
  | succ d =>
    have hu₁ := hu.mono (Nat.succ_le_succ (Nat.zero_le d))
    obtain ⟨us, hus, hn⟩ := hu.next ht
    obtain ⟨hlt', hruns, hfails⟩ := hr u hu₁ hlt
    have hl' : u.next.cursor.tokens.length ≤ d := by
      rw [tokens_next hu.plain' hus]
      rw [hus] at hl
      exact Nat.le_of_succ_le_succ hl
    have hend : u.next.cursor.endLine = u.cursor.endLine := by rw [next_eq hu.plain' hus]
    obtain ⟨a, b, u', hb, hab, hp', hu', he'⟩ | ⟨e, he, hk, hle⟩ :=
      h d (by omega) u.next hn hl' (met_behind hu₁ ht) hlt'
    · exact .inl ⟨a, b, u', hruns b u' hb, hab, hp', hu', he'.trans hend⟩
    · exact .inr ⟨e, hfails e he, hk, hle.trans hend⟩

theorem runsOver_shift {a : α} {s' : State} (hp : s.Plain) (ht : s.cursor.tokens = t :: ts)
    (hk : t.kind ≠ .eos) (hr : ReadsInto r₂ r₁ s)
    (h : RunsOver (.behind (some s.cursor.consumed) t t) R r₁ k s.next a s')
    (h₀ : BreaksOff c R r₂ 0 s) : RunsOver c R r₂ (1 + k) s a s' where
  passes := (Passes.next hp ht hk).trans h.passes
  plain := h.plain
  replay j u hu hc hlt := by
    have hu₁ := hu.mono (show 1 ≤ 1 + k + (j + 1) by omega)
    rw [show 1 + k + (j + 1) = k + (j + 1) + 1 by omega] at hu
    obtain ⟨us, hus, hn⟩ := hu.next ht
    obtain ⟨hlt', hruns, _⟩ := hr u hu₁ hlt
    obtain ⟨u', hb, hs, hpass⟩ := h.replay j u.next hn (met_behind hu₁ ht) hlt'
    exact ⟨u', hruns a u' hb, hs, (Passes.next hu.plain' hus hk).trans hpass⟩
  breaks := breaks_shift ht hr h.breaks h₀

theorem failsAt_shift {e : Fault} (hp : s.Plain) (ht : s.cursor.tokens = t :: ts)
    (hk : t.kind ≠ .eos) (hr : ReadsInto r₂ r₁ s)
    (h : FailsAt (.behind (some s.cursor.consumed) t t) R r₁ k s.next e)
    (h₀ : BreaksOff c R r₂ 0 s) : FailsAt c R r₂ (1 + k) s e := by
  have htokens := tokens_next hp ht
  have hend : s.next.cursor.endLine = s.cursor.endLine := by rw [next_eq hp ht]
  obtain ⟨hle, hproper, hfound, hreplay, hbreaks⟩ := h
  rw [htokens] at hle hproper hfound
  rw [Cursor.eos, hend] at hfound
  rw [Nat.add_comm]
  refine ⟨?_, ?_, ?_, fun u hu hc hlt => ?_, Nat.add_comm 1 k ▸ breaks_shift ht hr hbreaks h₀⟩
  · rw [ht]
    exact Nat.succ_le_succ hle
  · rw [ht, List.take_succ_cons]
    exact List.forall_mem_cons.mpr ⟨hk, hproper⟩
  · rw [ht, List.getElem?_cons_succ]
    exact hfound
  · have hu₁ := hu.mono (show 1 ≤ k + 1 + 1 by omega)
    obtain ⟨us, hus, hn⟩ := hu.next ht
    obtain ⟨hlt', _, hfails⟩ := hr u hu₁ hlt
    exact hfails e (hreplay u.next hn (met_behind hu₁ ht) hlt')

/-- What fails at the token read last fails at the token that comes next before it is read. -/
theorem failsAt_of_behind {e : Fault} {v : Token} (ht : s.cursor.tokens = t :: ts)
    (hr : ReadsInto r₂ r₁ s) (h : FailsBehind (.behind (some s.cursor.consumed) t v) r₁ s.next e)
    (hv : v = t) (h₀ : BreaksOff c R r₂ 0 s) : FailsAt c R r₂ 0 s e := by
  subst hv
  obtain ⟨⟨_, _, _, heq, hfound⟩, hreplay⟩ := h
  cases heq
  refine ⟨Nat.zero_le _, nofun, ?_, fun u hu hc hlt => ?_, h₀⟩
  · rw [ht]
    exact hfound
  · obtain ⟨us, hus, hn⟩ := hu.next ht
    obtain ⟨hlt', _, hfails⟩ := hr u hu hlt
    exact hfails e (hreplay u.next hn (met_behind hu ht) hlt')

/-- What is local behind a token is local in front of it, when the token is read first. -/
theorem runs_shift {n₀ : Nat} {r₀ : Routine n₀ α} {a : α} {s' : State}
    (h : Local (.behind (some s.cursor.consumed) t t) R r₀ r₁) (hp : s.Plain)
    (ht : s.cursor.tokens = t :: ts) (hk : t.kind ≠ .eos) (hlt : s.size < n')
    (hrun : r₀.Runs s.next a s') (hr : ReadsInto r₂ r₁ s) (h₀ : BreaksOff c R r₂ 0 s) :
    ∃ k b, R a b ∧ RunsOver c R r₂ k s b s' := by
  obtain ⟨hlt', _⟩ := hr s (.refl 1 hp) hlt
  obtain ⟨k, b, hab, hk'⟩ := h.runs (plain_next hp ht) (met_behind (.refl 1 hp) ht) hlt' hrun
  exact ⟨1 + k, b, hab, runsOver_shift hp ht hk hr hk' h₀⟩

theorem fails_shift {n₀ : Nat} {r₀ : Routine n₀ α} {e : Fault}
    (h : Local (.behind (some s.cursor.consumed) t t) R r₀ r₁) (hp : s.Plain)
    (ht : s.cursor.tokens = t :: ts) (hk : t.kind ≠ .eos) (hlt : s.size < n')
    (hfail : r₀.Fails s.next e) (hr : ReadsInto r₂ r₁ s) (h₀ : BreaksOff c R r₂ 0 s) :
    ∃ k, FailsAt c R r₂ k s e := by
  obtain ⟨hlt', _⟩ := hr s (.refl 1 hp) hlt
  obtain ⟨k, hk'⟩ | hb := h.fails (plain_next hp ht) (met_behind (.refl 1 hp) ht) hlt' hfail
  · exact ⟨1 + k, failsAt_shift hp ht hk hr hk' h₀⟩
  · exact ⟨0, failsAt_of_behind ht hr hb rfl h₀⟩

end Shift

end Local

end TemplateTree
