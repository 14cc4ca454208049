import TemplateTree.Proofs.ElseLink
import TemplateTree.Proofs.Heads
import TemplateTree.Proofs.Locality.Local

/-!
Whatever is parallel to itself looks no further than it reads. One rule stands for each way of
building routines.
-/

namespace TemplateTree
set_option autoImplicit false

namespace Local

open Routine State

variable {n n' : Nat} {α β : Type} {c : Stance} {R : α → α → Prop} {S : β → β → Prop}
variable {r : Routine n α} {r' : Routine n' α} {s u : State}

theorem lookDepth {f : Nat → Routine n β} {f' : Nat → Routine n' β}
    (hf : ∀ depth, Local c S (f depth) (f' depth)) :
    Local c S (Routine.look State.mixinDepth >>= f) (Routine.look State.mixinDepth >>= f') := by
  refine of_eq fun s _ => ⟨_, _, hf s.mixinDepth, look_bind_apply, fun u hu _ => ?_⟩
  rw [look_bind_apply, hu.mixinDepth]

theorem lookPlace {place : Option Nat} {t v : Token} {f : Option Nat → Routine n β}
    {f' : Option Nat → Routine n' β} (hf : Local (.before place t v) S (f place) (f' place)) :
    Local (.before place t v) S (Routine.look (fun s => s.cursor.position 1) >>= f)
      (Routine.look (fun s => s.cursor.position 1) >>= f') := by
  refine of_eq fun s hc => ⟨_, _, hf, ?_, fun u _ hc => ?_⟩
  · rw [look_bind_apply, hc.2.2.2.1]
  · rw [look_bind_apply, hc.2.2.2.2]

theorem stuckBefore {place : Option Nat} {t v : Token} {cause : Cause}
    (hk : cause.found? = some t.kind) :
    Local (.before place t v) R (Routine.fail cause t.line : Routine n α)
      (Routine.fail cause t.line : Routine n' α) where
  runs _ _ _ hr := absurd hr not_runs_fail
  fails {s _} hp hc hlt hf := by
    obtain ⟨_, rfl⟩ := fails_fail.mp hf
    refine .inl ⟨0, Nat.zero_le _, nofun, ?_, fun u _ _ hlt => fails_fail.mpr ⟨hlt, rfl⟩, ?_⟩
    · rw [← List.head?_eq_getElem?, ← peek_eq hp, hc.2.1]
      refine ⟨rfl, fun kind hkind => ?_⟩
      rw [hk] at hkind
      exact (Option.some.inj hkind).symm
    · intro d hd u hu hl hc hlt
      have hnil := List.eq_nil_of_length_eq_zero (Nat.le_zero.mp (Nat.le_trans hl hd))
      have ht : t = .eos u.cursor.endLine := hc.2.2.1.symm.trans (peek_nil hu.plain' hnil)
      refine .inr ⟨_, fails_fail.mpr ⟨hlt, rfl⟩, ?_, ?_⟩
      · rw [hk, ht]
        rfl
      · rw [ht]
        rfl

theorem stuckBehind {place : Option Nat} {t v : Token} {cause : Cause}
    (hk : ∀ kind ∈ cause.found?, kind = t.kind) :
    Local (.behind place t v) R (Routine.fail cause t.line : Routine n α)
      (Routine.fail cause t.line : Routine n' α) where
  runs _ _ _ hr := absurd hr not_runs_fail
  fails _ _ _ hf := by
    obtain ⟨_, rfl⟩ := fails_fail.mp hf
    exact .inr ⟨⟨place, t, v, rfl, rfl, hk⟩, fun u _ _ hlt => fails_fail.mpr ⟨hlt, rfl⟩⟩

theorem checkElse {place : Option Nat} {line : Line} {d d' : CodeLine} :
    Local (.behind place ⟨line, .code d⟩ ⟨line, .code d'⟩) Eq
      (Grammar.checkElse .slot place line d : Routine n Unit)
      (Grammar.checkElse .slot place line d' : Routine n' Unit) := by
  refine of_eq fun s hc => ?_
  obtain ⟨heq, -⟩ := hc
  cases heq
  -- Only what the link says at the place of the token itself is asked for.
  have hcheck (u : State) : (Grammar.checkElse .slot place line d : Routine n' Unit) u =
      (if d.isElse && !Linking.slot.admits u place d then Routine.fail .elseWithoutIf line
        else return : Routine n' Unit) u := look_bind_apply
  refine ⟨if d.isElse && !Linking.slot.admits s place d then Routine.fail .elseWithoutIf line
    else return, if d.isElse && !Linking.slot.admits s place d then
      Routine.fail .elseWithoutIf line else return, ?_, look_bind_apply, fun u _ hc => ?_⟩
  · split
    · exact stuckBehind (t := ⟨line, .code d⟩) (by simp [Cause.found?])
    · exact .anywhere (.pure rfl)
  · have hadmits : (d.isElse && !Linking.slot.admits u place d) =
        (d.isElse && !Linking.slot.admits s place d) := by
      cases he : d.isElse with
      | false => rfl
      | true =>
        have hlink : (place == u.elseLink) = (place == s.elseLink) := by
          rw [Bool.eq_iff_iff, beq_iff_eq, beq_iff_eq, eq_comm, hc.2.2.2 he, eq_comm]
        simp only [Linking.slot, hlink]
    rw [hcheck, hadmits]

/-- Where no token is left, what is done with the end of the stream finds the end. -/
theorem breaks_zero {q : Routine n' β} {f : Token → Routine n β} {f' : Token → Routine n' β}
    (hf : ∀ place t u, t.Alike .same u → Local (.before place t u) S (f t) (f' u)) (hn : 0 < n)
    (heq : ∀ u : State, u.Plain → u.cursor.tokens = [] → q u = f' u.cursor.peek u) :
    BreaksOff .anywhere S q 0 s := by
  intro d hd u hu hl _ hlt
  have hnil := List.eq_nil_of_length_eq_zero (Nat.le_zero.mp (Nat.le_trans hl hd))
  have hlocal := hf (u.cursor.position 1) u.cursor.peek u.cursor.peek (.refl _)
  refine ends_congr (hlocal.ends (fun _ _ _ h => by cases h) hu.plain' hnil
    ⟨rfl, rfl, rfl, rfl, rfl⟩ hn (Nat.lt_of_le_of_lt (Nat.zero_le _) hlt)) (heq u hu.plain' hnil)

theorem met_before (hu : Shares 1 s u) :
    (Stance.before (s.cursor.position 1) s.cursor.peek s.cursor.peek).Met s u :=
  ⟨rfl, rfl, hu.peek.1, rfl, hu.peek.2⟩

theorem peek {f : Token → Routine n β} {f' : Token → Routine n' β}
    (hf : ∀ place t u, t.Alike .same u → Local (.before place t u) S (f t) (f' u)) :
    Local .anywhere S (Routine.peek >>= f) (Routine.peek >>= f') := by
  have heq (s : State) : ∀ u, Shares 1 s u → Stance.anywhere.Met s u →
      (Stance.before (s.cursor.position 1) s.cursor.peek s.cursor.peek).Met s u ∧
        (Routine.peek >>= f') u = f' s.cursor.peek u := by
    intro u hu _
    refine ⟨met_before hu, ?_⟩
    rw [← hu.peek.1]
    exact look_bind_apply
  constructor
  · intro s b s' hp _ hlt hr
    rw [runs_peek_bind] at hr
    exact (hf _ _ _ (.refl _)).runs_at hp (met_before (.refl 1 hp)) hlt hr (heq s)
      (breaks_zero hf (Nat.lt_of_le_of_lt (Nat.zero_le _) hr.size_lt) fun _ _ _ => look_bind_apply)
  · intro s e hp _ hlt hfail
    rw [fails_peek_bind] at hfail
    exact .inl ((hf _ _ _ (.refl _)).fails_at (fun _ _ _ h => by cases h) hp
      (met_before (.refl 1 hp)) hlt hfail (heq s)
      (breaks_zero hf (Nat.lt_of_le_of_lt (Nat.zero_le _) hfail.size_lt)
        fun _ _ _ => look_bind_apply))

theorem next {place : Option Nat} {t v : Token} {f : Token → Routine n β}
    {f' : Token → Routine n' β} (hk : t.kind ≠ .eos)
    (hf : Local (.behind place t v) S (f t) (f' v)) :
    Local (.before place t v) S (Routine.next >>= f) (Routine.next >>= f') := by
  have hreads {s : State} (hu : ∀ u, Shares 1 s u → u.cursor.peek = v) :
      ReadsInto (Routine.next >>= f') (f' v) s := by
    intro u h hlt
    have hlt' := Nat.lt_of_le_of_lt (Cursor.size_advance u.cursor) hlt
    refine ⟨hlt', fun a u' hr => ?_, fun e he => ?_⟩
    · rw [runs_next_bind, hu u h]
      exact ⟨hlt, hr⟩
    · rw [fails_next_bind, hu u h]
      exact ⟨hlt, he⟩
  have hbreaks (s : State) : BreaksOff (.before place t v) S (Routine.next >>= f') 0 s := by
    intro d hd u hu hl hc _
    have hnil := List.eq_nil_of_length_eq_zero (Nat.le_zero.mp (Nat.le_trans hl hd))
    rw [← hc.2.2.1, peek_nil hu.plain' hnil] at hk
    exact absurd rfl hk
  constructor
  · intro s b s' hp hc hlt hr
    obtain ⟨rfl, rfl, -, rfl, -⟩ := hc
    obtain ⟨ts, ht⟩ := exists_cons_of_peek hp hk
    rw [position_cons hp ht] at hf
    exact hf.runs_shift hp ht hk hlt (runs_next_bind.mp hr).2 (hreads fun u hu => hu.peek.1)
      (position_cons hp ht ▸ hbreaks s)
  · intro s e hp hc hlt hfail
    obtain ⟨rfl, rfl, -, rfl, -⟩ := hc
    obtain ⟨ts, ht⟩ := exists_cons_of_peek hp hk
    rw [position_cons hp ht] at hf
    exact .inl (hf.fails_shift hp ht hk hlt (fails_next_bind.mp hfail).2
      (hreads fun u hu => hu.peek.1) (hbreaks s))

section Opening

variable {go : Option Nat → Token → Option (Routine n α)}
variable {go' : Option Nat → Token → Option (Routine n' α)}
variable {stop : Token → Routine (n + 1) α} {stop' : Token → Routine (n' + 1) α} {t : Token}
variable {ts : List Token}

theorem readsInto_opening {q : Routine n' α} (ht : s.cursor.tokens = t :: ts)
    (hg : go' (some s.cursor.consumed) t = some q) :
    ReadsInto (Routine.opening go' stop') q s := by
  intro u hu hlt
  obtain ⟨us, hus, _⟩ := hu.next (k := 0) ht
  rw [← hu.consumed] at hg
  have hsize := size_next hu.plain' hus
  exact ⟨by omega, fun a u' hr => (runs_opening hu.plain' hus hg).mpr hr,
    fun e hf => (fails_opening hu.plain' hus hg).mpr hf⟩

theorem opening_stop_of_shares (hsome : OpenAlike .same go go') (hu : Shares 1 s u)
    (hs : ∀ t ∈ s.cursor.tokens.head?, go (s.cursor.position 1) t = none) :
    Routine.opening go' stop' u = stop' s.cursor.peek u := by
  obtain ⟨hpeek, hplace⟩ := hu.peek
  rw [← hpeek]
  refine opening_stop hu.plain' fun v hv => ?_
  have hhead := congrArg List.head? hu.tokens
  rw [List.head?_take, List.head?_take, if_neg Nat.one_ne_zero, if_neg Nat.one_ne_zero] at hhead
  have hv' : v ∈ s.cursor.tokens.head? := hhead ▸ hv
  rw [hplace]
  exact hsome.eq_none (.refl v) (hs v hv')

theorem opening
    (hsome : OpenAlike .same go go')
    (hgo : ∀ place t u r r', t.Alike .same u → go place t = some r → go' place u = some r' →
      Local (.behind place t u) R r r')
    (he : RefuseEnds .same go go' stop stop')
    (hstop : ∀ place t u, t.Alike .same u → Local (.before place t u) R (stop t) (stop' u)) :
    Local .anywhere R (Routine.opening go stop) (Routine.opening go' stop') := by
  have hzero (s : State) : BreaksOff .anywhere R (Routine.opening go' stop') 0 s := by
    refine breaks_zero hstop (Nat.succ_pos n) fun u hp hnil => opening_stop hp ?_
    rw [hnil]
    nofun
  constructor
  · intro s a s' hp _ hlt hr
    obtain hs | ⟨t, ts, q, ht, hg⟩ := opens_or_not go hp
    · rw [Runs, opening_stop hp hs] at hr
      exact (hstop _ _ _ (.refl _)).runs_at hp (met_before (.refl 1 hp)) hlt hr
        (fun u hu _ => ⟨met_before hu, opening_stop_of_shares hsome hu hs⟩) (hzero s)
    · obtain ⟨q', hg'⟩ := hsome.exists_eq_some (.refl t) hg
      rw [runs_opening hp ht hg] at hr
      by_cases hk : t.kind = .eos
      · obtain hnone | ⟨cause, _, hfail, _⟩ := he t t (.refl t) hk
        · cases (hnone _).symm.trans hg
        · cases (hfail _).symm.trans hg
          exact absurd hr not_runs_fail
      · exact (hgo _ t t q q' (.refl t) hg hg').runs_shift hp ht hk hlt hr
          (readsInto_opening ht hg') (hzero s)
  · intro s e hp _ hlt hf
    obtain hs | ⟨t, ts, q, ht, hg⟩ := opens_or_not go hp
    · rw [Fails, opening_stop hp hs] at hf
      exact .inl ((hstop _ _ _ (.refl _)).fails_at (fun _ _ _ h => by cases h) hp
        (met_before (.refl 1 hp)) hlt hf
        (fun u hu _ => ⟨met_before hu, opening_stop_of_shares hsome hu hs⟩) (hzero s))
    · obtain ⟨q', hg'⟩ := hsome.exists_eq_some (.refl t) hg
      rw [fails_opening hp ht hg] at hf
      by_cases hk : t.kind = .eos
      · obtain hnone | ⟨cause, hfound, hfail, hfail', _⟩ := he t t (.refl t) hk
        · cases (hnone _).symm.trans hg
        · cases (hfail _).symm.trans hg
          obtain ⟨_, rfl⟩ := fails_fail.mp hf
          have hkind : ∀ kind ∈ cause.found?, kind = t.kind := by
            rw [hfound, hk]
            rintro _ ⟨⟩
            rfl
          refine .inl ⟨0, failsAt_of_behind ht (readsInto_opening ht (hfail' _)) ?_ rfl (hzero s)⟩
          exact ⟨⟨_, _, _, rfl, rfl, hkind⟩, fun u _ _ hlt => fails_fail.mpr ⟨hlt, rfl⟩⟩
      · exact .inl ((hgo _ t t q q' (.refl t) hg hg').fails_shift hp ht hk hlt hf
          (readsInto_opening ht hg') (hzero s))

end Opening

theorem modify {g : State → State} {hg : ∀ s, (g s).size ≤ s.size}
    (hcursor : ∀ {s}, s.Plain → (g s).cursor = s.cursor)
    (hshares : ∀ {k s u}, Shares (k + 1) s u → Shares (k + 1) (g s) (g u)) :
    Local .anywhere Eq (Routine.modify g hg : Routine n Unit)
      (Routine.modify g hg : Routine n' Unit) := by
  have hplain {s : State} (hp : s.Plain) : (g s).Plain :=
    (congrArg Cursor.deferred (hcursor hp)).trans hp
  have hpasses {s : State} (hp : s.Plain) : Passes 0 s (g s) := by
    refine ⟨Nat.zero_le _, ?_, ?_, nofun⟩ <;> rw [hcursor hp]
    rfl
  constructor
  · intro s _ s' hp _ hlt hr
    obtain ⟨_, rfl⟩ := runs_modify.mp hr
    refine ⟨0, (), rfl, hpasses hp, hplain hp, fun j u hu _ hlt => ?_, fun d hd u hu hl _ hlt => ?_⟩
    · rw [Nat.zero_add] at hu
      exact ⟨g u, runs_modify.mpr ⟨hlt, rfl⟩, hshares hu, hpasses hu.plain'⟩
    · have hnil := List.eq_nil_of_length_eq_zero (Nat.le_zero.mp (Nat.le_trans hl hd))
      refine .inl ⟨(), (), g u, runs_modify.mpr ⟨hlt, rfl⟩, rfl, hplain hu.plain', ?_, ?_⟩ <;>
        rw [hcursor hu.plain']
      exact hnil
  · exact fun _ _ _ hf => absurd hf not_fails_modify

theorem enterMixin : Local .anywhere Eq (Routine.enterMixin : Routine n Unit)
    (Routine.enterMixin : Routine n' Unit) :=
  .modify (fun _ => rfl) fun h => ⟨h.plain, h.plain', h.tokens, h.endLine, h.consumed, h.line,
    congrArg (· + 1) h.mixinDepth, h.link⟩

theorem leaveMixin : Local .anywhere Eq (Routine.leaveMixin : Routine n Unit)
    (Routine.leaveMixin : Routine n' Unit) :=
  .modify (fun _ => rfl) fun h => ⟨h.plain, h.plain', h.tokens, h.endLine, h.consumed, h.line,
    congrArg (· - 1) h.mixinDepth, h.link⟩

theorem finish : Local .anywhere Eq
    (Routine.modify Linking.slot.finish Linking.slot.size_finish : Routine n Unit)
    (Routine.modify Linking.slot.finish Linking.slot.size_finish : Routine n' Unit) := by
  refine modify (fun {s} hp => ?_) fun {k s u} h => ?_
  · change (Linking.rememberElse s).cursor = s.cursor
    rw [rememberElse_eq hp]
  · change Shares (k + 1) (Linking.rememberElse s) (Linking.rememberElse u)
    rw [rememberElse_eq h.plain, rememberElse_eq h.plain']
    refine ⟨h.plain, h.plain', h.tokens, h.endLine, h.consumed, h.line, h.mixinDepth, ?_⟩
    intro i t hi ht he
    have hlink := h.link i t hi ht he
    dsimp only at ht ⊢
    rw [h.consumed]
    cases k with
    | zero =>
      -- A shared else token is where both links point; one behind a newline is not shared.
      obtain rfl := Nat.lt_one_iff.mp hi
      obtain ⟨ts, hts⟩ := List.head?_eq_some_iff.mp (List.head?_eq_getElem?.trans ht)
      obtain ⟨us, hus, _⟩ := h.next hts
      rw [hts, hus, elseAhead, elseAhead, if_pos he, if_pos he]
      exact Iff.rfl
    | succ k =>
      rw [elseAhead_congr (h.mono (show 2 ≤ k + 1 + 1 by omega)).tokens]
      cases elseAhead s.cursor.consumed s.cursor.tokens with
      | none => exact hlink
      | some _ => exact Iff.rfl

theorem skipNewlines : Local .anywhere Eq (Routine.skipNewlines : Routine n Unit)
    (Routine.skipNewlines : Routine n' Unit) where
  runs {s _ _} hp _ hlt hr := by
    have he (t : Token) (ht : (t.kind == .newline) = true) : t.kind ≠ .eos := by
      rw [beq_iff_eq.mp ht]
      nofun
    rw [runs_skipNewlines, remaining_eq hp] at hr
    obtain ⟨_, rfl⟩ := hr
    obtain ⟨hplain, hpass⟩ := passes_run hp he
    refine ⟨_, (), rfl, hpass, hplain, fun j u hu _ hlt => ?_, fun d hd u hu hl _ hlt => ?_⟩
    · obtain ⟨_, hs, hpass'⟩ := replay_run he hu
      refine ⟨_, runs_skipNewlines.mpr ⟨hlt, ?_⟩, hs, hpass'⟩
      rw [remaining_eq hu.plain']
      rfl
    · obtain ⟨_, hend⟩ := breaks_run he hd hu hl
      refine .inl ⟨(), (), _, runs_skipNewlines.mpr ⟨hlt, ?_⟩, rfl, hend⟩
      rw [remaining_eq hu.plain']
      rfl
  fails _ _ _ hf := absurd hf not_fails_skipNewlines

theorem kind_of_isHead {t : Token} (h : t.isHead = true) : t.kind ≠ .eos := by
  obtain ⟨line, lexeme⟩ := t
  cases lexeme <;> cases h <;> nofun

/-- A run that fails is a run of head tokens up to the one at fault. -/
theorem failsAt_head {selfClosing : Bool} {shorthand : Option { t : Token // t.isHead = true }}
    (ho : ∀ {s u}, c.Met s u → OpenedBy shorthand u) {e : Fault} {t : Token}
    {before after : List Token} {h : Head}
    (hrun : s.cursor.tokens.takeWhile Token.isHead = before ++ t :: after)
    (hok : Head.ofRun selfClosing ((shorthand.map Subtype.val).toList ++ before) = .ok h)
    (he : h.addToken t = .error e) :
    FailsAt c Eq (Grammar.head selfClosing shorthand : Routine n Head) before.length s e := by
  have htokens := List.takeWhile_append_dropWhile (p := Token.isHead) (l := s.cursor.tokens)
  rw [hrun, List.append_assoc, List.cons_append] at htokens
  have hheads : ∀ u ∈ before ++ t :: after, u.isHead = true := by
    rw [← hrun]
    exact fun u hu => List.mem_takeWhile_imp hu
  obtain ⟨hline, hfound⟩ := Head.addToken_error he
  refine ⟨?_, ?_, ?_, fun u hu hc hlt => ?_, fun d hd u hu hl hc hlt => ?_⟩
  · rw [← htokens, List.length_append]
    exact Nat.le_add_right _ _
  · rw [← htokens, List.take_left]
    exact fun u hu => kind_of_isHead (hheads u (List.mem_append_left _ hu))
  · rw [← htokens, List.getElem?_append_right (Nat.le_refl _), Nat.sub_self]
    refine ⟨hline, ?_⟩
    rw [hfound]
    nofun
  · obtain ⟨rest, hrest⟩ : ∃ rest, u.cursor.tokens = before ++ [t] ++ rest := by
      have htake := hu.tokens
      rw [← htokens, List.append_cons, List.take_left' (by simp)] at htake
      exact ⟨u.cursor.tokens.drop (before.length + 1), by rw [← htake, List.take_append_drop]⟩
    refine (fails_head hu.plain' (ho hc)).mpr ⟨hlt, Head.foldlM_error.mpr ?_⟩
    refine ⟨_, t, rest.takeWhile Token.isHead, h, ?_, hok, he⟩
    have hall : ∀ v ∈ before ++ [t], v.isHead = true := fun v hv =>
      hheads v (by rw [List.append_cons]; exact List.mem_append_left _ hv)
    rw [headsAt, hrest, List.takeWhile_append_of_pos hall, List.append_assoc, List.append_assoc]
    rfl
  · have hd' : d ≤ (s.cursor.tokens.takeWhile Token.isHead).length := by
      rw [hrun, List.length_append]
      omega
    obtain ⟨hshort, hend⟩ := breaks_run (fun t => kind_of_isHead) hd' hu hl
    rw [hrun, List.take_append_of_le_length hd] at hshort
    have hwhole : Head.ofRun selfClosing
        ((shorthand.map Subtype.val).toList ++ before.take d ++ before.drop d) = .ok h := by
      rw [List.append_assoc, List.take_append_drop]
      exact hok
    obtain ⟨v, hv⟩ := Head.exists_ofRun_ok hwhole
    rw [← hshort] at hv
    exact .inl ⟨v, v, _, (runs_head hu.plain' (ho hc)).mpr ⟨hlt, hv, rfl⟩, rfl, hend⟩

theorem head (selfClosing : Bool) {shorthand : Option { t : Token // t.isHead = true }}
    (hs : ∀ t ∈ shorthand, ∃ place u, c = .behind place t.1 u) :
    Local c Eq (Grammar.head selfClosing shorthand : Routine n Head)
      (Grammar.head selfClosing shorthand : Routine n' Head) := by
  have hopen {s u : State} (hc : c.Met s u) : OpenedBy shorthand u := by
    intro t ht
    obtain ⟨place, v, rfl⟩ := hs t ht
    exact hc.2.2.1
  constructor
  · intro s v s' hp hc hlt hr
    obtain ⟨_, hv, rfl⟩ := (runs_head hp (hopen hc)).mp hr
    obtain ⟨hplain, hpass⟩ := passes_run hp fun t => kind_of_isHead
    refine ⟨_, v, rfl, ⟨hpass.le, hpass.tokens, hpass.endLine, hpass.proper⟩, hplain,
      fun j u hu hc hlt => ?_, fun d hd u hu hl hc hlt => ?_⟩
    · obtain ⟨hrun, hshares, hpass'⟩ := replay_run (fun t => kind_of_isHead) hu
      refine ⟨_, (runs_head hu.plain' (hopen hc)).mpr ⟨hlt, ?_, rfl⟩, ?_, ?_⟩
      · rw [headsAt, hrun]
        exact hv
      · exact ⟨hshares.plain, hshares.plain', hshares.tokens, hshares.endLine, hshares.consumed,
          hshares.line, hshares.mixinDepth, hshares.link⟩
      · exact ⟨hpass'.le, hpass'.tokens, hpass'.endLine, hpass'.proper⟩
    · obtain ⟨hshort, hend⟩ := breaks_run (fun t => kind_of_isHead) hd hu hl
      have hwhole : Head.ofRun selfClosing ((shorthand.map Subtype.val).toList ++
          (s.cursor.tokens.takeWhile Token.isHead).take d ++
            (s.cursor.tokens.takeWhile Token.isHead).drop d) = .ok v := by
        rw [List.append_assoc, List.take_append_drop]
        exact hv
      obtain ⟨v', hv'⟩ := Head.exists_ofRun_ok hwhole
      rw [← hshort] at hv'
      exact .inl ⟨v', v', _, (runs_head hu.plain' (hopen hc)).mpr ⟨hlt, hv', rfl⟩, rfl, hend⟩
  · intro s e hp hc hlt hf
    obtain ⟨_, hv⟩ := (fails_head hp (hopen hc)).mp hf
    obtain ⟨before, t, after, h, heq, hok, he⟩ := Head.foldlM_error.mp hv
    obtain ⟨mid, rfl, hrun⟩ | ⟨mid, hshort, hrest⟩ := List.append_eq_append_iff.mp heq
    · exact .inl ⟨mid.length, failsAt_head hopen hrun hok he⟩
    · cases mid with
      | nil =>
        rw [List.append_nil] at hshort
        have hrun : s.cursor.tokens.takeWhile Token.isHead = [] ++ t :: after := hrest.symm
        rw [← hshort, ← List.append_nil ((shorthand.map Subtype.val).toList)] at hok
        exact .inl ⟨0, failsAt_head hopen hrun hok he⟩
      | cons v mid =>
        -- The shorthand itself is at fault, and what follows it plays no part.
        cases shorthand with
        | none => cases before <;> cases hshort
        | some w =>
          obtain ⟨rfl, rfl⟩ : before = [] ∧ v = w.1 := by
            cases before with
            | nil =>
              cases hshort
              exact ⟨rfl, rfl⟩
            | cons z before =>
              cases before <;> cases hshort
          cases hrest
          obtain ⟨place, v, rfl⟩ := hs w rfl
          obtain ⟨hline, hfound⟩ := Head.addToken_error he
          refine .inr ⟨⟨place, w.1, v, rfl, hline, ?_⟩, fun u hu hc hlt => ?_⟩
          · rw [hfound]
            nofun
          · exact (fails_head hu.plain' (hopen hc)).mpr
              ⟨hlt, Head.foldlM_error.mpr ⟨[], w.1, _, h, rfl, hok, he⟩⟩

end Local

theorem Parallel.local {n n' : Nat} {α : Type} {c : Stance} {R : α → α → Prop} {r : Routine n α}
    {r' : Routine n' α} (h : Parallel .same .slot .slot c R r r') : Local c R r r' := by
  induction h with
  | anywhere _ ih => exact ih.anywhere
  | vacuous h => exact .vacuous h
  | pure h => exact .pure h
  | bind _ _ ihr ihf => exact ihr.bind ihf
  | lookDepth _ _ _ ih => exact .lookDepth ih
  | lookPlace _ _ ih => exact .lookPlace ih
  | checkElse _ _ _ => exact .checkElse
  | peek _ ih => exact .peek ih
  | stuckBefore hk => exact .stuckBefore hk
  | stuckBehind hk => exact .stuckBehind hk
  | next hk _ ih => exact .next (TokenKind.ne_eos_of_standsAlone hk) ih
  | skipNewlines => exact .skipNewlines
  | @head _ _ _ selfClosing shorthand hs =>
    rw [Relabelling.map_opener_same]
    refine .head selfClosing fun t ht => ?_
    obtain ⟨place, u, hc, _⟩ := Stance.shorthand_behind hs t ht
    exact ⟨place, u, hc⟩
  | finish => exact .finish
  | addNotices ns =>
    rw [Relabelling.map_notice_same]
    exact .modify (fun _ => rfl) fun h => ⟨h.plain, h.plain', h.tokens, h.endLine, h.consumed,
      h.line, h.mixinDepth, h.link⟩
  | inMixin _ hf ih =>
    exact .bind .enterMixin fun _ _ _ => ih.bind fun a a' ha => .bind .leaveMixin fun _ _ _ =>
      .pure (hf a a' ha)
  | opening hsome _ he _ _ ihgo ihstop => exact .opening hsome ihgo he ihstop

end TemplateTree
