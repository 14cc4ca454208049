import TemplateTree.Proofs.Errors
import TemplateTree.Proofs.Progress.Grammar
import TemplateTree.Proofs.Progress.Order

/-!
Parsing makes progress. What a planned routine does is in order, and lies between the tokens left
when it starts and those left when it ends or, if it fails, the first end of the stream. This is
carried through plans by one induction, and through the answers by another.
-/

namespace TemplateTree
set_option autoImplicit false

/-! ### Where routines get to -/

namespace State

variable {s m s' : State} {t : Token} {ts : List Token}

/-- How many tokens are left where the stream ends. -/
def ending (s : State) : Nat := (s.cursor.tokens.dropWhile fun t => t.kind ≠ .eos).length

/-- The second state lies behind the first one, and not behind an end of the stream. -/
def Reaches (s s' : State) : Prop := s'.Plain ∧ ∃ k, s.Passes k s'

theorem ending_le_size (hp : s.Plain) : s.ending ≤ s.size := by
  rw [size_eq hp]
  exact (List.dropWhile_sublist _).length_le

theorem Passes.ending_eq {k : Nat} (h : s.Passes k s') : s'.ending = s.ending := by
  have hdrop : s.cursor.tokens.dropWhile (fun t => t.kind ≠ .eos) =
      (s.cursor.tokens.drop k).dropWhile fun t => t.kind ≠ .eos := by
    rw [← List.take_append_drop k s.cursor.tokens, List.dropWhile_append_of_pos]
    · rw [List.take_append_drop]
    · intro t ht
      exact decide_eq_true (h.proper t ht)
  unfold ending
  rw [h.tokens, hdrop]

namespace Reaches

/-- The line read last plays no part. -/
theorem of_line (hp : s.Plain) {line : Line} (h : s'.cursor = { s.cursor with line := line }) :
    s.Reaches s' := by
  refine ⟨?_, 0, ?_⟩
  · unfold Plain
    rw [h]
    exact hp
  · exact ⟨Nat.zero_le _, by rw [h]; rfl, by rw [h], nofun⟩

theorem refl (hp : s.Plain) : s.Reaches s := of_line hp rfl

theorem trans (h : s.Reaches m) (h' : m.Reaches s') : s.Reaches s' := by
  obtain ⟨-, j, hj⟩ := h
  obtain ⟨hp, k, hk⟩ := h'
  exact ⟨hp, j + k, hj.trans hk⟩

theorem next (hp : s.Plain) (ht : s.cursor.tokens = t :: ts) (hk : t.kind ≠ .eos) :
    s.Reaches s.next := ⟨plain_next hp ht, 1, Passes.next hp ht hk⟩

theorem behindRun {p : Token → Bool} (hp : s.Plain) (he : ∀ t, p t = true → t.kind ≠ .eos) :
    s.Reaches (s.behindRun p) := by
  obtain ⟨hplain, hpasses⟩ := passes_run hp he
  exact ⟨hplain, _, hpasses⟩

theorem ending_eq (h : s.Reaches s') : s'.ending = s.ending := by
  obtain ⟨-, k, hk⟩ := h
  exact hk.ending_eq

end Reaches

end State

namespace Cursor

variable {c : Cursor}

theorem size_advance_of_pos (h : 0 < c.size) : c.advance.2.size + 1 = c.size := by
  unfold advance
  split
  · next t c' _ => exact c'.2
  · next hn =>
    obtain ⟨ds, ts, consumed, line, endLine⟩ := c
    cases ds with
    | nil =>
      cases ts with
      | nil => exact absurd h (Nat.lt_irrefl 0)
      | cons t ts => cases hn
    | cons d ds => cases hn

/-- A head token that is put back is read first, so the line read last is its line. -/
theorem spanHead_defer {t : Token} (ht : t.isHead = true) : (c.defer t).spanHead =
    (t :: c.remaining.takeWhile Token.isHead,
      skip (c.remaining.takeWhile Token.isHead).length { c with line := t.line }) := by
  have hr : (c.defer t).remaining = t :: c.remaining := rfl
  simp only [spanHead, hr, List.takeWhile_cons, ht, if_true, List.length_cons, skip, advance_defer]

theorem length_remaining : c.remaining.length = c.size := List.length_append

theorem length_spanHead_le : c.spanHead.1.length ≤ c.size := by
  rw [← length_remaining]
  exact (List.takeWhile_sublist _).length_le

/-- A loop that takes no more turns than there are tokens left reads one in each. -/
theorem turns_progress (loop : Loop) {k lo hi : Nat} (h : k ≤ c.size) :
    Progress (c.turns loop k) lo hi := by
  induction k generalizing c with
  | zero => exact .nil
  | succ k ih =>
    have hsize := size_advance_of_pos (Nat.lt_of_lt_of_le (Nat.succ_pos k) h)
    unfold turns
    exact (ih (by omega)).turn loop (by omega)

theorem not_dispatch_mem_turns {loop : Loop} {k start : Nat} :
    .dispatch start ∉ c.turns loop k := by
  induction k generalizing c with
  | zero => exact List.not_mem_nil
  | succ k ih =>
    intro h
    rcases List.mem_cons.mp h with h | h
    · cases h
    · exact ih h

end Cursor

namespace Routine

variable {n : Nat} {α β : Type} {s s' : State} {a : α} {e : Fault}

theorem thenLog_ok {x : Except Fault (Answer s α)} {b : Answer s α} {more : Answer s α → List Act}
    (h : x = .ok b) : thenLog x more = more b := by
  rw [h]
  rfl

theorem thenLog_error {x : Except Fault (Answer s α)} {more : Answer s α → List Act}
    (h : x = .error e) : thenLog x more = [] := by
  rw [h]
  rfl

/-- What a routine does from a state on, with at most so many tokens left: it gets no further than
where it ends, and finishes its calls, or no further than where the stream ends. -/
structure Tracks (acts : List Act) (hi : Nat) (r : Routine n α) (s : State) : Prop where
  runs : ∀ {a s'}, r.Runs s a s' → s.Reaches s' ∧ Progress acts (s'.size + 1) hi ∧ Settled acts
  fails : ∀ {e}, r.Fails s e → Progress acts s.ending hi

namespace Tracks

theorem silent {r : Routine n α} {hi : Nat} (h : ∀ {a s'}, r.Runs s a s' → s.Reaches s') :
    Tracks [] hi r s where
  runs hr := ⟨h hr, .nil, nofun⟩
  fails _ := .nil

theorem turns {r : Routine n α} {hi k : Nat} {c : Cursor} (loop : Loop) (hk : k ≤ c.size)
    (h : ∀ {a s'}, r.Runs s a s' → s.Reaches s') : Tracks (c.turns loop k) hi r s where
  runs hr := ⟨h hr, c.turns_progress loop hk, fun _ hd => absurd hd c.not_dispatch_mem_turns⟩
  fails _ := c.turns_progress loop hk

theorem mono {r : Routine n α} {acts : List Act} {hi hi' : Nat} (h : Tracks acts hi r s)
    (hhi : hi ≤ hi') : Tracks acts hi' r s where
  runs hr := by
    obtain ⟨hreach, hprogress, hsettled⟩ := h.runs hr
    exact ⟨hreach, hprogress.mono (Nat.le_refl _) hhi, hsettled⟩
  fails hf := (h.fails hf).mono (Nat.le_refl _) hhi

theorem bind {r : Routine n α} {f : α → Routine n β} {acts : List Act} {hi : Nat}
    {more : Answer s α → List Act} (hr : Tracks acts hi r s) (h : s.size < n) (hhi : s.size ≤ hi)
    (hf : ∀ a : Answer s α, r.Runs s a.value a.state →
      Tracks (more a) a.state.size (f a.value) a.state) :
    Tracks (acts ++ thenLog (r s h) more) hi (r >>= f) s where
  runs {b s'} hrun := by
    obtain ⟨a, m, hra, hfb⟩ := runs_bind.mp hrun
    obtain ⟨hreach, hprogress, hsettled⟩ := hr.runs hra
    obtain ⟨_, hle, heq⟩ := hra
    obtain ⟨hreach', hprogress', hsettled'⟩ := (hf ⟨a, m, hle⟩ ⟨_, hle, heq⟩).runs hfb
    rw [thenLog_ok heq]
    refine ⟨hreach.trans hreach', ?_, hsettled.append hsettled'⟩
    exact hprogress.append hprogress' (Nat.succ_le_succ hfb.size_le) (Nat.le_trans hle hhi)
  fails {e} hfail := by
    rcases fails_bind.mp hfail with hfail | ⟨a, m, hra, hfail⟩
    · obtain ⟨_, heq⟩ := hfail
      rw [thenLog_error heq, List.append_nil]
      exact hr.fails ⟨_, heq⟩
    -- The bound of a failure is the end of the stream, which reading on does not move.
    · obtain ⟨hreach, hprogress, -⟩ := hr.runs hra
      obtain ⟨_, hle, heq⟩ := hra
      have hprogress' := (hf ⟨a, m, hle⟩ ⟨_, hle, heq⟩).fails hfail
      have hending := State.ending_le_size hreach.1
      rw [thenLog_ok heq, ← hreach.ending_eq]
      exact hprogress.append hprogress' (Nat.le_succ_of_le hending) (Nat.le_trans hle hhi)

theorem turn {r : Routine n α} {acts : List Act} {hi start left : Nat} (loop : Loop)
    (hlt : left < start) (hr : Tracks acts hi r s) :
    Tracks (.turn loop start left :: acts) hi r s where
  runs hrun := by
    obtain ⟨hreach, hprogress, hsettled⟩ := hr.runs hrun
    refine ⟨hreach, hprogress.turn loop hlt, ?_⟩
    intro p hd
    rcases List.mem_cons.mp hd with hd | hd
    · cases hd
    · obtain ⟨q, hf⟩ := hsettled p hd
      exact ⟨q, List.mem_cons_of_mem _ hf⟩
  fails hfail := (hr.fails hfail).turn loop hlt

theorem ask {r : Routine n α} {acts : List Act} {hi start left : Nat} (goal : Goal)
    (hlt : left < start) (hr : Tracks acts hi r s) :
    Tracks (goal.turns start left ++ acts) hi r s := by
  cases goal with
  | expression => exact hr
  | _ => exact hr.turn _ hlt

end Tracks

theorem reaches_of_headRun {shorthand : Option { t : Token // t.isHead = true }}
    {run : List Token} (hp : s.Plain)
    (hr : (headRun shorthand : Routine n (List Token)).Runs s run s') : s.Reaches s' := by
  cases shorthand with
  | none =>
    obtain ⟨-, -, rfl⟩ := (runs_headRun hp (by intro t h; cases h)).mp hr
    exact .behindRun hp fun _ => Local.kind_of_isHead
  | some t =>
    -- The token that is put back was the last one read, so its line is all that it leaves.
    let m : State := { s with cursor := { s.cursor with line := t.1.line } }
    have hm : m.Plain := hp
    have hs : s' = m.behindRun Token.isHead := by
      obtain ⟨_, _, heq⟩ := hr
      cases heq
      rw [Cursor.spanHead_defer t.2, State.remaining_eq hp]
      rfl
    have hline : s.Reaches m := .of_line hp rfl
    rw [hs]
    exact hline.trans (.behindRun hm fun _ => Local.kind_of_isHead)

/-! ### Plans -/

section Plans

variable {below : Below n} {log : Log n}

/-- The answers below are tracked by their logs. -/
def Log.Sound (log : Log n) (below : Below n) : Prop :=
  ∀ goal s (h : s.size < n), s.Plain → Tracks (log goal s h) s.size (below goal) s

/-- By induction on the plan, in every state with fewer tokens left than when the turn began. What
is known to come next is needed for the one token that is read without a test. -/
theorem Plan.tracks (hlog : log.Sound below) {start : Nat} {k : Option Token}
    {r : Routine n α} (plan : Plan below k r) {s : State} (h : s.size < n) (hp : s.Plain)
    (hk : ∀ t ∈ k, s.cursor.peek = t) (hstart : s.size < start) :
    Tracks (plan.acts log start s h) s.size r s := by
  induction plan generalizing s with
  | pure a =>
    apply Tracks.silent
    intro a s' hr
    obtain ⟨-, -, rfl⟩ := runs_pure.mp hr
    exact .refl hp
  | fail cause line => exact .silent fun hr => absurd hr not_runs_fail
  | ofExcept x =>
    apply Tracks.silent
    intro a s' hr
    obtain ⟨-, -, rfl⟩ := runs_ofExcept.mp hr
    exact .refl hp
  | next proper =>
    apply Tracks.silent
    intro a s' hr
    obtain ⟨-, -, rfl⟩ := runs_next.mp hr
    rw [← hk _ rfl] at proper
    obtain ⟨ts, ht⟩ := State.exists_cons_of_peek hp proper
    exact .next hp ht proper
  | modify f size_le cursor_eq =>
    apply Tracks.silent
    intro a s' hr
    obtain ⟨-, rfl⟩ := runs_modify.mp hr
    exact .of_line hp (cursor_eq s)
  | skipNewlines =>
    apply Tracks.turns
    · rw [← Cursor.length_remaining]
      exact (List.takeWhile_sublist _).length_le
    · intro a s' hr
      obtain ⟨-, rfl⟩ := runs_skipNewlines.mp hr
      rw [State.remaining_eq hp]
      exact .behindRun hp fun t ht => ne_of_eq_of_ne (beq_iff_eq.mp ht) (by decide)
  | headRun shorthand =>
    exact .turns .heads Cursor.length_spanHead_le (reaches_of_headRun hp)
  | ask goal => exact (hlog goal s h hp).ask goal hstart
  | bind first rest ihFirst ihRest =>
    have hfirst := ihFirst h hp hk hstart
    apply hfirst.bind h (Nat.le_refl _)
    intro a hr
    exact ihRest a.value _ (hfirst.runs hr).1.1 nofun (Nat.lt_of_le_of_lt a.size_le hstart)
  | peek rest ih =>
    have hrest := ih s.cursor.peek h hp (by rintro t ⟨⟩; rfl) hstart
    exact ⟨fun hr => hrest.runs (runs_peek_bind.mp hr),
      fun hf => hrest.fails (fails_peek_bind.mp hf)⟩
  | @look _ _ _ g _ rest ih =>
    have hrest := ih (g s) h hp hk hstart
    exact ⟨fun hr => hrest.runs (runs_look_bind.mp hr),
      fun hf => hrest.fails (fails_look_bind.mp hf)⟩
  | ite choice yes no ihYes ihNo =>
    cases choice with
    | isTrue hc => exact ihYes hc h hp hk hstart
    | isFalse hc => exact ihNo hc h hp hk hstart

/-- What follows a token, in the state behind it. -/
theorem Plan.tracks_behind (hlog : log.Sound below) {r : Routine n α} (plan : Plan below none r)
    {s : State} (h : s.size < n) (hp : s.Plain) :
    Tracks (plan.acts log (s.size + 1) s h) s.size r s :=
  plan.tracks hlog h hp nofun (Nat.lt_succ_self s.size)

/-! ### Calls of the dispatcher -/

variable {dispatch : Dispatch n} {called : ∀ place t, Plan below none (dispatch place t)}

/-- An expression is refused where the stream ends, and nothing else is done there. -/
structure RefusesEnd (called : ∀ place t, Plan below none (dispatch place t)) : Prop where
  fails : ∀ place t, t.kind = .eos → ∃ cause line, dispatch place t = Routine.fail cause line
  acts : ∀ place t, t.kind = .eos → ∀ (log : Log n) start s h,
    (called place t).acts log start s h = []

namespace RefusesEnd

variable {place : Option Nat} {t : Token}

theorem not_runs (hend : RefusesEnd called) (ht : t.kind = .eos) {e : Node} :
    ¬ (dispatch place t).Runs s e s' := by
  obtain ⟨cause, line, hfail⟩ := hend.fails place t ht
  rw [hfail]
  exact not_runs_fail

theorem thenLog_eq_nil (hend : RefusesEnd called) (ht : t.kind = .eos) {h : s.size < n}
    {more : Answer s Node → List Act} : thenLog (dispatch place t s h) more = [] := by
  obtain ⟨cause, line, hfail⟩ := hend.fails place t ht
  rw [hfail]
  rfl

theorem callActs_eq (hend : RefusesEnd called) (ht : t.kind = .eos) {h : s.size < n} :
    callActs log called place t s h = [.dispatch (s.size + 1)] := by
  rw [callActs, hend.acts place t ht, hend.thenLog_eq_nil ht]
  rfl

end RefusesEnd

variable (called) in
theorem tracks_callActs (hlog : log.Sound below) (place : Option Nat) (t : Token) {s : State}
    (h : s.size < n) (hp : s.Plain) :
    Tracks (callActs log called place t s h) (s.size + 1) (dispatch place t) s := by
  have hr := (called place t).tracks_behind hlog h hp
  constructor
  · intro a s' hrun
    obtain ⟨hreach, hprogress, hsettled⟩ := hr.runs hrun
    obtain ⟨_, hle, heq⟩ := hrun
    rw [callActs, thenLog_ok heq]
    refine ⟨hreach, hprogress.call hle, ?_⟩
    intro start hd
    rcases List.mem_cons.mp hd with hd | hd
    · cases hd
      exact ⟨s'.size, by simp⟩
    · rcases List.mem_append.mp hd with hd | hd
      · obtain ⟨left, hf⟩ := hsettled start hd
        exact ⟨left, List.mem_cons_of_mem _ (List.mem_append_left _ hf)⟩
      · cases List.mem_singleton.mp hd
  · intro e hfail
    obtain ⟨_, heq⟩ := hfail
    rw [callActs, thenLog_error heq, List.append_nil]
    exact (hr.fails ⟨_, heq⟩).dispatch (Nat.le_succ_of_le (State.ending_le_size hp))

/-! A token is read, and what follows it is planned. -/

variable {go : Option Nat → Token → Option (Routine n α)} {stop : Token → Routine (n + 1) α}
variable {t : Token} {ts : List Token} {atEnd : List Act}

theorem entryActs_nil {entry : ∀ place t, Entry below dispatch place t (go place t)}
    {h : s.size < n + 1} (hp : s.Plain) (ht : s.cursor.tokens = []) :
    entryActs log called entry atEnd s h = atEnd := by
  obtain ⟨⟨_, _, _, _, _⟩, _, _, _⟩ := s
  cases hp
  cases ht
  rfl

theorem entryActs_cons {entry : ∀ place t, Entry below dispatch place t (go place t)}
    {h : s.size < n + 1} (hp : s.Plain) (ht : s.cursor.tokens = t :: ts) (hn : s.next.size < n) :
    entryActs log called entry atEnd s h =
      (entry (some s.cursor.consumed) t).acts log called s.next hn := by
  obtain ⟨⟨_, _, _, _, _⟩, _, _, _⟩ := s
  cases hp
  cases ht
  rfl

theorem Tracks.of_stays {r r' : Routine n α} (hr : r' s = r s) (hp : s.Plain) (h : Stays r)
    {hi : Nat} : Tracks [] hi r' s := by
  apply Tracks.silent
  intro a s' ⟨_, _, heq⟩
  rw [hr] at heq
  have hs : s' = s := h _ _ _ heq
  rw [hs]
  exact .refl hp

/-- A token of the stream is read, so that the stream still ends at the same place. -/
theorem Tracks.opening {r : Routine n α} {acts : List Act} (ho : go (some s.cursor.consumed) t = r)
    (hp : s.Plain) (ht : s.cursor.tokens = t :: ts) (proper : t.kind ≠ .eos)
    (hr : Tracks acts (s.next.size + 1) r s.next) :
    Tracks acts s.size (Routine.opening go stop) s := by
  have hnext := State.Reaches.next hp ht proper
  rw [State.size_next hp ht] at hr
  constructor
  · intro a s' hrun
    obtain ⟨hreach, hprogress⟩ := hr.runs ((runs_opening hp ht ho).mp hrun)
    exact ⟨hnext.trans hreach, hprogress⟩
  · intro e hfail
    rw [← hnext.ending_eq]
    exact hr.fails ((fails_opening hp ht ho).mp hfail)

theorem Tracks.of_not_runs {r : Routine n α} {acts : List Act} {hi : Nat}
    (h : ∀ {a s'}, ¬ r.Runs s a s') (hacts : Progress acts s.ending hi) : Tracks acts hi r s where
  runs hr := absurd hr h
  fails _ := hacts

/-- What the token that comes next leads to. -/
theorem Entry.tracks (hlog : log.Sound below) (hend : RefusesEnd called)
    {o : Option (Routine n α)} (entry : Entry below dispatch (some s.cursor.consumed) t o)
    (ho : go (some s.cursor.consumed) t = o) (hstop : ∀ t, Stays (stop t)) (hp : s.Plain)
    (ht : s.cursor.tokens = t :: ts) (hn : s.next.size < n) :
    Tracks (entry.acts log called s.next hn) s.size (Routine.opening go stop) s := by
  have hsize := State.size_next hp ht
  have hnext := State.plain_next hp ht
  have hrefused : Progress [.dispatch (s.next.size + 1)] s.ending s.size := by
    rw [hsize]
    exact .refused (State.ending_le_size hp) (Nat.le_refl _)
  cases entry with
  | stops =>
    refine .of_stays (opening_stop hp ?_) hp (hstop s.cursor.peek)
    rw [ht, State.position_cons hp ht]
    intro u hu
    cases hu
    exact ho
  | fails cause line =>
    refine .of_not_runs (fun hr => ?_) .nil
    exact absurd ((runs_opening hp ht ho).mp hr) not_runs_fail
  | reads proper plan =>
    exact .opening ho hp ht proper ((plan.tracks_behind hlog hn hnext).mono (Nat.le_succ _))
  | dispatches =>
    by_cases proper : t.kind = .eos
    · refine .of_not_runs (fun hr => ?_) ?_
      · exact absurd ((runs_opening hp ht ho).mp hr) (hend.not_runs proper)
      · show Progress (callActs ..) _ _
        rw [hend.callActs_eq proper]
        exact hrefused
    · exact .opening ho hp ht proper (tracks_callActs called hlog _ t hn hnext)
  | dispatchesThen rest =>
    by_cases proper : t.kind = .eos
    · refine .of_not_runs (fun hr => ?_) ?_
      · obtain ⟨_, _, hr, -⟩ := runs_bind.mp ((runs_opening hp ht ho).mp hr)
        exact absurd hr (hend.not_runs proper)
      · show Progress (callActs .. ++ thenLog ..) _ _
        rw [hend.callActs_eq proper, hend.thenLog_eq_nil proper]
        exact hrefused
    · have hcall := tracks_callActs called hlog (some s.cursor.consumed) t hn hnext
      refine .opening ho hp ht proper (hcall.bind hn (Nat.le_succ _) ?_)
      intro a hr
      exact (rest a.value).tracks hlog _ (hcall.runs hr).1.1 nofun (Nat.lt_succ_of_le a.size_le)

theorem tracks_opening (hlog : log.Sound below) (hend : RefusesEnd called)
    (entry : ∀ place t, Entry below dispatch place t (go place t)) (hstop : ∀ t, Stays (stop t))
    (h : s.size < n + 1) (hp : s.Plain)
    (hatEnd : s.cursor.tokens = [] → Tracks atEnd s.size (Routine.opening go stop) s) :
    Tracks (entryActs log called entry atEnd s h) s.size (Routine.opening go stop) s := by
  cases ht : s.cursor.tokens with
  | nil =>
    rw [entryActs_nil hp ht]
    exact hatEnd ht
  | cons t ts =>
    have hsize := State.size_next hp ht
    have hn : s.next.size < n := by omega
    rw [entryActs_cons hp ht hn]
    exact (entry (some s.cursor.consumed) t).tracks hlog hend rfl hstop hp ht hn

theorem Reading.tracks (hlog : log.Sound below) (hend : RefusesEnd called) {goal : Goal}
    {R : Routine (n + 1) α} (reading : Reading below dispatch goal R) (h : s.size < n + 1)
    (hp : s.Plain) : Tracks (reading.acts log called s h) s.size R s := by
  have hnone (place : Option Nat) {go : Option Nat → Token → Option (Routine n α)}
      (ht : s.cursor.tokens = []) : ∀ t ∈ s.cursor.tokens.head?, go place t = none := by
    rw [ht]
    nofun
  cases reading with
  | @loop _ _ go stop isLoop entry stays =>
    refine tracks_opening hlog hend entry stays h hp ?_
    intro ht
    exact .of_stays (opening_stop hp (hnone _ ht)) hp (stays s.cursor.peek)
  | @expression _ go cause line entry =>
    refine tracks_opening hlog hend entry (fun t => .fail _ _) h hp ?_
    intro ht
    have hstop : Routine.opening go (fun t => Routine.fail (cause t) (line t)) s =
        Routine.fail (cause s.cursor.peek) (line s.cursor.peek) s := opening_stop hp (hnone _ ht)
    refine .of_not_runs ?_ (.refused (State.ending_le_size hp) (Nat.le_refl _))
    intro a s' ⟨_, _, heq⟩
    rw [hstop] at heq
    cases heq

end Plans

end Routine

namespace Grammar

theorem refusesEnd_expressionPlan {n : Nat} (scope : Scope) (below : Below n) :
    Routine.RefusesEnd (expressionPlan scope below) where
  fails place t ht := ⟨_, _, expressionFrom_eos scope below ht⟩
  acts place t ht log start s h := by
    obtain ⟨line, lexeme⟩ := t
    cases Token.lexeme_of_kind ht
    rfl

theorem log_sound (scope : Scope) (n : Nat) : (log scope n).Sound (answer .slot scope n) := by
  induction n with
  | zero =>
    intro goal s h
    exact absurd h (Nat.not_lt_zero _)
  | succ n ih =>
    intro goal s h hp
    have htracks := (reading scope (answer .slot scope n) _ goal).tracks ih
      (refusesEnd_expressionPlan scope (answer .slot scope n)) h hp
    have heq := congrFun (extendBy_expressionFrom scope (answer .slot scope n)) goal
    exact Eq.subst (motive := fun R => Routine.Tracks _ s.size R s) heq htracks

end Grammar

namespace Template

variable (file : Option String) (ts : List Token)

theorem tracks_acts : Routine.Tracks (acts file ts) ts.length
    (Grammar.answer .slot ⟨file⟩ ((Cursor.ofTokens ts).size + 1) (.items false))
    (.start (.ofTokens ts)) := by
  rw [← size_start ts]
  exact Grammar.log_sound ⟨file⟩ _ (.items false) _ (Nat.lt_succ_self _) (plain_start ts)

theorem progress_acts : Progress (acts file ts)
    (ts.dropWhile fun t => t.kind ≠ .eos).length ts.length := by
  have htracks := tracks_acts file ts
  rcases Routine.runs_or_fails _ (Nat.lt_succ_self _) with ⟨a, s', hr⟩ | ⟨e, hf⟩
  · obtain ⟨hreach, hprogress, -⟩ := htracks.runs hr
    apply hprogress.mono _ (Nat.le_refl _)
    have hending := State.ending_le_size hreach.1
    rw [hreach.ending_eq] at hending
    exact Nat.le_succ_of_le hending
  · exact htracks.fails hf

variable {file ts}

theorem settled_acts {p : Parsed} (h : parse file ts = .ok p) : Settled (acts file ts) := by
  obtain ⟨nodes, ns, hread, -⟩ := parseLinking_ok.mp h
  obtain ⟨s', hr, -⟩ := readItems_ok.mp hread
  exact ((tracks_acts file ts).runs hr).2.2

end Template

/-- Parsing makes progress. The dispatcher is entered at most once more than there are tokens in
front of the first end of the stream, each time with fewer tokens left. A call that is finished
was dispatched before, and has read a token that no call finished before it has read, those that
were nested in it included. Where a loop goes on, a token was read in its turn, and where one is
entered, by the call or turn that enters it. In a stream that parses every call is finished. That
a run ends at all is in its definition, which goes down with the tokens left. -/
theorem Template.acts_progress (file : Option String) (ts : List Token) :
    ((acts file ts).filterMap Act.dispatched?).Pairwise (· > ·) ∧
      ((acts file ts).filterMap Act.dispatched?).length ≤
        (ts.takeWhile fun t => t.kind ≠ .eos).length + 1 ∧
      (∀ done start left later, acts file ts = done ++ .finish start left :: later →
        .dispatch start ∈ done ∧ ∃ token, (Act.finish start left).Consumes token ∧
          ∀ a ∈ done, ¬ a.Consumes token) ∧
      (∀ loop start left, .turn loop start left ∈ acts file ts → left < start) ∧
      ∀ p, parse file ts = .ok p → ∀ start, .dispatch start ∈ acts file ts →
        ∃ left, .finish start left ∈ acts file ts := by
  have hprogress := progress_acts file ts
  refine ⟨hprogress.descending, ?_, ?_, ?_, ?_⟩
  · have hlength := hprogress.length_dispatched_le
    have hparts := congrArg List.length
      (List.takeWhile_append_dropWhile (p := fun t : Token => t.kind ≠ .eos) (l := ts))
    rw [List.length_append] at hparts
    omega
  · intro done start left later heq
    obtain ⟨hdispatch, hlt, hothers⟩ := hprogress.own_token heq
    exact ⟨hdispatch, start, ⟨hlt, Nat.le_refl _⟩, hothers⟩
  · intro loop start left hmem
    exact hprogress.advances _ hmem
  · intro p hp
    exact settled_acts hp

namespace Template

/-- A tag with a division in its body, which a shorthand opens and which has text on its line. -/
def nestedDivision : List Token :=
  [⟨1, .tag "ul" false⟩, ⟨2, .indent 2⟩, ⟨2, .className "a"⟩, ⟨2, .text "x"⟩, ⟨3, .newline⟩,
    ⟨3, .outdent⟩]

/-- What is done before the tag is finished. The shorthand is put back and read once more. -/
def withinTag : List Act :=
  [.dispatch 6, .turn (.goal (.items true)) 6 4, .dispatch 4, .turn .heads 4 3,
    .turn (.goal (.textRun false)) 4 3, .turn (.goal (.textRun false)) 3 2, .turn .newlines 2 1,
    .finish 4 1, .turn (.goal (.items true)) 4 1]

theorem acts_progress_nestedDivision : ∃ p, parse none nestedDivision = .ok p ∧
    acts none nestedDivision =
      withinTag ++ .finish 6 0 :: [.turn (.goal (.items false)) 6 0] ∧
    (∃ token, (Act.finish 6 0).Consumes token ∧ ∀ a ∈ withinTag, ¬ a.Consumes token) ∧
    ∀ start, .dispatch start ∈ acts none nestedDivision →
      ∃ left, .finish start left ∈ acts none nestedDivision := by
  have hok : (parse none nestedDivision).toOption.map (fun p => p.root.nodes.length) = some 1 := by
    decide +kernel
  obtain ⟨p, hp, -⟩ := exists_parsed hok
  have hacts : acts none nestedDivision =
      withinTag ++ .finish 6 0 :: [.turn (.goal (.items false)) 6 0] := by
    decide +kernel
  obtain ⟨-, -, hown, -, hsettled⟩ := acts_progress none nestedDivision
  obtain ⟨-, htoken⟩ := hown _ _ _ _ hacts
  exact ⟨p, hp, hacts, htoken, hsettled p hp⟩

end Template

/-- The bound is attained where an expression is missing at the end. -/
example : Template.acts none [⟨1, .startInterpolation⟩, ⟨1, .eos⟩] =
    [.dispatch 2, .dispatch 1] := by
  rfl

end TemplateTree
