import TemplateTree.Proofs.Locality.Local
import TemplateTree.Proofs.Parallel.Answer

/-!
The mixin depth. It is given back by every routine of the grammar, and all it does is to refuse
places for content: a parse that succeeds where many mixins are open does the same where fewer
are, or it fails at such a place.
-/

namespace TemplateTree
set_option autoImplicit false

/-! What is entered is left again. -/

/-- As many mixins are open behind every run of the routine as in front of it. -/
def Routine.Level {n : Nat} {α : Type} (r : Routine n α) : Prop :=
  ∀ s a s', r.Runs s a s' → s'.mixinDepth = s.mixinDepth

/-- What a stance says of the token that comes next. -/
def Stance.Ahead (s : State) : Stance → Prop
  | before place t _ => s.cursor.position 1 = place ∧ s.cursor.peek = t
  | _ => True

/-- Below the bound the routine is level, and what it answers is related to something. -/
def Routine.LevelBelow {n : Nat} {α : Type} (m : Nat) (c : Stance) (R : α → α → Prop)
    (r : Routine n α) : Prop :=
  ∀ s a s', s.size < m → c.Ahead s → r.Runs s a s' → s'.mixinDepth = s.mixinDepth ∧ ∃ a', R a a'

theorem Linking.mixinDepth_rememberElse (s : State) :
    (Linking.rememberElse s).mixinDepth = s.mixinDepth := by
  unfold Linking.rememberElse
  split
  · rfl
  · split <;> rfl

namespace Routine.LevelBelow

variable {n m : Nat} {α β : Type} {c : Stance} {R : α → α → Prop} {S : β → β → Prop}
variable {r : Routine n α}

theorem pure {a a' : α} (ha : R a a') : LevelBelow m c R (Pure.pure a : Routine n α) := by
  intro s _ s' _ _ hr
  obtain ⟨_, rfl, rfl⟩ := runs_pure.mp hr
  exact ⟨rfl, a', ha⟩

theorem fail (cause : Cause) (line : Line) :
    LevelBelow m c R (Routine.fail cause line : Routine n α) :=
  fun _ _ _ _ _ hr => absurd hr not_runs_fail

theorem bind {f : α → Routine n β} (h : r.LevelBelow m c R)
    (hf : ∀ a a', R a a' → (f a).LevelBelow m .anywhere S) : (r >>= f).LevelBelow m c S := by
  intro s b s' hlt hc hr
  obtain ⟨a, t, hra, hrf⟩ := runs_bind.mp hr
  obtain ⟨hst, a', ha⟩ := h s a t hlt hc hra
  have hltt : t.size < m := Nat.lt_of_le_of_lt hra.size_le hlt
  obtain ⟨hts, hb⟩ := hf a a' ha t b s' hltt trivial hrf
  exact ⟨hts.trans hst, hb⟩

theorem look {g : State → α} {f : α → Routine n β}
    (hf : ∀ s, c.Ahead s → ∃ c' : Stance, c'.Ahead s ∧ (f (g s)).LevelBelow m c' S) :
    LevelBelow m c S (Routine.look g >>= f) := by
  intro s b s' hlt hc hr
  obtain ⟨c', hc', h⟩ := hf s hc
  exact h s b s' hlt hc' (runs_look_bind.mp hr)

theorem next {place : Option Nat} {t u : Token} {f : Token → Routine n β}
    (hf : (f t).LevelBelow m (.behind place t u) S) :
    LevelBelow m (.before place t u) S (Routine.next >>= f) := by
  intro s b s' hlt hc hr
  obtain ⟨_, hr⟩ := runs_next_bind.mp hr
  rw [hc.2] at hr
  exact hf s.next b s' (Nat.lt_of_le_of_lt (Cursor.size_advance _) hlt) trivial hr

theorem modify {g : State → State} {hg : ∀ s, (g s).size ≤ s.size}
    (h : ∀ s, (g s).mixinDepth = s.mixinDepth) :
    LevelBelow m c Eq (Routine.modify g hg : Routine n Unit) := by
  intro s _ s' _ _ hr
  obtain ⟨_, rfl⟩ := runs_modify.mp hr
  exact ⟨h s, (), rfl⟩

theorem skipNewlines : LevelBelow m c Eq (Routine.skipNewlines : Routine n Unit) := by
  intro s _ s' _ _ hr
  obtain ⟨_, rfl⟩ := runs_skipNewlines.mp hr
  exact ⟨rfl, (), rfl⟩

theorem checkElse (place : Option Nat) (line : Line) (d : CodeLine) :
    LevelBelow m c Eq (Grammar.checkElse .slot place line d : Routine n Unit) := by
  apply look
  intro s hc
  refine ⟨c, hc, ?_⟩
  split
  · exact fail _ _
  · exact pure rfl

theorem head (selfClosing : Bool) (shorthand : Option { t : Token // t.isHead = true }) :
    LevelBelow m c Eq (Grammar.head selfClosing shorthand : Routine n Head) := by
  intro s v s' _ _ hr
  obtain ⟨run, t, ⟨_, _, hrun⟩, hr⟩ := runs_bind.mp hr
  obtain ⟨_, _, hv, hr⟩ := runs_bind.mp hr
  obtain ⟨_, _, hns, hr⟩ := runs_bind.mp hr
  obtain ⟨_, _, rfl⟩ := runs_ofExcept.mp hv
  obtain ⟨_, rfl⟩ := runs_addNotices.mp hns
  obtain ⟨_, rfl, rfl⟩ := runs_pure.mp hr
  refine ⟨?_, v, rfl⟩
  cases shorthand <;> cases hrun <;> rfl

/-- The one routine that enters a mixin leaves it. -/
theorem inMixin {f f' : α → β} (h : r.LevelBelow m .anywhere R)
    (hf : ∀ a a', R a a' → S (f a) (f' a')) :
    LevelBelow m c S (Routine.enterMixin >>= fun _ => r >>= fun a =>
      Routine.leaveMixin >>= fun _ => Pure.pure (f a)) := by
  intro s b s' hlt _ hr
  obtain ⟨_, t, henter, hr⟩ := runs_bind.mp hr
  obtain ⟨a, t', hra, hr⟩ := runs_bind.mp hr
  obtain ⟨_, t'', hleave, hr⟩ := runs_bind.mp hr
  obtain ⟨_, rfl⟩ := runs_modify.mp henter
  obtain ⟨_, rfl⟩ := runs_modify.mp hleave
  obtain ⟨_, rfl, rfl⟩ := runs_pure.mp hr
  obtain ⟨hlevel, a', ha⟩ := h s.enterMixin a t' hlt trivial hra
  refine ⟨?_, f' a', hf a a' ha⟩
  calc t'.leaveMixin.mixinDepth = t'.mixinDepth - 1 := rfl
    _ = s.enterMixin.mixinDepth - 1 := by rw [hlevel]
    _ = s.mixinDepth := Nat.add_sub_cancel _ 1

theorem opening {go : Option Nat → Token → Option (Routine n α)} {stop : Token → Routine (n + 1) α}
    (hgo : ∀ place t r, go place t = some r → r.LevelBelow m (.behind place t t) R)
    (hstop : ∀ place t, (stop t).LevelBelow (m + 1) (.before place t t) R) :
    LevelBelow (m + 1) c R (Routine.opening go stop) := by
  intro s a s' hlt _ ⟨hltn, hle, hr⟩
  have hpeek : s.cursor.peek = s.cursor.advance.1 := (advance_fst _).symm
  unfold Cursor.advance at hpeek
  simp only [Routine.opening] at hr
  split at hr
  · next hn =>
    rw [hn] at hpeek
    exact hstop _ _ s a s' hlt ⟨rfl, hpeek⟩ ⟨hltn, hle, hr⟩
  · next t k hn =>
    rw [hn] at hpeek
    split at hr
    · exact hstop _ _ s a s' hlt ⟨rfl, hpeek⟩ ⟨hltn, hle, hr⟩
    · next r hg =>
      have hk : k.1.size + 1 = s.size := k.2
      split at hr
      · cases hr
      · next x hx =>
        cases hr
        have hltm : k.1.size < m := by omega
        exact hgo _ t r hg { s with cursor := k } _ _ hltm trivial ⟨_, x.size_le, hx⟩

end Routine.LevelBelow

theorem Parallel.levelBelow {n n' : Nat} {α : Type} {c : Stance} {R : α → α → Prop}
    {r : Routine n α} {r' : Routine n' α} (h : Parallel .same .slot .slot c R r r') :
    r.LevelBelow n' c R := by
  induction h with
  | anywhere _ ih => exact fun s a s' hlt _ => ih s a s' hlt trivial
  | vacuous h =>
    intro s a s' hlt _ hr
    have := hr.size_lt
    omega
  | pure h => exact .pure h
  | bind _ _ ihr ihf => exact ihr.bind ihf
  | lookDepth _ _ _ ih => exact .look fun s hs => ⟨_, hs, ih s.mixinDepth⟩
  | lookPlace _ _ ih =>
    refine .look fun s hs => ⟨_, hs, ?_⟩
    rwa [hs.1]
  | checkElse place line _ => exact .checkElse place line _
  | peek _ ih => exact .look fun s _ => ⟨.before _ _ _, ⟨rfl, rfl⟩, ih _ _ _ (.refl s.cursor.peek)⟩
  | stuckBefore _ => exact .fail _ _
  | stuckBehind _ => exact .fail _ _
  | next _ _ ih => exact .next ih
  | skipNewlines => exact .skipNewlines
  | head selfClosing _ => exact .head selfClosing _
  | finish => exact .modify Linking.mixinDepth_rememberElse
  | addNotices ns => exact .modify fun _ => rfl
  | inMixin _ hf ih => exact ih.inMixin hf
  | opening hsome _ _ _ _ ihgo ihstop =>
    refine .opening (fun place t r hr => ?_) fun place t => ihstop place t t (.refl t)
    obtain ⟨r', hr'⟩ := OpenAlike.exists_eq_some hsome (.refl t) hr
    exact ihgo place t t r r' (.refl t) hr hr'

/-- A routine that another one of its bound is built like, whatever token comes next, is level. -/
theorem Parallel.level {n : Nat} {α : Type} {c : Stance} {R : α → α → Prop} {r r' : Routine n α}
    (h : Parallel .same .slot .slot c R r r') (hc : ∀ s, c.Ahead s) : r.Level :=
  fun s a s' hr => (h.levelBelow s a s' hr.size_lt (hc s) hr).1

namespace Routine.Level

variable {n : Nat} {α β : Type}

theorem bind {r : Routine n α} {f : α → Routine n β} (h : r.Level) (hf : ∀ a, (f a).Level) :
    (r >>= f).Level := by
  intro s b s' hr
  obtain ⟨a, m, hra, hrf⟩ := runs_bind.mp hr
  exact (hf a m b s' hrf).trans (h s a m hra)

theorem map {r : Routine n α} {f : α → β} (h : r.Level) :
    (r >>= fun a => Pure.pure (f a)).Level := by
  apply h.bind
  intro a s b s' hr
  obtain ⟨_, _, rfl⟩ := runs_pure.mp hr
  rfl

theorem head (selfClosing : Bool) (shorthand : Option { t : Token // t.isHead = true }) :
    Level (Grammar.head selfClosing shorthand : Routine n Head) :=
  fun s v s' hr => (LevelBelow.head (c := .anywhere) selfClosing shorthand s v s' hr.size_lt
    trivial hr).1

end Routine.Level

namespace Grammar

/-- The routines that the grammar consists of, beside the answers to the questions they ask. -/
inductive IsPart {n : Nat} (scope : Scope) (below : Below n) : {α : Type} → Routine n α → Prop where
  | answer (goal : Goal) : IsPart scope below (below goal)
  | body : IsPart scope below (body scope below)
  | optionalBody : IsPart scope below (body? scope below)
  | expansion : IsPart scope below (expansion scope below)
  | interpolation : IsPart scope below (interpolation below)
  | optionalPipeless : IsPart scope below (pipelessBody? scope below)
  | pipeless (line : Line) : IsPart scope below (pipelessBody scope below line)
  | htmlNested : IsPart scope below (htmlNested scope below)
  | htmlLine (line : Line) (content : String) :
    IsPart scope below (htmlLine scope below line content)
  | html (line : Line) (content : String) : IsPart scope below (htmlFrom scope below line content)
  | text (line : Line) (first : Node) : IsPart scope below (textFrom scope below line first)
  | checkElse (place : Option Nat) (line : Line) (c : CodeLine) :
    IsPart scope below (checkElse .slot place line c)
  | finishBranch (c : CodeLine) : IsPart scope below (finishBranch .slot c)
  | code (place : Option Nat) (line : Line) (c : CodeLine) :
    IsPart scope below (codeFrom .slot scope below place line c)
  | line (line : Line) : IsPart scope below (lineContent .slot scope below line)
  | head (selfClosing : Bool) (shorthand : Option { t : Token // t.isHead = true }) :
    IsPart scope below (head selfClosing shorthand)
  | bodyAfter (line : Line) (textOnly : Bool) (inLine : Block) :
    IsPart scope below (bodyAfter scope below line textOnly inLine)
  | content (line : Line) (selfClosing : Bool)
    (shorthand : Option { t : Token // t.isHead = true }) :
    IsPart scope below (content .slot scope below line selfClosing shorthand)
  | tag (line : Line) (name : String) (selfClosing buffered : Bool)
    (shorthand : Option { t : Token // t.isHead = true }) :
    IsPart scope below (tagFrom .slot scope below line name selfClosing buffered shorthand)
  | call (line : Line) (name : String) (args : Option String) :
    IsPart scope below (callFrom .slot scope below line name args)
  | mixin (line : Line) (name : String) (args : Option String) :
    IsPart scope below (mixinFrom scope below line name args)
  | mixinBlock (line : Line) : IsPart scope below (mixinBlockFrom scope line)
  | case (line : Line) (source : String) : IsPart scope below (caseFrom scope below line source)
  | branch (line : Line) (source : String) : IsPart scope below (branchFrom scope below line source)
  | alternative : IsPart scope below (alternative? scope below)
  | each (line : Line) (loop : LoopHead) : IsPart scope below (eachFrom scope below line loop)
  | filter (line : Line) (name : String) : IsPart scope below (filterFrom scope below line name)
  | comment (line : Line) (content : String) (buffered : Bool) :
    IsPart scope below (commentFrom scope below line content buffered)
  | expression (place : Option Nat) (t : Token) :
    IsPart scope below (expressionFrom .slot scope below place t)

theorem IsPart.level {n : Nat} {scope : Scope} {α : Type} {r : Routine n α}
    (h : IsPart scope (Grammar.answer .slot scope n) r) : r.Level := by
  have hb (goal : Goal) : Parallel .same .slot .slot .anywhere (Relabelling.same.answer goal · = ·)
    (Grammar.answer .slot scope n goal) (Grammar.answer .slot scope n goal) :=
      Parallel.answer scope n n goal
  have hcontent (line : Line) (selfClosing : Bool)
      (shorthand : Option { t : Token // t.isHead = true }) : Routine.Level
        (Grammar.content .slot scope (Grammar.answer .slot scope n) line selfClosing shorthand) :=
    .bind (.head selfClosing shorthand) fun head =>
      (Parallel.contentBehind hb line head).level fun _ => trivial
  cases h with
  | answer goal => exact (hb goal).level fun _ => trivial
  | body => exact (Parallel.body hb).level fun _ => trivial
  | optionalBody => exact (Parallel.body? hb).level fun _ => trivial
  | expansion => exact (Parallel.expansion hb).level fun _ => trivial
  | interpolation => exact (Parallel.interpolation hb).level fun _ => trivial
  | optionalPipeless => exact (Parallel.pipelessBody? hb).level fun _ => trivial
  | pipeless line => exact (Parallel.pipelessBody hb line).level fun _ => trivial
  | htmlNested => exact (Parallel.htmlNested hb).level fun _ => trivial
  | htmlLine line content => exact (Parallel.htmlLine hb line content).level fun _ => trivial
  | html line content => exact (Parallel.htmlFrom hb line content).level fun _ => trivial
  | text line first => exact (Parallel.textFrom hb line first).level fun _ => trivial
  | checkElse place line c =>
    exact (Parallel.checkElse place line (.refl _)).level fun _ => trivial
  | finishBranch c => exact (Parallel.finishBranch rfl).level fun _ => trivial
  | code place line c => exact (Parallel.codeFrom hb place line (.refl _)).level fun _ => trivial
  | line line => exact (Parallel.lineContent hb line).level fun _ => trivial
  | head selfClosing shorthand => exact .head selfClosing shorthand
  | bodyAfter line textOnly inLine =>
    exact (Parallel.bodyAfter hb line textOnly inLine).level fun _ => trivial
  | content line selfClosing shorthand => exact hcontent line selfClosing shorthand
  | tag line name selfClosing buffered shorthand =>
    exact (hcontent line selfClosing shorthand).map
  | call line name args => exact (hcontent line false none).map
  | mixin line name args => exact (Parallel.mixinFrom hb line name args).level fun _ => trivial
  | mixinBlock line =>
    exact (Parallel.mixinBlockFrom none ⟨line, .mixinBlock⟩ ⟨line, .mixinBlock⟩).level
      fun _ => trivial
  | case line source => exact (Parallel.caseFrom hb line source).level fun _ => trivial
  | branch line source => exact (Parallel.branchFrom hb line source).level fun _ => trivial
  | alternative => exact (Parallel.alternative? hb).level fun _ => trivial
  | each line loop => exact (Parallel.eachFrom hb line loop).level fun _ => trivial
  | filter line name => exact (Parallel.filterFrom hb line name).level fun _ => trivial
  | comment line content buffered =>
    exact (Parallel.commentFrom hb line content buffered).level fun _ => trivial
  | expression place t => exact (Parallel.expressionFrom hb place (.refl t)).level fun _ => trivial

end Grammar

/-! What the depth is for. -/

/-- The state with another number of open mixins. -/
def State.atDepth (s : State) (depth : Nat) : State := { s with mixinDepth := depth }

theorem State.Plain.skip {s : State} (h : s.Plain) (k : Nat) : (s.skip k).Plain := by
  induction k generalizing s with
  | zero => exact h
  | succ k ih =>
    rw [skip_succ]
    apply ih
    obtain ⟨⟨_, ts, _, _, _⟩, _, _, _⟩ := s
    cases h
    cases ts <;> rfl

/-- Where fewer mixins are open the second routine does what the first one does, or refuses a place
for content. -/
structure Shallow {n n' : Nat} {α : Type} (c : Stance) (R : α → α → Prop) (r : Routine n α)
    (r' : Routine n' α) : Prop where
  runs : ∀ {s a s' depth}, s.Plain → c.Met s s → s.size < n' → depth ≤ s.mixinDepth →
    r.Runs s a s' → (∃ a' depth', r'.Runs (s.atDepth depth) a' (s'.atDepth depth') ∧ R a a' ∧
      s'.Plain ∧ depth' ≤ s'.mixinDepth) ∨
        ∃ line, r'.Fails (s.atDepth depth) ⟨.anonymousBlock, line⟩

namespace Shallow

open Routine

variable {n n' : Nat} {α β : Type} {c : Stance} {R : α → α → Prop} {S : β → β → Prop}
variable {r : Routine n α} {r' : Routine n' α}

theorem vacuous (h : n = 0 ∨ n' = 0) : Shallow c R r r' where
  runs _ _ hlt _ hr := by
    have := hr.size_lt
    omega

theorem pure {a a' : α} (ha : R a a') :
    Shallow .anywhere R (Pure.pure a : Routine n α) (Pure.pure a' : Routine n' α) where
  runs {_ _ _ depth} hp _ hlt hd hr := by
    obtain ⟨_, rfl, rfl⟩ := runs_pure.mp hr
    exact .inl ⟨a', depth, runs_pure.mpr ⟨hlt, rfl, rfl⟩, ha, hp, hd⟩

theorem bind {f : α → Routine n β} {f' : α → Routine n' β} (h : Shallow c R r r')
    (hf : ∀ a a', R a a' → Shallow .anywhere S (f a) (f' a')) :
    Shallow c S (r >>= f) (r' >>= f') where
  runs hp hc hlt hd hr := by
    obtain ⟨a, m, hra, hrf⟩ := runs_bind.mp hr
    obtain ⟨a', depth', hra', ha, hpm, hd'⟩ | ⟨line, hfail⟩ := h.runs hp hc hlt hd hra
    · have hltm : m.size < n' := Nat.lt_of_le_of_lt hra.size_le hlt
      obtain ⟨b', depth'', hrf', hb⟩ | ⟨line, hfail⟩ :=
        (hf a a' ha).runs hpm trivial hltm hd' hrf
      · exact .inl ⟨b', depth'', runs_bind.mpr ⟨a', _, hra', hrf'⟩, hb⟩
      · exact .inr ⟨line, fails_bind.mpr (.inr ⟨a', _, hra', hfail⟩)⟩
    · exact .inr ⟨line, fails_bind.mpr (.inl hfail)⟩

theorem fail (cause : Cause) (line : Line) :
    Shallow c R (Routine.fail cause line : Routine n α) r' where
  runs _ _ _ _ hr := absurd hr not_runs_fail

theorem look {g : State → α} {f : α → Routine n β} {f' : α → Routine n' β}
    (hg : ∀ s depth, g (State.atDepth s depth) = g s)
    (hf : ∀ {s}, c.Met s s → ∃ c' : Stance, c'.Met s s ∧ Shallow c' S (f (g s)) (f' (g s))) :
    Shallow c S (Routine.look g >>= f) (Routine.look g >>= f') where
  runs hp hc hlt hd hr := by
    rw [runs_look_bind] at hr
    simp only [runs_look_bind, fails_look_bind, hg]
    obtain ⟨c', hc', h⟩ := hf hc
    exact h.runs hp hc' hlt hd hr

theorem lookDepth {f : Nat → Routine n β} {f' : Nat → Routine n' β} {line : Line}
    (hzero : f' 0 = Routine.fail .anonymousBlock line)
    (hopen : ∀ depth depth', depth ≠ 0 → depth' ≠ 0 → f' depth = f' depth')
    (h : ∀ depth, Shallow c S (f depth) (f' depth)) :
    Shallow c S (Routine.look State.mixinDepth >>= f)
      (Routine.look State.mixinDepth >>= f') where
  runs {s _ _ depth} hp hc hlt hd hr := by
    rw [runs_look_bind] at hr
    simp only [runs_look_bind, fails_look_bind]
    change (∃ a' depth', (f' depth).Runs _ _ _ ∧ _) ∨ ∃ line, (f' depth).Fails _ _
    by_cases hnone : depth = 0
    · rw [hnone, hzero]
      exact .inr ⟨line, fails_fail.mpr ⟨hlt, rfl⟩⟩
    · rw [hopen depth s.mixinDepth hnone (by omega)]
      exact (h _).runs hp hc hlt hd hr

theorem modify {g : State → State} {hg : ∀ s, (g s).size ≤ s.size}
    (hcursor : ∀ s, (g s).cursor = s.cursor)
    (hdepth : ∀ s depth, depth ≤ s.mixinDepth →
      ∃ depth' ≤ (g s).mixinDepth, g (s.atDepth depth) = (g s).atDepth depth') :
    Shallow c Eq (Routine.modify g hg : Routine n Unit)
      (Routine.modify g hg : Routine n' Unit) where
  runs {s _ _ depth} hp _ hlt hd hr := by
    obtain ⟨_, rfl⟩ := runs_modify.mp hr
    obtain ⟨depth', hd', hg'⟩ := hdepth s depth hd
    exact .inl ⟨(), depth', runs_modify.mpr ⟨hlt, hg'.symm⟩, rfl,
      (congrArg Cursor.deferred (hcursor s)).trans hp, hd'⟩

theorem finish : Shallow c Eq
    (Routine.modify Linking.rememberElse Linking.size_rememberElse : Routine n Unit)
    (Routine.modify Linking.rememberElse Linking.size_rememberElse : Routine n' Unit) := by
  refine modify (fun s => ?_) fun s depth hd => ⟨depth, ?_, ?_⟩
  · unfold Linking.rememberElse
    split
    · rfl
    · split <;> rfl
  · unfold Linking.rememberElse
    split
    · exact hd
    · split <;> exact hd
  · unfold Linking.rememberElse State.atDepth
    dsimp only
    split
    · rfl
    · split <;> rfl

theorem peek {f : Token → Routine n β} {f' : Token → Routine n' β}
    (hf : ∀ place t u, t.Alike .same u → Shallow (.before place t u) S (f t) (f' u)) :
    Shallow .anywhere S (Routine.peek >>= f) (Routine.peek >>= f') :=
  look (fun _ _ => rfl) fun {s} _ => ⟨.before (s.cursor.position 1) s.cursor.peek s.cursor.peek,
    ⟨rfl, rfl, rfl, rfl, rfl⟩, hf _ _ _ (.refl _)⟩

theorem next {place : Option Nat} {t u : Token} {f : Token → Routine n β}
    {f' : Token → Routine n' β} (hk : t.kind ≠ .eos)
    (hf : Shallow (.behind place t u) S (f t) (f' u)) :
    Shallow (.before place t u) S (Routine.next >>= f) (Routine.next >>= f') where
  runs {s _ _ depth} hp hc hlt hd hr := by
    obtain ⟨rfl, rfl, _, rfl, _⟩ := hc
    obtain ⟨ts, ht⟩ := State.exists_cons_of_peek hp hk
    rw [runs_next_bind] at hr
    simp only [runs_next_bind, fails_next_bind]
    have hline : s.next.cursor.line = s.cursor.peek.line := State.line_next hp (by rw [ht]; rfl)
    obtain ⟨b', depth', hr', h⟩ | ⟨line, hfail⟩ := hf.runs (State.plain_next hp ht)
      ⟨rfl, hline, hline, fun _ => Iff.rfl⟩ (Nat.lt_of_le_of_lt (Cursor.size_advance _) hlt) hd hr.2
    · exact .inl ⟨b', depth', ⟨hlt, hr'⟩, h⟩
    · exact .inr ⟨line, hlt, hfail⟩

theorem checkElse {place : Option Nat} {line : Line} {d d' : CodeLine} :
    Shallow (.behind place ⟨line, .code d⟩ ⟨line, .code d'⟩) Eq
      (Grammar.checkElse .slot place line d : Routine n Unit)
      (Grammar.checkElse .slot place line d' : Routine n' Unit) where
  runs hp hc hlt hd hr := by
    have hsame : d' = d := by
      cases hc.1
      rfl
    subst hsame
    refine (look (fun _ _ => rfl) fun _ => ⟨.anywhere, trivial, ?_⟩ : Shallow _ _ _ _).runs hp hc
      hlt hd hr
    split
    · exact fail _ _
    · exact pure rfl

theorem skipNewlines : Shallow .anywhere Eq (Routine.skipNewlines : Routine n Unit)
    (Routine.skipNewlines : Routine n' Unit) where
  runs {_ _ _ depth} hp _ hlt hd hr := by
    obtain ⟨_, rfl⟩ := runs_skipNewlines.mp hr
    exact .inl ⟨(), depth, runs_skipNewlines.mpr ⟨hlt, rfl⟩, rfl, hp.skip _, hd⟩

theorem head (selfClosing : Bool) {shorthand : Option { t : Token // t.isHead = true }}
    (hs : ∀ t ∈ shorthand, ∃ place u, c = .behind place t.1 u) :
    Shallow c Eq (Grammar.head selfClosing shorthand : Routine n Head)
      (Grammar.head selfClosing shorthand : Routine n' Head) where
  runs {s v _ depth} hp hc hlt hd hr := by
    have hopen : OpenedBy shorthand s := by
      intro t ht
      obtain ⟨place, u, rfl⟩ := hs t ht
      exact hc.2.1
    obtain ⟨_, hv, rfl⟩ := (runs_head hp hopen).mp hr
    have hr' := (runs_head (n := n') (s := s.atDepth depth) hp hopen).mpr ⟨hlt, hv, rfl⟩
    exact .inl ⟨v, depth, hr', rfl, hp.skip _, hd⟩

theorem opening {go : Option Nat → Token → Option (Routine n α)}
    {go' : Option Nat → Token → Option (Routine n' α)} {stop : Token → Routine (n + 1) α}
    {stop' : Token → Routine (n' + 1) α}
    (hsome : OpenAlike .same go go')
    (hgo : ∀ place t u r r', t.Alike .same u → go place t = some r → go' place u = some r' →
      Shallow (.behind place t u) R r r')
    (hstop : ∀ place t u, t.Alike .same u → Shallow (.before place t u) R (stop t) (stop' u)) :
    Shallow .anywhere R (Routine.opening go stop) (Routine.opening go' stop') where
  runs {s a s' depth} hp _ hlt hd hr := by
    obtain hg | ⟨t, ts, r, hts, hg⟩ := opens_or_not go hp
    · have hg' : ∀ t ∈ s.cursor.tokens.head?, go' (s.cursor.position 1) t = none :=
        fun t ht => hsome.eq_none (.refl t) (hg t ht)
      rw [Runs, opening_stop hp hg] at hr
      have hstop' : Routine.opening go' stop' (s.atDepth depth) =
        stop' s.cursor.peek (s.atDepth depth) := opening_stop (s := s.atDepth depth) hp hg'
      simp only [Runs, Fails, hstop']
      exact (hstop _ _ _ (.refl _)).runs hp ⟨rfl, rfl, rfl, rfl, rfl⟩ hlt hd hr
    · obtain ⟨r', hr'⟩ := hsome.exists_eq_some (.refl t) hg
      rw [runs_opening hp hts hg] at hr
      have hruns (a : α) (depth' : Nat) :
          (Routine.opening go' stop').Runs (s.atDepth depth) a (s'.atDepth depth') ↔
            r'.Runs (s.next.atDepth depth) a (s'.atDepth depth') :=
        runs_opening (s := s.atDepth depth) hp hts hr'
      have hfails (e : Fault) : (Routine.opening go' stop').Fails (s.atDepth depth) e ↔
          r'.Fails (s.next.atDepth depth) e := fails_opening (s := s.atDepth depth) hp hts hr'
      simp only [hruns, hfails]
      have hsize := State.size_next hp hts
      have hline := State.line_next hp (by rw [hts]; rfl)
      exact (hgo _ t t r r' (.refl t) hg hr').runs (State.plain_next hp hts)
        ⟨rfl, hline, hline, fun _ => Iff.rfl⟩ (by omega) hd hr

end Shallow

/-- Parallel routines do the same where fewer mixins are open, or refuse a place for content. -/
theorem Parallel.shallow {n n' : Nat} {α : Type} {c : Stance} {R : α → α → Prop} {r : Routine n α}
    {r' : Routine n' α} (h : Parallel .same .slot .slot c R r r') : Shallow c R r r' := by
  induction h with
  | anywhere _ ih => exact ⟨fun hp _ => ih.runs hp trivial⟩
  | vacuous h => exact .vacuous h
  | pure h => exact .pure h
  | bind _ _ ihr ihf => exact ihr.bind ihf
  | lookDepth hzero hopen _ ih => exact .lookDepth hzero hopen ih
  | lookPlace _ _ ih =>
    refine .look (fun _ _ => rfl) fun hc => ⟨_, hc, ?_⟩
    obtain ⟨_, _, _, rfl, _⟩ := hc
    exact ih
  | checkElse _ _ _ => exact .checkElse
  | peek _ ih => exact .peek ih
  | stuckBefore _ => exact .fail _ _
  | stuckBehind _ => exact .fail _ _
  | next hk _ ih => exact .next (TokenKind.ne_eos_of_standsAlone hk) ih
  | skipNewlines => exact .skipNewlines
  | @head _ _ _ selfClosing shorthand hs =>
    rw [Relabelling.map_opener_same]
    refine .head selfClosing fun t ht => ?_
    obtain ⟨place, u, hc, _⟩ := Stance.shorthand_behind hs t ht
    exact ⟨place, u, hc⟩
  | finish => exact .finish
  | addNotices ns =>
    rw [Relabelling.map_notice_same]
    exact .modify (fun _ => rfl) fun _ _ hd => ⟨_, hd, rfl⟩
  | inMixin _ hf ih =>
    refine .bind (.modify (fun _ => rfl) ?_) fun _ _ _ => ih.bind fun a a' ha =>
      .bind (.modify (fun _ => rfl) ?_) fun _ _ _ => .pure (hf a a' ha)
    · exact fun _ _ hd => ⟨_, Nat.add_le_add_right hd 1, rfl⟩
    · exact fun _ _ hd => ⟨_, Nat.sub_le_sub_right hd 1, rfl⟩
  | opening hsome _ _ _ _ ihgo ihstop => exact .opening hsome ihgo ihstop

end TemplateTree
