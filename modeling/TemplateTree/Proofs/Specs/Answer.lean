import TemplateTree.Proofs.Specs.Expression

/-!
Specifications of items and branches. With them the recursion closes: every question about the
grammar is answered by reading a phrase.
-/

namespace TemplateTree
set_option autoImplicit false

open Routine

variable {scope : Scope} {s s' : State} {t : Token}

theorem Expression.starts_peek {v : Node} (hp : s.Plain)
    (h : Symbol.expression.ReadBy scope s v s') :
    ∃ e : Phrase .expression, e.Starts s.cursor.peek.kind := by
  obtain ⟨e, hf, _, hl⟩ := h
  obtain ⟨ev, es, t, htrace, ht, hs⟩ := e.exists_opener hf
  rw [htrace] at hl
  obtain ⟨m, h, _⟩ := hl
  rw [State.peek_of_head? hp ((Event.step_of_token ht).mp h).1]
  exact ⟨e, hs⟩

/-- Reading puts nothing back and never lengthens what remains. -/
theorem Goal.ReadBy.keeps {goal : Goal} {v : goal.Result} (hp : s.Plain)
    (h : goal.ReadBy scope s v s') : s'.Plain ∧ s'.size ≤ s.size := by
  have keeps {g : Symbol} {w : g.Value} {m : State} (h : g.ReadBy scope s w m) :
      m.Plain ∧ m.size ≤ s.size := by
    obtain ⟨_, _, _, hl⟩ := h
    exact ⟨hl.plain hp, hl.size_le hp⟩
  cases goal with
  | expression => exact keeps h
  | items => exact keeps h.1
  | textRun => exact keeps h
  | pipeless =>
    obtain ⟨m, closing, h, hk⟩ := h
    have hm := keeps h
    exact ⟨Event.plain_of_step hm.1 hk, Nat.le_trans (Event.size_of_step hm.1 hk) hm.2⟩
  | htmlRun => exact keeps h
  | branches => exact keeps h.1

/-! Items, by the token in front. -/

namespace Items

variable {inBody : Bool} {v : List Node}

/-- What ends the items of a body, or of a stream. -/
def Stops (inBody : Bool) (k : TokenKind) : Prop := k = .eos ∨ inBody = true ∧ k = .outdent

variable (scope) in
theorem readBy_item {e : Phrase .expression} {more : Phrase .items} (hp : s.Plain)
    (hf : (Phrase.item e more).Fits s'.cursor.peek.lexeme)
    (hl : Leads (Phrase.item e more).trace s s') :
    ∃ m, Symbol.expression.ReadBy scope s (e.value scope) m ∧ Leads more.trace m s' := by
  obtain ⟨m, h₁, h₂⟩ := Leads.append_iff.mp hl
  obtain ⟨_, he, _⟩ := hf
  rw [← more.lexeme_peek (h₁.plain hp) h₂] at he
  exact ⟨m, ⟨e, he, rfl, h₁⟩, h₂⟩

theorem readBy_newline {line : Line} (hp : s.Plain)
    (hh : s.cursor.tokens.head? = some ⟨line, .newline⟩) :
    (Goal.items inBody).ReadBy scope s v s' ↔ (Goal.items inBody).ReadBy scope s.next v s' := by
  have hpeek := State.peek_of_head? hp hh
  constructor
  · rintro ⟨⟨t, hf, rfl, hl⟩, hstop⟩
    cases t with
    | done =>
      cases hl
      rw [hpeek] at hstop
      rcases hstop with h | ⟨_, h⟩ <;> cases h
    | newline _ more =>
      obtain ⟨_, hr, hl⟩ := hl
      obtain ⟨he, rfl⟩ := (Event.step_read_head hh).mp hr
      exact ⟨⟨more, hf, rfl, hl⟩, hstop⟩
    | html =>
      obtain ⟨_, hr, _⟩ := hl
      cases ((Event.step_read_head hh).mp hr).1
    | item e more =>
      obtain ⟨m, he, _⟩ := readBy_item scope hp hf hl
      obtain ⟨_, hs⟩ := Expression.starts_peek hp he
      rw [hpeek] at hs
      cases hs
  · rintro ⟨⟨more, hf, rfl, hl⟩, hstop⟩
    exact ⟨⟨.newline line more, hf, rfl, _, (Event.step_read_head hh).mpr ⟨rfl, rfl⟩, hl⟩, hstop⟩

theorem readBy_html {line : Line} {content : String} (hp : s.Plain)
    (hh : s.cursor.tokens.head? = some ⟨line, .textHtml content⟩) :
    (Goal.items inBody).ReadBy scope s v s' ↔ ∃ run m,
      (∃ lines, HtmlLine.ReadBy scope line content s.next lines m ∧ run = Node.joinHtml lines) ∧
        ∃ more, (Goal.items inBody).ReadBy scope m more s' ∧ v = run ++ more := by
  have hpeek := State.peek_of_head? hp hh
  have hn : s.next.Plain := Event.plain_of_step hp (Event.step_read.mpr ⟨hh, rfl⟩)
  constructor
  · rintro ⟨⟨t, hf, rfl, hl⟩, hstop⟩
    cases t with
    | done =>
      cases hl
      rw [hpeek] at hstop
      rcases hstop with h | ⟨_, h⟩ <;> cases h
    | newline =>
      obtain ⟨_, hr, _⟩ := hl
      cases ((Event.step_read_head hh).mp hr).1
    | html _ _ nested lines more =>
      simp only [Phrase.trace, List.cons_append, Leads.cons_iff, Leads.append_iff] at hl
      obtain ⟨_, hr, m, ⟨k, h₁, h₂⟩, h₃⟩ := hl
      obtain ⟨he, rfl⟩ := (Event.step_read_head hh).mp hr
      cases he
      obtain ⟨hnf, hlf, hmf⟩ := hf
      rw [← more.lexeme_peek (h₂.plain (h₁.plain hn)) h₃] at hnf hlf
      exact ⟨_, m, ⟨_, ⟨nested, lines, hnf, hlf, rfl, k, h₁, h₂⟩, rfl⟩, _,
        ⟨⟨more, hmf, rfl, h₃⟩, hstop⟩, rfl⟩
    | item e more =>
      have hk := hf.1
      obtain ⟨m, h₁, h₂⟩ := Leads.append_iff.mp hl
      rw [← more.lexeme_peek (h₁.plain hp) h₂, ← e.lexeme_peek hp h₁, hpeek] at hk
      exact absurd rfl hk
  · rintro ⟨_, m, ⟨_, ⟨nested, lines, hnf, hlf, rfl, k, h₁, h₂⟩, rfl⟩, _,
      ⟨⟨more, hmf, rfl, h₃⟩, hstop⟩, rfl⟩
    rw [more.lexeme_peek (h₂.plain (h₁.plain hn)) h₃] at hnf hlf
    refine ⟨⟨.html line content nested lines more, ⟨hnf, hlf, hmf⟩, rfl, ?_⟩, hstop⟩
    simp only [Phrase.trace, List.cons_append, Leads.cons_iff, Leads.append_iff]
    exact ⟨_, (Event.step_read_head hh).mpr ⟨rfl, rfl⟩, m, ⟨k, h₁, h₂⟩, h₃⟩

theorem readBy_expression (hp : s.Plain) (hs : ¬ Stops inBody s.cursor.peek.kind)
    (hn : s.cursor.peek.kind ≠ .newline) (hh : s.cursor.peek.kind ≠ .textHtml) :
    (Goal.items inBody).ReadBy scope s v s' ↔ ∃ node m, Symbol.expression.ReadBy scope s node m ∧
      ∃ more, (Goal.items inBody).ReadBy scope m more s' ∧ v = node :: more := by
  constructor
  · rintro ⟨⟨t, hf, rfl, hl⟩, hstop⟩
    cases t with
    | done =>
      cases hl
      exact absurd hstop hs
    | newline =>
      obtain ⟨_, hr, _⟩ := hl
      exact absurd (congrArg Token.kind (Event.peek_of_step_read hp hr)) hn
    | html =>
      obtain ⟨_, hr, _⟩ := hl
      exact absurd (congrArg Token.kind (Event.peek_of_step_read hp hr)) hh
    | item e more =>
      obtain ⟨m, he, hl⟩ := readBy_item scope hp hf hl
      exact ⟨_, m, he, _, ⟨⟨more, hf.2.2, rfl, hl⟩, hstop⟩, rfl⟩
  · rintro ⟨_, m, ⟨e, hf, rfl, h₁⟩, _, ⟨⟨more, hmf, rfl, h₂⟩, hstop⟩, rfl⟩
    have hk : (e.lead m.cursor.peek.lexeme).kind ≠ .textHtml := by
      rw [← e.lexeme_peek hp h₁]
      exact hh
    rw [more.lexeme_peek (h₁.plain hp) h₂] at hf hk
    exact ⟨⟨.item e more, ⟨hk, hf, hmf⟩, rfl, Leads.append_iff.mpr ⟨m, h₁, h₂⟩⟩, hstop⟩

/-- What opens no expression can only stop the items. -/
theorem readBy_stop (hp : s.Plain)
    (hk : s.cursor.peek.kind = .eos ∨ s.cursor.peek.kind = .outdent) :
    (Goal.items inBody).ReadBy scope s v s' ↔
      Stops inBody s.cursor.peek.kind ∧ v = [] ∧ s' = s := by
  constructor
  · rintro ⟨⟨t, hf, rfl, hl⟩, hstop⟩
    cases t with
    | done =>
      cases hl
      exact ⟨hstop, rfl, rfl⟩
    | newline =>
      obtain ⟨_, hr, _⟩ := hl
      rw [Event.peek_of_step_read hp hr] at hk
      rcases hk with h | h <;> cases h
    | html =>
      obtain ⟨_, hr, _⟩ := hl
      rw [Event.peek_of_step_read hp hr] at hk
      rcases hk with h | h <;> cases h
    | item e more =>
      obtain ⟨m, he, _⟩ := readBy_item scope hp hf hl
      obtain ⟨_, hs⟩ := Expression.starts_peek hp he
      rcases hk with h | h <;> rw [h] at hs <;> cases hs
  · rintro ⟨hstop, rfl, rfl⟩
    exact ⟨⟨.done, trivial, rfl, rfl⟩, hstop⟩

end Items

/-! Branches, by the token in front. -/

namespace Branches

variable {v : List Node} {line : Line}

theorem readBy_newline (hp : s.Plain) (hh : s.cursor.tokens.head? = some ⟨line, .newline⟩) :
    Goal.branches.ReadBy scope s v s' ↔ Goal.branches.ReadBy scope s.next v s' := by
  constructor
  · rintro ⟨⟨t, hf, rfl, hl⟩, hstop⟩
    cases t with
    | noBranches =>
      cases hl
      rw [State.peek_of_head? hp hh] at hstop
      cases hstop
    | branchNewline _ more =>
      obtain ⟨_, hr, hl⟩ := hl
      obtain ⟨he, rfl⟩ := (Event.step_read_head hh).mp hr
      exact ⟨⟨more, hf, rfl, hl⟩, hstop⟩
    | branch _ source =>
      obtain ⟨_, hr, _⟩ := hl
      have h := congrArg Token.kind ((Event.step_read_head hh).mp hr).1
      cases source <;> cases h
  · rintro ⟨⟨more, hf, rfl, hl⟩, hstop⟩
    exact ⟨⟨.branchNewline line more, hf, rfl, _, (Event.step_read_head hh).mpr ⟨rfl, rfl⟩, hl⟩,
      hstop⟩

theorem branchLexeme_injective {source other : Option String}
    (h : branchLexeme source = branchLexeme other) : source = other := by
  cases source <;> cases other <;> cases h <;> rfl

/-- What a branch is behind its token. -/
def ReadBranch (scope : Scope) (line : Line) (source : String) (s : State) (v : Node)
    (s' : State) : Prop :=
  ∃ x : Phrase .expansion, x.Fits s'.cursor.peek.lexeme ∧
    v = scope.node line (.when source (x.value scope)) ∧ Leads x.trace s s'

theorem readBy_branch (source : Option String) (hp : s.Plain)
    (hh : s.cursor.tokens.head? = some ⟨line, branchLexeme source⟩) :
    Goal.branches.ReadBy scope s v s' ↔
      ∃ branch m, ReadBranch scope line (source.getD "default") s.next branch m ∧
        ∃ more, Goal.branches.ReadBy scope m more s' ∧ v = branch :: more := by
  have hn : s.next.Plain := Event.plain_of_step hp (Event.step_read.mpr ⟨hh, rfl⟩)
  constructor
  · rintro ⟨⟨t, hf, rfl, hl⟩, hstop⟩
    cases t with
    | noBranches =>
      cases hl
      rw [State.peek_of_head? hp hh] at hstop
      cases source <;> cases hstop
    | branchNewline =>
      obtain ⟨_, hr, _⟩ := hl
      have h := congrArg Token.kind ((Event.step_read_head hh).mp hr).1
      cases source <;> cases h
    | branch _ other x more =>
      simp only [Phrase.trace, List.cons_append, Leads.cons_iff, Leads.append_iff] at hl
      obtain ⟨_, hr, m, h₁, h₂⟩ := hl
      obtain ⟨he, rfl⟩ := (Event.step_read_head hh).mp hr
      obtain ⟨rfl, hs⟩ := Token.mk.inj he
      cases branchLexeme_injective hs
      obtain ⟨hx, hf⟩ := hf
      rw [← more.lexeme_peek (h₁.plain hn) h₂] at hx
      exact ⟨_, m, ⟨x, hx, rfl, h₁⟩, _, ⟨⟨more, hf, rfl, h₂⟩, hstop⟩, rfl⟩
  · rintro ⟨_, m, ⟨x, hx, rfl, h₁⟩, _, ⟨⟨more, hf, rfl, h₂⟩, hstop⟩, rfl⟩
    rw [more.lexeme_peek (h₁.plain hn) h₂] at hx
    refine ⟨⟨.branch line source x more, ⟨hx, hf⟩, rfl, ?_⟩, hstop⟩
    simp only [Phrase.trace, List.cons_append, Leads.cons_iff, Leads.append_iff]
    exact ⟨_, (Event.step_read_head hh).mpr ⟨rfl, rfl⟩, m, h₁, h₂⟩

/-- What opens no branch can only end the case. -/
theorem readBy_stop (hp : s.Plain) (hn : s.cursor.peek.kind ≠ .newline)
    (hw : s.cursor.peek.kind ≠ .when) (hd : s.cursor.peek.kind ≠ .default) :
    Goal.branches.ReadBy scope s v s' ↔ s.cursor.peek.kind = .outdent ∧ v = [] ∧ s' = s := by
  constructor
  · rintro ⟨⟨t, hf, rfl, hl⟩, hstop⟩
    cases t with
    | noBranches =>
      cases hl
      exact ⟨hstop, rfl, rfl⟩
    | branchNewline =>
      obtain ⟨_, hr, _⟩ := hl
      exact absurd (congrArg Token.kind (Event.peek_of_step_read hp hr)) hn
    | branch _ source =>
      obtain ⟨_, hr, _⟩ := hl
      have h := congrArg Token.kind (Event.peek_of_step_read hp hr)
      cases source with
      | none => exact absurd h hd
      | some source => exact absurd h hw
  · rintro ⟨hstop, rfl, rfl⟩
    exact ⟨⟨.noBranches, trivial, rfl, rfl⟩, hstop⟩

end Branches

namespace Grammar

variable {n : Nat} {below : Below n}
variable (hb : ∀ goal, Meets Anywhere (below goal) (goal.ReadBy scope))
include hb

theorem anyExpression_meets : Meets Anywhere (anyExpression .slot scope below)
    (Goal.expression.ReadBy scope) := by
  refine Meets.opening ?_ ?_
  · intro place t r hr
    cases hr
    refine ⟨_, expressionFrom_meets hb place t, ?_⟩
    intro s v s' _ hplace hh
    rw [← hplace]
    exact Expression.readBy_iff hh
  · intro t
    refine (Meets.fail _ _).congr ?_
    rintro s v s' hp ⟨rfl, hk | hk⟩
    · refine ⟨False.elim, fun h => ?_⟩
      obtain ⟨_, hs⟩ := Expression.starts_peek hp h
      rw [hk] at hs
      cases hs
    · cases hk

theorem items_meets (inBody : Bool) : Meets Anywhere (items .slot scope below inBody)
    ((Goal.items inBody).ReadBy scope) := by
  have hrec := hb (.items inBody)
  refine Meets.opening ?_ ?_
  · rintro place ⟨line, lexeme⟩ r hr
    cases lexeme with
    | eos => cases hr
    | outdent =>
      cases inBody with
      | true => cases hr
      | false =>
        cases hr
        refine ⟨_, Meets.fail _ _, ?_⟩
        intro s v s' hp _ hh
        rw [Items.readBy_stop hp (.inr (congrArg Token.kind (State.peek_of_head? hp hh)))]
        rw [State.peek_of_head? hp hh]
        refine iff_false_intro ?_
        rintro ⟨h | ⟨h, _⟩, _⟩ <;> cases h
    | newline =>
      cases hr
      exact ⟨_, hrec.weaken fun _ _ => trivial, fun hp _ hh => Items.readBy_newline hp hh⟩
    | textHtml content =>
      cases hr
      exact ⟨_, ((htmlFrom_meets hb line content).bind fun run => hrec.map
        fun more => run ++ more).weaken fun _ _ => trivial, fun hp _ hh => Items.readBy_html hp hh⟩
    | _ =>
      cases hr
      refine ⟨_, (expressionFrom_meets hb place _).bind fun node => hrec.map
        fun more => node :: more, ?_⟩
      intro s v s' hp hplace hh
      have hpeek := State.peek_of_head? hp hh
      rw [← hplace, Items.readBy_expression hp]
      · simp only [Expression.readBy_iff hh]
      · rw [hpeek]
        rintro (h | ⟨_, h⟩) <;> cases h
      · rw [hpeek]
        nofun
      · rw [hpeek]
        nofun
  · rintro ⟨line, lexeme⟩
    refine (Meets.pure []).congr ?_
    rintro s v s' hp ⟨hpeek, hnone⟩
    have hstop : Items.Stops inBody s.cursor.peek.kind := by
      rw [hpeek]
      cases lexeme with
      | eos => exact .inl rfl
      | outdent =>
        cases inBody with
        | true => exact .inr ⟨rfl, rfl⟩
        | false => rcases hnone with h | h <;> cases h
      | _ => rcases hnone with h | h <;> cases h
    have hk := hstop.imp_right And.right
    rw [Items.readBy_stop hp hk]
    exact ⟨fun h => ⟨hstop, h⟩, And.right⟩

theorem branches_meets : Meets Anywhere (branches scope below)
    (Goal.branches.ReadBy scope) := by
  have hrec := hb .branches
  refine Meets.opening ?_ ?_
  · rintro place ⟨line, lexeme⟩ r hr
    cases lexeme with
    | outdent => cases hr
    | newline =>
      cases hr
      exact ⟨_, hrec.weaken fun _ _ => trivial, fun hp _ hh => Branches.readBy_newline hp hh⟩
    | when source =>
      cases hr
      exact ⟨_, ((branchFrom_meets hb line source).bind fun branch => hrec.map
        fun more => branch :: more).weaken fun _ _ => trivial,
        fun hp _ hh => Branches.readBy_branch (some source) hp hh⟩
    | default =>
      cases hr
      exact ⟨_, ((branchFrom_meets hb line "default").bind fun branch => hrec.map
        fun more => branch :: more).weaken fun _ _ => trivial,
        fun hp _ hh => Branches.readBy_branch none hp hh⟩
    | _ =>
      cases hr
      refine ⟨_, Meets.fail _ _, ?_⟩
      intro s v s' hp _ hh
      have hpeek := State.peek_of_head? hp hh
      rw [Branches.readBy_stop hp (by rw [hpeek]; nofun) (by rw [hpeek]; nofun)
        (by rw [hpeek]; nofun), hpeek]
      exact iff_false_intro fun h => by cases h.1
  · rintro ⟨line, lexeme⟩
    have hends {s : State} {v : List Node} {s' : State} (hp : s.Plain)
        (hk : s.cursor.peek.kind = .outdent ∨ s.cursor.peek.kind = .eos) :
        Goal.branches.ReadBy scope s v s' ↔ s.cursor.peek.kind = .outdent ∧ v = [] ∧ s' = s :=
      Branches.readBy_stop hp (by rcases hk with h | h <;> rw [h] <;> nofun)
        (by rcases hk with h | h <;> rw [h] <;> nofun) (by rcases hk with h | h <;> rw [h] <;> nofun)
    cases lexeme with
    | outdent =>
      refine (Meets.pure []).congr ?_
      rintro s v s' hp ⟨hpeek, _⟩
      rw [hends hp (.inl (by rw [hpeek]; rfl)), hpeek]
      exact ⟨fun h => ⟨rfl, h⟩, And.right⟩
    | eos =>
      refine (Meets.fail _ _).congr ?_
      rintro s v s' hp ⟨hpeek, _⟩
      rw [hends hp (.inr (by rw [hpeek]; rfl)), hpeek]
      exact (iff_false_intro fun h => by cases h.1).symm
    | _ =>
      refine (Meets.fail _ _).congr ?_
      rintro s v s' _ ⟨_, h | h⟩ <;> cases h

theorem extend_meets (goal : Goal) : Meets Anywhere (extend .slot scope below goal)
    (goal.ReadBy scope) := by
  cases goal with
  | expression => exact anyExpression_meets hb
  | items inBody => exact items_meets hb inBody
  | textRun spansLines => exact textRun_meets hb spansLines
  | pipeless => exact pipeless_meets hb
  | htmlRun => exact htmlRun_meets hb
  | branches => exact branches_meets hb

omit hb in
/-- Every question is answered with what a phrase stands for, whatever the bound. -/
theorem answer_meets (n : Nat) (goal : Goal) :
    Meets Anywhere (answer .slot scope n goal) (goal.ReadBy scope) := by
  induction n generalizing goal with
  | zero =>
    refine ⟨fun _ _ => ⟨fun h => absurd h.size_lt (Nat.not_lt_zero _),
      fun h => absurd h.1 (Nat.not_lt_zero _)⟩, fun hp _ h => h.keeps hp⟩
  | succ n ih => exact extend_meets ih goal

end Grammar

end TemplateTree
