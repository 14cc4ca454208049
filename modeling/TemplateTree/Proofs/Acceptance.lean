import TemplateTree.Proofs.Lawful
import TemplateTree.Proofs.Parse
import TemplateTree.Proofs.Specs.Answer

/-!
Which streams are accepted: those whose tokens up to the end of the stream are the tokens of a
phrase, read greedily, in which no event happens against the past. The phrase also determines the
tree and the warnings.
-/

namespace TemplateTree
set_option autoImplicit false

/-! No phrase reads the end of a stream. -/

namespace Event

/-- An event that reads no end of a stream. -/
def Proper (e : Event) : Prop := ∀ t ∈ e.token?, t.isEos = false

theorem proper_read {line : Line} {l : Lexeme} (h : l.kind ≠ .eos) : (read ⟨line, l⟩).Proper := by
  rintro t ht
  cases ht
  exact beq_eq_false_iff_ne.mpr h

theorem proper_code (line : Line) (c : CodeLine) : (code line c).Proper := by
  rintro t ht
  cases ht
  rfl

theorem proper_mixinBlock (line : Line) : (mixinBlock line).Proper := by
  rintro t ht
  cases ht
  rfl

theorem proper_of_token? {e : Event} (h : e.token? = none) : e.Proper := by
  rintro t ht
  rw [h] at ht
  cases ht

theorem proper_heads {ts : List Token} (h : ∀ t ∈ ts, t.isHead = true) :
    ∀ e ∈ ts.map read, e.Proper := by
  simp only [List.forall_mem_map]
  rintro ⟨line, lexeme⟩ ht
  have hk := h _ ht
  exact proper_read (by cases lexeme <;> cases hk <;> nofun)

theorem proper_newlines (lines : List Line) : ∀ e ∈ lines.map newline, e.Proper := by
  simp only [List.forall_mem_map]
  exact fun _ _ => proper_read nofun

end Event

namespace Phrase

theorem proper {g : Symbol} (t : Phrase g) {next : Lexeme} (hf : t.Fits next) :
    ∀ e ∈ t.trace, e.Proper := by
  induction t generalizing next with
  | plain heads l newlines b ihl ihb =>
    obtain ⟨hheads, _, hl, _, hb⟩ := hf
    simp only [trace, List.forall_mem_cons, List.forall_mem_append]
    exact ⟨⟨⟨Event.proper_heads hheads, Event.proper_of_token? rfl, ihl hl⟩,
      Event.proper_newlines _⟩, ihb hb⟩
  | dotted heads dotLine l newlines b ihl ihb =>
    obtain ⟨hheads, _, hl, _, hb⟩ := hf
    simp only [trace, List.forall_mem_cons, List.forall_mem_append]
    exact ⟨⟨⟨Event.proper_heads hheads, Event.proper_of_token? rfl, Event.proper_read nofun,
      ihl hl⟩, Event.proper_newlines _⟩, ihb hb⟩
  | code line c b ih =>
    simp only [trace, List.cons_append, List.forall_mem_cons, List.forall_mem_append]
    refine ⟨Event.proper_code line c, ih hf, ?_⟩
    split
    · exact List.forall_mem_singleton.mpr (Event.proper_of_token? rfl)
    · nofun
  | filter line name group b ih =>
    simp only [trace, List.cons_append, List.forall_mem_cons, List.forall_mem_append]
    refine ⟨Event.proper_read nofun, ?_, ih hf.2⟩
    cases group with
    | none => nofun
    | some g => exact List.forall_mem_singleton.mpr (Event.proper_read nofun)
  | branch line source x more ihx ih =>
    simp only [trace, List.cons_append, List.forall_mem_cons, List.forall_mem_append]
    exact ⟨Event.proper_read (by cases source <;> nofun), ihx hf.1, ih hf.2⟩
  | mixinBlock line => exact List.forall_mem_singleton.mpr (Event.proper_mixinBlock line)
  | _ =>
    simp only [trace, Fits, List.forall_mem_cons, List.forall_mem_append, List.not_mem_nil,
      false_implies, implies_true, and_true] at hf ⊢
    repeat' apply And.intro
    all_goals first
      | exact Event.proper_read nofun
      | exact Event.proper_of_token? rfl
      | grind

theorem isEos_tokens {g : Symbol} (t : Phrase g) {next : Lexeme} (hf : t.Fits next) :
    ∀ u ∈ t.tokens, u.isEos = false := by
  intro u hu
  obtain ⟨e, he, hu⟩ := List.mem_filterMap.mp hu
  exact t.proper hf e he u hu

end Phrase

/-! What a parse has to say about a stream it accepts. -/

/-- The notices that an event gives rise to. -/
def Event.noted : Event → List Notice
  | notices ns => ns
  | _ => []

theorem Leads.notices_eq {es : List Event} {s s' : State} (h : Leads es s s') :
    s'.notices = s.notices ++ es.flatMap Event.noted := by
  induction es generalizing s with
  | nil =>
    cases h
    simp
  | cons e es ih =>
    obtain ⟨m, he, hes⟩ := h
    have hm : m.notices = s.notices ++ e.noted := by
      cases e with
      | finish =>
        rw [show m = Linking.rememberElse s from he]
        unfold Linking.rememberElse
        split
        · exact (List.append_nil _).symm
        · split <;> exact (List.append_nil _).symm
      | enterMixin | leaveMixin =>
        cases he
        exact (List.append_nil _).symm
      | notices ns =>
        cases he
        rfl
      | read | code | mixinBlock =>
        obtain ⟨_, rfl, _⟩ := he
        exact (List.append_nil _).symm
    rw [ih hes, hm, List.append_assoc, List.flatMap_cons]

namespace Template

variable {file : Option String} {ts : List Token} {p : Parsed}

/-- The tree and the warnings of a template that is the given phrase. -/
def parsed (file : Option String) (t : Phrase .items) : Parsed :=
  ⟨.ofNodes ⟨0, file⟩ (t.value ⟨file⟩), (t.trace.flatMap Event.noted).map (Notice.warning file)⟩

/-- Proper tokens reach up to the end of a stream when nothing or an explicit end follows. -/
theorem eq_takeWhile_iff {us : List Token} (hus : ∀ u ∈ us, u.isEos = false) :
    us = ts.takeWhile (fun u => !u.isEos) ↔
      ∃ rest, ts = us ++ rest ∧ ∀ u ∈ rest.head?, u.isEos = true := by
  constructor
  · rintro rfl
    refine ⟨ts.dropWhile fun u => !u.isEos, List.takeWhile_append_dropWhile.symm, ?_⟩
    intro u hu
    have h := List.head?_dropWhile_not (fun u : Token => !u.isEos) ts
    rw [Option.mem_def.mp hu] at h
    simpa using h
  · rintro ⟨rest, rfl, hrest⟩
    rw [List.takeWhile_append_of_pos (by simpa using hus)]
    cases rest with
    | nil => simp
    | cons u rest => simp [hrest u rfl]

theorem isEos_peek_iff {s : State} (hp : s.Plain) :
    s.cursor.peek.kind = .eos ↔ ∀ u ∈ s.cursor.tokens.head?, u.isEos = true := by
  rw [State.peek_eq hp]
  cases s.cursor.tokens with
  | nil => exact ⟨nofun, fun _ => rfl⟩
  | cons u us => simp [Token.isEos]

variable {before : List Event} {n : Nat} {s : State} {t : Phrase .items}

/-- A phrase that reaches up to the end of the stream and is permitted is read. -/
theorem exists_runs (h : Traced before s) (hn : s.size < n) (hf : t.Fits .eos)
    (htokens : t.tokens = s.cursor.tokens.takeWhile (fun u => !u.isEos))
    (hlaw : LawfulAfter before t.trace) : ∃ s', Leads t.trace s s' ∧
      (Grammar.answer .slot ⟨file⟩ n (.items false)).Runs s (t.value ⟨file⟩) s' := by
  obtain ⟨rest, hts, hrest⟩ := (eq_takeWhile_iff (t.isEos_tokens hf)).mp htokens
  obtain ⟨s', hl⟩ := h.exists_leads_iff.mpr ⟨⟨rest, hts.symm⟩, hlaw⟩
  have hs' : s'.cursor.tokens = rest :=
    (List.append_cancel_left (hts.symm.trans (hl.tokens_eq h.plain))).symm
  have hend : s'.cursor.peek.kind = .eos :=
    (isEos_peek_iff (hl.plain h.plain)).mpr (by rw [hs']; exact hrest)
  refine ⟨s', hl, ((@Grammar.answer_meets ⟨file⟩ n (.items false)).runs h.plain trivial).mpr ?_⟩
  refine ⟨hn, ⟨t, ?_, rfl, hl⟩, .inl hend⟩
  rwa [Lexeme.eq_of_kind_eq (m := .eos) rfl hend]

/-- A stream parses to what its phrase stands for. -/
theorem parse_ok : parse file ts = .ok p ↔ ∃ t : Phrase .items, t.Fits .eos ∧
    t.tokens = ts.takeWhile (fun u => !u.isEos) ∧ Lawful t.trace ∧ p = parsed file t := by
  have htraced : Traced [] (.start (.ofTokens ts)) := Traced.start _ rfl
  have hplain := htraced.plain
  rw [parse, parseLinking_ok]
  simp only [readItems_ok]
  constructor
  · rintro ⟨_, _, ⟨s', hr, rfl⟩, rfl⟩
    obtain ⟨_, ⟨t, hf, rfl, hl⟩, hstop⟩ :=
      ((@Grammar.answer_meets ⟨file⟩ _ (.items false)).runs hplain trivial).mp hr
    have hend : s'.cursor.peek.kind = .eos := hstop.resolve_right fun h => by cases h.1
    rw [Lexeme.eq_of_kind_eq (m := .eos) rfl hend] at hf
    refine ⟨t, hf, ?_, (htraced.exists_leads_iff.mp ⟨s', hl⟩).2, ?_⟩
    · exact (eq_takeWhile_iff (t.isEos_tokens hf)).mpr
        ⟨_, hl.tokens_eq hplain, (isEos_peek_iff (hl.plain hplain)).mp hend⟩
    · rw [hl.notices_eq]
      rfl
  · rintro ⟨t, hf, htokens, hlaw, rfl⟩
    obtain ⟨s', hl, hr⟩ := exists_runs htraced (Nat.lt_succ_self _) hf htokens hlaw
    refine ⟨_, _, ⟨s', hr, rfl⟩, ?_⟩
    rw [hl.notices_eq]
    rfl

/-- A stream without an explicit end is read as a whole. -/
theorem parse_ok_of_proper (hts : ∀ u ∈ ts, u.isEos = false) : parse file ts = .ok p ↔
    ∃ t : Phrase .items, t.Fits .eos ∧ t.tokens = ts ∧ Lawful t.trace ∧ p = parsed file t := by
  have hall : ts.takeWhile (fun u => !u.isEos) = ts :=
    ((eq_takeWhile_iff hts).mpr ⟨[], (List.append_nil ts).symm, nofun⟩).symm
  rw [parse_ok, hall]

theorem parse_tokens {t : Phrase .items} (hf : t.Fits .eos) (hlaw : Lawful t.trace) :
    parse file t.tokens = .ok (parsed file t) :=
  (parse_ok_of_proper (t.isEos_tokens hf)).mpr ⟨t, hf, rfl, hlaw, rfl⟩

/-- Accepted are the streams that the grammar derives greedily and against no past event. -/
theorem accepts_iff_phrase (file : Option String) (ts : List Token) :
    (∃ p, parse file ts = .ok p) ↔ ∃ t : Phrase .items, t.Fits .eos ∧
      t.tokens = ts.takeWhile (fun u => !u.isEos) ∧ Lawful t.trace := by
  simp only [parse_ok]
  constructor
  · rintro ⟨_, t, hf, htokens, hlaw, _⟩
    exact ⟨t, hf, htokens, hlaw⟩
  · rintro ⟨t, hf, htokens, hlaw⟩
    exact ⟨_, t, hf, htokens, hlaw, rfl⟩

end Template

end TemplateTree
