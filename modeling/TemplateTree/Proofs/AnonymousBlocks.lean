import TemplateTree.Proofs.Completions.Answer
import TemplateTree.Proofs.Errors
import TemplateTree.Proofs.MixinDepth
import TemplateTree.Proofs.Nesting
import TemplateTree.Proofs.Yielding

/-!
Where places for content may stand: exactly inside of mixin definitions. A stream that would parse
with yields in their stead parses when every one of them is enclosed by a definition, and otherwise
it is refused at the first one that is not.
-/

namespace TemplateTree
set_option autoImplicit false

/-- A place for content, in front of the end of the stream, that no definition encloses. -/
structure Stray (ts before : List Token) (line : Line) (after : List Token) : Prop where
  tokens : ts.takeWhile (fun t => !t.isEos) = before ++ ⟨line, .mixinBlock⟩ :: after
  outside : ¬ InDefinition before after

/-- No place for content in front of it is a stray one. -/
structure FirstStray (ts before : List Token) (line : Line) (after : List Token) : Prop
    extends Stray ts before line after where
  first : ∀ front line' rest, before = front ++ ⟨line', .mixinBlock⟩ :: rest →
    InDefinition front (rest ++ ⟨line, .mixinBlock⟩ :: after)

section

variable {ts before after : List Token} {line : Line}

/-- Among the stray places one is the first. -/
theorem Stray.exists_first (h : Stray ts before line after) :
    ∃ before line after, FirstStray ts before line after := by
  induction hn : before.length using Nat.strong_induction_on generalizing before line after with
  | _ n ih =>
    by_cases hfirst : ∀ front line' rest, before = front ++ ⟨line', .mixinBlock⟩ :: rest →
      InDefinition front (rest ++ ⟨line, .mixinBlock⟩ :: after)
    · exact ⟨before, line, after, h, hfirst⟩
    · push Not at hfirst
      obtain ⟨front, line', rest, rfl, hout⟩ := hfirst
      have hstray : Stray ts front line' (rest ++ ⟨line, .mixinBlock⟩ :: after) :=
        ⟨by rw [h.tokens, List.append_assoc, List.cons_append], hout⟩
      have hlt : front.length < n := by
        rw [← hn, List.length_append]
        exact Nat.lt_add_of_pos_right (Nat.succ_pos _)
      exact ih front.length hlt hstray rfl

end

namespace Template

variable {file : Option String} {ts before after : List Token} {line : Line} {p : Parsed}
variable {t : Phrase .items} {d : Diagnostic}

theorem kind_eos_ne : Lexeme.eos.kind ≠ .indent := nofun

/-- A phrase that is permitted with yields is permitted where its places for content are enclosed,
by itself or from the beginning. -/
theorem lawfulAfter_of_enclosed {past : List Event} (hf : t.Fits .eos)
    (hlaw : Lawful (t.trace.map Event.yielding))
    (hin : ∀ before line after, t.tokens = before ++ ⟨line, .mixinBlock⟩ :: after →
      openMixins past ≠ 0 ∨ OpenDefinition before) : LawfulAfter past t.trace := by
  apply LawfulAfter.of_yielding hlaw
  intro front line rest htrace
  have hnested : Nested t.trace := Phrase.nested kind_eos_ne hf
  rw [htrace] at hnested
  have hopen : openMixins past ≠ 0 ∨ OpenDefinition (front.filterMap Event.token?) := by
    apply hin _ line (rest.filterMap Event.token?)
    rw [Phrase.tokens, htrace, List.filterMap_append]
    rfl
  rcases hnested.counted rfl past with ⟨_, hlt⟩ | ⟨hclosed, heq⟩
  · exact Nat.ne_of_gt (Nat.lt_of_le_of_lt (Nat.zero_le _) hlt)
  · rw [heq]
    exact hopen.resolve_right hclosed

/-- A stream that would parse with yields for its places for content parses, or such a place is
refused. -/
theorem parses_or_refuses (h : parse file (ts.map Token.yielding) = .ok p) :
    (∃ tree, parse file ts = .ok tree) ∨
      ∃ d, parse file ts = .error d ∧ d.kind = .anonymousBlock := by
  obtain ⟨t, hf, htokens, hlaw, _⟩ := exists_phrase_of_yielding h
  have hstart : Traced [] (.start (.ofTokens ts)) := Traced.start _ rfl
  have hdeep : Traced [.enterMixin] (State.start (.ofTokens ts)).enterMixin := hstart.step rfl
  have hlt : (State.start (.ofTokens ts)).enterMixin.size < (Cursor.ofTokens ts).size + 1 :=
    Nat.lt_succ_self _
  obtain ⟨s', hr⟩ : ∃ s', (Grammar.answer .slot ⟨file⟩ ((Cursor.ofTokens ts).size + 1)
      (.items false)).Runs (State.start (.ofTokens ts)).enterMixin (t.value ⟨file⟩) s' := by
    have hlawful : LawfulAfter [.enterMixin] t.trace :=
      lawfulAfter_of_enclosed hf hlaw fun _ _ _ _ => .inl (by decide)
    obtain ⟨s', _, hr⟩ := exists_runs hdeep hlt hf htokens hlawful
    exact ⟨s', hr⟩
  obtain ⟨_, _, hr', _⟩ | ⟨line, hfail⟩ :=
    (Parallel.answer_same ⟨file⟩ _ _ _).shallow.runs hdeep.plain trivial hlt (Nat.zero_le _) hr
  · exact .inl (parse_of_runs hr')
  · exact .inr ⟨_, parse_of_fails hfail, rfl⟩

/-- A place for content in a stream that parses, or that only breaks off, is enclosed. -/
theorem openDefinition_of_accepted (hts : ∀ t ∈ ts, t.isEos = false)
    (h : (∃ tree, parse file ts = .ok tree) ∨
      ∃ d, parse file ts = .error d ∧ d.found = some .eos)
    (hsplit : ts = before ++ ⟨line, .mixinBlock⟩ :: after) : OpenDefinition before := by
  obtain ⟨t, hf, hlaw, rest, htokens⟩ : ∃ t : Phrase .items, t.Fits .eos ∧ Lawful t.trace ∧
      ∃ rest, t.tokens = ts ++ rest := by
    rcases h with ⟨tree, h⟩ | ⟨d, h, hd⟩
    · obtain ⟨t, hf, htokens, hlaw, _⟩ := (parse_ok_of_proper hts).mp h
      exact ⟨t, hf, hlaw, [], by rw [htokens, List.append_nil]⟩
    · exact exists_completion hts h hd
  rw [hsplit, List.append_assoc] at htokens
  exact Phrase.openDefinition_of_lawful kind_eos_ne hf hlaw htokens

/-- No error stands behind a place for content that is not enclosed: up to there it would have been
accepted. -/
theorem ErrorAt.le_of_outside {rest : List Token} {k : Nat} (herror : ErrorAt file ts d k)
    (hts : ts = before ++ ⟨line, .mixinBlock⟩ :: rest) (hopen : ¬ OpenDefinition before) :
    k ≤ before.length := by
  by_contra hlt
  have hproper : ∀ t ∈ ts.take k, t.isEos = false := by
    intro t ht
    exact beq_eq_false_iff_ne.mpr (herror.proper t ht)
  have hsplit : ts.take k =
      before ++ ⟨line, .mixinBlock⟩ :: rest.take (k - before.length - 1) := by
    have hsucc : k - before.length = k - before.length - 1 + 1 := by omega
    rw [hts, List.take_append, List.take_of_length_le (by omega), hsucc, List.take_succ_cons]
    rfl
  have haccepted : (∃ tree, parse file (ts.take k) = .ok tree) ∨
      ∃ d', parse file (ts.take k) = .error d' ∧ d'.found = some .eos := by
    rcases herror.before with htree | ⟨d', hd', hfound, _⟩
    · exact .inl htree
    · exact .inr ⟨d', hd', hfound⟩
  exact hopen (openDefinition_of_accepted hproper haccepted hsplit)

/-- What parses with yields for its places for content parses with them when all are enclosed. -/
theorem parse_of_enclosed (h : parse file (ts.map Token.yielding) = .ok p)
    (hin : ∀ before line after, ts.takeWhile (fun t => !t.isEos) =
      before ++ ⟨line, .mixinBlock⟩ :: after → OpenDefinition before) :
    ∃ t : Phrase .items, t.tokens = ts.takeWhile (fun t => !t.isEos) ∧
      parse file ts = .ok (parsed file t) ∧ p = parsed file t.yielding := by
  obtain ⟨t, hf, htokens, hlaw, hp⟩ := exists_phrase_of_yielding h
  rw [← htokens] at hin
  have hlawful : Lawful t.trace :=
    lawfulAfter_of_enclosed hf hlaw fun _ _ _ h => .inr (hin _ _ _ h)
  exact ⟨t, htokens, parse_ok.mpr ⟨t, hf, htokens, hlawful, rfl⟩, hp⟩

/-- In a stream that would parse, what is open in front of a place for content is closed behind
it. -/
theorem inDefinition_iff_of_yielding (h : parse file (ts.map Token.yielding) = .ok p)
    (hsplit : ts.takeWhile (fun t => !t.isEos) = before ++ ⟨line, .mixinBlock⟩ :: after) :
    InDefinition before after ↔ OpenDefinition before := by
  obtain ⟨t, hf, htokens, _, _⟩ := exists_phrase_of_yielding h
  have hbalanced : Balanced t.tokens := Phrase.balanced_tokens kind_eos_ne hf
  rw [htokens, hsplit] at hbalanced
  exact inDefinition_iff (hbalanced.remove nofun nofun)

/-- In front of the first stray place all is well: with yields from there on the stream parses. -/
theorem parse_of_firstStray_yielding {rest : List Token}
    (h : parse file (ts.map Token.yielding) = .ok p) (hs : FirstStray ts before line after)
    (hts : ts = before ++ rest) :
    ∃ tree, parse file (before ++ rest.map Token.yielding) = .ok tree := by
  have hmap : (before ++ rest.map Token.yielding).map Token.yielding = ts.map Token.yielding := by
    rw [hts, List.map_append, List.map_append, List.map_map]
    exact congrArg _ (List.map_congr_left fun t _ => t.yielding_yielding)
  have hin : ∀ front line' last,
      (before ++ rest.map Token.yielding).takeWhile (fun t => !t.isEos) =
        front ++ ⟨line', .mixinBlock⟩ :: last → OpenDefinition front := by
    intro front line' last hsplit
    have hproper : ∀ t ∈ before, (!t.isEos) = true := by
      intro t ht
      have hmem : t ∈ ts.takeWhile (fun t => !t.isEos) := by
        rw [hs.tokens]
        exact List.mem_append_left _ ht
      exact List.mem_takeWhile_imp (p := fun t : Token => !t.isEos) hmem
    rw [List.takeWhile_append_of_pos hproper] at hsplit
    have hyields : ∀ t ∈ (rest.map Token.yielding).takeWhile (fun t => !t.isEos),
        t.kind ≠ .mixinBlock := by
      intro t ht
      obtain ⟨u, _, rfl⟩ := List.mem_map.mp ((List.takeWhile_sublist _).subset ht)
      exact u.kind_yielding_ne
    obtain ⟨mid, hmid⟩ : ∃ mid, before = front ++ ⟨line', .mixinBlock⟩ :: mid := by
      rcases List.append_eq_append_iff.mp hsplit with ⟨later, _, hlater⟩ | ⟨mid, hmid, hlast⟩
      · exact absurd rfl (hyields _ (hlater ▸ List.mem_append_right _ List.mem_cons_self))
      · cases mid with
        | nil => exact absurd rfl (hyields _ (hlast ▸ List.mem_cons_self))
        | cons u mid =>
          cases hlast
          exact ⟨mid, hmid⟩
    exact (hs.first front line' mid hmid).openDefinition
  obtain ⟨t, _, ht, _⟩ := parse_of_enclosed (hmap ▸ h) hin
  exact ⟨_, ht⟩

/-- The stream is refused at its first stray place for content. -/
theorem parse_of_firstStray (h : parse file (ts.map Token.yielding) = .ok p)
    (hs : FirstStray ts before line after) :
    ∃ d, parse file ts = .error d ∧ d.kind = .anonymousBlock ∧ d.line = line := by
  have hopen : ¬ OpenDefinition before := fun hopen =>
    hs.outside ((inDefinition_iff_of_yielding h hs.tokens).mpr hopen)
  obtain ⟨rest, hts⟩ : ∃ rest, ts = before ++ ⟨line, .mixinBlock⟩ :: rest := by
    refine ⟨after ++ ts.dropWhile fun t => !t.isEos, ?_⟩
    rw [← List.cons_append, ← List.append_assoc, ← hs.tokens, List.takeWhile_append_dropWhile]
  obtain ⟨tree, htree⟩ | ⟨d, hd, hkind⟩ := parses_or_refuses h
  · obtain ⟨t, hf, htokens, hlaw, _⟩ := parse_ok.mp htree
    rw [hs.tokens] at htokens
    exact absurd (Phrase.openDefinition_of_lawful kind_eos_ne hf hlaw htokens) hopen
  · obtain ⟨k, herror, hreplay⟩ := exists_errorAt hd ts.length
    -- In front of the stray place all is well, even when no other comes later.
    have hge : before.length ≤ k := by
      by_contra hlt
      obtain ⟨tree, htree⟩ := parse_of_firstStray_yielding h hs hts
      have hlen : (before ++ (⟨line, .mixinBlock⟩ :: rest).map Token.yielding).length ≤
          ts.length := by
        rw [hts, List.length_append, List.length_append, List.length_map]
      have htake : (before ++ (⟨line, .mixinBlock⟩ :: rest).map Token.yielding).take (k + 1) =
          ts.take (k + 1) := by
        have hle : k + 1 ≤ before.length := by omega
        rw [hts, List.take_append_of_le_length hle, List.take_append_of_le_length hle]
      cases htree.symm.trans (hreplay _ hlen htake)
    have hplace : k = before.length := Nat.le_antisymm (herror.le_of_outside hts hopen) hge
    refine ⟨d, hd, hkind, ?_⟩
    rw [herror.line, hplace, hts]
    simp

/-- Places for content are accepted exactly inside of mixin definitions. The stream is refused at
the first one that stands elsewhere; if there is none, it parses as with yields in their stead. The
depth that decides is given back by every routine. -/
theorem mixinBlocks_inside (h : parse file (ts.map Token.yielding) = .ok p) :
    ((∃ before line after, Stray ts before line after) →
      ∃ before line after, FirstStray ts before line after ∧
        ∃ d, parse file ts = .error d ∧ d.kind = .anonymousBlock ∧ d.line = line) ∧
    ((¬ ∃ before line after, Stray ts before line after) →
      ∃ t : Phrase .items, t.tokens = ts.takeWhile (fun t => !t.isEos) ∧
        parse file ts = .ok (parsed file t) ∧ p = parsed file t.yielding ∧
          p.root = (parsed file t).root.yielding ∧ p.warnings = (parsed file t).warnings) ∧
    ∀ (n : Nat) (α : Type) (r : Routine n α),
      Grammar.IsPart ⟨file⟩ (Grammar.answer .slot ⟨file⟩ n) r →
        ∀ s a s', r.Runs s a s' → s'.mixinDepth = s.mixinDepth := by
  refine ⟨?_, ?_, fun _ _ _ hpart => hpart.level⟩
  · rintro ⟨_, _, _, hstray⟩
    obtain ⟨before, line, after, hfirst⟩ := hstray.exists_first
    exact ⟨before, line, after, hfirst, parse_of_firstStray h hfirst⟩
  · intro hno
    have hin : ∀ before line after, ts.takeWhile (fun t => !t.isEos) =
        before ++ ⟨line, .mixinBlock⟩ :: after → OpenDefinition before := by
      intro before line after hsplit
      by_contra hopen
      have hout : ¬ InDefinition before after := fun hin => hopen hin.openDefinition
      exact hno ⟨before, line, after, hsplit, hout⟩
    obtain ⟨t, htokens, hparse, hp⟩ := parse_of_enclosed h hin
    refine ⟨t, htokens, hparse, hp, ?_, ?_⟩
    · rw [hp, parsed_yielding]
    · rw [hp, parsed_yielding]

/-- A definition inside of a definition, on the line of a tag, and a call with content. -/
def nestedDefinitions : List Token :=
  [⟨1, .mixin "m" none⟩, ⟨2, .indent 2⟩, ⟨2, .tag "p" false⟩, ⟨2, .colon⟩, ⟨2, .mixin "n" none⟩,
    ⟨3, .indent 4⟩, ⟨3, .mixinBlock⟩, ⟨4, .outdent⟩, ⟨4, .call "n" none⟩, ⟨5, .indent 4⟩,
    ⟨5, .mixinBlock⟩, ⟨6, .outdent⟩, ⟨6, .yield⟩, ⟨7, .outdent⟩]

/-- Content of a call outside, and a place for content behind a call in the old way. -/
def callsOutside : List Token :=
  [⟨7, .call "m" none⟩, ⟨8, .indent 2⟩, ⟨8, .mixinBlock⟩, ⟨9, .outdent⟩, ⟨9, .mixin "m" none⟩,
    ⟨10, .newline⟩, ⟨10, .mixinBlock⟩]

theorem mixinBlocks_inside_nestedDefinitions :
    (∃ p, parse none (nestedDefinitions.map Token.yielding) = .ok p ∧
      ∃ t : Phrase .items, t.tokens = nestedDefinitions ∧
        parse none nestedDefinitions = .ok (parsed none t) ∧
          p.root = (parsed none t).root.yielding) ∧
    ∃ p, parse none ((nestedDefinitions ++ callsOutside).map Token.yielding) = .ok p ∧
      ∃ before after, FirstStray (nestedDefinitions ++ callsOutside) before 8 after ∧
        ∃ d, parse none (nestedDefinitions ++ callsOutside) = .error d ∧
          d.kind = .anonymousBlock ∧ d.line = 8 := by
  constructor
  · obtain ⟨p, hp, _⟩ : ∃ p, parse none (nestedDefinitions.map Token.yielding) = .ok p ∧
      p.root.nodes.length = 1 := exists_parsed (by decide +kernel)
    obtain ⟨q, hq, _⟩ : ∃ q, parse none nestedDefinitions = .ok q ∧
      q.root.nodes.length = 1 := exists_parsed (by decide +kernel)
    obtain ⟨hstray, hno, _⟩ := mixinBlocks_inside hp
    have hnone : ¬ ∃ before line after, Stray nestedDefinitions before line after := by
      intro h
      obtain ⟨_, _, _, _, d, hd, _⟩ := hstray h
      cases hq.symm.trans hd
    obtain ⟨t, htokens, hparse, _, hroot, _⟩ := hno hnone
    exact ⟨p, hp, t, htokens, hparse, hroot⟩
  · obtain ⟨p, hp, _⟩ : ∃ p, parse none ((nestedDefinitions ++ callsOutside).map Token.yielding) =
      .ok p ∧ p.root.nodes.length = 4 := exists_parsed (by decide +kernel)
    have hline : (diagnostic? none (nestedDefinitions ++ callsOutside)).map Diagnostic.line =
        some 8 := by decide +kernel
    have hlast : Stray (nestedDefinitions ++ callsOutside)
        (nestedDefinitions ++ callsOutside.take 6) 10 [] := by
      refine ⟨by decide +kernel, ?_⟩
      rintro ⟨_, _, _, _, inner, _, _, _, h, _⟩
      cases inner <;> cases h
    obtain ⟨before, line, after, hfirst, d, hd, hkind, hat⟩ :=
      (mixinBlocks_inside hp).1 ⟨_, _, _, hlast⟩
    rw [diagnostic?_eq_some.mpr hd] at hline
    obtain rfl : line = 8 := hat.symm.trans (Option.some.inj hline)
    exact ⟨p, hp, before, after, hfirst, d, hd, hkind, hat⟩

end Template

end TemplateTree
