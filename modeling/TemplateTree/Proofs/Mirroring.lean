import TemplateTree.Proofs.ElseLink
import TemplateTree.Proofs.Simulation

/-!
Streams that say the same. Where the tokens of one stream are those of another one relabelled, up
to the end of both, a parse of the one does what a parse of the other does, and reports it
relabelled. An end of the stream is a hard stop: nothing behind it is looked at, and an end that
is not written is like one on the line of the last token.
-/

namespace TemplateTree
set_option autoImplicit false

/-- Streams of which the second is the first one relabelled, up to the end of both. -/
abbrev Mirrored (label : Relabelling) : Line → Line → List Token → List Token → Prop :=
  Streams (fun t u => u = label.token t) label

namespace Mirrored

variable {label : Relabelling} {endLine endLine' : Line} {ts us : List Token}

theorem alike (h : Mirrored label endLine endLine' ts us) :
    Streams (Token.Alike label) label endLine endLine' ts us := by
  apply h.imp
  rintro t _ rfl
  exact .token t

theorem append (front : List Token) (h : Mirrored label endLine endLine' ts us) :
    Mirrored label endLine endLine' (front ++ ts) (front.map label.token ++ us) := by
  have htokens : List.Forall₂ (fun t u => u = label.token t) front (front.map label.token) := by
    rw [List.forall₂_map_right_iff]
    exact List.forall₂_same.mpr fun _ _ => rfl
  refine .of_forall₂ ?_ htokens h
  rintro t _ rfl
  exact .token t

theorem isElse_head (h : Mirrored label endLine endLine' ts us) :
    us.head?.any Token.isElse = ts.head?.any Token.isElse := by
  have hend {e line : Line} {vs : List Token} (hv : vs.head?.getD (.eos e) = .eos line) :
      vs.head?.any Token.isElse = false := by
    cases vs with
    | nil => rfl
    | cons v vs =>
      obtain rfl : v = .eos line := hv
      rfl
  cases h with
  | ended ht hu => rw [hend ht, hend hu]
  | cons _ hu _ =>
    subst hu
    rfl

theorem elseAhead_eq (h : Mirrored label endLine endLine' ts us) (place : Nat) :
    elseAhead place us = elseAhead place ts := by
  have hend {e line : Line} {vs : List Token} (hv : vs.head?.getD (.eos e) = .eos line) :
      elseAhead place vs = none := by
    cases vs with
    | nil => rfl
    | cons v vs =>
      obtain rfl : v = .eos line := hv
      rfl
  cases h with
  | ended ht hu => rw [hend ht, hend hu]
  | @cons t _ ts us _ hu h =>
    subst hu
    have helse : (label.token t).isElse = t.isElse := rfl
    have hkind : (label.token t).kind = t.kind := rfl
    rw [elseAhead, elseAhead, helse, hkind, Mirrored.isElse_head h]

end Mirrored

/-- States of two parses that do the same, of which the second one reports it relabelled. -/
structure State.Mirrors (label : Relabelling) (s u : State) : Prop where
  plain : s.Plain
  plain' : u.Plain
  tokens : Mirrored label s.cursor.endLine u.cursor.endLine s.cursor.tokens u.cursor.tokens
  consumed : u.cursor.consumed = s.cursor.consumed
  mixinDepth : u.mixinDepth = s.mixinDepth
  elseLink : u.elseLink = s.elseLink
  notices : u.notices = s.notices.map label.notice

namespace State.Mirrors

variable {label : Relabelling} {s u : State} {t v : Token} {ts us : List Token}

theorem start {c c' : Cursor} (hc : c.deferred = []) (hc' : c'.deferred = [])
    (h : Mirrored label c.endLine c'.endLine c.tokens c'.tokens) (he : c'.consumed = c.consumed) :
    Mirrors label (.start c) (.start c') :=
  ⟨hc, hc', h, he, rfl, rfl, rfl⟩

theorem next (h : Mirrors label s u) (ht : s.cursor.tokens = t :: ts)
    (hu : u.cursor.tokens = v :: us) (hk : t.kind ≠ .eos) : Mirrors label s.next u.next := by
  have htokens := h.tokens
  rw [ht, hu] at htokens
  obtain ⟨_, _, heq, _, hrest⟩ := htokens.exists_cons hk
  cases heq
  have hs := next_eq h.plain ht
  have hs' := next_eq h.plain' hu
  refine ⟨plain_next h.plain ht, plain_next h.plain' hu, ?_, ?_, ?_, ?_, ?_⟩ <;> rw [hs, hs']
  · exact hrest
  · exact congrArg (· + 1) h.consumed
  · exact h.mixinDepth
  · exact h.elseLink
  · exact h.notices

theorem admits {line : Line} {d d' : CodeLine} (h : Mirrors label s u)
    (ht : s.cursor.tokens = ⟨line, .code d⟩ :: ts)
    (hu : u.cursor.tokens = ⟨label.line line, .code d'⟩ :: us) :
    Linking.slot.admits u.next (some s.cursor.consumed) d' =
      Linking.slot.admits s.next (some s.cursor.consumed) d := by
  have htokens := h.tokens
  rw [ht, hu] at htokens
  obtain ⟨_, _, heq, hv, _⟩ := htokens.exists_cons nofun
  cases heq
  cases hv
  have hlink : u.next.elseLink = s.next.elseLink := h.elseLink
  simp only [Linking.slot, hlink]

theorem rememberElse (h : Mirrors label s u) :
    Mirrors label (Linking.rememberElse s) (Linking.rememberElse u) := by
  rw [rememberElse_eq h.plain, rememberElse_eq h.plain', h.consumed, h.tokens.elseAhead_eq,
    h.elseLink]
  exact ⟨h.plain, h.plain', h.tokens, h.consumed, h.mixinDepth, rfl, h.notices⟩

end State.Mirrors

/-- A parse goes along with that of a stream that says the same. -/
def mirroring (label : Relabelling) : Simulation label .slot .slot where
  Rel := State.Mirrors label
  plain h := ⟨h.plain, h.plain'⟩
  streams h := h.tokens.alike
  consumed h := h.consumed
  mixinDepth h := h.mixinDepth
  notices h := h.notices
  next h ht hu hk _ := h.next ht hu hk
  admits h ht hu _ := h.admits ht hu
  finish h := h.rememberElse
  addNotices {s u ns} h :=
    have hnotices : u.notices ++ ns.map label.notice = (s.notices ++ ns).map label.notice := by
      rw [h.notices, List.map_append]
    { h with notices := hnotices }
  enterMixin h := { h with mixinDepth := congrArg (· + 1) h.mixinDepth }
  leaveMixin h := { h with mixinDepth := congrArg (· - 1) h.mixinDepth }

namespace Template

variable {label : Relabelling} {ts us : List Token}

/-- A stream that says the same as another one is parsed to the same, relabelled. -/
theorem parse_mirrored (h : Mirrored label (Cursor.lastLine ts) (Cursor.lastLine us) ts us)
    (file : Option String) : parse (label.file file) us = label.result (parse file ts) := by
  have hstart : State.Mirrors label (.start (.ofTokens ts)) (.start (.ofTokens us)) :=
    .start rfl rfl h rfl
  unfold parse parseLinking
  rw [(mirroring label).readItems_eq file hstart]
  cases readItems .slot file (.ofTokens ts) with
  | error e => rfl
  | ok r =>
    obtain ⟨nodes, ns⟩ := r
    simp only [Relabelling.items, Relabelling.result, Relabelling.parsed, List.map_map]
    rfl

theorem parse_mirrored_same (h : Mirrored .same (Cursor.lastLine ts) (Cursor.lastLine us) ts us)
    (file : Option String) : parse file us = parse file ts := by
  rw [← Relabelling.result_same (parse file ts)]
  exact parse_mirrored h file

/-- Nothing behind an end of the stream is looked at, and an end that is not written is like one
on the line of the last token. -/
theorem parse_eos (file : Option String) (a : List Token) :
    (∀ line b, parse file (a ++ .eos line :: b) = parse file (a ++ [.eos line])) ∧
      parse file a = parse file (a ++ [.eos (Cursor.lastLine a)]) := by
  have hback {e e' : Line} {ts us : List Token} (h : Mirrored .same e e' ts us) :
      Mirrored .same e e' (a ++ ts) (a ++ us) := by
    have happend := h.append a
    rwa [Relabelling.map_token_same] at happend
  constructor
  · intro line b
    apply parse_mirrored_same
    apply hback
    exact .ended rfl rfl
  · apply parse_mirrored_same
    have hend : Mirrored .same (Cursor.lastLine (a ++ [.eos (Cursor.lastLine a)]))
        (Cursor.lastLine a) [.eos (Cursor.lastLine a)] [] := .ended rfl rfl
    have h := hback hend
    rwa [List.append_nil] at h

end Template

end TemplateTree
