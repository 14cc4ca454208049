import Mathlib.Data.List.Nodup
import TemplateTree.Grammar.Head

/-!
What the head tokens of a tag contribute to it: attributes, attribute blocks, and whether the tag
is closed. A run of them is accepted when no name but class is given twice.
-/

namespace TemplateTree
set_option autoImplicit false

namespace Token

/-- The attributes that a head token gives. -/
def attributes (t : Token) : List Attribute :=
  match t.lexeme with
  | .idName name => [.shorthand "id" name]
  | .className name => [.shorthand "class" name]
  | .attrs list _ => list
  | _ => []

def attributeBlock? (t : Token) : Option String :=
  match t.lexeme with
  | .attributeBlock source => some source
  | _ => none

def isClosing (t : Token) : Bool :=
  match t.lexeme with
  | .attrs _ selfClosing => selfClosing
  | _ => false

end Token

namespace Head

/-- What a head says together with the head tokens that follow. -/
def extendedBy (h : Head) (run : List Token) : Head :=
  ⟨h.selfClosing || run.any Token.isClosing, h.attrs ++ run.flatMap Token.attributes,
    h.attributeBlocks ++ run.filterMap Token.attributeBlock?⟩

def gather (selfClosing : Bool) (heads : List Token) : Head :=
  extendedBy ⟨selfClosing, [], []⟩ heads

@[simp] theorem gather_nil (selfClosing : Bool) :
    gather selfClosing [] = ⟨selfClosing, [], []⟩ := by
  simp [gather, extendedBy]

/-- The names that only one attribute may carry. -/
def uniqueNames (attrs : List Attribute) : List String :=
  (attrs.map Attribute.name).filter (· ≠ "class")

theorem ok_bind {α β ε : Type} {x : Except ε α} {f : α → Except ε β} {b : β} :
    (x >>= f) = .ok b ↔ ∃ a, x = .ok a ∧ f a = .ok b := by
  cases x with
  | error e => simp [bind, Except.bind]
  | ok a => simp [bind, Except.bind]

variable {h h' : Head} {line : Line} {selfClosing : Bool}

theorem uniqueNames_append (as bs : List Attribute) :
    uniqueNames (as ++ bs) = uniqueNames as ++ uniqueNames bs := by
  simp [uniqueNames]

theorem nodup_uniqueNames_concat {as : List Attribute} {a : Attribute} :
    (uniqueNames (as ++ [a])).Nodup ↔ (uniqueNames as).Nodup ∧
      ¬ (a.name ≠ "class" ∧ as.any (fun b => b.name == a.name) = true) := by
  rw [uniqueNames_append]
  by_cases ha : a.name = "class"
  · simp [uniqueNames, ha]
  · have hm : a.name ∈ uniqueNames as ↔ as.any (fun b => b.name == a.name) = true := by
      simp [uniqueNames, ha]
    have hs : uniqueNames [a] = [a.name] := by simp [uniqueNames, ha]
    rw [hs, ← hm, List.nodup_append]
    constructor
    · rintro ⟨hn, _, hd⟩
      exact ⟨hn, fun hc => hd _ hc.2 _ (List.mem_singleton_self _) rfl⟩
    · rintro ⟨hn, hd⟩
      refine ⟨hn, List.nodup_singleton _, fun b hb c hc => ?_⟩
      rintro rfl
      exact hd ⟨ha, List.mem_singleton.mp hc ▸ hb⟩

theorem addAttribute_ok {a : Attribute} (hn : (uniqueNames h.attrs).Nodup) :
    h.addAttribute line a = .ok h' ↔
      (uniqueNames (h.attrs ++ [a])).Nodup ∧ h' = { h with attrs := h.attrs ++ [a] } := by
  rw [nodup_uniqueNames_concat, addAttribute]
  split
  · next hd => simp [hd]
  · next hd =>
    rw [Except.ok.injEq]
    exact ⟨fun he => ⟨⟨hn, hd⟩, he.symm⟩, fun he => he.2.symm⟩

theorem nodup_of_append {as bs : List Attribute} (h : (uniqueNames (as ++ bs)).Nodup) :
    (uniqueNames as).Nodup := by
  rw [uniqueNames_append] at h
  exact (List.nodup_append.mp h).1

theorem foldlM_addAttribute_ok {list : List Attribute} (hn : (uniqueNames h.attrs).Nodup) :
    list.foldlM (addAttribute line) h = .ok h' ↔
      (uniqueNames (h.attrs ++ list)).Nodup ∧ h' = { h with attrs := h.attrs ++ list } := by
  induction list generalizing h with
  | nil =>
    rw [List.append_nil, List.foldlM_nil]
    exact ⟨fun he => ⟨hn, (Except.ok.inj he).symm⟩, fun he => congrArg Except.ok he.2.symm⟩
  | cons a list ih =>
    rw [List.foldlM_cons, ok_bind, List.append_cons h.attrs a list]
    constructor
    · rintro ⟨h₁, ha, hr⟩
      obtain ⟨hn₁, rfl⟩ := (addAttribute_ok hn).mp ha
      exact (ih hn₁).mp hr
    · rintro ⟨hn', rfl⟩
      have hn₁ := nodup_of_append hn'
      exact ⟨_, (addAttribute_ok hn).mpr ⟨hn₁, rfl⟩, (ih hn₁).mpr ⟨hn', rfl⟩⟩

theorem extendedBy_singleton (t : Token) : h.extendedBy [t] = ⟨h.selfClosing || t.isClosing,
    h.attrs ++ t.attributes, h.attributeBlocks ++ t.attributeBlock?.toList⟩ := by
  simp [extendedBy, List.filterMap_cons]
  cases t.attributeBlock? <;> rfl

theorem addToken_ok {t : Token} (hn : (uniqueNames h.attrs).Nodup) :
    h.addToken t = .ok h' ↔
      (uniqueNames (h.attrs ++ t.attributes)).Nodup ∧ h' = h.extendedBy [t] := by
  rw [extendedBy_singleton]
  obtain ⟨line, lexeme⟩ := t
  have hk : (Except.ok h : Except Fault Head) = .ok h' ↔
      (uniqueNames (h.attrs ++ [])).Nodup ∧
        h' = ⟨h.selfClosing || false, h.attrs ++ [], h.attributeBlocks ++ []⟩ := by
    simp only [List.append_nil, Bool.or_false, hn, true_and, Except.ok.injEq]
    exact eq_comm
  cases lexeme with
  | idName name | className name =>
    simpa [addToken, Token.isClosing, Token.attributes, Token.attributeBlock?] using
      addAttribute_ok hn
  | attrs list closing =>
    simpa [addToken, Token.isClosing, Token.attributes, Token.attributeBlock?] using
      foldlM_addAttribute_ok (h := { h with selfClosing := h.selfClosing || closing }) hn
  | attributeBlock source =>
    simp [addToken, Token.isClosing, Token.attributes, Token.attributeBlock?, hn]
    exact eq_comm
  | _ => exact hk

theorem extendedBy_cons (t : Token) (run : List Token) :
    h.extendedBy (t :: run) = (h.extendedBy [t]).extendedBy run := by
  rw [extendedBy_singleton]
  cases hb : t.attributeBlock? <;> simp [extendedBy, hb, Bool.or_assoc]

theorem foldlM_addToken_ok {run : List Token} (hn : (uniqueNames h.attrs).Nodup) :
    run.foldlM addToken h = .ok h' ↔
      (uniqueNames (h.attrs ++ run.flatMap Token.attributes)).Nodup ∧ h' = h.extendedBy run := by
  induction run generalizing h with
  | nil =>
    rw [List.foldlM_nil]
    simp [extendedBy, hn, pure, Except.pure]
    exact eq_comm
  | cons t run ih =>
    have ht : (h.extendedBy [t]).attrs = h.attrs ++ t.attributes := by simp [extendedBy]
    have ha : h.attrs ++ (t :: run).flatMap Token.attributes =
        (h.extendedBy [t]).attrs ++ run.flatMap Token.attributes := by simp [extendedBy]
    rw [List.foldlM_cons, ok_bind, ha, extendedBy_cons t run]
    constructor
    · rintro ⟨h₁, hadd, hr⟩
      obtain ⟨hn₁, rfl⟩ := (addToken_ok hn).mp hadd
      rw [← ht] at hn₁
      exact (ih hn₁).mp hr
    · rintro ⟨hn', rfl⟩
      have hn₁ := nodup_of_append hn'
      rw [ht] at hn₁
      refine ⟨_, (addToken_ok hn).mpr ⟨hn₁, rfl⟩, ?_⟩
      rw [← ht] at hn₁
      exact (ih hn₁).mpr ⟨hn', rfl⟩

theorem ofRun_ok {run : List Token} : ofRun selfClosing run = .ok h ↔
    (uniqueNames (run.flatMap Token.attributes)).Nodup ∧ h = gather selfClosing run :=
  foldlM_addToken_ok (h := ⟨selfClosing, [], []⟩) List.nodup_nil

theorem exists_ofRun_ok {run more : List Token} (h : ofRun selfClosing (run ++ more) = .ok h') :
    ∃ h, ofRun selfClosing run = .ok h := by
  have hn := (ofRun_ok.mp h).1
  rw [List.flatMap_append] at hn
  exact ⟨_, ofRun_ok.mpr ⟨nodup_of_append hn, rfl⟩⟩

theorem foldlM_error {α β ε : Type} {f : β → α → Except ε β} {xs : List α} {b : β} {e : ε} :
    xs.foldlM f b = .error e ↔ ∃ before x after b', xs = before ++ x :: after ∧
      before.foldlM f b = .ok b' ∧ f b' x = .error e := by
  induction xs generalizing b with
  | nil => simp [pure, Except.pure]
  | cons y ys ih =>
    rw [List.foldlM_cons]
    cases hy : f b y with
    | error e' =>
      constructor
      · rintro ⟨⟩
        exact ⟨[], y, ys, b, rfl, rfl, hy⟩
      · rintro ⟨before, x, after, b', heq, hb, hx⟩
        cases before with
        | nil =>
          cases heq
          cases hb
          exact hy.symm.trans hx
        | cons z before =>
          cases heq
          obtain ⟨_, hz, _⟩ := ok_bind.mp hb
          cases hy.symm.trans hz
    | ok b₁ =>
      refine Iff.trans (ih (b := b₁)) ?_
      constructor
      · rintro ⟨before, x, after, b', rfl, hb, hx⟩
        exact ⟨y :: before, x, after, b', rfl, ok_bind.mpr ⟨b₁, hy, hb⟩, hx⟩
      · rintro ⟨before, x, after, b', heq, hb, hx⟩
        cases before with
        | nil =>
          cases heq
          cases hb
          cases hy.symm.trans hx
        | cons z before =>
          cases heq
          obtain ⟨_, hz, hb⟩ := ok_bind.mp hb
          cases hy.symm.trans hz
          exact ⟨before, x, after, b', rfl, hb, hx⟩

/-- Head tokens give a name again that only one attribute may carry. Up to there no such name is
repeated, and the token that repeats this one stands on the given line. -/
def RepeatedAt (run : List Token) (name : String) (line : Line) : Prop :=
  ∃ before t after given a more, run = before ++ t :: after ∧ t.attributes = given ++ a :: more ∧
    (uniqueNames (before.flatMap Token.attributes ++ given)).Nodup ∧ a.name ≠ "class" ∧
      (∃ b ∈ before.flatMap Token.attributes ++ given, b.name = a.name) ∧
        a.name = name ∧ t.line = line

theorem addAttribute_error {a : Attribute} {e : Fault} : h.addAttribute line a = .error e ↔
    (a.name ≠ "class" ∧ ∃ b ∈ h.attrs, b.name = a.name) ∧
      e = ⟨.duplicateAttribute a.name, line⟩ := by
  have hany : h.attrs.any (fun b => b.name == a.name) = true ↔ ∃ b ∈ h.attrs, b.name = a.name := by
    simp
  rw [addAttribute, ← hany]
  split
  · next hd =>
    rw [Except.error.injEq, and_iff_right hd]
    exact eq_comm
  · next hd => exact iff_of_false nofun fun he => hd he.1

/-- The attributes of one token are refused at the first one that repeats a name. -/
theorem foldlM_addAttribute_error {list : List Attribute} {e : Fault}
    (hn : (uniqueNames h.attrs).Nodup) : list.foldlM (addAttribute line) h = .error e ↔
      ∃ given a more, list = given ++ a :: more ∧ (uniqueNames (h.attrs ++ given)).Nodup ∧
        (a.name ≠ "class" ∧ ∃ b ∈ h.attrs ++ given, b.name = a.name) ∧
          e = ⟨.duplicateAttribute a.name, line⟩ := by
  rw [foldlM_error]
  constructor
  · rintro ⟨given, a, more, h', rfl, hok, he⟩
    obtain ⟨hn', rfl⟩ := (foldlM_addAttribute_ok hn).mp hok
    obtain ⟨hd, rfl⟩ := addAttribute_error.mp he
    exact ⟨given, a, more, rfl, hn', hd, rfl⟩
  · rintro ⟨given, a, more, rfl, hn', hd, rfl⟩
    exact ⟨given, a, more, _, rfl, (foldlM_addAttribute_ok hn).mpr ⟨hn', rfl⟩,
      addAttribute_error.mpr ⟨hd, rfl⟩⟩

theorem addToken_error_iff {t : Token} {e : Fault} (hn : (uniqueNames h.attrs).Nodup) :
    h.addToken t = .error e ↔ ∃ given a more, t.attributes = given ++ a :: more ∧
      (uniqueNames (h.attrs ++ given)).Nodup ∧
        (a.name ≠ "class" ∧ ∃ b ∈ h.attrs ++ given, b.name = a.name) ∧
          e = ⟨.duplicateAttribute a.name, t.line⟩ := by
  have hone (a : Attribute) : h.addAttribute t.line a = .error e ↔
      [a].foldlM (addAttribute t.line) h = .error e := by
    rw [List.foldlM_cons]
    cases h.addAttribute t.line a with
    | error e' => exact Iff.rfl
    | ok h' => exact iff_of_false nofun nofun
  obtain ⟨line, lexeme⟩ := t
  cases lexeme with
  | idName | className => exact (hone _).trans (foldlM_addAttribute_error hn)
  | attrs list selfClosing =>
    exact foldlM_addAttribute_error (h := { h with selfClosing := h.selfClosing || selfClosing }) hn
  | _ =>
    refine iff_of_false nofun ?_
    rintro ⟨given, a, more, hattrs, _⟩
    exact List.append_ne_nil_of_right_ne_nil given (List.cons_ne_nil a more) hattrs.symm

/-- A run of head tokens is refused at the first name it gives again. -/
theorem ofRun_error {run : List Token} {e : Fault} : ofRun selfClosing run = .error e ↔
    ∃ name line, RepeatedAt run name line ∧ e = ⟨.duplicateAttribute name, line⟩ := by
  have hnil : (uniqueNames (Head.mk selfClosing [] []).attrs).Nodup := List.nodup_nil
  rw [ofRun, foldlM_error]
  constructor
  · rintro ⟨before, t, after, h', rfl, hok, he⟩
    obtain ⟨hn, rfl⟩ := (foldlM_addToken_ok hnil).mp hok
    obtain ⟨given, a, more, hattrs, hn', ⟨hclass, htaken⟩, rfl⟩ := (addToken_error_iff hn).mp he
    exact ⟨_, _, ⟨before, t, after, given, a, more, rfl, hattrs, hn', hclass, htaken, rfl, rfl⟩,
      rfl⟩
  · rintro ⟨_, _, ⟨before, t, after, given, a, more, rfl, hattrs, hn', hclass, htaken, rfl, rfl⟩,
      rfl⟩
    have hn : (uniqueNames (before.flatMap Token.attributes)).Nodup := nodup_of_append hn'
    exact ⟨before, t, after, _, rfl, (foldlM_addToken_ok hnil).mpr ⟨hn, rfl⟩,
      (addToken_error_iff hn).mpr ⟨given, a, more, hattrs, hn', ⟨hclass, htaken⟩, rfl⟩⟩

theorem exists_repeatedAt {run : List Token}
    (h : ¬ (uniqueNames (run.flatMap Token.attributes)).Nodup) :
    ∃ name line, RepeatedAt run name line := by
  cases hr : ofRun false run with
  | ok head => exact absurd (ofRun_ok.mp hr).1 h
  | error e =>
    obtain ⟨name, line, hrepeated, _⟩ := ofRun_error.mp hr
    exact ⟨name, line, hrepeated⟩

/-- Where one more token gives a name twice, it is the one that gives it again. -/
theorem exists_repeatedAt_concat {run : List Token} {t : Token}
    (hn : (uniqueNames (run.flatMap Token.attributes)).Nodup)
    (ht : ¬ (uniqueNames ((run ++ [t]).flatMap Token.attributes)).Nodup) :
    ∃ name, RepeatedAt (run ++ [t]) name t.line := by
  have hrun : (uniqueNames (gather false run).attrs).Nodup := hn
  rw [List.flatMap_append, List.flatMap_singleton] at ht
  cases hadd : (gather false run).addToken t with
  | ok h => exact absurd ((addToken_ok hrun).mp hadd).1 ht
  | error e =>
    obtain ⟨given, a, more, hattrs, hgiven, ⟨hclass, htaken⟩, _⟩ :=
      (addToken_error_iff hrun).mp hadd
    exact ⟨a.name, run, t, [], given, a, more, rfl, hattrs, hgiven, hclass, htaken, rfl, rfl⟩

/-- A name that is taken is reported on the line of the token that gives it again. -/
theorem addToken_error {t : Token} {e : Fault} (he : h.addToken t = .error e) :
    e.line = t.line ∧ e.cause.found? = none := by
  have hattribute {h : Head} {a : Attribute} (he : h.addAttribute t.line a = .error e) :
      e.line = t.line ∧ e.cause.found? = none := by
    unfold addAttribute at he
    split at he
    · cases he
      exact ⟨rfl, rfl⟩
    · cases he
  unfold addToken at he
  split at he
  · exact hattribute he
  · exact hattribute he
  · obtain ⟨_, _, _, _, _, _, ha⟩ := foldlM_error.mp he
    exact hattribute ha
  · cases he
  · cases he

end Head

end TemplateTree
