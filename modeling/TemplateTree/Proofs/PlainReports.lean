import Mathlib.Data.List.Basic
import TemplateTree.Diagnostic.Render

/-!
Coloured and plain reports say the same. `Text.uncoloured` deletes every sequence that switches
colours, wherever it stands. What stands next to a piece of a report could complete a sequence or
spoil one, so each piece is compared with its plain form in front of any other text.
-/

namespace TemplateTree
set_option autoImplicit false

namespace Text

/-- What may stand between the start of a sequence that switches colours and its end. -/
def isColourCode (c : Char) : Bool := c.isDigit || c == ';'

/-- What stands behind the sequence that a text starts with, if it starts with one. -/
def behindColour? : List Char → Option (List Char)
  | '\x1b' :: '[' :: cs =>
    match cs.dropWhile isColourCode with
    | 'm' :: rest => some rest
    | _ => none
  | _ => none

theorem length_behindColour?_lt {cs rest : List Char} (h : behindColour? cs = some rest) :
    rest.length < cs.length := by
  unfold behindColour? at h
  split at h
  · rename_i cs'
    split at h
    · rename_i rest' hdrop
      have hle := (List.dropWhile_sublist isColourCode (l := cs')).length_le
      rw [hdrop] at hle
      obtain rfl := Option.some.inj h
      simp only [List.length_cons] at hle ⊢
      omega
    · cases h
  · cases h

/-- The text without its sequences. -/
def dropColours : List Char → List Char
  | [] => []
  | c :: cs =>
    match _h : behindColour? (c :: cs) with
    | some rest => dropColours rest
    | none => c :: dropColours cs
termination_by cs => cs.length
decreasing_by
  · exact length_behindColour?_lt ‹_›
  · simp

def uncoloured (s : String) : String := String.ofList (dropColours s.toList)

/-- No sequence starts in the text, nor could one that ends behind it. -/
def Clean (s : String) : Prop := '\x1b' ∉ s.toList

instance (s : String) : Decidable (Clean s) := inferInstanceAs (Decidable ('\x1b' ∉ s.toList))

/-- The one text is the other with sequences put into it, in front of any text. -/
structure Decorates (coloured plain : String) : Prop where
  dropped : ∀ cs, dropColours (coloured.toList ++ cs) = plain.toList ++ dropColours cs
  clean : Clean plain

theorem behindColour?_eq_none {c : Char} {cs : List Char} (h : c ≠ '\x1b') :
    behindColour? (c :: cs) = none := by
  unfold behindColour?
  split
  · rename_i heq
    exact absurd (List.cons.inj heq).1 h
  · rfl

theorem dropColours_cons {c : Char} {cs : List Char} (h : c ≠ '\x1b') :
    dropColours (c :: cs) = c :: dropColours cs := by
  rw [dropColours]
  split
  · rename_i rest hbehind
    rw [behindColour?_eq_none h] at hbehind
    cases hbehind
  · rfl

theorem dropColours_of_behind {cs rest : List Char} (h : behindColour? cs = some rest) :
    dropColours cs = dropColours rest := by
  cases cs with
  | nil => cases h
  | cons c cs =>
    rw [dropColours]
    split
    · rename_i rest' hbehind
      rw [h] at hbehind
      rw [Option.some.inj hbehind]
    · rename_i hbehind
      rw [h] at hbehind
      cases hbehind

theorem dropColours_append {cs : List Char} (h : '\x1b' ∉ cs) (rest : List Char) :
    dropColours (cs ++ rest) = cs ++ dropColours rest := by
  induction cs with
  | nil => rfl
  | cons c cs ih =>
    simp only [List.mem_cons, not_or] at h
    rw [List.cons_append, dropColours_cons (Ne.symm h.1), ih h.2, List.cons_append]

/-! ### Clean texts -/

theorem Clean.append {a b : String} (ha : Clean a) (hb : Clean b) : Clean (a ++ b) := by
  intro h
  rw [String.toList_append, List.mem_append] at h
  exact h.elim ha hb

theorem clean_toString (n : Nat) : Clean (toString n) := by
  intro h
  have hdigits : '\x1b' ∈ Nat.toDigits 10 n := by simpa using h
  have hdigit := Nat.isDigit_of_mem_toDigits (by decide) (by decide) hdigits
  exact absurd hdigit (by decide)

theorem mem_dropReturn {c : Char} {line : List Char} (h : c ∈ dropReturn line) : c ∈ line := by
  unfold dropReturn at h
  split at h
  · exact List.dropLast_subset line h
  · exact h

theorem mem_of_mem_linesFrom {c : Char} {l : List Char} (cs line : List Char)
    (hl : l ∈ linesFrom line cs) (hc : c ∈ l) : c ∈ line ∨ c ∈ cs := by
  induction cs generalizing line with
  | nil =>
    unfold linesFrom at hl
    split at hl
    · cases hl
    · rw [List.mem_singleton.mp hl] at hc
      exact Or.inl hc
  | cons d cs ih =>
    unfold linesFrom at hl
    split at hl
    · rcases List.mem_cons.mp hl with rfl | hl
      · exact Or.inl (mem_dropReturn hc)
      · rcases ih [] hl with h | h
        · cases h
        · exact Or.inr (List.mem_cons_of_mem d h)
    · rcases ih (line ++ [d]) hl with h | h
      · rcases List.mem_append.mp h with h | h
        · exact Or.inl h
        · rw [List.mem_singleton.mp h]
          exact Or.inr (List.mem_cons_self ..)
      · exact Or.inr (List.mem_cons_of_mem d h)

theorem Clean.of_mem_lines {s line : String} (h : Clean s) (hline : line ∈ lines s) :
    Clean line := by
  obtain ⟨l, hl, rfl⟩ := List.mem_map.mp hline
  intro hmem
  rw [String.toList_ofList] at hmem
  rcases mem_of_mem_linesFrom _ _ hl hmem with hnil | hs
  · cases hnil
  · exact h hs

/-! ### What decorates a text -/

namespace Decorates

variable {a a' b b' : String}

theorem uncoloured_eq (h : Decorates a b) : uncoloured a = b := by
  have hdropped := h.dropped []
  rw [List.append_nil] at hdropped
  unfold uncoloured
  rw [hdropped, dropColours, List.append_nil, String.ofList_toList]

theorem of_clean (h : Clean a) : Decorates a a := ⟨dropColours_append h, h⟩

theorem sequence (h : ∀ cs, behindColour? (a.toList ++ cs) = some cs) : Decorates a "" :=
  ⟨fun cs => dropColours_of_behind (h cs), by decide⟩

theorem append (h : Decorates a b) (h' : Decorates a' b') : Decorates (a ++ a') (b ++ b') := by
  refine ⟨?_, h.clean.append h'.clean⟩
  intro cs
  rw [String.toList_append, String.toList_append, List.append_assoc, h.dropped, h'.dropped,
    List.append_assoc]

theorem behind {s : String} (h : Decorates a b) (hs : Clean s) : Decorates (a ++ s) (b ++ s) :=
  h.append (of_clean hs)

theorem join {α : Type} (f g : α → String) (xs : List α)
    (h : ∀ x ∈ xs, Decorates (f x) (g x)) :
    Decorates (String.join (xs.map f)) (String.join (xs.map g)) := by
  induction xs with
  | nil => exact of_clean (show Clean "" by decide)
  | cons x xs ih =>
    have hx := h x (List.mem_cons_self ..)
    have hxs := ih fun y hy => h y (List.mem_cons_of_mem x hy)
    simpa [String.join_cons] using hx.append hxs

end Decorates

end Text

open Text

/-- Every sequence of the one palette decorates that of the other. -/
structure Palette.Decorates (p q : Palette) : Prop where
  red : Text.Decorates p.red q.red
  dim : Text.Decorates p.dim q.dim
  cyan : Text.Decorates p.cyan q.cyan
  bold : Text.Decorates p.bold q.bold
  reset : Text.Decorates p.reset q.reset

theorem Palette.ansi_decorates : Palette.ansi.Decorates Palette.plain where
  red := .sequence fun _ => by simp [Palette.ansi, behindColour?, isColourCode]
  dim := .sequence fun _ => by simp [Palette.ansi, behindColour?, isColourCode]
  cyan := .sequence fun _ => by simp [Palette.ansi, behindColour?, isColourCode]
  bold := .sequence fun _ => by simp [Palette.ansi, behindColour?, isColourCode]
  reset := .sequence fun _ => by simp [Palette.ansi, behindColour?, isColourCode]

theorem TokenKind.clean_wireName (k : TokenKind) : Clean k.wireName := by
  cases k <;> decide

namespace Diagnostic

variable {p q : Palette}

/-- The texts of a report that come from outside. -/
def strings (d : Diagnostic) : List String := d.message :: d.file.toList ++ d.help.toList

theorem helpLines_decorates (h : p.Decorates q) {lines : List String}
    (hclean : ∀ line ∈ lines, Clean line) :
    Text.Decorates (helpLines p lines) (helpLines q lines) := by
  cases lines with
  | nil => exact .of_clean (show Clean "" by decide)
  | cons first rest =>
    have hfirst : Clean first := hclean first (List.mem_cons_self ..)
    have hlabel : Text.Decorates (" " ++ p.cyan ++ "help:" ++ p.reset)
        (" " ++ q.cyan ++ "help:" ++ q.reset) :=
      (((Decorates.of_clean (by decide)).append h.cyan).behind (by decide)).append h.reset
    have hrest : ∀ line ∈ rest, Text.Decorates ("       " ++ line ++ "\n")
        ("       " ++ line ++ "\n") := by
      intro line hline
      have hline := hclean line (List.mem_cons_of_mem first hline)
      exact ((Decorates.of_clean (by decide)).behind hline).behind (by decide)
    exact (((hlabel.behind (by decide)).behind hfirst).behind (by decide)).append
      (Decorates.join _ _ rest hrest)

theorem clean_fileLabel {file : Option String} (h : ∀ s ∈ file.toList, Clean s) :
    Clean (fileLabel file) := by
  cases file with
  | none => exact (by decide : Clean "<anonymous>")
  | some name => exact h name (by simp)

/-- The layout of a report is the same for every palette. -/
theorem render_decorates (h : p.Decorates q) {d : Diagnostic}
    (hclean : ∀ s ∈ d.strings, Clean s) : Text.Decorates (d.render p) (d.render q) := by
  have hfile : Clean (fileLabel d.file) :=
    clean_fileLabel fun s hs => hclean s (by simp [strings, Option.mem_toList.mp hs])
  have hmessage : Clean d.message := hclean d.message (by simp [strings])
  have hlabel : Text.Decorates ("\n" ++ " " ++ p.dim ++ "file:" ++ p.reset)
      ("\n" ++ " " ++ q.dim ++ "file:" ++ q.reset) :=
    (((Decorates.of_clean (by decide)).append h.dim).behind (by decide)).append h.reset
  have hplace := ((((hlabel.behind (show Clean " " by decide)).behind hfile).behind
    (show Clean ":" by decide)).behind (clean_toString d.line.toNat)).behind
      (show Clean "\n" by decide)
  have herror := ((((hplace.append h.red).behind (show Clean "error:" by decide)).append
    h.reset).behind (show Clean " " by decide)).behind hmessage
  refine (((herror.behind (by decide)).append ?kinds).append ?help).behind (by decide)
  case kinds =>
    split
    · rename_i expected found _ _
      have hbar := (h.dim.behind (show Clean "   |" by decide)).append h.reset
      exact ((((hbar.behind (by decide)).behind expected.clean_wireName).behind
        (by decide)).behind found.clean_wireName).behind (by decide)
    · exact .of_clean (by decide)
  case help =>
    split
    · rename_i help heq
      have hlines : ∀ line ∈ Text.lines help, Clean line := fun line hline =>
        Clean.of_mem_lines (hclean help (by simp [strings, heq])) hline
      exact (Decorates.of_clean (by decide)).append (helpLines_decorates h hlines)
    · exact .of_clean (by decide)

end Diagnostic

namespace CompileError

/-- The texts of an error that come from outside. -/
def strings : CompileError → List String
  | .parse d => d.strings
  | .decode message => [message]

theorem renderColor_decorates {e : CompileError} (h : ∀ s ∈ e.strings, Clean s) :
    Text.Decorates e.renderColor e.render := by
  cases e with
  | parse d => exact d.render_decorates Palette.ansi_decorates h
  | decode message =>
    have hansi := Palette.ansi_decorates
    have hdisplay : Clean (display (.decode message)) :=
      (show Clean "Invalid token stream: " by decide).append (h message (by simp [strings]))
    have herror : Text.Decorates (Palette.ansi.red ++ "error" ++ Palette.ansi.reset) "error" :=
      (hansi.red.behind (show Clean "error" by decide)).append hansi.reset
    have hreport := ((((herror.behind (show Clean ": " by decide)).append hansi.bold).behind
      hdisplay).append hansi.reset).behind (show Clean "\n" by decide)
    have hplain : "error" ++ ": " ++ "" ++ display (.decode message) ++ "" ++ "\n" =
        render (.decode message) := by
      simp [render]
    rw [← hplain]
    exact hreport

/-- Coloured and plain reports say the same, whatever texts they quote: without its sequences the
coloured one is the plain one, in which none is left. -/
theorem uncoloured_renderColor (e : CompileError) (h : ∀ s ∈ e.strings, Clean s) :
    uncoloured e.renderColor = e.render ∧ Clean e.render :=
  ⟨(renderColor_decorates h).uncoloured_eq, (renderColor_decorates h).clean⟩

/-- All parts of a report at once, with a help of two lines whose text looks like the rest of a
sequence. -/
theorem uncoloured_renderColor_of_help :
    uncoloured (renderColor (.parse ⟨.unexpectedToken, "[31m", 3, some "m.pug", some .indent,
      some .newline, some "[0m\nm"⟩)) =
        render (.parse ⟨.unexpectedToken, "[31m", 3, some "m.pug", some .indent,
          some .newline, some "[0m\nm"⟩) ∧
      Clean (render (.parse ⟨.unexpectedToken, "[31m", 3, some "m.pug", some .indent,
        some .newline, some "[0m\nm"⟩)) :=
  uncoloured_renderColor _ (by decide)

end CompileError

end TemplateTree
