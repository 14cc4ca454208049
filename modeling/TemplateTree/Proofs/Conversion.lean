import Mathlib.Data.List.Induction
import Mathlib.Data.Set.List
import TemplateTree.Command.Run
import TemplateTree.Proofs.Files

/-!
Converting a directory. Each stream in it is converted as if it were alone: what comes of it is
what the command prints for it from standard input, neither other streams nor their failures
change that, and the order in which they are taken does not matter.
-/

namespace TemplateTree
set_option autoImplicit false

namespace Command

/-- A stream below a directory, named without the ending of its file. -/
structure Source where
  below : Place
  stem : String

namespace Source

def tokens (s : Source) : Place := s.below ++ [s.stem ++ tokenEnding]

def tree (s : Source) : Place := s.below ++ [s.stem ++ treeEnding]

/-- The path by which messages speak of the stream. -/
def path (directory : String) (s : Source) : String := s.tokens.foldl FilePath.join directory

/-- The path by which messages speak of its tree. -/
def treePath (directory : String) (s : Source) : String :=
  FilePath.sibling (s.path directory) (s.stem ++ treeEnding)

/-- The name of the template: the path without the ending. -/
def template (directory : String) (s : Source) : String :=
  (s.below ++ [s.stem]).foldl FilePath.join directory

end Source

/-- What the command does with a stream from standard input. -/
def fromInput (format : Format) (template : String) (bytes : ByteArray) : Outcome :=
  run (.standardInput (some template) format) none (.directory []) bytes

variable (format : Format) (place : Place) (directory : String) (t : FileTree)

/-- There is a file for the stream. -/
def IsSource (s : Source) : Prop := ∃ bytes, t.entryAt (place ++ s.tokens) = some (.file bytes)

/-- A stream is accepted as one from standard input is, which gives the text of its tree, and no
directory has the name of its tree file. -/
def Converts (s : Source) (text : String) : Prop :=
  ∃ bytes, t.entryAt (place ++ s.tokens) = some (.file bytes) ∧
    (fromInput format (s.template directory) bytes).success = true ∧
    (fromInput format (s.template directory) bytes).output = text ∧
    t.entryAt (place ++ s.tree) ≠ some .directory

/-- What comes of a stream when nothing else is converted. -/
def alone (s : Source) : Bool × Progress :=
  convertFile format (place ++ s.tokens) (s.path directory) ⟨t, "", []⟩

/-- What converting a directory of a tree comes to. -/
structure ConvertsEach (o : Outcome) : Prop where
  /-- A stream that can be converted has its tree beside it. -/
  written : ∀ s text, Converts format place directory t s text →
    o.progress.tree.entryAt (place ++ s.tree) = some (.file text.toUTF8)
  /-- Nothing else changes. -/
  kept : ∀ q, (∀ s text, Converts format place directory t s text → q ≠ place ++ s.tree) →
    o.progress.tree.entryAt q = t.entryAt q
  /-- Every stream is tried, and reported on as if it were alone; then comes the count. -/
  tried : ∃ sources : List Source, sources.Nodup ∧ (∀ s, s ∈ sources ↔ IsSource place t s) ∧
    o.progress.messages =
      if sources = [] then "No " ++ tokenEnding ++ " files found in " ++ directory ++ "\n"
      else String.join (sources.map fun s => (alone format place directory t s).2.messages) ++
        closing o.progress.written.length
  /-- As many files are written as are counted. -/
  count : ∃ outputs : List Place, outputs.Nodup ∧ outputs.length = o.progress.written.length ∧
    ∀ q, q ∈ outputs ↔ ∃ s text, Converts format place directory t s text ∧ q = place ++ s.tree
  exit : exitCode o.success = 0 ↔ (∃ s, IsSource place t s) ∧
    ∀ s, IsSource place t s → ∃ text, Converts format place directory t s text
  /-- The order of the streams decides nothing about the files. -/
  anyOrder : ∀ order : List Source, (∀ s, s ∈ order ↔ IsSource place t s) → ∀ q,
    (convertAll format place directory (order.map Source.tokens) ⟨t, "", []⟩).2.tree.entryAt q =
      o.progress.tree.entryAt q

variable {format place directory t}

/-! One stream -/

/-- From standard input the same is read as from a file. -/
theorem fromInput_eq (complaint template : String) (bytes : ByteArray) (text : String) :
    (fromInput format template bytes).success = true ∧
      (fromInput format template bytes).output = text ↔
        (convert format (some template) complaint bytes).1 = some text := by
  simp only [fromInput, run, convert]
  cases String.fromUTF8? bytes with
  | none => simp
  | some input =>
    dsimp only
    cases Template.compileText (some template) input with
    | error e => simp
    | ok p => simp

namespace Source

variable {s s' : Source}

theorem path_eq (directory : String) (s : Source) :
    s.path directory = s.template directory ++ tokenEnding := by
  rw [path, template, tokens, List.foldl_append, List.foldl_append]
  exact FilePath.join_append _ _ _

theorem name_path (h : '/' ∉ (s.stem ++ tokenEnding).toList) :
    FilePath.name (s.path directory) = s.stem ++ tokenEnding := by
  rw [path, tokens, List.foldl_append]
  exact FilePath.name_join h

theorem outputName_eq (s : Source) : outputName (s.stem ++ tokenEnding) = s.stem ++ treeEnding := by
  rw [outputName, FilePath.dropEnding?_eq_some.mpr rfl, Option.getD_some]

theorem append_right_injective {ending a b : String} (h : a ++ ending = b ++ ending) : a = b := by
  have hlist := congrArg String.toList h
  rw [String.toList_append, String.toList_append] at hlist
  exact String.toList_injective (List.append_cancel_right hlist)

theorem eq_of_ends {ending : String}
    (h : s.below ++ [s.stem ++ ending] = s'.below ++ [s'.stem ++ ending]) : s = s' := by
  obtain ⟨hbelow, hname⟩ := List.append_inj' h rfl
  have hstem := append_right_injective (List.cons.inj hname).1
  cases s
  cases s'
  cases hbelow
  cases hstem
  rfl

theorem tokens_injective : Function.Injective tokens := fun _ _ h => eq_of_ends h

theorem tree_injective : Function.Injective tree := fun _ _ h => eq_of_ends h

/-- No file is both a stream and a tree. -/
theorem tokens_ne_tree (s s' : Source) : s.tokens ≠ s'.tree := by
  intro h
  have hname := (List.cons.inj (List.append_inj' h rfl).2).1
  have hlast := congrArg (fun n => n.toList.reverse.take 7) hname
  simp [tokenEnding, treeEnding, String.toList_append] at hlast

end Source

/-- The text that a stream is converted to, unless its way is blocked by a directory, and what is
said about it. -/
def attempt (format : Format) (directory : String) (s : Source) (blocked : Bool)
    (bytes : ByteArray) : Option String × String :=
  match convert format (some (s.template directory)) ("Error: failed to read " ++ s.path directory)
      bytes with
  | (none, messages) => (none, messages)
  | (some text, messages) =>
    if blocked then
      (none, messages ++ ("Error: failed to write " ++ s.treePath directory ++
        ": Is a directory (os error 21)\n"))
    else (some text, messages ++ ("  ✓ " ++ s.treePath directory ++ "\n"))

section

variable {s : Source} {bytes : ByteArray} {blocked : Bool} {text messages : String} {p : Progress}

theorem converts_iff (hs : t.entryAt (place ++ s.tokens) = some (.file bytes))
    (hb : t.entryAt (place ++ s.tree) = some .directory ↔ blocked = true) :
    Converts format place directory t s text ↔
      (attempt format directory s blocked bytes).1 = some text := by
  have hbytes : Converts format place directory t s text ↔
      ((fromInput format (s.template directory) bytes).success = true ∧
        (fromInput format (s.template directory) bytes).output = text) ∧ blocked ≠ true := by
    rw [Ne, ← hb]
    constructor
    · rintro ⟨other, ho, hok, htext, hd⟩
      rw [hs] at ho
      cases ho
      exact ⟨⟨hok, htext⟩, hd⟩
    · rintro ⟨⟨hok, htext⟩, hd⟩
      exact ⟨bytes, hs, hok, htext, hd⟩
  rw [hbytes, fromInput_eq ("Error: failed to read " ++ s.path directory), attempt]
  cases convert format (some (s.template directory)) ("Error: failed to read " ++ s.path directory)
    bytes with
  | mk converted messages =>
    cases converted with
    | none => simp
    | some text => cases blocked <;> simp

theorem exists_write_tree (hs : p.tree.entryAt (place ++ s.tokens) = some (.file bytes)) :
    (∃ tree, p.tree.write text.toUTF8 (place ++ s.tree) = some tree) ↔
      p.tree.entryAt (place ++ s.tree) ≠ some .directory := by
  rw [Source.tokens, ← List.append_assoc] at hs
  rw [Source.tree, ← List.append_assoc, FileTree.exists_write_iff]
  exact and_iff_right (FileTree.entryAt_parent hs)

/-- What converting a file does, in terms of its stream. -/
theorem convertFile_eq (hs : p.tree.entryAt (place ++ s.tokens) = some (.file bytes))
    (hname : '/' ∉ (s.stem ++ tokenEnding).toList) :
    convertFile format (place ++ s.tokens) (s.path directory) p =
      match convert format (some (s.template directory))
        ("Error: failed to read " ++ s.path directory) bytes with
      | (none, messages) => (false, p.say messages)
      | (some text, messages) =>
        match p.tree.write text.toUTF8 (place ++ s.tree) with
        | some tree =>
          (true, ⟨tree, p.messages ++ (messages ++ ("  ✓ " ++ s.treePath directory ++ "\n")),
            p.written ++ [(s.treePath directory, text)]⟩)
        | none => (false, p.say (messages ++ ("Error: failed to write " ++ s.treePath directory ++
            ": Is a directory (os error 21)\n"))) := by
  have hplace : (place ++ s.tokens).dropLast ++ [s.stem ++ treeEnding] = place ++ s.tree := by
    rw [Source.tokens, Source.tree, ← List.append_assoc, List.dropLast_concat, List.append_assoc]
  have hdrop : FilePath.dropEnding? tokenEnding (s.path directory) = some (s.template directory) :=
    FilePath.dropEnding?_eq_some.mpr (s.path_eq directory)
  rw [convertFile, FileTree.find?_of_entryAt_file hs, hdrop, Source.name_path hname,
    Source.outputName_eq]
  dsimp only
  rcases convert format (some (s.template directory))
    ("Error: failed to read " ++ s.path directory) bytes with ⟨_ | text, messages⟩
  · rfl
  · dsimp only [Progress.say]
    rw [hplace]
    cases p.tree.write text.toUTF8 (place ++ s.tree) with
    | none => simp only [String.append_assoc, Source.treePath]
    | some tree => simp only [String.append_assoc, Source.treePath]

theorem convertFile_of_none (hs : p.tree.entryAt (place ++ s.tokens) = some (.file bytes))
    (hname : '/' ∉ (s.stem ++ tokenEnding).toList)
    (hb : p.tree.entryAt (place ++ s.tree) = some .directory ↔ blocked = true)
    (h : attempt format directory s blocked bytes = (none, messages)) :
    convertFile format (place ++ s.tokens) (s.path directory) p = (false, p.say messages) := by
  rw [convertFile_eq hs hname]
  rw [attempt] at h
  split at h
  · cases h
    rfl
  · next text _ _ =>
    split at h
    · next hblocked =>
      have hnone : p.tree.write text.toUTF8 (place ++ s.tree) = none := by
        by_contra hwrite
        exact (exists_write_tree hs).mp (Option.ne_none_iff_exists'.mp hwrite) (hb.mpr hblocked)
      cases h
      simp only [hnone]
    · cases h

theorem convertFile_of_some (hs : p.tree.entryAt (place ++ s.tokens) = some (.file bytes))
    (hname : '/' ∉ (s.stem ++ tokenEnding).toList)
    (hb : p.tree.entryAt (place ++ s.tree) = some .directory ↔ blocked = true)
    (h : attempt format directory s blocked bytes = (some text, messages)) :
    ∃ tree output, p.tree.write text.toUTF8 (place ++ s.tree) = some tree ∧
      convertFile format (place ++ s.tokens) (s.path directory) p =
        (true, ⟨tree, p.messages ++ messages, p.written ++ [(output, text)]⟩) := by
  rw [convertFile_eq hs hname]
  rw [attempt] at h
  split at h
  · cases h
  · split at h
    · cases h
    · next hblocked =>
      cases h
      obtain ⟨tree, htree⟩ := (exists_write_tree hs).mpr fun hd => hblocked (hb.mp hd)
      refine ⟨tree, s.treePath directory, htree, ?_⟩
      simp only [htree]

end

theorem IsSource.not_mem_slash {s : Source} (hs : IsSource place t s) (hproper : t.isProper = true) :
    '/' ∉ (s.stem ++ tokenEnding).toList := by
  obtain ⟨bytes, hbytes⟩ := hs
  rw [Source.tokens, ← List.append_assoc] at hbytes
  exact FileTree.not_mem_slash hproper hbytes

theorem Converts.isSource {s : Source} {text : String}
    (h : Converts format place directory t s text) : IsSource place t s := by
  obtain ⟨bytes, hbytes, _⟩ := h
  exact ⟨bytes, hbytes⟩

/-! Several streams, one after the other -/

/-- The state after some streams of a tree were converted. -/
structure Progressed (format : Format) (place : Place) (directory : String) (t : FileTree)
    (done : List Source) (n : Nat) (p : Progress) : Prop where
  written : ∀ s ∈ done, ∀ text, Converts format place directory t s text →
    p.tree.entryAt (place ++ s.tree) = some (.file text.toUTF8)
  kept : ∀ q, (∀ s ∈ done, ∀ text, Converts format place directory t s text →
    q ≠ place ++ s.tree) → p.tree.entryAt q = t.entryAt q
  messages : p.messages =
    String.join (done.map fun s => (alone format place directory t s).2.messages)
  count : n = done.countP fun s => (alone format place directory t s).1
  length : p.written.length = n

namespace Progressed

variable {done : List Source} {n : Nat} {p : Progress} {s : Source} {bytes : ByteArray}

theorem entryAt_tokens (h : Progressed format place directory t done n p) (s : Source) :
    p.tree.entryAt (place ++ s.tokens) = t.entryAt (place ++ s.tokens) := by
  apply h.kept
  intro s' _ text _ heq
  exact s.tokens_ne_tree s' (List.append_cancel_left heq)

/-- No directory comes or goes. -/
theorem entryAt_tree (h : Progressed format place directory t done n p) (s : Source) :
    p.tree.entryAt (place ++ s.tree) = some .directory ↔
      t.entryAt (place ++ s.tree) = some .directory := by
  by_cases hc : s ∈ done ∧ ∃ text, Converts format place directory t s text
  · obtain ⟨hs, text, htext⟩ := hc
    have hfile := h.written s hs text htext
    obtain ⟨_, _, _, _, hd⟩ := htext
    rw [hfile]
    exact iff_of_false nofun hd
  · rw [h.kept]
    intro s' hs' text htext heq
    have hsame := Source.tree_injective (List.append_cancel_left heq)
    subst hsame
    exact hc ⟨hs', text, htext⟩

/-- One more stream, which leaves all but its own tree file as it is. -/
theorem concat {b : Bool} {p' : Progress} (h : Progressed format place directory t done n p)
    (hb : (alone format place directory t s).1 = b)
    (hmessages : p'.messages = p.messages ++ (alone format place directory t s).2.messages)
    (hlength : p'.written.length = if b then p.written.length + 1 else p.written.length)
    (hwritten : ∀ text, Converts format place directory t s text →
      p'.tree.entryAt (place ++ s.tree) = some (.file text.toUTF8))
    (hkept : ∀ q, (∀ text, Converts format place directory t s text → q ≠ place ++ s.tree) →
      p'.tree.entryAt q = p.tree.entryAt q) :
    Progressed format place directory t (done ++ [s]) (if b then n + 1 else n) p' where
  written := by
    intro s' hs' text htext
    by_cases hsame : s' = s
    · subst hsame
      exact hwritten text htext
    · have hmem : s' ∈ done := by
        rcases List.mem_append.mp hs' with hmem | hmem
        · exact hmem
        · exact absurd (List.mem_singleton.mp hmem) hsame
      rw [hkept, h.written s' hmem text htext]
      intro _ _ heq
      exact hsame (Source.tree_injective (List.append_cancel_left heq))
  kept := by
    intro q hq
    rw [hkept q (hq s (List.mem_append_right _ (List.mem_singleton_self s)))]
    apply h.kept
    intro s' hs'
    exact hq s' (List.mem_append_left _ hs')
  messages := by
    rw [hmessages, h.messages, List.map_append, String.join_append]
    simp [String.join_cons]
  count := by
    rw [List.countP_append, ← h.count, List.countP_singleton, hb]
    cases b <;> rfl
  length := by rw [hlength, h.length]

theorem convertFile (h : Progressed format place directory t done n p)
    (hs : t.entryAt (place ++ s.tokens) = some (.file bytes))
    (hname : '/' ∉ (s.stem ++ tokenEnding).toList) :
    let r := Command.convertFile format (place ++ s.tokens) (s.path directory) p
    Progressed format place directory t (done ++ [s]) (if r.1 then n + 1 else n) r.2 := by
  have hp : p.tree.entryAt (place ++ s.tokens) = some (.file bytes) :=
    (h.entryAt_tokens s).trans hs
  obtain ⟨blocked, hb⟩ : ∃ blocked : Bool,
      t.entryAt (place ++ s.tree) = some .directory ↔ blocked = true := ⟨_, decide_eq_true_iff.symm⟩
  have hpb := (h.entryAt_tree s).trans hb
  cases ha : attempt format directory s blocked bytes with
  | mk converted messages =>
    cases converted with
    | none =>
      have halone : alone format place directory t s = (false, ⟨t, "" ++ messages, []⟩) :=
        convertFile_of_none (p := ⟨t, "", []⟩) hs hname hb ha
      have hnot (text : String) : ¬ Converts format place directory t s text := by
        rw [converts_iff hs hb, ha]
        exact nofun
      rw [convertFile_of_none hp hname hpb ha]
      apply h.concat
      · rw [halone]
      · rw [halone, String.empty_append]
        rfl
      · rfl
      · exact fun text htext => absurd htext (hnot text)
      · exact fun _ _ => rfl
    | some text =>
      obtain ⟨tree, output, hwrite, hr⟩ := convertFile_of_some hp hname hpb ha
      obtain ⟨_, _, _, halone⟩ := convertFile_of_some (p := ⟨t, "", []⟩) hs hname hb ha
      have halone : alone format place directory t s = _ := halone
      have hconverts (other : String) :
          Converts format place directory t s other ↔ some text = some other := by
        rw [converts_iff hs hb, ha]
      rw [hr]
      apply h.concat
      · rw [halone]
      · rw [halone, String.empty_append]
      · simp
      · intro other hother
        cases (hconverts other).mp hother
        rw [FileTree.entryAt_write hwrite, if_pos rfl]
      · intro q hq
        rw [FileTree.entryAt_write hwrite, if_neg (hq text ((hconverts text).mpr rfl))]

theorem convertAll (format : Format) (directory : String) (hproper : t.isProper = true)
    (order : List Source) (hs : ∀ s ∈ order, IsSource place t s) :
    let r := Command.convertAll format place directory (order.map Source.tokens) ⟨t, "", []⟩
    Progressed format place directory t order r.1 r.2 := by
  induction order using List.reverseRecOn with
  | nil => exact ⟨nofun, fun _ _ => rfl, rfl, rfl, rfl⟩
  | append_singleton order s ih =>
    rw [List.forall_mem_append, List.forall_mem_singleton] at hs
    have hname := hs.2.not_mem_slash hproper
    obtain ⟨hs, bytes, hbytes⟩ := hs
    have hstep := (ih hs).convertFile hbytes hname
    rw [Command.convertAll, List.map_append, List.foldl_append]
    exact hstep

end Progressed

/-- The token files below a directory are the files of the streams. -/
theorem exists_sources {sub : FileTree} (hproper : t.isProper = true)
    (hfind : t.find? place = some sub) (hsub : sub.entry = .directory) :
    ∃ sources : List Source, tokenFiles sub = sources.map Source.tokens ∧ sources.Nodup ∧
      ∀ s, s ∈ sources ↔ IsSource place t s := by
  have hsubproper := FileTree.isProper_of_find? hproper hfind
  have hmem (q : Place) : q ∈ tokenFiles sub ↔ (∃ s : Source, s.tokens = q) ∧
      ∃ bytes, t.entryAt (place ++ q) = some (.file bytes) := by
    rw [tokenFiles, List.mem_filter, FileTree.mem_files hsubproper, and_comm]
    simp only [FileTree.entryAt_append hfind]
    refine and_congr_left ?_
    rintro ⟨bytes, hbytes⟩
    rw [isTokenName, Option.isSome_iff_exists]
    simp only [FilePath.dropEnding?_eq_some]
    constructor
    · rintro ⟨stem, hstem⟩
      rcases List.eq_nil_or_concat q with rfl | ⟨below, name, rfl⟩
      · rw [FileTree.entryAt_nil, hsub] at hbytes
        cases hbytes
      · rw [List.concat_eq_append, List.getLast?_concat, Option.getD_some] at hstem
        subst hstem
        exact ⟨⟨below, stem⟩, (List.concat_eq_append ..).symm⟩
    · rintro ⟨s, rfl⟩
      exact ⟨s.stem, by rw [Source.tokens, List.getLast?_concat, Option.getD_some]⟩
  have hrange : tokenFiles sub ∈ Set.range (List.map Source.tokens) := by
    rw [Set.range_list_map]
    exact fun q hq => ((hmem q).mp hq).1
  obtain ⟨sources, hsources⟩ := hrange
  refine ⟨sources, hsources.symm, ?_, ?_⟩
  · apply List.Nodup.of_map Source.tokens
    rw [hsources]
    exact (FileTree.nodup_files hsubproper).filter _
  · intro s
    rw [← List.mem_map_of_injective Source.tokens_injective, hsources, hmem]
    exact and_iff_right ⟨s, rfl⟩

/-- A stream is converted alone exactly when it can be. -/
theorem alone_iff {s : Source} (hproper : t.isProper = true) (hs : IsSource place t s) :
    (alone format place directory t s).1 = true ↔
      ∃ text, Converts format place directory t s text := by
  have hname := hs.not_mem_slash hproper
  obtain ⟨bytes, hbytes⟩ := hs
  obtain ⟨blocked, hb⟩ : ∃ blocked : Bool,
      t.entryAt (place ++ s.tree) = some .directory ↔ blocked = true := ⟨_, decide_eq_true_iff.symm⟩
  simp only [converts_iff hbytes hb]
  cases ha : attempt format directory s blocked bytes with
  | mk converted messages =>
    cases converted with
    | none =>
      have halone : alone format place directory t s = _ :=
        convertFile_of_none (p := ⟨t, "", []⟩) hbytes hname hb ha
      rw [halone]
      exact iff_of_false nofun nofun
    | some text =>
      obtain ⟨_, _, _, halone⟩ := convertFile_of_some (p := ⟨t, "", []⟩) hbytes hname hb ha
      have halone : alone format place directory t s = _ := halone
      rw [halone]
      exact iff_of_true rfl ⟨text, rfl⟩

/-- What stands where depends only on which streams were converted. -/
theorem Progressed.entryAt_eq {done done' : List Source} {n n' : Nat} {p p' : Progress}
    (h : Progressed format place directory t done n p)
    (h' : Progressed format place directory t done' n' p') (hd : ∀ s, s ∈ done ↔ s ∈ done')
    (q : Place) : p.tree.entryAt q = p'.tree.entryAt q := by
  by_cases hq : ∃ s ∈ done, ∃ text, Converts format place directory t s text ∧ q = place ++ s.tree
  · obtain ⟨s, hs, text, htext, rfl⟩ := hq
    rw [h.written s hs text htext, h'.written s ((hd s).mp hs) text htext]
  · rw [h.kept, h'.kept]
    · intro s hs text htext heq
      exact hq ⟨s, (hd s).mpr hs, text, htext, heq⟩
    · intro s hs text htext heq
      exact hq ⟨s, hs, text, htext, heq⟩

theorem exitCode_eq_zero (success : Bool) : exitCode success = 0 ↔ success = true := by
  cases success <;> decide

theorem run_path (format : Format) (directory : String) (input : ByteArray)
    {entries : List (String × FileTree)} {sources : List Source}
    (hfind : t.find? place = some (.directory entries))
    (hfiles : tokenFiles (.directory entries) = sources.map Source.tokens) :
    run (.path directory format) (some place) t input =
      if sources = [] then ⟨false, "", Progress.say ⟨t, "", []⟩
        ("No " ++ tokenEnding ++ " files found in " ++ directory ++ "\n")⟩
      else
        let r := convertAll format place directory (sources.map Source.tokens) ⟨t, "", []⟩
        ⟨r.1 == sources.length, "", r.2.say (closing r.1)⟩ := by
  rw [run, convertPath, Option.bind_some, hfind, Option.map_some]
  dsimp only
  rw [hfiles, List.length_map]
  cases sources <;> rfl

/-- Converting a directory converts each of its streams as if it were alone. -/
theorem run_directory (hproper : t.isProper = true) (hd : t.entryAt place = some .directory)
    (input : ByteArray) : ConvertsEach format place directory t
      (run (.path directory format) (some place) t input) := by
  obtain ⟨entries, hfind⟩ := FileTree.exists_of_entryAt_directory hd
  obtain ⟨sources, hfiles, hnodup, hmem⟩ := exists_sources hproper hfind rfl
  have hprogressed := Progressed.convertAll format directory hproper sources
    fun s hs => (hmem s).mp hs
  obtain ⟨r, hr⟩ : ∃ r, r = convertAll format place directory (sources.map Source.tokens)
    ⟨t, "", []⟩ := ⟨_, rfl⟩
  have hrun := run_path format directory input hfind hfiles
  rw [← hr] at hprogressed hrun
  -- Where there is no stream nothing is converted, and only the messages differ.
  have hnone : sources = [] → r = (0, ⟨t, "", []⟩) := by
    rintro rfl
    exact hr
  generalize run (.path directory format) (some place) t input = o at hrun ⊢
  have htree : o.progress.tree = r.2.tree := by
    rw [hrun]
    split
    · next hempty => rw [hnone hempty]; rfl
    · rfl
  have hwritten : o.progress.written = r.2.written := by
    rw [hrun]
    split
    · next hempty => rw [hnone hempty]; rfl
    · rfl
  have hsuccess : o.success = true ↔ sources ≠ [] ∧ r.1 = sources.length := by
    rw [hrun]
    split
    · next hempty => exact iff_of_false nofun fun h => h.1 hempty
    · next hempty => rw [beq_iff_eq, and_iff_right hempty]
  constructor
  case written =>
    intro s text htext
    rw [htree]
    exact hprogressed.written s ((hmem s).mpr htext.isSource) text htext
  case kept =>
    intro q hq
    rw [htree]
    exact hprogressed.kept q fun s _ => hq s
  case tried =>
    refine ⟨sources, hnodup, hmem, ?_⟩
    rw [hwritten, hprogressed.length, hrun]
    split
    · rfl
    · exact congrArg (· ++ closing r.1) hprogressed.messages
  case count =>
    refine ⟨(sources.filter fun s => (alone format place directory t s).1).map
      fun s => place ++ s.tree, ?_, ?_, ?_⟩
    · apply (hnodup.filter _).map
      intro s s' heq
      exact Source.tree_injective (List.append_cancel_left heq)
    · rw [List.length_map, hwritten, hprogressed.length, hprogressed.count,
        List.countP_eq_length_filter]
    · intro q
      simp only [List.mem_map, List.mem_filter, hmem]
      constructor
      · rintro ⟨s, ⟨hs, halone⟩, rfl⟩
        obtain ⟨text, htext⟩ := (alone_iff hproper hs).mp halone
        exact ⟨s, text, htext, rfl⟩
      · rintro ⟨s, text, htext, rfl⟩
        exact ⟨s, ⟨htext.isSource, (alone_iff hproper htext.isSource).mpr ⟨text, htext⟩⟩, rfl⟩
  case exit =>
    rw [exitCode_eq_zero, hsuccess, hprogressed.count, List.countP_eq_length]
    constructor
    · rintro ⟨hne, hall⟩
      obtain ⟨s, hs⟩ := List.exists_mem_of_ne_nil _ hne
      refine ⟨⟨s, (hmem s).mp hs⟩, ?_⟩
      intro s hs
      exact (alone_iff hproper hs).mp (hall s ((hmem s).mpr hs))
    · rintro ⟨⟨s, hs⟩, hall⟩
      refine ⟨List.ne_nil_of_mem ((hmem s).mpr hs), ?_⟩
      intro s hs
      have hs := (hmem s).mp hs
      exact (alone_iff hproper hs).mpr (hall s hs)
  case anyOrder =>
    intro order horder q
    rw [htree]
    have hother := Progressed.convertAll format directory hproper order
      fun s hs => (horder s).mp hs
    exact hother.entryAt_eq hprogressed (fun s => (horder s).trans (hmem s).symm) q

/-- A stream beside a directory of the name of its tree file. -/
def blockedTree : FileTree :=
  .directory [("a.tokens.json", .file "[]".toUTF8), ("a.ast.json", .directory [])]

/-- The stream is accepted, but its tree is not beside it. -/
theorem run_blockedTree :
    blockedTree.entryAt ["a.tokens.json"] = some (.file "[]".toUTF8) ∧
      (fromInput ⟨false, false⟩ "./a" "[]".toUTF8).success = true ∧
        (run (.path "." ⟨false, false⟩) (some []) blockedTree .empty).progress.tree.entryAt
          ["a.ast.json"] = some .directory := by
  decide +kernel

/-- Streams that are accepted, one without a name, one that is refused beside an older tree file,
and one whose tree file is blocked. -/
def mixedStreams : FileTree :=
  .directory [("sub", .directory [("b.tokens.json", .file "\x7b".toUTF8),
    ("b.ast.json", .file "old".toUTF8), ("c.tokens.json", .file "[]".toUTF8)]),
    (".tokens.json", .file "[]".toUTF8), ("a.tokens.json", .file "[]".toUTF8),
    ("a.ast.json", .directory [])]

theorem run_directory_mixedStreams :
    mixedStreams.isProper = true ∧ mixedStreams.entryAt [] = some .directory ∧
      (run (.path "." ⟨false, false⟩) (some []) mixedStreams .empty).progress.written.map Prod.fst =
        ["./.ast.json", "./sub/c.ast.json"] ∧
      ConvertsEach ⟨false, false⟩ [] "." mixedStreams
        (run (.path "." ⟨false, false⟩) (some []) mixedStreams .empty) := by
  have hproper : mixedStreams.isProper = true := by decide +kernel
  have hd : mixedStreams.entryAt [] = some .directory := by decide +kernel
  refine ⟨hproper, hd, ?_, run_directory hproper hd .empty⟩
  decide +kernel

end Command

end TemplateTree
