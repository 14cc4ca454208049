import Mathlib.Data.List.Sort
import TemplateTree.Command.FileTree

/-!
Trees of files as they are seen from the outside: what stands at each place. Writing a file
changes what stands at its place and nothing else, and the files of a tree are listed once each.
-/

namespace TemplateTree
set_option autoImplicit false

namespace FileTree

/-- What stands at a place. -/
inductive Entry where
  | file (bytes : ByteArray)
  | directory

instance : DecidableEq Entry
  | .file bytes, .file bytes' =>
    decidable_of_iff (bytes.data = bytes'.data) (by rw [Entry.file.injEq, ByteArray.ext_iff])
  | .directory, .directory => .isTrue rfl
  | .file _, .directory => .isFalse nofun
  | .directory, .file _ => .isFalse nofun

def entry : FileTree → Entry
  | .file bytes => .file bytes
  | .directory _ => .directory

def entryAt (t : FileTree) (place : Place) : Option Entry := (t.find? place).map entry

mutual

/-- A tree as a disk may hold it: the names in a directory differ, and none has a slash in it. -/
def isProper : FileTree → Bool
  | .file _ => true
  | .directory entries => decide (entries.map Prod.fst).Nodup && areProper entries

def areProper : List (String × FileTree) → Bool
  | [] => true
  | (name, t) :: rest => !name.toList.contains '/' && t.isProper && areProper rest

end

/-- What holds of a directory whenever it holds of what is in it holds of every tree. -/
theorem induction {P : FileTree → Prop} (file : ∀ bytes, P (.file bytes))
    (directory : ∀ entries : List (String × FileTree), (∀ e ∈ entries, P e.2) →
      P (.directory entries)) (t : FileTree) : P t := by
  refine @FileTree.rec P (fun entries => ∀ e ∈ entries, P e.2) (fun e => P e.2) file directory
    ?_ ?_ ?_ t
  · exact fun _ h => absurd h List.not_mem_nil
  · exact fun _ _ he hes => List.forall_mem_cons.mpr ⟨he, hes⟩
  · exact fun _ _ h => h

variable {t t' : FileTree} {bytes : ByteArray} {name : String} {place : Place}
variable {entries : List (String × FileTree)}

/-! Places -/

theorem entryAt_nil : t.entryAt [] = some t.entry := rfl

theorem entryAt_cons : t.entryAt (name :: place) = (t.child? name).bind (·.entryAt place) := by
  rw [entryAt, find?]
  cases t.child? name <;> rfl

theorem entryAt_file_cons : (FileTree.file bytes).entryAt (name :: place) = none := by
  rw [entryAt_cons, child?, Option.bind_none]

theorem find?_append (p q : Place) : t.find? (p ++ q) = (t.find? p).bind (·.find? q) := by
  induction p generalizing t with
  | nil => rfl
  | cons name p ih =>
    rw [List.cons_append, find?, find?]
    cases t.child? name with
    | none => rfl
    | some c => exact ih

/-- What stands below a place stands in the tree at that place. -/
theorem entryAt_append {sub : FileTree} {p : Place} (h : t.find? p = some sub) (q : Place) :
    t.entryAt (p ++ q) = sub.entryAt q := by
  rw [entryAt, find?_append, h]
  rfl

theorem find?_of_entryAt_file (h : t.entryAt place = some (.file bytes)) :
    t.find? place = some (.file bytes) := by
  obtain ⟨sub, hsub, he⟩ := Option.map_eq_some_iff.mp h
  cases sub with
  | file _ =>
    cases he
    exact hsub
  | directory _ => cases he

theorem exists_of_entryAt_directory (h : t.entryAt place = some .directory) :
    ∃ entries, t.find? place = some (.directory entries) := by
  obtain ⟨sub, hsub, he⟩ := Option.map_eq_some_iff.mp h
  cases sub with
  | file _ => cases he
  | directory entries => exact ⟨entries, hsub⟩

theorem entryAt_parent {e : Entry} (h : t.entryAt (place ++ [name]) = some e) :
    t.entryAt place = some .directory := by
  rw [entryAt, find?_append] at h
  cases hp : t.find? place with
  | none =>
    rw [hp] at h
    cases h
  | some sub =>
    rw [entryAt, hp]
    cases sub with
    | file _ =>
      rw [hp] at h
      cases h
    | directory _ => rfl

/-! Writing -/

theorem child?_putEntry (c : FileTree) (other : String) :
    (FileTree.directory (putEntry name c entries)).child? other =
      if other = name then some c else (FileTree.directory entries).child? other := by
  simp only [child?]
  induction entries with
  | nil =>
    by_cases h : other = name
    · simp [putEntry, h]
    · simp [putEntry, h, Ne.symm h]
  | cons e rest ih =>
    unfold putEntry
    by_cases he : e.1 = name
    · by_cases h : other = name
      · simp [he, h]
      · simp [he, h, Ne.symm h]
    · by_cases h : e.1 = other
      · have hne : other ≠ name := fun hn => he (h.trans hn)
        simp [h, hne]
      · simpa [he, h] using ih

/-- A file is written in place of another or as a new one. -/
theorem write_single : write bytes [name] (.directory entries) = some t' ↔
    (FileTree.directory entries).entryAt [name] ≠ some .directory ∧
      t' = .directory (putEntry name (.file bytes) entries) := by
  rw [write, entryAt_cons]
  cases h : (FileTree.directory entries).child? name with
  | none =>
    simp
    exact eq_comm
  | some c =>
    cases c with
    | file _ =>
      simp [entryAt_nil, entry]
      exact eq_comm
    | directory _ => simp [entryAt_nil, entry]

theorem write_cons (hplace : place ≠ []) : write bytes (name :: place) (.directory entries) = some t' ↔
    ∃ c c', (FileTree.directory entries).child? name = some c ∧ write bytes place c = some c' ∧
      t' = .directory (putEntry name c' entries) := by
  cases place with
  | nil => exact absurd rfl hplace
  | cons _ _ =>
    rw [write]
    simp only [bind, Option.bind_eq_some_iff, pure, Option.some.injEq]
    constructor
    · rintro ⟨c, hc, c', hc', rfl⟩
      exact ⟨c, c', hc, hc', rfl⟩
    · rintro ⟨c, c', hc, hc', rfl⟩
      exact ⟨c, hc, c', hc', rfl⟩
    · exact nofun

/-- Writing a file changes what stands at its place and nothing else. -/
theorem entryAt_write (h : write bytes place t = some t') (other : Place) :
    t'.entryAt other = if other = place then some (.file bytes) else t.entryAt other := by
  induction place generalizing t t' other with
  | nil =>
    cases t with
    | directory _ => cases h
    | file _ =>
      cases h
      cases other with
      | nil => rfl
      | cons m rest => rw [entryAt_file_cons, entryAt_file_cons, if_neg nofun]
  | cons name place ih =>
    cases t with
    | file _ => cases h
    | directory entries =>
      have hput : ∃ c', t' = .directory (putEntry name c' entries) ∧
          ∀ rest, c'.entryAt rest = if rest = place then some (.file bytes) else
            (FileTree.directory entries).entryAt (name :: rest) := by
        by_cases hplace : place = []
        · subst hplace
          obtain ⟨hd, rfl⟩ := write_single.mp h
          refine ⟨_, rfl, fun rest => ?_⟩
          cases rest with
          | nil => rfl
          | cons m rest =>
            rw [entryAt_file_cons, if_neg nofun, entryAt_cons]
            rw [entryAt_cons] at hd
            cases hc : (FileTree.directory entries).child? name with
            | none => rfl
            | some c =>
              cases c with
              | file _ => exact entryAt_file_cons.symm
              | directory _ =>
                rw [hc] at hd
                exact absurd rfl hd
        · obtain ⟨c, c', hc, hw, rfl⟩ := (write_cons hplace).mp h
          refine ⟨c', rfl, fun rest => ?_⟩
          rw [ih hw, entryAt_cons, hc, Option.bind_some]
      obtain ⟨c', rfl, hc'⟩ := hput
      cases other with
      | nil => rfl
      | cons m rest =>
        rw [entryAt_cons, child?_putEntry]
        by_cases hm : m = name
        · subst hm
          rw [if_pos rfl, Option.bind_some, hc']
          simp
        · rw [if_neg hm, ← entryAt_cons, if_neg (fun he => hm (List.cons.inj he).1)]

/-- A file can be written in a directory where no directory has its name. -/
theorem exists_write_iff : (∃ t', write bytes (place ++ [name]) t = some t') ↔
    t.entryAt place = some .directory ∧ t.entryAt (place ++ [name]) ≠ some .directory := by
  induction place generalizing t with
  | nil =>
    cases t with
    | file _ => exact ⟨nofun, nofun⟩
    | directory entries =>
      rw [List.nil_append]
      simp only [write_single]
      exact ⟨fun ⟨_, h, _⟩ => ⟨rfl, h⟩, fun ⟨_, h⟩ => ⟨_, h, rfl⟩⟩
  | cons m place ih =>
    cases t with
    | file _ =>
      refine ⟨nofun, ?_⟩
      rintro ⟨h, _⟩
      rw [entryAt_file_cons] at h
      cases h
    | directory entries =>
      rw [List.cons_append, entryAt_cons, entryAt_cons]
      have hne : place ++ [name] ≠ [] := by simp
      simp only [write_cons hne]
      cases hc : (FileTree.directory entries).child? m with
      | none => exact ⟨nofun, nofun⟩
      | some c =>
        rw [Option.bind_some, Option.bind_some, ← ih]
        constructor
        · rintro ⟨_, _, c', hc', hw, _⟩
          cases hc'
          exact ⟨c', hw⟩
        · rintro ⟨c', hw⟩
          exact ⟨_, c, c', rfl, hw, rfl⟩

/-! Listing -/

theorem areProper_iff : areProper entries = true ↔
    ∀ e ∈ entries, '/' ∉ e.1.toList ∧ e.2.isProper = true := by
  induction entries with
  | nil => simp [areProper]
  | cons e rest ih => simp [areProper, ih]

theorem isProper_directory : (FileTree.directory entries).isProper = true ↔
    (entries.map Prod.fst).Nodup ∧ ∀ e ∈ entries, '/' ∉ e.1.toList ∧ e.2.isProper = true := by
  rw [isProper, Bool.and_eq_true, decide_eq_true_iff, areProper_iff]

theorem child?_eq_some {c : FileTree} (h : (entries.map Prod.fst).Nodup) :
    (FileTree.directory entries).child? name = some c ↔ (name, c) ∈ entries := by
  rw [child?]
  induction entries with
  | nil => simp
  | cons e rest ih =>
    obtain ⟨m, d⟩ := e
    obtain ⟨hm, hrest⟩ := List.nodup_cons.mp h
    by_cases hn : m = name
    · subst hn
      have hnot : (m, c) ∉ rest := fun hc => hm (List.mem_map.mpr ⟨_, hc, rfl⟩)
      simp [hnot, eq_comm]
    · simpa [hn, Ne.symm hn] using ih hrest

theorem isProper_of_find? {sub : FileTree} (h : t.isProper = true) (hs : t.find? place = some sub) :
    sub.isProper = true := by
  induction place generalizing t with
  | nil =>
    cases hs
    exact h
  | cons name place ih =>
    obtain ⟨c, hc, hrest⟩ := Option.bind_eq_some_iff.mp hs
    cases t with
    | file _ => cases hc
    | directory entries =>
      obtain ⟨hn, he⟩ := isProper_directory.mp h
      exact ih (he _ ((child?_eq_some hn).mp hc)).2 hrest

theorem not_mem_slash {e : Entry} (h : t.isProper = true)
    (he : t.entryAt (place ++ [name]) = some e) : '/' ∉ name.toList := by
  obtain ⟨entries, hp⟩ := exists_of_entryAt_directory (entryAt_parent he)
  obtain ⟨hn, hall⟩ := isProper_directory.mp (isProper_of_find? h hp)
  rw [entryAt_append hp, entryAt_cons] at he
  obtain ⟨c, hc, _⟩ := Option.bind_eq_some_iff.mp he
  exact (hall _ ((child?_eq_some hn).mp hc)).1

theorem insertByName_eq {α : Type} (m : String × α) (ms : List (String × α)) :
    Text.insertByName m ms = ms.orderedInsert (fun a b => Text.nameLe a.1 b.1 = true) m := by
  induction ms with
  | nil => rfl
  | cons n rest ih => rw [Text.insertByName, List.orderedInsert_cons, ih]

/-- The sort by name is the library's insertion sort, so what is known of that holds of it. -/
theorem sortByName_eq {α : Type} (ms : List (String × α)) :
    Text.sortByName ms = ms.insertionSort fun a b => Text.nameLe a.1 b.1 = true :=
  congrArg (List.foldr · [] ms) (funext fun m => funext (insertByName_eq m))

theorem entryFiles_eq :
    entryFiles entries = entries.map fun e => (e.1, e.2.files.map (e.1 :: ·)) := by
  induction entries with
  | nil => rfl
  | cons e rest ih => rw [entryFiles, ih, List.map_cons]

/-- The files of a directory are those of its entries, in some order. -/
theorem files_perm : (FileTree.directory entries).files.Perm
    (entries.flatMap fun e => e.2.files.map (e.1 :: ·)) := by
  have h := (List.perm_insertionSort (fun a b : String × List Place => Text.nameLe a.1 b.1 = true)
    (entryFiles entries)).flatMap_right Prod.snd
  rw [← sortByName_eq, entryFiles_eq, List.flatMap_map] at h
  rw [files, entryFiles_eq]
  exact h

theorem mem_files (h : t.isProper = true) :
    place ∈ t.files ↔ ∃ bytes, t.entryAt place = some (.file bytes) := by
  induction t using FileTree.induction generalizing place with
  | file bytes =>
    rw [files, List.mem_singleton]
    constructor
    · rintro rfl
      exact ⟨bytes, rfl⟩
    · rintro ⟨b, hb⟩
      cases place with
      | nil => rfl
      | cons name rest =>
        rw [entryAt_file_cons] at hb
        cases hb
  | directory entries ih =>
    obtain ⟨hn, he⟩ := isProper_directory.mp h
    rw [files_perm.mem_iff, List.mem_flatMap]
    simp only [List.mem_map]
    constructor
    · rintro ⟨e, hmem, rest, hrest, rfl⟩
      rw [entryAt_cons, (child?_eq_some hn).mpr hmem, Option.bind_some]
      exact (ih e hmem (he e hmem).2).mp hrest
    · rintro ⟨b, hb⟩
      cases place with
      | nil => cases hb
      | cons name rest =>
        rw [entryAt_cons] at hb
        obtain ⟨c, hc, hb⟩ := Option.bind_eq_some_iff.mp hb
        have hmem := (child?_eq_some hn).mp hc
        exact ⟨_, hmem, rest, (ih _ hmem (he _ hmem).2).mpr ⟨b, hb⟩, rfl⟩

theorem nodup_files (h : t.isProper = true) : t.files.Nodup := by
  induction t using FileTree.induction with
  | file bytes => exact List.nodup_singleton _
  | directory entries ih =>
    obtain ⟨hn, he⟩ := isProper_directory.mp h
    rw [files_perm.nodup_iff, List.nodup_flatMap]
    constructor
    · intro e hmem
      exact (ih e hmem (he e hmem).2).map (List.cons_injective)
    · rw [List.nodup_iff_pairwise_ne, List.pairwise_map] at hn
      refine hn.imp ?_
      intro d e hne p hp hq
      obtain ⟨_, _, rfl⟩ := List.mem_map.mp hp
      obtain ⟨_, _, heq⟩ := List.mem_map.mp hq
      exact hne (List.cons.inj heq).1.symm

end FileTree

namespace FilePath

theorem dropEnding?_eq_some {ending s stem : String} :
    dropEnding? ending s = some stem ↔ s = stem ++ ending := by
  unfold dropEnding?
  constructor
  · intro h
    split at h
    · next hs =>
      obtain ⟨front, hfront⟩ := List.isSuffixOf_iff_suffix.mp hs
      cases h
      apply String.toList_injective
      rw [String.toList_append, String.toList_ofList, ← hfront]
      simp
    · cases h
  · rintro rfl
    have hs : ending.toList.isSuffixOf (stem ++ ending).toList = true := by
      rw [List.isSuffixOf_iff_suffix, String.toList_append]
      exact List.suffix_append _ _
    rw [if_pos hs, String.toList_append]
    simp

theorem stepsFrom_plain {cs : List Char} (h : '/' ∉ cs) (step : List Char) :
    stepsFrom step cs = [String.ofList (step ++ cs)] := by
  induction cs generalizing step with
  | nil => rw [stepsFrom, List.append_nil]
  | cons c cs ih =>
    obtain ⟨hc, hcs⟩ := not_or.mp (mt List.mem_cons.mpr h)
    rw [stepsFrom, if_neg (Ne.symm hc), ih hcs, List.append_assoc, List.singleton_append]

theorem stepsFrom_ne_nil (cs step : List Char) : stepsFrom step cs ≠ [] := by
  induction cs generalizing step with
  | nil => exact nofun
  | cons c cs ih =>
    rw [stepsFrom]
    split
    · exact nofun
    · exact ih _

theorem getLast?_stepsFrom {cs : List Char} (h : '/' ∉ cs) (front step : List Char) :
    (stepsFrom step (front ++ '/' :: cs)).getLast? = some (String.ofList cs) := by
  induction front generalizing step with
  | nil => rw [List.nil_append, stepsFrom, if_pos rfl, stepsFrom_plain h, List.nil_append]; rfl
  | cons c front ih =>
    rw [List.cons_append, stepsFrom]
    split
    · rw [List.getLast?_cons_of_ne_nil (stepsFrom_ne_nil _ _), ih]
    · exact ih _

theorem name_join {directory other : String} (h : '/' ∉ other.toList) :
    name (join directory other) = other := by
  have hjoin : ∃ front, (join directory other).toList = front ++ '/' :: other.toList := by
    unfold join
    split
    · next hlast =>
      obtain ⟨front, hfront⟩ := List.getLast?_eq_some_iff.mp hlast
      exact ⟨front, by simp [String.toList_append, hfront]⟩
    · exact ⟨directory.toList, by simp [String.toList_append]⟩
  obtain ⟨front, hfront⟩ := hjoin
  rw [name, steps, hfront, getLast?_stepsFrom h]
  simp

theorem join_append (directory stem ending : String) :
    join directory (stem ++ ending) = join directory stem ++ ending := by
  unfold join
  split <;> simp only [String.append_assoc]

end FilePath

end TemplateTree
