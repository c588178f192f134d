import Mathlib.Data.List.Basic
import Mathlib.Data.List.Induction
import DelayLedger.Files

/-!
# Where paths lead, and what file operations leave alone

* `Path.names_join`, `Path.exists_names_append`: the names in the path of a file are those of its
  folder and then its own, and the end of a path is the end of the last name.
* `FileTree.resolve_eq_ok_iff`: the path of a file leads to its name in the folder before it.
* `FileTree.KeepsFolders`: a path that leads somewhere goes on leading there when folders are added
  or files written.
* `FileTree.grows_makeFolders`, `FileTree.write_frame`: making folders does nothing but add folders,
  and writing a file changes what stands at one place.
* `FileTree.WellFormed.follow`: in a tree without gaps a path that never goes up leads to every folder
  to which it can lead at all.
-/

namespace DelayLedger

theorem Table.mem_of_get? {κ ν : Type} [DecidableEq κ] {t : Table κ ν} {key : κ} {value : ν}
    (h : t.get? key = some value) : (key, value) ∈ t := by
  obtain ⟨before, after, rfl, -⟩ := List.lookup_eq_some_iff.mp h
  exact List.mem_append_right before List.mem_cons_self

/-! ### Names in a path -/

namespace Path

theorem exists_split_eq (cs : List Char) : ∃ part parts, split cs = part :: parts := by
  cases cs with
  | nil => exact ⟨[], [], rfl⟩
  | cons c cs =>
    rw [split]
    split
    · exact ⟨[], split cs, rfl⟩
    · split <;> exact ⟨_, _, rfl⟩

theorem split_of_not_mem {cs : List Char} (h : '/' ∉ cs) : split cs = [cs] := by
  induction cs with
  | nil => rfl
  | cons c cs ih =>
    rw [List.mem_cons, not_or] at h
    rw [split, if_neg (Ne.symm h.1), ih h.2]

theorem split_append_slash (xs ys : List Char) : split (xs ++ '/' :: ys) = split xs ++ split ys := by
  induction xs with
  | nil => rfl
  | cons c xs ih =>
    rw [List.cons_append, split, split, ih]
    split
    · rfl
    · obtain ⟨part, parts, hsplit⟩ := exists_split_eq xs
      rw [hsplit]
      rfl

theorem exists_split_append (xs : List Char) :
    ∃ before last, ∀ ys, '/' ∉ ys → split (xs ++ ys) = before ++ [last ++ ys] := by
  induction xs with
  | nil => exact ⟨[], [], fun ys hys => split_of_not_mem hys⟩
  | cons c xs ih =>
    obtain ⟨before, last, hsplit⟩ := ih
    by_cases hc : c = '/'
    · refine ⟨[] :: before, last, fun ys hys => ?_⟩
      rw [List.cons_append, split, if_pos hc, hsplit ys hys]
      rfl
    · cases before with
      | nil =>
        refine ⟨[], c :: last, fun ys hys => ?_⟩
        rw [List.cons_append, split, if_neg hc, hsplit ys hys]
        rfl
      | cons part before =>
        refine ⟨(c :: part) :: before, last, fun ys hys => ?_⟩
        rw [List.cons_append, split, if_neg hc, hsplit ys hys]
        rfl

/-- The end of a file's name: a text that is not empty and has no slash in it. -/
def IsEnding (ending : String) : Prop := ending.toList ≠ [] ∧ '/' ∉ ending.toList

theorem IsEnding.getLast?_append {ending : String} (h : IsEnding ending) (stem : String) :
    (stem ++ ending).toList.getLast? ≠ some '/' := by
  rw [String.toList_append, List.getLast?_append_of_ne_nil _ h.1]
  exact fun hlast => h.2 (List.mem_of_getLast? hlast)

theorem IsEnding.isAbsolute_append {ending : String} (h : IsEnding ending) (stem : String) :
    isAbsolute (stem ++ ending) = isAbsolute stem := by
  rw [isAbsolute, isAbsolute, String.toList_append]
  cases hstem : stem.toList with
  | nil =>
    rw [List.nil_append, List.head?_nil]
    have hhead : ending.toList.head? ≠ some '/' := fun hhead => h.2 (List.mem_of_head? hhead)
    rw [beq_eq_false_iff_ne.mpr hhead]
    rfl
  | cons c cs => rfl

theorem names_append_slash (xs ys : List Char) :
    ((split (xs ++ '/' :: ys)).filter (· ≠ [])).map String.ofList =
      ((split xs).filter (· ≠ [])).map String.ofList ++
        ((split ys).filter (· ≠ [])).map String.ofList := by
  rw [split_append_slash, List.filter_append, List.map_append]

theorem IsEnding.names_eq {file : String} (h : IsEnding file) : names file = [file] := by
  have hlast : [file.toList].filter (· ≠ []) = [file.toList] :=
    List.filter_cons_of_pos (by simpa using h.1)
  rw [names, split_of_not_mem h.2, hlast, List.map_singleton, String.ofList_toList]

/-- **The last name goes on** with the end of a path, the names before it staying as they are. -/
theorem exists_names_append (stem : String) :
    ∃ folders base, ∀ ending, IsEnding ending →
      names (stem ++ ending) = folders ++ [base ++ ending] := by
  obtain ⟨before, last, hsplit⟩ := exists_split_append stem.toList
  refine ⟨(before.filter (· ≠ [])).map String.ofList, String.ofList last, fun ending hending => ?_⟩
  have hlast : [last ++ ending.toList].filter (· ≠ []) = [last ++ ending.toList] :=
    List.filter_cons_of_pos (by simp [hending.1])
  rw [names, String.toList_append, hsplit _ hending.2, List.filter_append, List.map_append, hlast,
    List.map_singleton, String.ofList_append, String.ofList_toList]

theorem exists_join_append (folder name : String) :
    ∃ stem, ∀ ending, IsEnding ending → join folder (name ++ ending) = stem ++ ending := by
  by_cases habsolute : isAbsolute name || folder.isEmpty
  · refine ⟨name, fun ending hending => ?_⟩
    rw [join, hending.isAbsolute_append, if_pos habsolute]
  by_cases hslash : folder.toList.getLast? == some '/'
  · refine ⟨folder ++ name, fun ending hending => ?_⟩
    rw [join, hending.isAbsolute_append, if_neg habsolute, if_pos hslash, String.append_assoc]
  · refine ⟨folder ++ "/" ++ name, fun ending hending => ?_⟩
    rw [join, hending.isAbsolute_append, if_neg habsolute, if_neg hslash, String.append_assoc,
      String.append_assoc, String.append_assoc]

theorem IsEnding.isAbsolute_eq {file : String} (h : IsEnding file) : isAbsolute file = false := by
  have hempty := h.isAbsolute_append ""
  rw [String.empty_append] at hempty
  exact hempty

theorem exists_join_eq {file : String} (h : isAbsolute file = false) (folder : String) :
    ∃ rest, join folder file = folder ++ rest := by
  rw [join, h, Bool.false_or]
  split
  · next hempty => exact ⟨file, by rw [String.isEmpty_iff.mp hempty, String.empty_append]⟩
  split
  · exact ⟨file, rfl⟩
  · exact ⟨"/" ++ file, String.append_assoc⟩

theorem isAbsolute_join {file : String} (h : isAbsolute file = false) (folder : String) :
    isAbsolute (join folder file) = isAbsolute folder := by
  by_cases hempty : folder = ""
  · rw [hempty, join, h]
    exact h
  · obtain ⟨rest, hrest⟩ := exists_join_eq h folder
    rw [← String.toList_eq_nil_iff] at hempty
    rw [hrest, isAbsolute, isAbsolute, String.toList_append, List.head?_append_of_ne_nil _ hempty]

theorem check_eq_ok_iff (path : String) :
    check path = .ok () ↔ '\x00' ∉ path.toList ∧ path.utf8ByteSize < maxPath := by
  simp only [check, List.contains_eq_mem, decide_eq_true_eq]
  by_cases hzero : '\x00' ∈ path.toList
  · simp [hzero]
  · by_cases hsize : maxPath ≤ path.utf8ByteSize
    · simp [hzero, hsize, Nat.not_lt_of_le hsize]
    · simp [hzero, hsize, Nat.lt_of_not_le hsize]

theorem check_of_append {stem rest : String} (h : check (stem ++ rest) = .ok ()) :
    check stem = .ok () := by
  rw [check_eq_ok_iff, String.toList_append, List.mem_append, String.utf8ByteSize_append] at h
  exact (check_eq_ok_iff stem).mpr ⟨fun hzero => h.1 (Or.inl hzero), by omega⟩

/-- **The path of a file in a folder** goes through the names of the folder and then those of the
file. -/
theorem names_join {file : String} (h : isAbsolute file = false) (folder : String) :
    names (join folder file) = names folder ++ names file := by
  rw [join, h, Bool.false_or]
  split
  · next hempty =>
    rw [String.isEmpty_iff.mp hempty]
    rfl
  split
  · next hslash =>
    obtain ⟨xs, hxs⟩ := List.getLast?_eq_some_iff.mp (beq_iff_eq.mp hslash)
    have hnone := names_append_slash xs []
    rw [names, names, names, String.toList_append, hxs, List.append_assoc, List.singleton_append,
      names_append_slash, hnone, split, List.filter_cons_of_neg (by simp), List.filter_nil,
      List.map_nil, List.append_nil]
  · rw [names, names, names, String.toList_append, String.toList_append, List.append_assoc]
    exact names_append_slash _ _

end Path

namespace FileTree

variable {t u v : FileTree} {place d q : List String} {names : List String} {path folder : String}

/-! ### Following a path -/

theorem follow_cons_eq_ok_iff {name : String} :
    t.follow place (name :: names) = .ok q ↔
      ∃ next, t.enter place name = .ok next ∧ t.follow next names = .ok q := by
  rw [follow]
  cases t.enter place name <;> simp

theorem follow_singleton (t : FileTree) (place : List String) (name : String) :
    t.follow place [name] = t.enter place name := by
  rw [follow]
  cases t.enter place name <;> rfl

theorem follow_append_eq_ok_iff {more : List String} :
    t.follow place (names ++ more) = .ok q ↔
      ∃ d, t.follow place names = .ok d ∧ t.follow d more = .ok q := by
  induction names generalizing place with
  | nil => simp [follow]
  | cons name names ih =>
    rw [List.cons_append, follow_cons_eq_ok_iff]
    simp only [ih, follow_cons_eq_ok_iff]
    constructor
    · rintro ⟨next, hnext, d, hd, hq⟩
      exact ⟨d, ⟨next, hnext, hd⟩, hq⟩
    · rintro ⟨d, ⟨next, hnext, hd⟩, hq⟩
      exact ⟨next, hnext, d, hd, hq⟩

theorem folder_of_enter {name : String} (hok : t.enter place name = .ok q) :
    t.find? place = some .folder := by
  rw [enter] at hok
  cases hplace : t.find? place with
  | none =>
    rw [hplace] at hok
    contradiction
  | some e =>
    cases e with
    | folder => rfl
    | file content =>
      rw [hplace] at hok
      contradiction

theorem enter_eq (ht : t.find? place = some .folder) (hu : u.find? place = some .folder)
    (name : String) : u.enter place name = t.enter place name := by
  rw [enter, enter, ht, hu]

/-- Entering a folder by the name of a file, which is longer than the two names that stand for folders. -/
theorem enter_eq_ok_iff {name : String} (hlong : 2 < name.utf8ByteSize) :
    t.enter place name = .ok q ↔
      t.find? place = some .folder ∧ name.utf8ByteSize ≤ Path.maxName ∧ place ++ [name] = q := by
  have hself : name ≠ "." := by
    rintro rfl
    exact absurd hlong (by decide)
  have hparent : name ≠ ".." := by
    rintro rfl
    exact absurd hlong (by decide)
  rw [enter]
  cases t.find? place with
  | none => simp
  | some e =>
    cases e with
    | file content => simp
    | folder =>
      simp only [hself, hparent, if_false]
      split
      · next hsize => simp [Nat.not_le_of_lt hsize]
      · next hsize => simp [Nat.le_of_not_lt hsize]

theorem folder_of_follow (hok : t.follow place names = .ok q) (hq : t.find? q = some .folder) :
    t.find? place = some .folder := by
  cases names with
  | nil => exact (Except.ok.inj hok) ▸ hq
  | cons name names =>
    obtain ⟨next, hnext, -⟩ := follow_cons_eq_ok_iff.mp hok
    exact folder_of_enter hnext

theorem resolve_of_slash (hslash : path.toList.getLast? ≠ some '/') (hnames : Path.names path ≠ []) :
    t.resolve path = .ok place ↔
      Path.check path = .ok () ∧ t.follow (t.start path) (Path.names path) = .ok place := by
  have hne : ¬ path.isEmpty = true := by
    intro hempty
    rw [String.isEmpty_iff.mp hempty] at hnames
    exact hnames rfl
  rw [resolve]
  cases Path.check path with
  | error e => simp
  | ok u => simp only [if_neg hne, beq_iff_eq, if_neg hslash, true_and]

def Leads (t : FileTree) (folder : String) (place : List String) : Prop :=
  t.follow (t.start folder) (Path.names folder) = .ok place ∧ t.find? place = some .folder

/-- **Where the path of a file leads**: to the name of the file in the folder that the names before it
lead to. -/
theorem resolve_eq_ok_iff {folders : List String} {file : String}
    (hslash : path.toList.getLast? ≠ some '/') (hnames : Path.names path = folders ++ [file])
    (hlong : 2 < file.utf8ByteSize) :
    t.resolve path = .ok place ↔
      Path.check path = .ok () ∧ file.utf8ByteSize ≤ Path.maxName ∧
        ∃ d, t.follow (t.start path) folders = .ok d ∧ t.find? d = some .folder ∧
          d ++ [file] = place := by
  have hne : Path.names path ≠ [] := by
    rw [hnames]
    exact List.append_ne_nil_of_right_ne_nil _ (List.cons_ne_nil _ _)
  rw [resolve_of_slash hslash hne, hnames, follow_append_eq_ok_iff]
  simp only [follow_singleton, enter_eq_ok_iff hlong]
  constructor
  · rintro ⟨hcheck, d, hd, hfolder, hsize, heq⟩
    exact ⟨hcheck, hsize, d, hd, hfolder, heq⟩
  · rintro ⟨hcheck, hsize, d, hd, hfolder, heq⟩
    exact ⟨hcheck, d, hd, hfolder, hsize, heq⟩

theorem exists_leads_of_resolve {file : String} (hrelative : Path.isAbsolute file = false)
    (hslash : (Path.join folder file).toList.getLast? ≠ some '/') (hnames : Path.names file ≠ [])
    (h : t.resolve (Path.join folder file) = .ok place) :
    Path.check folder = .ok () ∧ ∃ d, t.Leads folder d := by
  have hjoin := Path.names_join hrelative folder
  have hstart : t.start (Path.join folder file) = t.start folder := by
    rw [start, start, Path.isAbsolute_join hrelative]
  rw [resolve_of_slash hslash (hjoin ▸ List.append_ne_nil_of_right_ne_nil _ hnames), hjoin, hstart,
    follow_append_eq_ok_iff] at h
  obtain ⟨hcheck, d, hd, hfile⟩ := h
  obtain ⟨rest, hrest⟩ := Path.exists_join_eq hrelative folder
  obtain ⟨name, names, hcons⟩ := List.exists_cons_of_ne_nil hnames
  rw [hcons, follow_cons_eq_ok_iff] at hfile
  obtain ⟨next, hnext, -⟩ := hfile
  exact ⟨Path.check_of_append (hrest ▸ hcheck), d, hd, folder_of_enter hnext⟩

/-! ### Folders that stay -/

/-- Every folder of one tree is one in another tree, and both have the same home. -/
structure KeepsFolders (t u : FileTree) : Prop where
  home_eq : u.home = t.home
  find?_eq : ∀ place, t.find? place = some .folder → u.find? place = some .folder

namespace KeepsFolders

theorem refl (t : FileTree) : KeepsFolders t t := ⟨rfl, fun _ => id⟩

theorem trans (h : KeepsFolders t u) (g : KeepsFolders u v) : KeepsFolders t v :=
  ⟨g.home_eq.trans h.home_eq, fun place hplace => g.find?_eq place (h.find?_eq place hplace)⟩

theorem start_eq (h : KeepsFolders t u) (path : String) : u.start path = t.start path := by
  rw [start, start, h.home_eq]

/-- **A path leads where it led**, when no folder is gone. -/
theorem follow (h : KeepsFolders t u) (hok : t.follow place names = .ok q) :
    u.follow place names = .ok q := by
  induction names generalizing place with
  | nil => exact hok
  | cons name names ih =>
    obtain ⟨next, hnext, hrest⟩ := follow_cons_eq_ok_iff.mp hok
    have hplace := folder_of_enter hnext
    rw [← enter_eq hplace (h.find?_eq place hplace)] at hnext
    exact follow_cons_eq_ok_iff.mpr ⟨next, hnext, ih hrest⟩

theorem resolve (h : KeepsFolders t u) (hok : t.resolve path = .ok q) : u.resolve path = .ok q := by
  rw [FileTree.resolve] at hok ⊢
  split at hok
  · contradiction
  split at hok
  · contradiction
  · next hempty =>
    rw [if_neg hempty, h.start_eq]
    exact h.follow hok

theorem leads (h : KeepsFolders t u) (hleads : t.Leads folder place) : u.Leads folder place := by
  refine ⟨?_, h.find?_eq place hleads.2⟩
  rw [h.start_eq]
  exact h.follow hleads.1

end KeepsFolders

theorem Leads.unique (h : t.Leads folder place) (g : t.Leads folder q) : place = q :=
  Except.ok.inj (h.1.symm.trans g.1)

/-! ### Making folders -/

/-- One tree has the files and folders of another and perhaps more folders. -/
structure Grows (t u : FileTree) : Prop where
  home_eq : u.home = t.home
  find?_eq : ∀ place, u.find? place = t.find? place ∨
    t.find? place = none ∧ u.find? place = some .folder

namespace Grows

theorem refl (t : FileTree) : Grows t t := ⟨rfl, fun _ => Or.inl rfl⟩

theorem trans (h : Grows t u) (g : Grows u v) : Grows t v := by
  refine ⟨g.home_eq.trans h.home_eq, fun place => ?_⟩
  rcases g.find?_eq place with hplace | ⟨hnone, hfolder⟩
  · rw [hplace]
    exact h.find?_eq place
  · rcases h.find?_eq place with hplace | ⟨-, hother⟩
    · exact Or.inr ⟨hplace ▸ hnone, hfolder⟩
    · rw [hnone] at hother
      contradiction

theorem find?_of_some (h : Grows t u) {e : Entry} (he : t.find? place = some e) :
    u.find? place = some e := by
  rcases h.find?_eq place with hplace | ⟨hnone, -⟩
  · exact hplace.trans he
  · rw [he] at hnone
    contradiction

theorem find?_of_file (h : Grows t u) {content : Bytes} (hfile : u.find? place = some (.file content)) :
    t.find? place = some (.file content) := by
  rcases h.find?_eq place with hplace | ⟨-, hfolder⟩
  · exact hplace ▸ hfile
  · rw [hfile] at hfolder
    exact absurd hfolder nofun

theorem keepsFolders (h : Grows t u) : KeepsFolders t u :=
  ⟨h.home_eq, fun _ hplace => h.find?_of_some hplace⟩

end Grows

theorem ne_nil_of_find?_ne_folder (h : t.find? place ≠ some .folder) : place ≠ [] := by
  rintro rfl
  exact h rfl

theorem grows_put (h : t.find? place = none) : Grows t (t.put place .folder) := by
  have hne : place ≠ [] := ne_nil_of_find?_ne_folder (by rw [h]; exact nofun)
  refine ⟨rfl, fun other => ?_⟩
  rw [find?_put hne]
  split
  · next heq => exact Or.inr ⟨heq ▸ h, rfl⟩
  · exact Or.inl rfl

/-- **Making folders** does nothing else, even where it fails. -/
theorem grows_makeFoldersFrom (t : FileTree) (place names : List String) :
    Grows t (t.makeFoldersFrom place names).2 := by
  induction names generalizing t place with
  | nil => exact .refl t
  | cons name names ih =>
    rw [makeFoldersFrom]
    split
    · exact .refl t
    · split
      · next hnone => exact (grows_put hnone).trans (ih _ _)
      · exact ih _ _
      · exact .refl t

theorem grows_makeFolders (t : FileTree) (folder : String) : Grows t (t.makeFolders folder).2 := by
  rw [makeFolders]
  split
  · exact .refl t
  · exact grows_makeFoldersFrom t _ _

theorem makeFoldersFrom_of_follow (hok : t.follow place names = .ok q)
    (hq : t.find? q = some .folder) : t.makeFoldersFrom place names = (.ok (), t) := by
  induction names generalizing place with
  | nil => rfl
  | cons name names ih =>
    obtain ⟨next, hnext, hrest⟩ := follow_cons_eq_ok_iff.mp hok
    rw [makeFoldersFrom, hnext]
    simp only [folder_of_follow hrest hq]
    exact ih hrest

theorem makeFolders_of_leads (hcheck : Path.check folder = .ok ()) (h : t.Leads folder d) :
    t.makeFolders folder = (.ok (), t) := by
  simp only [makeFolders, hcheck]
  exact makeFoldersFrom_of_follow h.1 h.2

/-! ### Reading and writing -/

theorem read_eq_ok_iff {content : Bytes} :
    t.read path = .ok content ↔
      ∃ place, t.resolve path = .ok place ∧ t.find? place = some (.file content) := by
  rw [read]
  cases t.resolve path with
  | error e => simp
  | ok place =>
    simp only [Except.ok.injEq, exists_eq_left']
    rcases t.find? place with _ | _ | _ <;> simp

theorem exists?_iff :
    t.exists? path = true ↔ ∃ place e, t.resolve path = .ok place ∧ t.find? place = some e := by
  rw [exists?]
  cases t.resolve path with
  | error e => simp
  | ok place => simp [Option.isSome_iff_exists]

theorem write_eq_ok_iff {content : Bytes} :
    t.write path content = .ok u ↔
      ∃ place, t.resolve path = .ok place ∧ t.find? place ≠ some .folder ∧
        t.put place (.file content) = u := by
  rw [write]
  cases t.resolve path with
  | error e => simp
  | ok place =>
    simp only [Except.ok.injEq, exists_eq_left']
    rcases t.find? place with _ | _ | _ <;> simp

/-- **Writing a file** changes what stands where its path leads, and nothing else. -/
theorem write_frame {content : Bytes} (h : t.write path content = .ok u) :
    KeepsFolders t u ∧
      ∀ place, u.resolve path ≠ .ok place → u.find? place = t.find? place := by
  obtain ⟨p, hp, hfolder, rfl⟩ := write_eq_ok_iff.mp h
  have hne := ne_nil_of_find?_ne_folder hfolder
  have hkeeps : KeepsFolders t (t.put p (.file content)) := by
    refine ⟨rfl, fun place hplace => ?_⟩
    rw [find?_put hne, if_neg]
    · exact hplace
    · rintro rfl
      exact hfolder hplace
  refine ⟨hkeeps, fun place hplace => ?_⟩
  rw [find?_put hne, if_neg]
  rintro rfl
  exact hplace (hkeeps.resolve hp)

theorem read_of_write {content : Bytes} (h : t.write path content = .ok u) :
    u.read path = .ok content := by
  have hkeeps := (write_frame h).1
  obtain ⟨p, hp, hfolder, rfl⟩ := write_eq_ok_iff.mp h
  refine read_eq_ok_iff.mpr ⟨p, hkeeps.resolve hp, ?_⟩
  rw [find?_put (ne_nil_of_find?_ne_folder hfolder), if_pos rfl]

/-! ### Trees without gaps -/

/-- Everything stands in a folder. -/
def WellFormed (t : FileTree) : Prop := ∀ e ∈ t.entries, t.find? e.1.dropLast = some .folder

instance (t : FileTree) : Decidable t.WellFormed :=
  inferInstanceAs (Decidable (∀ e ∈ t.entries, t.find? e.1.dropLast = some .folder))

namespace WellFormed

theorem find?_dropLast (h : t.WellFormed) {e : Entry} (he : t.find? place = some e) :
    t.find? place.dropLast = some .folder := by
  rw [find?] at he
  split at he
  · next hnil =>
    rw [hnil]
    rfl
  · exact h (place, e) (Table.mem_of_get? he)

theorem find?_of_above (h : t.WellFormed) (hq : t.find? q = some .folder) (habove : place <+: q) :
    t.find? place = some .folder := by
  induction q using List.reverseRecOn with
  | nil =>
    rw [List.prefix_nil.mp habove]
    rfl
  | append_singleton q name ih =>
    rcases List.prefix_concat_iff.mp habove with rfl | habove
    · exact hq
    · have hparent := h.find?_dropLast hq
      rw [List.dropLast_concat] at hparent
      exact ih hparent habove

end WellFormed

theorem prefix_of_enter {name : String} (hname : name ≠ "..") (hok : t.enter place name = .ok q) :
    place <+: q := by
  have hplace := folder_of_enter hok
  simp only [enter, hplace, if_neg hname] at hok
  split at hok
  · exact Except.ok.inj hok ▸ List.prefix_refl place
  split at hok
  · contradiction
  · exact Except.ok.inj hok ▸ List.prefix_append place [name]

theorem prefix_of_follow (hnames : ".." ∉ names) (hok : t.follow place names = .ok q) :
    place <+: q := by
  induction names generalizing place with
  | nil => exact Except.ok.inj hok ▸ List.prefix_refl place
  | cons name names ih =>
    rw [List.mem_cons, not_or] at hnames
    obtain ⟨next, hnext, hrest⟩ := follow_cons_eq_ok_iff.mp hok
    exact (prefix_of_enter (Ne.symm hnames.1) hnext).trans (ih hnames.2 hrest)

/-- A path that never goes up leads to a folder in every tree without gaps that has the folder. -/
theorem WellFormed.follow (h : t.WellFormed) (hnames : ".." ∉ names)
    (hq : t.find? q = some .folder) (hok : u.follow place names = .ok q) :
    t.follow place names = .ok q := by
  induction names generalizing place with
  | nil => exact hok
  | cons name names ih =>
    have hplace := h.find?_of_above hq (prefix_of_follow hnames hok)
    rw [List.mem_cons, not_or] at hnames
    obtain ⟨next, hnext, hrest⟩ := follow_cons_eq_ok_iff.mp hok
    rw [enter_eq hplace (folder_of_enter hnext)] at hnext
    exact follow_cons_eq_ok_iff.mpr ⟨next, hnext, ih hnames.2 hrest⟩

/-- Adding folders changes nothing for the path: it leads to a folder already, or it goes through
missing folders without going up. -/
def Settled (t : FileTree) (folder : String) : Prop :=
  (∃ d, t.Leads folder d) ∨ t.WellFormed ∧ ".." ∉ Path.names folder

/-- Where the path of a folder leads when something is in that folder before. -/
theorem Settled.leads (h : t.Settled folder) (hkeeps : KeepsFolders t u) (hu : u.Leads folder d)
    {name : String} {e : Entry} (he : t.find? (d ++ [name]) = some e) : t.Leads folder d := by
  rcases h with ⟨d', hd'⟩ | ⟨hwell, hnames⟩
  · rw [hu.unique (hkeeps.leads hd')]
    exact hd'
  · have hd := hwell.find?_dropLast he
    rw [List.dropLast_concat] at hd
    refine ⟨hwell.follow (u := u) hnames hd ?_, hd⟩
    rw [← hkeeps.start_eq]
    exact hu.1

end FileTree

end DelayLedger
