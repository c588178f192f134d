import DelayLedger.Keystore
import DelayLedger.Proofs.Files

/-!
# The two files of a key name

Whatever a key name looks like, the files of its two halves stand side by side: where one path leads,
the other one leads too, to another name in the same folder (`side_by_side`).  Saving a keypair makes
the folder and then writes at these two places and nowhere else (`save_frame`); when it succeeds both
halves are read back (`read_of_save`).
-/

namespace DelayLedger.Keystore

open FileTree (Grows KeepsFolders)

/-- The two ends of file names by which a key name owns files. -/
def IsHalf (ending : String) : Prop := ending = "_public.key" ∨ ending = "_secret.key"

def halfPath (folder name ending : String) : String := Path.join folder (name ++ ending)

variable {t : FileTree} {folder name ending other : String} {place : List String} {keys : Keypair}

theorem isHalf_public : IsHalf "_public.key" := Or.inl rfl

theorem isHalf_secret : IsHalf "_secret.key" := Or.inr rfl

namespace IsHalf

theorem isEnding (h : IsHalf ending) : Path.IsEnding ending := by
  rcases h with rfl | rfl <;> exact ⟨by decide, by decide⟩

theorem utf8ByteSize_eq (h : IsHalf ending) : ending.utf8ByteSize = 11 := by
  rcases h with rfl | rfl <;> decide

theorem length_toList (h : IsHalf ending) : ending.toList.length = 11 := by
  rcases h with rfl | rfl <;> decide

theorem zero_not_mem (h : IsHalf ending) : '\x00' ∉ ending.toList := by
  rcases h with rfl | rfl <;> decide

theorem utf8ByteSize_append (h : IsHalf ending) (stem : String) :
    (stem ++ ending).utf8ByteSize = stem.utf8ByteSize + 11 := by
  rw [String.utf8ByteSize_append, h.utf8ByteSize_eq]

theorem lt_utf8ByteSize_append (h : IsHalf ending) (stem : String) :
    2 < (stem ++ ending).utf8ByteSize := by
  rw [h.utf8ByteSize_append]
  omega

theorem check_eq_ok_iff (h : IsHalf ending) (stem : String) :
    Path.check (stem ++ ending) = .ok () ↔
      '\x00' ∉ stem.toList ∧ stem.utf8ByteSize + 11 < Path.maxPath := by
  rw [Path.check_eq_ok_iff, String.toList_append, List.mem_append, or_iff_left h.zero_not_mem,
    h.utf8ByteSize_append]

end IsHalf

theorem eq_of_append_half (h : IsHalf ending) (g : IsHalf other) {stem base : String}
    (heq : stem ++ ending = base ++ other) : stem = base ∧ ending = other := by
  have hlist := congrArg String.toList heq
  rw [String.toList_append, String.toList_append] at hlist
  obtain ⟨hstem, hending⟩ :=
    List.append_inj' hlist (h.length_toList.trans g.length_toList.symm)
  exact ⟨String.toList_inj.mp hstem, String.toList_inj.mp hending⟩

/-- **The halves of a keypair stand side by side.** -/
theorem side_by_side (folder name : String) :
    ∃ base, ∀ {t : FileTree} {place ending}, IsHalf ending →
      t.resolve (halfPath folder name ending) = .ok place →
        ∃ d, d ++ [base ++ ending] = place ∧
          ∀ {other}, IsHalf other → t.resolve (halfPath folder name other) = .ok (d ++ [base ++ other]) := by
  obtain ⟨stem, hstem⟩ := Path.exists_join_append folder name
  obtain ⟨folders, base, hnames⟩ := Path.exists_names_append stem
  have hresolve : ∀ {t : FileTree} {place ending}, IsHalf ending →
      (t.resolve (halfPath folder name ending) = .ok place ↔
        ('\x00' ∉ stem.toList ∧ stem.utf8ByteSize + 11 < Path.maxPath) ∧
          base.utf8ByteSize + 11 ≤ Path.maxName ∧ ∃ d, t.follow (t.start stem) folders = .ok d ∧
            t.find? d = some .folder ∧ d ++ [base ++ ending] = place) := by
    intro t place ending h
    have hstart : t.start (stem ++ ending) = t.start stem := by
      rw [FileTree.start, FileTree.start, h.isEnding.isAbsolute_append]
    rw [halfPath, hstem ending h.isEnding,
      FileTree.resolve_eq_ok_iff (h.isEnding.getLast?_append stem) (hnames ending h.isEnding)
        (h.lt_utf8ByteSize_append base), hstart, h.utf8ByteSize_append,
      h.check_eq_ok_iff]
  refine ⟨base, fun {t place ending} h hplace => ?_⟩
  obtain ⟨hcheck, hsize, d, hfollow, hfolder, heq⟩ := (hresolve h).mp hplace
  exact ⟨d, heq, fun g => (hresolve g).mpr ⟨hcheck, hsize, d, hfollow, hfolder, rfl⟩⟩

theorem half_ne {t u : FileTree} {p q : List String} (h : IsHalf ending) (g : IsHalf other)
    (hne : ending ≠ other) (hp : t.resolve (halfPath folder name ending) = .ok p)
    (hq : u.resolve (halfPath folder name other) = .ok q) : p ≠ q := by
  obtain ⟨base, hbase⟩ := side_by_side folder name
  obtain ⟨d, rfl, -⟩ := hbase h hp
  obtain ⟨d', rfl, -⟩ := hbase g hq
  intro heq
  have hlast := List.cons.inj (List.append_inj' heq rfl).2
  exact hne (eq_of_append_half h g hlast.1).2

/-! ### Saving -/

theorem save_eq_ok_iff {v : FileTree} :
    save t folder name keys = (.ok (), v) ↔
      (t.makeFolders folder).1 = .ok () ∧
        ∃ u, (t.makeFolders folder).2.write (secretPath folder name) keys.secretKey = .ok u ∧
          u.write (publicPath folder name) keys.publicKey = .ok v := by
  rw [save]
  obtain ⟨r, made⟩ := t.makeFolders folder
  cases r with
  | error e => simp
  | ok r =>
    simp only [true_and]
    cases made.write (secretPath folder name) keys.secretKey with
    | error e => simp
    | ok u =>
      simp only [Except.ok.injEq, exists_eq_left']
      cases u.write (publicPath folder name) keys.publicKey <;> simp

/-- **What saving does at most**, even where it fails: folders are added, and files are written where
the paths of the two halves then lead. -/
theorem save_frame (t : FileTree) (folder name : String) (keys : Keypair) :
    KeepsFolders (t.makeFolders folder).2 (save t folder name keys).2 ∧
      ∀ place, (∀ ending, IsHalf ending →
          (save t folder name keys).2.resolve (halfPath folder name ending) ≠ .ok place) →
        (save t folder name keys).2.find? place = (t.makeFolders folder).2.find? place := by
  rw [save]
  obtain ⟨r, made⟩ := t.makeFolders folder
  cases r with
  | error e => exact ⟨.refl made, fun _ _ => rfl⟩
  | ok r =>
    simp only
    cases hsecret : made.write (secretPath folder name) keys.secretKey with
    | error e => exact ⟨.refl made, fun _ _ => rfl⟩
    | ok u =>
      obtain ⟨hkeeps, hframe⟩ := FileTree.write_frame hsecret
      simp only
      cases hpublic : u.write (publicPath folder name) keys.publicKey with
      | error e => exact ⟨hkeeps, fun place hplace => hframe place (hplace _ isHalf_secret)⟩
      | ok v =>
        obtain ⟨hkeeps', hframe'⟩ := FileTree.write_frame hpublic
        refine ⟨hkeeps.trans hkeeps', fun place hplace => ?_⟩
        rw [hframe' place (hplace _ isHalf_public)]
        exact hframe place fun hp => hplace _ isHalf_secret (hkeeps'.resolve hp)

/-- **Both halves are read back** after a save. -/
theorem read_of_save {v : FileTree} (h : save t folder name keys = (.ok (), v)) :
    v.read (publicPath folder name) = .ok keys.publicKey ∧
      v.read (secretPath folder name) = .ok keys.secretKey := by
  obtain ⟨-, u, hsecret, hpublic⟩ := save_eq_ok_iff.mp h
  refine ⟨FileTree.read_of_write hpublic, ?_⟩
  obtain ⟨p, hp, hfile⟩ := FileTree.read_eq_ok_iff.mp (FileTree.read_of_write hsecret)
  obtain ⟨hkeeps, hframe⟩ := FileTree.write_frame hpublic
  refine FileTree.read_eq_ok_iff.mpr ⟨p, hkeeps.resolve hp, ?_⟩
  rw [hframe p fun hq => half_ne isHalf_secret isHalf_public (by decide) hp hq rfl, hfile]

end DelayLedger.Keystore
