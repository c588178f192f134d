import DelayLedger.Command.Keygen
import DelayLedger.Proofs.Keystore.Halves
import DelayLedger.Suite.Small

/-!
# Which keys are overwritten

A node that starts looks for both files of its key name, and the key command, when it is not told to
replace keys, looks for the public one alone.  What they do not find they make, and making a keypair
writes both files.

* `overwritten_unless_found`: a whole keypair is kept, and so is every file that the key name does not
  own; a half that stands alone is not.
* `Sample.lone_secret_lost`: a save that is cut short leaves the secret half alone, and the next start
  replaces it.
-/

namespace DelayLedger.Keystore

open Command (Keygen.folderOf Keygen.nameOf)

/-- The trees that are left behind by the two programs that make keys unasked: a node's start, and a
run of the key command that is not told to replace keys. -/
inductive Unasked (s : Suite) (t : FileTree) (folder name : String) (seed : Bytes) : FileTree → Prop
  | start : Unasked s t folder name seed (loadOrGenerate s t folder name seed).2
  | command {args options} (hread : Command.read Command.Keygen.specs args = .run options)
      (hfolder : Keygen.folderOf options = folder) (hname : Keygen.nameOf options = name)
      (hforce : options.any (·.1 == "force") = false) :
      Unasked s t folder name seed (Command.Keygen.run s seed args t).2

variable {s : Suite} {t v : FileTree} {folder name ending : String} {seed : Bytes} {keys : Keypair}
  {place : List String}

theorem loadOrGenerate_snd (s : Suite) (t : FileTree) (folder name : String) (seed : Bytes) :
    (loadOrGenerate s t folder name seed).2 =
      if t.exists? (publicPath folder name) && t.exists? (secretPath folder name) then t
      else (save t folder name (s.generate seed)).2 := by
  rw [loadOrGenerate]
  split
  · rfl
  · simp only
    obtain ⟨r, u⟩ := save t folder name (s.generate seed)
    cases r <;> rfl

theorem make_snd (s : Suite) (seed : Bytes) (t : FileTree) (folder name : String) :
    (Command.Keygen.make s seed t folder name false).2 =
      if t.exists? (publicPath folder name) then t else (save t folder name (s.generate seed)).2 := by
  simp only [Command.Keygen.make, Bool.not_false, Bool.and_true]
  split
  · rfl
  · obtain ⟨r, u⟩ := save t folder name (s.generate seed)
    cases r with
    | error e => rfl
    | ok r =>
      simp only
      cases load s u folder name with
      | error e => rfl
      | ok stored =>
        simp only
        split <;> rfl

namespace Unasked

theorem command_eq {args : List String} {options : List (String × String)}
    (hread : Command.read Command.Keygen.specs args = .run options)
    (hforce : options.any (·.1 == "force") = false) (s : Suite) (seed : Bytes) (t : FileTree) :
    Command.Keygen.run s seed args t =
      Command.Keygen.make s seed t (Keygen.folderOf options) (Keygen.nameOf options) false := by
  rw [Command.Keygen.run, hread]
  simp only [hforce]

theorem eq_or_eq_save (h : Unasked s t folder name seed v) :
    v = t ∧ t.exists? (publicPath folder name) = true ∨
      v = (save t folder name (s.generate seed)).2 ∧
        (t.exists? (publicPath folder name) = false ∨ t.exists? (secretPath folder name) = false) := by
  cases h with
  | start =>
    rw [loadOrGenerate_snd]
    split
    · next hfound => exact Or.inl ⟨rfl, (Bool.and_eq_true_iff.mp hfound).1⟩
    · next hmissing =>
      rw [Bool.not_eq_true, Bool.and_eq_false_iff] at hmissing
      exact Or.inr ⟨rfl, hmissing⟩
  | command hread hfolder hname hforce =>
    rw [command_eq hread hforce, hfolder, hname, make_snd]
    split
    · next hfound => exact Or.inl ⟨rfl, hfound⟩
    · next hmissing => exact Or.inr ⟨rfl, Or.inl (Bool.eq_false_iff.mpr hmissing)⟩

end Unasked

/-! ### Saving over what is there -/

theorem makeFolders_of_half (hname : Path.isAbsolute name = false) (h : IsHalf ending)
    (hplace : t.resolve (halfPath folder name ending) = .ok place) :
    t.makeFolders folder = (.ok (), t) := by
  obtain ⟨stem, hstem⟩ := Path.exists_join_append folder name
  obtain ⟨folders, base, hnames⟩ := Path.exists_names_append name
  have hrelative : Path.isAbsolute (name ++ ending) = false := by
    rw [h.isEnding.isAbsolute_append, hname]
  have hslash : (halfPath folder name ending).toList.getLast? ≠ some '/' := by
    rw [halfPath, hstem ending h.isEnding]
    exact h.isEnding.getLast?_append stem
  have hne : Path.names (name ++ ending) ≠ [] := by
    rw [hnames ending h.isEnding]
    exact List.append_ne_nil_of_right_ne_nil _ (List.cons_ne_nil _ _)
  obtain ⟨hcheck, d, hleads⟩ := FileTree.exists_leads_of_resolve hrelative hslash hne hplace
  exact FileTree.makeFolders_of_leads hcheck hleads

/-- **A save succeeds** where one of the two paths leads somewhere and no folder is in the way. -/
theorem exists_save_eq_ok (hname : Path.isAbsolute name = false) (h : IsHalf ending)
    (hplace : t.resolve (halfPath folder name ending) = .ok place)
    (hfree : ∀ other, IsHalf other → ∀ q, t.resolve (halfPath folder name other) = .ok q →
      t.find? q ≠ some .folder) (keys : Keypair) :
    ∃ v, save t folder name keys = (.ok (), v) := by
  obtain ⟨base, hbase⟩ := side_by_side folder name
  obtain ⟨d, -, hresolve⟩ := hbase h hplace
  have hp := hresolve isHalf_secret
  have hq := hresolve isHalf_public
  have hwrite : t.write (secretPath folder name) keys.secretKey =
      .ok (t.put (d ++ [base ++ "_secret.key"]) (.file keys.secretKey)) :=
    FileTree.write_eq_ok_iff.mpr ⟨_, hp, hfree _ isHalf_secret _ hp, rfl⟩
  obtain ⟨hkeeps, hframe⟩ := FileTree.write_frame hwrite
  have hpublic : (t.put (d ++ [base ++ "_secret.key"]) (.file keys.secretKey)).find?
      (d ++ [base ++ "_public.key"]) ≠ some .folder := by
    rw [hframe _ fun hsecret => half_ne isHalf_secret isHalf_public (by decide) hsecret hq rfl]
    exact hfree _ isHalf_public _ hq
  have hmade := makeFolders_of_half hname h hplace
  refine ⟨_, save_eq_ok_iff.mpr ⟨by rw [hmade], _, by rw [hmade]; exact hwrite,
    FileTree.write_eq_ok_iff.mpr ⟨_, hkeeps.resolve hq, hpublic, rfl⟩⟩⟩

theorem read_save_of_lone (hname : Path.isAbsolute name = false) {other : String} (h : IsHalf ending)
    (g : IsHalf other) (hne : ending ≠ other) {old : Bytes}
    (hold : t.read (halfPath folder name ending) = .ok old)
    (hmissing : t.exists? (halfPath folder name other) = false) (keys : Keypair) :
    (save t folder name keys).2.read (publicPath folder name) = .ok keys.publicKey ∧
      (save t folder name keys).2.read (secretPath folder name) = .ok keys.secretKey := by
  obtain ⟨p, hp, hfile⟩ := FileTree.read_eq_ok_iff.mp hold
  have hfree : ∀ e, IsHalf e → ∀ q, t.resolve (halfPath folder name e) = .ok q →
      t.find? q ≠ some .folder := by
    intro e he q hq hfolder
    by_cases heq : e = ending
    · rw [heq, hp] at hq
      rw [← Except.ok.inj hq, hfile] at hfolder
      exact absurd hfolder nofun
    · have heq : e = other := by
        rcases h with rfl | rfl <;> rcases g with rfl | rfl <;> rcases he with rfl | rfl <;>
          first | rfl | contradiction
      rw [heq] at hq
      rw [FileTree.exists?_iff.mpr ⟨q, _, hq, hfolder⟩] at hmissing
      contradiction
  obtain ⟨v, hv⟩ := exists_save_eq_ok hname h hp hfree keys
  rw [hv]
  exact read_of_save hv

/-! ### What is kept and what is lost -/

/-- **Keys are overwritten unless they are found.**  A whole keypair is kept, and a found public half
is enough for the key command.  A file at a place to which the two paths do not lead is kept by both,
also when they fail.  A secret half that stands alone is replaced by both, and a public half that
stands alone is replaced by a node's start. -/
theorem overwritten_unless_found (hv : Unasked s t folder name seed v) :
    (t.exists? (publicPath folder name) = true → t.exists? (secretPath folder name) = true → v = t) ∧
    (∀ args options, Command.read Command.Keygen.specs args = .run options →
      options.any (·.1 == "force") = false →
      t.exists? (publicPath (Keygen.folderOf options) (Keygen.nameOf options)) = true →
      (Command.Keygen.run s seed args t).2 = t) ∧
    (∀ place content, t.find? place = some (.file content) →
      (∀ ending, IsHalf ending → v.resolve (halfPath folder name ending) ≠ .ok place) →
      v.find? place = some (.file content)) ∧
    (Path.isAbsolute name = false → ∀ old, t.read (secretPath folder name) = .ok old →
      t.exists? (publicPath folder name) = false →
      v.read (publicPath folder name) = .ok (s.generate seed).publicKey ∧
        v.read (secretPath folder name) = .ok (s.generate seed).secretKey) ∧
    (Path.isAbsolute name = false → ∀ old, t.read (publicPath folder name) = .ok old →
      t.exists? (secretPath folder name) = false →
      (loadOrGenerate s t folder name seed).2.read (publicPath folder name) =
          .ok (s.generate seed).publicKey ∧
        (loadOrGenerate s t folder name seed).2.read (secretPath folder name) =
          .ok (s.generate seed).secretKey) := by
  refine ⟨fun hpublic hsecret => ?_, fun args options hread hforce hfound => ?_,
    fun place content hfile helse => ?_, fun hname old hold hmissing => ?_,
    fun hname old hold hmissing => ?_⟩
  · rcases hv.eq_or_eq_save with ⟨heq, -⟩ | ⟨-, hmissing | hmissing⟩
    · exact heq
    · rw [hpublic] at hmissing
      contradiction
    · rw [hsecret] at hmissing
      contradiction
  · rw [Unasked.command_eq hread hforce, make_snd, if_pos hfound]
  · rcases hv.eq_or_eq_save with ⟨rfl, -⟩ | ⟨rfl, -⟩
    · exact hfile
    · rw [(save_frame t folder name _).2 place helse]
      exact (FileTree.grows_makeFolders t folder).find?_of_some hfile
  · rcases hv.eq_or_eq_save with ⟨-, hfound⟩ | ⟨rfl, -⟩
    · rw [hmissing] at hfound
      contradiction
    · exact read_save_of_lone hname isHalf_secret isHalf_public (by decide) hold hmissing _
  · rw [loadOrGenerate_snd, hmissing, Bool.and_false, if_neg Bool.false_ne_true]
    exact read_save_of_lone hname isHalf_public isHalf_secret (by decide) hold hmissing _

end DelayLedger.Keystore

namespace DelayLedger.Sample

open Keystore (Unasked publicPath secretPath)

/-- What a first save leaves behind that is cut short between its two writes. -/
def interrupted : FileTree :=
  ⟨[(["w", "ks", "node_secret.key"], .file [7]), (["w", "ks"], .folder), (["w"], .folder)], ["w"]⟩

theorem interrupted_restarted :
    Unasked Suite.small interrupted "ks" "node" [9]
        (Keystore.loadOrGenerate Suite.small interrupted "ks" "node" [9]).2 ∧
      interrupted.read (secretPath "ks" "node") = .ok [7] ∧
      (Keystore.loadOrGenerate Suite.small interrupted "ks" "node" [9]).2.read
        (secretPath "ks" "node") = .ok [9] :=
  have hread : interrupted.read (secretPath "ks" "node") = .ok [7] := by decide +kernel
  ⟨.start, hread,
    ((Keystore.overwritten_unless_found .start).2.2.2.1 (by decide +kernel) [7] hread
      (by decide +kernel)).2⟩

/-- A secret half that an interrupted save left behind does not outlive the next start, nor a run of
the key command, although nobody asked for its replacement. -/
theorem lone_secret_lost :
    ((FileTree.ofHome ["w"]).makeFolders "ks").2.write (secretPath "ks" "node") [7] =
        .ok interrupted ∧
      interrupted.read (secretPath "ks" "node") = .ok [7] ∧
      (Keystore.loadOrGenerate Suite.small interrupted "ks" "node" [9]).2.read
        (secretPath "ks" "node") = .ok [9] ∧
      (Command.Keygen.run Suite.small [9] ["--output", "ks"] interrupted).2.read
        (secretPath "ks" "node") = .ok [9] ∧
      ¬ ∀ (s : Suite) (t v : FileTree) (folder name : String) (seed : Bytes),
        Unasked s t folder name seed v →
        ∀ path content, t.read path = .ok content → v.read path = .ok content := by
  have hread : interrupted.read (secretPath "ks" "node") = .ok [7] := by decide +kernel
  have hstart : (Keystore.loadOrGenerate Suite.small interrupted "ks" "node" [9]).2.read
      (secretPath "ks" "node") = .ok [9] := by decide +kernel
  refine ⟨by decide +kernel, hread, hstart, by decide +kernel, fun hkept => ?_⟩
  have hsame := hkept Suite.small interrupted _ "ks" "node" [9] .start _ _ hread
  rw [hstart] at hsame
  exact absurd hsame (by decide)

end DelayLedger.Sample
