import DelayLedger.Proofs.Keystore.Overwriting
import DelayLedger.Settings

/-!
# A keystore maps names to keypairs

`Run s folder t log v`: calls of the keystore in `folder`, each of them successful, lead from the tree
`t` to the tree `v`.  The log has the keypair that each call saved or returned, under its key name, the
latest first.  Key names are those that the check of settings accepts; they have no slash in them, so
that each owns two files right in the folder, and no two names share a file (`ne_of_resolve`), also not
where a name ends like the name of a file.

* `Run.loads_latest`: each name loads what was last kept under it, and the names that the run left
  alone load what they loaded before.
* `held_of_call`: no call, successful or not, changes what another name loads.
-/

namespace DelayLedger

namespace Suite

variable {s : Suite} {keys : Keypair} {publicKey secretKey : Bytes}

/-- What a keypair signs verifies, whatever the message, and its halves have the right sizes. -/
structure IsSound (s : Suite) : Prop where
  length_secretKey : ∀ seed, (s.generate seed).secretKey.length = s.secretSize
  verify_sign : ∀ seed message, s.verify (s.generate seed).publicKey message
    (s.sign (s.generate seed).secretKey message) = .ok ()

/-- The keypairs that there are: they are generated, or joined from halves that belong together. -/
inductive IsKeypair (s : Suite) : Keypair → Prop
  | generated (seed : Bytes) : IsKeypair s (s.generate seed)
  | joined {publicKey secretKey : Bytes} {keys : Keypair}
      (h : s.joinKeys publicKey secretKey = .ok keys) : IsKeypair s keys

theorem eq_of_joinKeys (h : s.joinKeys publicKey secretKey = .ok keys) :
    keys.publicKey = publicKey ∧ keys.secretKey = secretKey := by
  rw [joinKeys] at h
  split at h
  · contradiction
  split at h
  · contradiction
  split at h
  · cases h
    exact ⟨rfl, rfl⟩
  · contradiction

theorem IsKeypair.joinKeys_eq (h : s.IsKeypair keys) (hs : s.IsSound) :
    s.joinKeys keys.publicKey keys.secretKey = .ok keys := by
  cases h with
  | generated seed =>
    have hverify := hs.verify_sign seed probe
    rw [joinKeys, if_neg (not_not.mpr ((s.verify_eq_ok_iff _ _ _).mp hverify).1),
      if_neg (not_not.mpr (hs.length_secretKey seed)), if_pos ((s.verifies_iff _ _ _).mpr hverify)]
  | joined h =>
    obtain ⟨hpublic, hsecret⟩ := eq_of_joinKeys h
    rw [hpublic, hsecret, h]

end Suite

namespace Settings

def AcceptsName (name : String) : Prop := ∃ c : Settings, c.check = .ok () ∧ c.keyName = name

theorem acceptsName_iff (name : String) : AcceptsName name ↔ isPlainStem name = true := by
  constructor
  · rintro ⟨c, hc, rfl⟩
    rw [check] at hc
    split at hc
    · contradiction
    split at hc
    · contradiction
    split at hc
    · contradiction
    split at hc
    · assumption
    · contradiction
  · intro h
    have hdifficulty : ¬ standard.initialDifficulty = 0 := by decide
    have hslot : ¬ standard.slot.nanoseconds = 0 := by decide
    have hcommittee : ¬ maxNodes ≤ standard.committeeSize := by decide
    refine ⟨{ standard with keyName := name }, ?_, rfl⟩
    simp only [check, if_neg hdifficulty, if_neg hslot, if_neg hcommittee, if_pos h]

theorem AcceptsName.slash_not_mem {name : String} (h : AcceptsName name) : '/' ∉ name.toList := by
  rw [acceptsName_iff, isPlainStem] at h
  simp only [Bool.and_eq_true, Bool.not_eq_true', List.contains_eq_mem, decide_eq_false_iff_not] at h
  exact h.1.1.2

end Settings

namespace Keystore

open Settings (AcceptsName)
open FileTree (KeepsFolders)

variable {s : Suite} {t u v : FileTree} {folder name other ending half : String} {seed : Bytes}
  {keys : Keypair} {place p q : List String}

/-! ### The files of an accepted name -/

theorem isEnding_append (hname : AcceptsName name) (h : IsHalf ending) :
    Path.IsEnding (name ++ ending) := by
  refine ⟨?_, ?_⟩ <;> rw [String.toList_append]
  · exact List.append_ne_nil_of_right_ne_nil _ h.isEnding.1
  · rw [List.mem_append, not_or]
    exact ⟨hname.slash_not_mem, h.isEnding.2⟩

/-- **The files of an accepted name** are right in the folder. -/
theorem resolve_eq_ok_iff (hname : AcceptsName name) (h : IsHalf ending) :
    t.resolve (halfPath folder name ending) = .ok place ↔
      Path.check (halfPath folder name ending) = .ok () ∧
        (name ++ ending).utf8ByteSize ≤ Path.maxName ∧
          ∃ d, t.Leads folder d ∧ d ++ [name ++ ending] = place := by
  have hending := isEnding_append hname h
  obtain ⟨stem, hstem⟩ := Path.exists_join_append folder name
  have hslash : (halfPath folder name ending).toList.getLast? ≠ some '/' := by
    rw [halfPath, hstem ending h.isEnding]
    exact h.isEnding.getLast?_append stem
  have hnames : Path.names (halfPath folder name ending) = Path.names folder ++ [name ++ ending] := by
    rw [halfPath, Path.names_join hending.isAbsolute_eq, hending.names_eq]
  have hstart : t.start (halfPath folder name ending) = t.start folder := by
    rw [FileTree.start, FileTree.start, halfPath, Path.isAbsolute_join hending.isAbsolute_eq]
  rw [FileTree.resolve_eq_ok_iff hslash hnames (h.lt_utf8ByteSize_append name), hstart]
  simp only [FileTree.Leads, and_assoc]

/-- **Different names own different files.** -/
theorem ne_of_resolve (hname : AcceptsName name) (hother : AcceptsName other) (hne : name ≠ other)
    (h : IsHalf ending) (g : IsHalf half) (hp : t.resolve (halfPath folder name ending) = .ok p)
    (hq : u.resolve (halfPath folder other half) = .ok q) : p ≠ q := by
  obtain ⟨-, -, d, -, rfl⟩ := (resolve_eq_ok_iff hname h).mp hp
  obtain ⟨-, -, d', -, rfl⟩ := (resolve_eq_ok_iff hother g).mp hq
  intro heq
  have hlast := List.cons.inj (List.append_inj' heq rfl).2
  exact hne (eq_of_append_half h g hlast.1).1

/-! ### Loading -/

theorem load_eq_ok_iff :
    load s t folder name = .ok keys ↔
      t.read (publicPath folder name) = .ok keys.publicKey ∧
        t.read (secretPath folder name) = .ok keys.secretKey ∧
          s.joinKeys keys.publicKey keys.secretKey = .ok keys := by
  unfold load
  cases hpublic : t.read (publicPath folder name) with
  | error e => simp
  | ok publicKey =>
    cases hsecret : t.read (secretPath folder name) with
    | error e => simp
    | ok secretKey =>
      simp only [Except.ok.injEq]
      cases hjoin : s.joinKeys publicKey secretKey with
      | error e =>
        simp only [reduceCtorEq, false_iff]
        rintro ⟨rfl, rfl, heq⟩
        rw [hjoin] at heq
        contradiction
      | ok joined =>
        obtain ⟨rfl, rfl⟩ := Suite.eq_of_joinKeys hjoin
        simp only [Except.ok.injEq]
        constructor
        · rintro rfl
          exact ⟨rfl, rfl, hjoin⟩
        · rintro ⟨hpublicKey, hsecretKey, heq⟩
          rw [← hpublicKey, ← hsecretKey, hjoin] at heq
          exact Except.ok.inj heq

theorem exists_of_read {content : Bytes} {path : String} (h : t.read path = .ok content) :
    t.exists? path = true := by
  obtain ⟨place, hplace, hfile⟩ := FileTree.read_eq_ok_iff.mp h
  exact FileTree.exists?_iff.mpr ⟨place, _, hplace, hfile⟩

theorem loadOrGenerate_of_load (h : load s t folder name = .ok keys) (seed : Bytes) :
    loadOrGenerate s t folder name seed = (.ok keys, t) := by
  obtain ⟨hpublic, hsecret, -⟩ := load_eq_ok_iff.mp h
  rw [loadOrGenerate, exists_of_read hpublic, exists_of_read hsecret, if_pos (by rfl), h]

theorem load_of_save (h : save t folder name keys = (.ok (), v))
    (hjoin : s.joinKeys keys.publicKey keys.secretKey = .ok keys) :
    load s v folder name = .ok keys := by
  obtain ⟨hpublic, hsecret⟩ := read_of_save h
  exact load_eq_ok_iff.mpr ⟨hpublic, hsecret, hjoin⟩

def held (s : Suite) (t : FileTree) (folder name : String) : Option Keypair :=
  (load s t folder name).toOption

theorem held_eq_some_iff : held s t folder name = some keys ↔ load s t folder name = .ok keys := by
  rw [held]
  cases load s t folder name <;> simp [Except.toOption]

/-! ### Calls -/

inductive Call
  | save (name : String) (keys : Keypair)
  | loadOrGenerate (name : String) (seed : Bytes)

namespace Call

def keyName : Call → String
  | save name _ => name
  | loadOrGenerate name _ => name

def run (s : Suite) (folder : String) (t : FileTree) : Call → Except KeystoreError Keypair × FileTree
  | save name keys =>
    match Keystore.save t folder name keys with
    | (.error e, t) => (.error e, t)
    | (.ok (), t) => (.ok keys, t)
  | loadOrGenerate name seed => Keystore.loadOrGenerate s t folder name seed

/-- The calls that are made: the name is accepted, and what is saved is a keypair. -/
def IsMade (s : Suite) : Call → Prop
  | save name keys => AcceptsName name ∧ s.IsKeypair keys
  | loadOrGenerate name _ => AcceptsName name

variable {c : Call}

theorem IsMade.acceptsName (h : c.IsMade s) : AcceptsName c.keyName := by
  cases c with
  | save name keys => exact h.1
  | loadOrGenerate name seed => exact h

theorem run_snd (s : Suite) (folder : String) (t : FileTree) (c : Call) :
    (c.run s folder t).2 = t ∨ ∃ keys, (c.run s folder t).2 = (Keystore.save t folder c.keyName keys).2 := by
  cases c with
  | save name keys =>
    refine Or.inr ⟨keys, ?_⟩
    rw [run, Call.keyName]
    obtain ⟨r, u⟩ := Keystore.save t folder name keys
    cases r <;> rfl
  | loadOrGenerate name seed =>
    rw [run, Call.keyName, loadOrGenerate_snd]
    split
    · exact Or.inl rfl
    · exact Or.inr ⟨_, rfl⟩

/-- **A successful call** leaves its keypair to be loaded under its name. -/
theorem load_of_run (hs : s.IsSound) (hmade : c.IsMade s)
    (h : c.run s folder t = (.ok keys, v)) : load s v folder c.keyName = .ok keys := by
  cases c with
  | save name saved =>
    rw [run] at h
    cases hsave : Keystore.save t folder name saved with
    | mk r u =>
      rw [hsave] at h
      cases r with
      | error e => cases h
      | ok r =>
        cases h
        exact load_of_save hsave (hmade.2.joinKeys_eq hs)
  | loadOrGenerate name seed =>
    rw [run, Keystore.loadOrGenerate] at h
    split at h
    · obtain ⟨hload, rfl⟩ := Prod.mk.inj h
      exact hload
    · cases hsave : Keystore.save t folder name (s.generate seed) with
      | mk r u =>
        simp only [hsave] at h
        cases r with
        | error e => cases h
        | ok r =>
          cases h
          exact load_of_save hsave ((Suite.IsKeypair.generated seed).joinKeys_eq hs)

theorem keepsFolders_run (s : Suite) (folder : String) (t : FileTree) (c : Call) :
    KeepsFolders t (c.run s folder t).2 := by
  rcases run_snd s folder t c with heq | ⟨keys, heq⟩
  · rw [heq]
    exact .refl t
  · rw [heq]
    exact (FileTree.grows_makeFolders t folder).keepsFolders.trans (save_frame t folder _ keys).1

/-- **A call leaves the files of other names alone.** -/
theorem find?_run (hname : AcceptsName c.keyName) (hother : AcceptsName other) (hne : c.keyName ≠ other)
    (h : IsHalf ending)
    (hplace : (c.run s folder t).2.resolve (halfPath folder other ending) = .ok place)
    (content : Bytes) :
    (c.run s folder t).2.find? place = some (.file content) ↔
      t.find? place = some (.file content) := by
  rcases run_snd s folder t c with heq | ⟨keys, heq⟩
  · rw [heq]
  · rw [heq] at hplace ⊢
    have hgrows := FileTree.grows_makeFolders t folder
    rw [(save_frame t folder c.keyName keys).2 place fun half hhalf hp =>
      ne_of_resolve hname hother hne hhalf h hp hplace rfl]
    exact ⟨hgrows.find?_of_file, hgrows.find?_of_some⟩

theorem read_run (hname : AcceptsName c.keyName) (hother : AcceptsName other) (hne : c.keyName ≠ other)
    (h : IsHalf ending) {content : Bytes}
    (hread : t.read (halfPath folder other ending) = .ok content) :
    (c.run s folder t).2.read (halfPath folder other ending) = .ok content := by
  obtain ⟨place, hplace, hfile⟩ := FileTree.read_eq_ok_iff.mp hread
  have hlater := (keepsFolders_run s folder t c).resolve hplace
  exact FileTree.read_eq_ok_iff.mpr
    ⟨place, hlater, (find?_run hname hother hne h hlater content).mpr hfile⟩

theorem read_of_run (hname : AcceptsName c.keyName) (hother : AcceptsName other) (hne : c.keyName ≠ other)
    (h : IsHalf ending) (hsettled : t.Settled folder) {content : Bytes}
    (hread : (c.run s folder t).2.read (halfPath folder other ending) = .ok content) :
    t.read (halfPath folder other ending) = .ok content := by
  obtain ⟨place, hplace, hfile⟩ := FileTree.read_eq_ok_iff.mp hread
  rw [find?_run hname hother hne h hplace] at hfile
  obtain ⟨hcheck, hsize, d, hleads, rfl⟩ := (resolve_eq_ok_iff hother h).mp hplace
  have hbefore := hsettled.leads (keepsFolders_run s folder t c) hleads hfile
  exact FileTree.read_eq_ok_iff.mpr
    ⟨_, (resolve_eq_ok_iff hother h).mpr ⟨hcheck, hsize, d, hbefore, rfl⟩, hfile⟩

end Call

/-- **No call takes away what another name loads**, even if it fails. -/
theorem held_of_call {c : Call} (hname : AcceptsName c.keyName) (hother : AcceptsName other)
    (hne : c.keyName ≠ other) (h : held s t folder other = some keys) :
    held s (c.run s folder t).2 folder other = some keys := by
  rw [held_eq_some_iff, load_eq_ok_iff] at h ⊢
  exact ⟨Call.read_run hname hother hne isHalf_public h.1,
    Call.read_run hname hother hne isHalf_secret h.2.1, h.2.2⟩

theorem held_call_eq {c : Call} (hname : AcceptsName c.keyName) (hother : AcceptsName other)
    (hne : c.keyName ≠ other) (hsettled : t.Settled folder) :
    held s (c.run s folder t).2 folder other = held s t folder other := by
  refine Option.ext fun keys => ⟨fun h => ?_, held_of_call hname hother hne⟩
  rw [held_eq_some_iff, load_eq_ok_iff] at h ⊢
  exact ⟨Call.read_of_run hname hother hne isHalf_public hsettled h.1,
    Call.read_of_run hname hother hne isHalf_secret hsettled h.2.1, h.2.2⟩

/-! ### Runs -/

/-- Successful calls, with the keypair of each under its name, the latest first. -/
inductive Run (s : Suite) (folder : String) (t : FileTree) : List (String × Keypair) → FileTree → Prop
  | nil : Run s folder t [] t
  | call {log : List (String × Keypair)} {u v : FileTree} {c : Call} {keys : Keypair}
      (prior : Run s folder t log u) (hmade : c.IsMade s) (hrun : c.run s folder u = (.ok keys, v)) :
      Run s folder t ((c.keyName, keys) :: log) v

theorem settled_of_load (hname : AcceptsName name) (h : load s t folder name = .ok keys) :
    t.Settled folder := by
  obtain ⟨hpublic, -⟩ := load_eq_ok_iff.mp h
  obtain ⟨place, hplace, -⟩ := FileTree.read_eq_ok_iff.mp hpublic
  obtain ⟨-, -, d, hleads, -⟩ := (resolve_eq_ok_iff hname isHalf_public).mp hplace
  exact Or.inl ⟨d, hleads⟩

namespace Run

variable {log : List (String × Keypair)}

theorem load_of_lookup (hs : s.IsSound) (h : Run s folder t log v)
    (hlookup : log.lookup name = some keys) :
    AcceptsName name ∧ load s v folder name = .ok keys := by
  induction h with
  | nil => contradiction
  | @call log u v c latest prior hmade hrun ih =>
    have hload := Call.load_of_run hs hmade hrun
    rw [List.lookup_cons] at hlookup
    by_cases hname : name = c.keyName
    · subst hname
      rw [beq_self_eq_true] at hlookup
      exact ⟨hmade.acceptsName, Option.some.inj hlookup ▸ hload⟩
    · rw [beq_false_of_ne hname] at hlookup
      obtain ⟨haccepts, hearlier⟩ := ih hlookup
      have hkept := held_of_call (c := c) hmade.acceptsName haccepts (Ne.symm hname)
        (held_eq_some_iff.mpr hearlier)
      rw [hrun] at hkept
      exact ⟨haccepts, held_eq_some_iff.mp hkept⟩

theorem settled (hs : s.IsSound) (h : Run s folder t log v) (hsettled : t.Settled folder) :
    v.Settled folder := by
  cases h with
  | nil => exact hsettled
  | call prior hmade hrun =>
    exact settled_of_load hmade.acceptsName (Call.load_of_run hs hmade hrun)

theorem held_of_lookup (h : Run s folder t log v) (haccepts : AcceptsName name)
    (hlookup : log.lookup name = none) (hbefore : held s t folder name = some keys) :
    held s v folder name = some keys := by
  induction h with
  | nil => exact hbefore
  | @call log u v c latest prior hmade hrun ih =>
    rw [List.lookup_cons] at hlookup
    split at hlookup
    · contradiction
    · next hne =>
      have hkept := held_of_call (c := c) hmade.acceptsName haccepts
        (Ne.symm (beq_eq_false_iff_ne.mp hne)) (ih hlookup)
      rw [hrun] at hkept
      exact hkept

theorem held_eq_of_lookup (hs : s.IsSound) (h : Run s folder t log v) (haccepts : AcceptsName name)
    (hlookup : log.lookup name = none) (hsettled : t.Settled folder) :
    held s v folder name = held s t folder name := by
  induction h with
  | nil => rfl
  | @call log u v c latest prior hmade hrun ih =>
    rw [List.lookup_cons] at hlookup
    split at hlookup
    · contradiction
    · next hne =>
      have hkept := held_call_eq (s := s) (c := c) hmade.acceptsName haccepts
        (Ne.symm (beq_eq_false_iff_ne.mp hne)) (prior.settled hs hsettled)
      rw [hrun] at hkept
      exact hkept.trans (ih hlookup)

end Run

end Keystore

namespace Sample

open Keystore (Call Run)

theorem isSound_small : Suite.small.IsSound := ⟨fun _ => rfl, Suite.small_verify_sign⟩

/-- One name is saved twice, and another one, which ends like a file of the first, in between. -/
def filings : List Call :=
  [.save "node" (Suite.small.generate [1]), .loadOrGenerate "node_public.key" [2],
    .save "node" (Suite.small.generate [3])]

/-- The tree after some of these calls, in a folder that is not there at first. -/
def filed (n : Nat) : FileTree :=
  (filings.take n).foldl (fun t c => (c.run Suite.small "ks" t).2) (.ofHome ["w"])

theorem run_filed : Run Suite.small "ks" (.ofHome ["w"])
    [("node", Suite.small.generate [3]), ("node_public.key", Suite.small.generate [2]),
      ("node", Suite.small.generate [1])] (filed 3) := by
  have hnode : Settings.AcceptsName "node" := (Settings.acceptsName_iff _).mpr (by decide)
  have hother : Settings.AcceptsName "node_public.key" :=
    (Settings.acceptsName_iff _).mpr (by decide)
  have hmade : ∀ seed, (Call.save "node" (Suite.small.generate seed)).IsMade Suite.small :=
    fun seed => ⟨hnode, .generated seed⟩
  have hgenerate : (Call.loadOrGenerate "node_public.key" [2]).IsMade Suite.small := hother
  have hfirst : (Call.save "node" (Suite.small.generate [1])).run Suite.small "ks" (.ofHome ["w"]) =
      (.ok (Suite.small.generate [1]), filed 1) := by decide +kernel
  have hsecond : (Call.loadOrGenerate "node_public.key" [2]).run Suite.small "ks" (filed 1) =
      (.ok (Suite.small.generate [2]), filed 2) := by decide +kernel
  have hthird : (Call.save "node" (Suite.small.generate [3])).run Suite.small "ks" (filed 2) =
      (.ok (Suite.small.generate [3]), filed 3) := by decide +kernel
  exact ((Run.nil.call (hmade [1]) hfirst).call hgenerate hsecond).call (hmade [3]) hthird

end Sample

end DelayLedger
