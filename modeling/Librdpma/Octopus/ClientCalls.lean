import Librdpma.Octopus.FileCalls
import Librdpma.Octopus.NameCalls
import Librdpma.Octopus.Paths

/-!
# What a rename by the client does to the tables

`nrfsRename` asks the owner of the old path for the metadata, has the owner of
the new path store a copy, adds the new name to its parent directory, and has
the old owner remove the old path. Blocks do not move.
-/

namespace Librdpma.Octopus

open Lib Outcome Function List Program Storage StoreView

/-- Node `i` has the same files and blocks. -/
structure SameFiles (w w' : World) (i : ℕ) : Prop where
  entries : (w' i).entries = (w i).entries
  files : (w' i).files = (w i).files
  blocks : (w' i).blocks = (w i).blocks

section Calls

variable {cfg : Config} {self : ℕ} {path : Path} {sz : StoreSize} {c : Cluster} {w : World}
  {bad : Prop} {unset : Unset}

lemma SameFiles.refl (w : World) (i : ℕ) : SameFiles w w i := ⟨rfl, rfl, rfl⟩

lemma SameFiles.file {w' : World} {i : ℕ} (h : SameFiles w w' i) (k : UniqueHash) :
    (w' i).file k = (w i).file k := by
  unfold StoreView.file
  rw [h.entries, h.files]

lemma sameFiles_writeDir (w : World) (node address : ℕ) (m : DirectoryMeta) (i : ℕ) :
    SameFiles w (w.writeDir node address m) i :=
  ⟨World.entries_writeDir .., World.files_writeDir .., World.blocks_writeDir ..⟩

/-- The metadata are removed, and then the entry if that went well. -/
lemma Storage.Shows.dropEntry_blocks {st st1 : Storage} {v1 : StoreView} {ok : Bool}
    {remove : Program Storage Bool} {blocks : TableView Unit}
    (hrem : remove st = .done (ok, st1)) (h1 : st1.Shows sz v1) (hblk : v1.blocks = blocks)
    (k : UniqueHash) :
    Ends bad (Storage.dropEntry k remove st) fun r =>
      ∃ v, r.2.Shows sz v ∧ v.blocks = blocks := by
  rw [Storage.dropEntry, Program.bind_apply, hrem, done_bind]
  cases ok with
  | false => exact .done ⟨v1, h1, hblk⟩
  | true =>
    obtain ⟨r, st2, items, hdel, -, h2⟩ := h1.delEntry k
    dsimp only
    rw [hdel]
    exact .done ⟨_, h2, hblk⟩

/-- The attributes of a path in the hash table. -/
def StoreView.attributes (v : StoreView) (k : UniqueHash) : Option Attribute :=
  match v.entries k with
  | none => none
  | some (_, true) => some .directory
  | some (i, false) => (v.files.item i).map .file

lemma StoreView.attributes_eq_file {v : StoreView} {k : UniqueHash} {m : FileMeta} :
    v.attributes k = some (.file m) ↔ ∃ i, v.file k = some (i, m) := by
  unfold attributes file
  match v.entries k with
  | none | some (i, true) => simp
  | some (i, false) => cases v.files.item i <;> simp

namespace Cluster.Shows

section

variable (h : c.Shows sz w)

include h

lemma onStorage_reader {α : Type} {i : ℕ} {x : Program Storage α}
    {P : α → Prop} (hx : ∃ a, x (c.storage i) = .done (a, c.storage i) ∧ P a) :
    Ends bad (Octopus.onStorage i x c) fun r => r.2.Shows sz w ∧ P r.1 := by
  obtain ⟨a, ha, hP⟩ := hx
  rw [onStorage_reads ha]
  exact .done ⟨h, hP⟩

/-! ## Single requests -/

lemma getattr_attributes : Ends bad (getattr cfg self path c) fun r => r.2.Shows sz w ∧
      ∀ a, r.1 = some a → (w self).attributes (cfg.sha256 path) = some a := by
  unfold Octopus.getattr
  split
  · refine (h.lockRead _ _).bind ?_
    rintro ⟨u, c1⟩ h1
    refine (h1.onStorage_reader (P := fun a => a = (w self).attributes (cfg.sha256 path))
      ?_).bind ?_
    · rw [bind_apply, (h1 self).getEntry, done_bind]
      unfold attributes
      match (w self).entries (cfg.sha256 path) with
      | none | some (i, true) => exact ⟨_, rfl, rfl⟩
      | some (i, false) =>
        dsimp only
        rw [bind_apply, (h1 self).getFileMeta, done_bind]
        exact ⟨_, rfl, rfl⟩
    · rintro ⟨a, c2⟩ ⟨h2, hatr⟩
      exact (h2.unlockRead _ _).bind fun _ h3 => .done ⟨h3, fun a ha => hatr.symm.trans ha⟩
  · exact .done ⟨h, nofun⟩

lemma getattr :
    Ends bad (getattr cfg self path c) fun r => r.2.Shows sz w ∧ ∀ m, r.1 = some (.file m) →
      ∃ i, (w self).file (cfg.sha256 path) = some (i, m) :=
  h.getattr_attributes.mono fun _ hr => ⟨hr.1, fun _ hm =>
    attributes_eq_file.mp (hr.2 _ hm)⟩

lemma mknodWithMeta (metaFile : FileMeta) :
    Ends bad (mknodWithMeta cfg self path metaFile c) fun r =>
      ∃ v, r.2.Shows sz (update w self v) ∧ (r.1 = true →
        MakeEffect (cfg.sha256 path) false ((w self).createFile metaFile) true v) := by
  unfold Octopus.mknodWithMeta
  split
  · refine (h.lockWrite _ _).bind ?_
    rintro ⟨key, c1⟩ h1
    refine (h1.onStorage (P := fun ok v => ok = true → MakeEffect (cfg.sha256 path) false
        ((w self).createFile metaFile) true v) fun st hst => ?_).bind ?_
    · rw [bind_apply, hst.getEntry, done_bind]
      cases (w self).entries (cfg.sha256 path) with
      | some e => exact .done ⟨_, hst, nofun⟩
      | none =>
        have hcr : ∃ st', createFileMeta metaFile st
            = .done (((w self).createFile metaFile).1, st') ∧
            st'.Shows sz ((w self).createFile metaFile).2 := hst.createFileMeta metaFile
        refine (Shows.makeEntry hcr (cfg.sha256 path) false).mono ?_
        rintro ⟨ok, st'⟩ ⟨v, hv, hmd⟩
        refine ⟨v, hv, fun hok => ?_⟩
        rw [hok] at hmd
        exact hmd
    · rintro ⟨ok, c2⟩ ⟨v, h2, hmd⟩
      exact (h2.unlockWrite _ _).bind fun _ h3 => .done ⟨v, h3, hmd⟩
  · refine .done ⟨w self, ?_, nofun⟩
    rw [update_eq_self]
    exact h

lemma editDirectory (edit : DirectoryMeta → Outcome (Option DirectoryMeta)) :
    Ends True (editDirectory cfg unset path edit c) fun r => r.2.Shows sz w := by
  refine (h.lockWrite _ _).bind ?_
  rintro ⟨key, c1⟩ h1
  dsimp only
  rw [bind_apply, h1.lookupDirectory, done_bind]
  have hcom : ∀ (c : Cluster) (node txID : ℕ), c.Shows sz w →
      Ends True (txLocalCommit node txID c) fun r => r.2.Shows sz w :=
    fun c node txID h => .done (h.of_storage (storage_setTx ..))
  cases (w (cfg.nodeOf path)).directory (cfg.sha256 path) with
  | none => exact (hcom _ _ _ h1).bind fun _ h2 => .done h2
  | some d =>
    obtain ⟨i, m⟩ := d
    obtain ⟨txID, c2, htx, h2⟩ := h1.onTx (cfg.nodeOf path) TxManager.txLocalBegin
    dsimp only
    rw [bind_apply, txLocalBegin, htx, done_bind, bind_apply]
    have hedit : Ends True (ofOutcome (edit m) c2) fun r => r.2.Shows sz w :=
      (ends_of_done fun _ _ => trivial).bind (P := fun _ => True) fun _ _ => .done h2
    refine hedit.bind ?_
    rintro ⟨edited, c3⟩ h3
    cases edited with
    | none =>
      exact (hcom _ _ _ h3).bind fun _ h4 =>
        (hcom _ _ _ h4).bind fun _ h5 => .done h5
    | some m' =>
      obtain ⟨u, c4, htx', h4⟩ := h3.onTx (cfg.nodeOf path) (TxManager.txWriteData txID m')
      dsimp only
      rw [bind_apply, txWriteData, htx', done_bind]
      exact (hcom _ _ _ h4).bind fun _ h5 => .done h5

lemma updateDirectoryMeta (u : DirectoryUpdate) :
    Ends True (updateDirectoryMeta cfg path u c) fun r =>
      ∃ w', r.2.Shows sz w' ∧ ∀ i, SameFiles w w' i := by
  have hrs : ∀ (c : Cluster) (w' : World) (r : Bool), c.Shows sz w' →
      (∀ i, SameFiles w w' i) → Ends True ((do
        Octopus.unlockOffset (unlockWriteHashItem (cfg.nodeOf path)) u.offset
        txLocalCommit (cfg.nodeOf path) u.txID
        return r : Sys Bool) c) fun r => ∃ w', r.2.Shows sz w' ∧ ∀ i, SameFiles w w' i := by
    intro c w' r h' hsm
    refine (unlockOffset (h'.unlockWrite _) _).bind fun _ h2 => .done ⟨w', ?_, hsm⟩
    exact h2.of_storage (storage_setTx ..)
  unfold Octopus.updateDirectoryMeta
  rw [bind_apply, h.getEntry, done_bind]
  rw [bind_apply, reads, done_bind]
  split
  · obtain ⟨st, hwr, hst⟩ := (h (cfg.nodeOf path)).writeDirectoryMeta u.desBuffer
      ((c.tx (cfg.nodeOf path)).logData u.txID)
    rw [bind_apply, onStorage_done hwr, done_bind]
    exact hrs _ _ _ (h.setStorage hst) (sameFiles_writeDir w _ _ _)
  · exact hrs _ _ _ h (SameFiles.refl w)

/-- The old owner removes the path; nobody else's files change, and no
blocks. -/
lemma rename : Ends True (rename cfg unset self path c) fun r => ∃ w', r.2.Shows sz w' ∧
      (∀ i, (w' i).blocks = (w i).blocks) ∧ ∀ i, i ≠ self → SameFiles w w' i := by
  have nothing : ∀ (c : Cluster) (r : Bool), c.Shows sz w → Ends True (.done (r, c))
      fun r => ∃ w', r.2.Shows sz w' ∧ (∀ i, (w' i).blocks = (w i).blocks) ∧
        ∀ i, i ≠ self → SameFiles w w' i :=
    fun c r h => .done ⟨w, h, fun _ => rfl, fun i _ => SameFiles.refl w i⟩
  have hlkd : ∀ c : Cluster, c.Shows sz w → Ends True (renameLocked cfg unset self path c)
      fun r => ∃ w', r.2.Shows sz w' ∧ (∀ i, (w' i).blocks = (w i).blocks) ∧
        ∀ i, i ≠ self → SameFiles w w' i := by
    intro c h
    unfold Octopus.renameLocked
    rw [bind_apply, h.getEntry, done_bind]
    match (w self).entries (cfg.sha256 path) with
    | none | some (_, true) => exact nothing _ _ h
    | some (index, false) =>
      cases getNameFromPath path with
      | none => exact .undefined trivial
      | some name =>
        refine (h.editDirectory _).bind ?_
        rintro ⟨u, c1⟩ h1
        cases u with
        | none => exact nothing _ _ h1
        | some u =>
          dsimp only
          rw [bind_apply, h1.getFileMeta, done_bind]
          cases (w self).files.item index with
          | none => exact nothing _ _ h1
          | some m =>
            refine (h1.updateDirectoryMeta u).bind ?_
            rintro ⟨r, c2⟩ ⟨w2, h2, hsm⟩
            refine (h2.onStorage (P := fun _ v => v.blocks = (w2 self).blocks)
              fun st hst => ?_).mono ?_
            · obtain ⟨st1, hrem, hst1⟩ := hst.removeFileMeta index
              exact Storage.Shows.dropEntry_blocks hrem hst1 rfl _
            rintro ⟨ok, c3⟩ ⟨v, h3, hblk⟩
            refine ⟨_, h3, fun i => ?_, fun i hi => ?_⟩
            · by_cases hi : i = self
              · rw [hi, update_self, hblk, (hsm self).blocks]
              · rw [update_of_ne hi, (hsm i).blocks]
            · have hoth := hsm i
              constructor
              · rw [update_of_ne hi, hoth.entries]
              · rw [update_of_ne hi, hoth.files]
              · rw [update_of_ne hi, hoth.blocks]
  unfold Octopus.rename
  split
  · refine (h.lockWrite _ _).bind fun r h1 => (hlkd _ h1).bind ?_
    rintro ⟨ok, c2⟩ ⟨w', h2, hw'⟩
    exact (h2.unlockWrite _ _).bind fun _ h3 => .done ⟨w', h3, hw'⟩
  · exact nothing _ _ h

/-! ## The client -/

lemma nrfsGetAttribute (path : Path) :
    Ends bad (nrfsGetAttribute cfg unset path c) fun r => r.2.Shows sz w ∧
      ∀ m, r.1 = some (.file m) → ∃ i,
        (w (cfg.nodeOf (correct path))).file (cfg.sha256 (correct path)) = some (i, m) := by
  have hrep : Ends bad (sendMessage cfg unset (cfg.nodeOf (correct path))
      (.getattr (correct path)) c) fun r => ∃ a, r.1 = .attributes a ∧ r.2.Shows sz w ∧
        ∀ m, a = some (.file m) → ∃ i,
          (w (cfg.nodeOf (correct path))).file (cfg.sha256 (correct path)) = some (i, m) :=
    h.getattr.bind fun r hr => .done ⟨r.1, rfl, hr⟩
  refine hrep.bind ?_
  rintro ⟨r, c1⟩ ⟨a, rfl, h1, hfl⟩
  exact .done ⟨h1, hfl⟩

lemma nrfsAddMetaToDirectory (name : Path) (isDirectory : Bool) :
    Ends True (nrfsAddMetaToDirectory cfg unset path name isDirectory c) fun r =>
      ∃ w', r.2.Shows sz w' ∧ ∀ i, SameFiles w w' i := by
  have hfst : Ends True (sendMessage cfg unset (cfg.nodeOf path)
      (.addMetaToDirectory path name isDirectory) c) fun r =>
        ∃ u, r.1 = .update u ∧ r.2.Shows sz w :=
    (h.editDirectory _).bind fun r hr => .done ⟨r.1, rfl, hr⟩
  refine hfst.bind ?_
  rintro ⟨r, c1⟩ ⟨u, rfl, h1⟩
  cases u with
  | none => exact .done ⟨w, h1, SameFiles.refl w⟩
  | some u =>
    have hsnd : Ends True (sendMessage cfg unset (cfg.nodeOf path) (.doCommit path u) c1)
        fun r => ∃ ok, r.1 = .result ok ∧ ∃ w', r.2.Shows sz w' ∧ ∀ i, SameFiles w w' i :=
      (h1.updateDirectoryMeta u).bind fun r hr => .done ⟨r.1, rfl, hr⟩
    refine hsnd.bind ?_
    rintro ⟨r, c2⟩ ⟨ok, rfl, hw'⟩
    exact .done hw'

/-- The owner of the new path gets a file of its own with the metadata. -/
lemma nrfsMknodWithMeta (metaFile : FileMeta) :
    Ends True (nrfsMknodWithMeta cfg unset path metaFile c) fun r => r.1 = true →
      ∃ w' i, r.2.Shows sz w' ∧
        (w' (cfg.nodeOf path)).file (cfg.sha256 path) = some (i, metaFile) := by
  unfold Octopus.nrfsMknodWithMeta
  obtain ⟨parent, found⟩ := getParentDirectory path
  cases found with
  | false => exact .done nofun
  | true =>
    refine (h.nrfsGetAttribute parent).bind ?_
    rintro ⟨a, c1⟩ ⟨h1, -⟩
    cases a with
    | none => exact .done nofun
    | some a =>
      dsimp only
      split
      · exact .done nofun
      · have hmk : Ends True (sendMessage cfg unset (cfg.nodeOf path)
            (.mknodWithMeta path metaFile) c1) fun r => ∃ ok, r.1 = .result ok ∧
              (ok = true → ∃ w' i, r.2.Shows sz w' ∧
                (w' (cfg.nodeOf path)).file (cfg.sha256 path) = some (i, metaFile)) := by
          refine (h1.mknodWithMeta metaFile).bind ?_
          rintro ⟨ok, c2⟩ ⟨v, h2, hmd⟩
          refine .done ⟨ok, rfl, fun hok => ?_⟩
          obtain ⟨i, hi⟩ := (hmd hok).file
          exact ⟨_, i, h2, by rw [update_self]; exact hi⟩
        refine hmk.bind ?_
        rintro ⟨r, c2⟩ ⟨ok, rfl, hok⟩
        cases ok with
        | false => exact .done nofun
        | true =>
          obtain ⟨w2, i, h2, hfl⟩ := hok rfl
          cases getNameFromPath path with
          | none => exact .undefined trivial
          | some name =>
            refine (h2.nrfsAddMetaToDirectory name false).mono ?_
            rintro ⟨r, c3⟩ ⟨w3, h3, hsm⟩ -
            exact ⟨w3, i, h3, ((hsm _).file _).trans hfl⟩

/-- **The owner of the new path has the metadata the old owner had.** -/
lemma nrfsRename {oldpath newpath : Path}
    (hcrs : cfg.nodeOf (correct newpath) ≠ cfg.nodeOf (correct oldpath)) :
    Ends True (nrfsRename cfg unset oldpath newpath c) fun r => r.1 = some 0 →
      ∃ w' i j m, r.2.Shows sz w' ∧
        (w (cfg.nodeOf (correct oldpath))).file (cfg.sha256 (correct oldpath)) = some (i, m) ∧
        (w' (cfg.nodeOf (correct newpath))).file (cfg.sha256 (correct newpath)) = some (j, m) := by
  refine (h.nrfsGetAttribute _).bind ?_
  rintro ⟨a, c1⟩ ⟨h1, hfl⟩
  match a with
  | none | some .directory => exact .done nofun
  | some (.file m) =>
    obtain ⟨i, hi⟩ := hfl m rfl
    rw [correct_correct] at hi
    dsimp only
    split
    · exact .done nofun
    · refine (h1.nrfsMknodWithMeta m).bind ?_
      rintro ⟨ok, c2⟩ hmk
      cases ok with
      | false => exact .done nofun
      | true =>
        obtain ⟨w2, j, h2, hj⟩ := hmk rfl
        have hdr : Ends True (sendMessage cfg unset (cfg.nodeOf (correct oldpath))
            (.rename (correct oldpath) (correct newpath)) c2) fun r => ∃ w', r.2.Shows sz w' ∧
              (w' (cfg.nodeOf (correct newpath))).file (cfg.sha256 (correct newpath))
                = some (j, m) := by
          refine h2.rename.bind ?_
          rintro ⟨r, c3⟩ ⟨w3, h3, -, hsm⟩
          exact .done ⟨w3, h3, ((hsm _ hcrs).file _).trans hj⟩
        refine hdr.bind ?_
        rintro ⟨r, c3⟩ ⟨w3, h3, hj3⟩
        refine Ends.mono (P := fun r => r.2 = c3) ?_ ?_
        · dsimp only
          split <;> exact .done rfl
        · rintro ⟨r, c4⟩ rfl -
          exact ⟨w3, i, j, m, h3, hi, hj3⟩

end

end Cluster.Shows

end Calls

end Librdpma.Octopus
