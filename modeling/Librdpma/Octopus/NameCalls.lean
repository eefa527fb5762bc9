import Librdpma.Octopus.BlockCalls

/-!
# What the calls on names do to the tables

`mknodcd`, `mkdircd` and `removecd` either leave the tables of all nodes as
they are, or write the parent directory (`World.writeDir`) and then change the
own tables. The second change may fail half way: `MakeEffect` lists how far
the making of a path gets.
-/

namespace Librdpma.Octopus

open Lib Outcome Function Program Storage TableView

/-! ## Directories of other nodes -/

namespace World

/-- The metadata at `address` of a node written over. -/
def writeDir (w : World) (node address : ℕ) (m : DirectoryMeta) : World :=
  update w node { w node with dirs := ((w node).dirs.put address m).2 }

variable (w : World) (node address : ℕ) (m : DirectoryMeta) (i : ℕ)

lemma writeDir_apply :
    w.writeDir node address m i = { w i with
      dirs := if i = node then ((w i).dirs.put address m).2 else (w i).dirs } := by
  unfold writeDir
  by_cases hi : i = node
  · rw [hi, update_self, if_pos rfl]
  · rw [update_of_ne hi, if_neg hi]

@[simp] lemma entries_writeDir : (w.writeDir node address m i).entries = (w i).entries := by
  rw [writeDir_apply]

@[simp] lemma items_writeDir : (w.writeDir node address m i).items = (w i).items := by
  rw [writeDir_apply]

@[simp] lemma files_writeDir : (w.writeDir node address m i).files = (w i).files := by
  rw [writeDir_apply]

@[simp] lemma blocks_writeDir : (w.writeDir node address m i).blocks = (w i).blocks := by
  rw [writeDir_apply]

@[simp] lemma free_writeDir : (w.writeDir node address m i).dirs.free = (w i).dirs.free := by
  rw [writeDir_apply, put]
  split
  · split <;> rfl
  · rfl

lemma item_writeDir_self {w : World} {i node : ℕ} {m : DirectoryMeta}
    (h : (w node).dirs.item i = some m) (m' : DirectoryMeta) (j : ℕ) :
    (w.writeDir node i m' node).dirs.item j = if j = i then some m' else (w node).dirs.item j := by
  rw [writeDir_apply, if_pos rfl, put_of_some h]
  by_cases hj : j = i
  · simp [hj]
  · simp [hj]

end World

namespace TableView

variable {T : Type}

lemma isSome_put (v : TableView T) (i j : ℕ) (x : T) :
    ((v.put i x).2.item j).isSome = (v.item j).isSome := by
  unfold put
  split_ifs with hsome
  · by_cases hj : j = i
    · rw [hj, hsome]
      simp
    · simp [update_of_ne hj]
  · rfl

end TableView

/-! ## Reading the parent -/

section Calls

variable {cfg : Config} {self : ℕ} {path : Path} {sz : StoreSize} {c : Cluster} {w : World}
  {bad : Prop}

lemma Cluster.Shows.readDirectoryMeta (h : c.Shows sz w) (path : Path) :
    Ends bad (readDirectoryMeta cfg path c) fun r =>
      r.2.Shows sz w ∧ r.1 = (w (cfg.nodeOf path)).directory (cfg.sha256 path) := by
  refine (h.lockRead _ _).bind fun r hr => ?_
  dsimp only
  rw [bind_apply, hr.lookupDirectory, done_bind]
  exact (hr.unlockRead _ _).bind fun _ h => .done ⟨h, rfl⟩

/-! ## The parts in order -/

/-- What a call leaves: nothing has changed, or the parent is written and the
own tables are changed. `plan` is what is known of the second part, `tables`
of the fourth. -/
inductive ChangeEffect (w : World) (node : ℕ) (plan : Prepared → Prop)
    (tables : Prepared → Change → Bool → StoreView → Prop) :
    Bool × Option Attribute → World → Prop where
  | nothing {a : Option Attribute} : ChangeEffect w node plan tables (false, a) w
  | change {p : Prepared} {ch : Change} {ok : Bool} {v : StoreView} (hplan : plan p)
      (hch : p.change = some ch) (htables : tables p ch ok v) :
      ChangeEffect w node plan tables (ok, p.metaFile)
        (update (w.writeDir ch.parentNodeID ch.metaAddress ch.written) node v)

lemma Cluster.Shows.finish (h : c.Shows sz w) (path : Path) (txID : ℕ) :
    Ends bad (finish cfg self path txID c) fun r => r.2.Shows sz w := by
  obtain ⟨r, c1, htx, h1⟩ := h.onTx self (TxManager.txLocalCommit txID)
  unfold Octopus.finish txLocalCommit
  rw [bind_apply, htx, done_bind]
  exact h1.unlockWrite _ _

lemma Cluster.Shows.writeParent (h : c.Shows sz w) (txID : ℕ) (ch : Change) :
    ∃ c', writeParent self txID ch c = .done ((), c') ∧
      c'.Shows sz (w.writeDir ch.parentNodeID ch.metaAddress ch.written) := by
  obtain ⟨r, c1, htx, h1⟩ := h.onTx self (TxManager.txWriteData txID ch.logged)
  obtain ⟨st, hwr, hst⟩ := (h1 ch.parentNodeID).writeDirectoryMeta ch.metaAddress ch.written
  refine ⟨c1.setStorage ch.parentNodeID st, ?_, h1.setStorage hst⟩
  unfold Octopus.writeParent txWriteData updateRemoteMeta
  rw [bind_apply, htx, done_bind, onStorage_done hwr]

lemma Cluster.Shows.changecd (h : c.Shows sz w) {prepare : Sys Prepared}
    {plan : Prepared → Prop} (tables : Prepared → Change → Bool → StoreView → Prop)
    (hprp : ∀ c1 : Cluster, c1.Shows sz w →
      Ends bad (prepare c1) fun r => r.2.Shows sz w ∧ plan r.1)
    (htables : ∀ p ch, plan p → p.change = some ch → ∀ st : Storage,
      st.Shows sz (w.writeDir ch.parentNodeID ch.metaAddress ch.written self) →
        Ends bad (ch.tables st) fun r => ∃ v, r.2.Shows sz v ∧ tables p ch r.1 v) :
    Ends bad (changecd cfg self path prepare c) fun r =>
      ∃ w', r.2.Shows sz w' ∧ ChangeEffect w self plan tables r.1 w' := by
  unfold Octopus.changecd
  split
  · refine (h.lockWrite _ _).bind fun r hr => (hprp r.2 hr).bind ?_
    rintro ⟨p, c1⟩ ⟨h1, hplan⟩
    have happ : Ends bad (applyChange self p.txID p.change c1) fun r =>
        ∃ w', r.2.Shows sz w' ∧ ChangeEffect w self plan tables (r.1, p.metaFile) w' := by
      cases hch : p.change with
      | none => exact .done ⟨w, h1, .nothing⟩
      | some ch =>
        obtain ⟨c2, hwr, h2⟩ := h1.writeParent p.txID ch
        rw [applyChange, bind_apply, hwr, done_bind]
        refine (h2.onStorage (htables p ch hplan hch)).mono fun r hr => ?_
        obtain ⟨v, hv, hQ⟩ := hr
        exact ⟨_, hv, .change hplan hch hQ⟩
    refine happ.bind fun r hr => ?_
    obtain ⟨w', hw', heff⟩ := hr
    exact (hw'.finish path p.txID).bind fun _ h => .done ⟨w', h, heff⟩
  · exact .done ⟨w, h, .nothing⟩

/-! ## Making -/

/-- How far the tables of a new path get. `created` is the result of the
creation of the metadata. -/
inductive MakeEffect (k : UniqueHash) (isDirectory : Bool) (created : Option ℕ × StoreView) :
    Bool → StoreView → Prop where
  | full (h : created.1 = none) : MakeEffect k isDirectory created false created.2
  | noItem {i : ℕ} (h : created.1 = some i) (hitems : created.2.items = []) :
      MakeEffect k isDirectory created false created.2
  | made {i : ℕ} {items : List ℕ} (h : created.1 = some i) :
      MakeEffect k isDirectory created true
        { created.2 with
          entries := update created.2.entries k (some (i, isDirectory)), items }

variable {st : Storage} {k : UniqueHash} {v : StoreView} {a : Attribute}
  {tables : Program Storage Bool}

lemma Storage.Shows.makeEntry {created : Option ℕ × StoreView} {create : Program Storage (Option ℕ)}
    (hcr : ∃ st', create st = .done (created.1, st') ∧ st'.Shows sz created.2) (k : UniqueHash)
    (isDirectory : Bool) :
    Ends bad (makeEntry k create isDirectory st) fun r =>
      ∃ v', r.2.Shows sz v' ∧ MakeEffect k isDirectory created r.1 v' := by
  obtain ⟨st1, hst1, h1⟩ := hcr
  rw [Storage.makeEntry, Program.bind_apply, hst1, done_bind]
  cases hi : created.1 with
  | none => exact .done ⟨_, h1, .full hi⟩
  | some i =>
    dsimp only
    rcases h1.putEntry k i isDirectory with ⟨st2, items, hput, h2⟩ | ⟨hput, hnil⟩
    · rw [hput]
      exact .done ⟨_, h2, .made hi⟩
    · rw [hput]
      exact .done ⟨_, h1, .noItem hi hnil⟩

/-- If the path is new in its parent, the parent has room for one more name and
the name fits. -/
def Roomy (cfg : Config) (node : ℕ) (path : Path) (w : World) : Prop :=
  ∀ i m, (w (cfg.nodeOf (getParentDirectory path).1)).directory
      (cfg.sha256 (getParentDirectory path).1) = some (i, m) →
    (w node).entries (cfg.sha256 path) = none →
    ∃ name, getNameFromPath path = some name ∧ m.length < maxDirectoryCount ∧
      name.length < maxFileNameLength

/-- What is known of a path that is to be made. -/
structure MakePlan (cfg : Config) (node : ℕ) (path : Path) (isDirectories : Bool)
    (tables : Program Storage Bool) (w : World) (p : Prepared) : Prop where
  change : ∀ ch, p.change = some ch → ∃ i m name,
    (w (cfg.nodeOf (getParentDirectory path).1)).directory
        (cfg.sha256 (getParentDirectory path).1) = some (i, m) ∧
      (w node).entries (cfg.sha256 path) = none ∧ getNameFromPath path = some name ∧
      ch = { parentNodeID := cfg.nodeOf (getParentDirectory path).1, metaAddress := i,
             logged := m ++ [⟨name, isDirectories⟩], written := m ++ [⟨name, isDirectories⟩],
             tables }

lemma Cluster.Shows.prepareMake (h : c.Shows sz w) (isDirectories : Bool)
    (tables : Program Storage Bool) (hbad : ¬ Roomy cfg self path w → bad) :
    Ends bad (prepareMake cfg self path isDirectories tables c) fun r =>
      r.2.Shows sz w ∧ MakePlan cfg self path isDirectories tables w r.1 := by
  obtain ⟨txID, c1, htx, h1⟩ := h.onTx self TxManager.txLocalBegin
  unfold Octopus.prepareMake txLocalBegin
  rw [bind_apply, htx, done_bind]
  refine (h1.readDirectoryMeta _).bind ?_
  rintro ⟨parent, c2⟩ ⟨h2, hparent⟩
  have hno : MakePlan cfg self path isDirectories tables w ⟨txID, none, none⟩ := ⟨nofun⟩
  cases parent with
  | none => exact .done ⟨h2, hno⟩
  | some d =>
    obtain ⟨i, m⟩ := d
    dsimp only at hparent ⊢
    rw [bind_apply, h2.getEntry, done_bind]
    cases he : (w self).entries (cfg.sha256 path) with
    | some e => exact .done ⟨h2, hno⟩
    | none =>
      cases hname : getNameFromPath path with
      | none =>
        refine .undefined (hbad fun hrm => ?_)
        obtain ⟨name, hnm', -⟩ := hrm i m hparent.symm he
        exact absurd (hname.symm.trans hnm') nofun
      | some name =>
        dsimp only
        rw [bind_apply]
        unfold DirectoryMeta.add
        split
        · refine .done ⟨h2, ⟨fun ch hch => ?_⟩⟩
          cases hch
          exact ⟨i, m, name, hparent.symm, he, hname, rfl⟩
        · rename_i hfu
          refine .undefined (hbad fun hrm => hfu ?_)
          obtain ⟨name', hnm', hft⟩ := hrm i m hparent.symm he
          cases hname.symm.trans hnm'
          exact hft

/-- What `mknodcd` and `mkdircd` do. The entry in the parent directory gets
`isDirectories`, the hash item `isDirectory`. -/
inductive MakeStep (cfg : Config) (node : ℕ) (path : Path) (isDirectories isDirectory : Bool)
    (create : StoreView → Option ℕ × StoreView) (w : World) : Bool → World → Prop where
  | nothing : MakeStep cfg node path isDirectories isDirectory create w false w
  | change {i : ℕ} {m : DirectoryMeta} {name : Path} {ok : Bool} {v : StoreView}
      (hparent : (w (cfg.nodeOf (getParentDirectory path).1)).directory
        (cfg.sha256 (getParentDirectory path).1) = some (i, m))
      (hnew : (w node).entries (cfg.sha256 path) = none)
      (hname : getNameFromPath path = some name)
      (hmade : MakeEffect (cfg.sha256 path) isDirectory
        (create (w.writeDir (cfg.nodeOf (getParentDirectory path).1) i
          (m ++ [⟨name, isDirectories⟩]) node)) ok v) :
      MakeStep cfg node path isDirectories isDirectory create w ok
        (update (w.writeDir (cfg.nodeOf (getParentDirectory path).1) i
          (m ++ [⟨name, isDirectories⟩])) node v)

lemma Cluster.Shows.make (h : c.Shows sz w) {isDirectories isDirectory : Bool}
    {create : StoreView → Option ℕ × StoreView} {metadata : Program Storage (Option ℕ)}
    (hcr : ∀ (st : Storage) (v : StoreView), st.Shows sz v →
      ∃ st', metadata st = .done ((create v).1, st') ∧ st'.Shows sz (create v).2)
    (hbad : ¬ Roomy cfg self path w → bad) :
    Ends bad (Octopus.changecd cfg self path (Octopus.prepareMake cfg self path isDirectories
        (makeEntry (cfg.sha256 path) metadata isDirectory)) c) fun r =>
      ∃ w', r.2.Shows sz w' ∧
        MakeStep cfg self path isDirectories isDirectory create w r.1.1 w' := by
  refine (h.changecd (fun p ch ok v => MakeEffect (cfg.sha256 path) isDirectory
      (create (w.writeDir ch.parentNodeID ch.metaAddress ch.written self)) ok v)
    (fun c1 h1 => h1.prepareMake _ _ hbad) ?_).mono ?_
  · intro p ch hplan hch st hst
    obtain ⟨i, m, name, -, -, -, rfl⟩ := hplan.change ch hch
    exact Shows.makeEntry (hcr st _ hst) _ _
  · rintro ⟨r, c'⟩ ⟨w', hw', heff⟩
    refine ⟨w', hw', ?_⟩
    cases heff with
    | nothing => exact .nothing
    | change hplan hch hmade =>
      obtain ⟨i, m, name, hparent, hnew, hname, rfl⟩ := hplan.change _ hch
      exact .change hparent hnew hname hmade

def StoreView.createFile (m : FileMeta) (v : StoreView) : Option ℕ × StoreView :=
  ((v.files.create m).1, { v with files := (v.files.create m).2 })

def StoreView.createDir (v : StoreView) : Option ℕ × StoreView :=
  ((v.dirs.create []).1, { v with dirs := (v.dirs.create []).2 })

lemma MakeEffect.file {v' : StoreView} {m : FileMeta}
    (h : MakeEffect k false (v.createFile m) true v') : ∃ i, v'.file k = some (i, m) := by
  cases h with
  | made h =>
    rename_i i items
    refine ⟨i, StoreView.file_eq_some.mpr ⟨update_self .., ?_⟩⟩
    unfold StoreView.createFile at h ⊢
    rcases v.files.create_cases m with ⟨-, heq⟩ | ⟨j, rest, -, heq⟩
    · rw [heq] at h
      cases h
    · rw [heq] at h ⊢
      cases h
      exact update_self ..

lemma Cluster.Shows.mknodcd (h : c.Shows sz w) (unset : Unset)
    (hbad : ¬ Roomy cfg self path w → bad) :
    Ends bad (mknodcd cfg unset self path c) fun r => ∃ w', r.2.Shows sz w' ∧
      MakeStep cfg self path unset.isDirectory false
        (StoreView.createFile ⟨0, 0, unset.tuple⟩) w r.1 w' :=
  (h.make (fun _ _ hst => hst.createFileMeta _) hbad).bind fun _ hr => .done hr

lemma Cluster.Shows.mkdircd (h : c.Shows sz w) (hbad : ¬ Roomy cfg self path w → bad) :
    Ends bad (mkdircd cfg self path c) fun r => ∃ w', r.2.Shows sz w' ∧
      MakeStep cfg self path true true StoreView.createDir w r.1 w' :=
  (h.make (fun _ _ hst => hst.createDirectoryMeta _) hbad).bind fun _ hr => .done hr

/-! ## Removing -/

/-- What there is to remove, what is told of it, and the change of the own
tables. -/
inductive RemoveTarget (v : StoreView) (node : ℕ) (k : UniqueHash) :
    Attribute → Program Storage Bool → Prop where
  | directory {index : ℕ} (he : v.entries k = some (index, true))
      (hm : v.dirs.item index = some []) :
      RemoveTarget v node k .directory (dropEntry k (removeDirectoryMeta index))
  | file {index : ℕ} {m : FileMeta} (he : v.entries k = some (index, false))
      (hm : v.files.item index = some m) :
      RemoveTarget v node k (.file m) (do
        removeBlocksAnyway (blocksToRemove node m)
        dropEntry k (removeFileMeta index))

lemma RemoveTarget.empty {node : ℕ} (h : RemoveTarget v node k a tables) :
    a = .directory → ∃ index, v.entries k = some (index, true) ∧ v.dirs.item index = some [] := by
  cases h with
  | directory he hm => exact fun _ => ⟨_, he, hm⟩
  | file he hm => exact nofun

/-- What is known of a path that is to be removed. -/
structure RemovePlan (cfg : Config) (node : ℕ) (path : Path) (w : World)
    (p : Prepared) : Prop where
  change : ∀ ch, p.change = some ch → ∃ a i m name,
    RemoveTarget (w node) node (cfg.sha256 path) a ch.tables ∧ p.metaFile = some a ∧
      (w (cfg.nodeOf (getParentDirectory path).1)).directory
        (cfg.sha256 (getParentDirectory path).1) = some (i, m) ∧
      getNameFromPath path = some name ∧
      ch = { parentNodeID := cfg.nodeOf (getParentDirectory path).1, metaAddress := i,
             logged := m, written := m.without name, tables := ch.tables }

/-- The path has a name to take out of its parent. -/
def Named (path : Path) : Prop := ∃ name, getNameFromPath path = some name

lemma Cluster.Shows.prepareUnlink (h : c.Shows sz w)
    (htgt : RemoveTarget (w self) self (cfg.sha256 path) a tables) (hbad : ¬ Named path → bad) :
    Ends bad (prepareUnlink cfg self path a tables c) fun r =>
      r.2.Shows sz w ∧ RemovePlan cfg self path w r.1 := by
  obtain ⟨txID, c1, htx, h1⟩ := h.onTx self TxManager.txLocalBegin
  unfold Octopus.prepareUnlink txLocalBegin
  rw [bind_apply, htx, done_bind]
  refine (h1.readDirectoryMeta _).bind ?_
  rintro ⟨parent, c2⟩ ⟨h2, hparent⟩
  cases parent with
  | none => exact .done ⟨h2, ⟨nofun⟩⟩
  | some d =>
    obtain ⟨i, m⟩ := d
    cases hname : getNameFromPath path with
    | none =>
      refine .undefined (hbad ?_)
      rintro ⟨name, hnm'⟩
      exact absurd (hname.symm.trans hnm') nofun
    | some name =>
      refine .done ⟨h2, ⟨fun ch hch => ?_⟩⟩
      cases hch
      exact ⟨a, i, m, name, htgt, rfl, hparent.symm, hname, rfl⟩

lemma Cluster.Shows.prepareRemove (h : c.Shows sz w) (hbad : ¬ Named path → bad) :
    Ends bad (prepareRemove cfg self path c) fun r =>
      r.2.Shows sz w ∧ RemovePlan cfg self path w r.1 := by
  unfold Octopus.prepareRemove
  rw [bind_apply, h.getEntry, done_bind]
  match he : (w self).entries (cfg.sha256 path) with
  | none => exact .done ⟨h, ⟨nofun⟩⟩
  | some (index, true) =>
    dsimp only
    rw [bind_apply, h.getDirectoryMeta, done_bind]
    cases hm : (w self).dirs.item index with
    | none => exact .done ⟨h, ⟨nofun⟩⟩
    | some m =>
      dsimp only
      split
      · exact .done ⟨h, ⟨nofun⟩⟩
      · rename_i hlen
        have hnil : m = [] := List.length_eq_zero_iff.mp (not_not.mp hlen)
        rw [hnil] at hm
        exact h.prepareUnlink (.directory he hm) hbad
  | some (index, false) =>
    dsimp only
    rw [bind_apply, h.getFileMeta, done_bind]
    cases hm : (w self).files.item index with
    | none => exact .done ⟨h, ⟨nofun⟩⟩
    | some m => exact h.prepareUnlink (.file he hm) hbad

/-- The tables after a removal. -/
inductive DropEffect (v : StoreView) (node : ℕ) (k : UniqueHash) :
    Attribute → StoreView → Prop where
  | directory {index : ℕ} {items : List ℕ} (he : v.entries k = some (index, true))
      (hm : ∃ m, v.dirs.item index = some m) :
      DropEffect v node k .directory
        { v with
          dirs := (v.dirs.remove index).2
          entries := update v.entries k none
          items }
  | file {index : ℕ} {m : FileMeta} {items : List ℕ}
      (he : v.entries k = some (index, false)) (hm : v.files.item index = some m) :
      DropEffect v node k (.file m)
        { v with
          blocks := v.blocks.freed (blocksToRemove node m)
          files := (v.files.remove index).2
          entries := update v.entries k none
          items }

lemma Storage.Shows.dropEntry {v' : StoreView} {remove : Program Storage Bool} {e : ℕ × Bool}
    (hrem : ∃ st', remove st = .done (true, st') ∧ st'.Shows sz v') (he : v.entries k = some e)
    (hsm : v'.entries = v.entries) :
    ∃ st' items, dropEntry k remove st = .done (true, st') ∧
      st'.Shows sz { v' with entries := update v'.entries k none, items } := by
  obtain ⟨st1, hst1, h1⟩ := hrem
  obtain ⟨r, st2, items, hdel, hr, h2⟩ := h1.delEntry k
  rw [hsm, he] at hr
  obtain rfl : r = true := by
    cases r with
    | true => rfl
    | false => exact absurd (hr rfl) nofun
  refine ⟨st2, items, ?_, h2⟩
  rw [Storage.dropEntry, Program.bind_apply, hst1, done_bind]
  exact hdel

lemma Storage.Shows.dropTarget {w : World} {i : ℕ} {m : DirectoryMeta} {n : ℕ}
    (hv : v = w.writeDir n i m self) (h : st.Shows sz v)
    (htgt : RemoveTarget (w self) self k a tables) :
    ∃ st' v', tables st = .done (true, st') ∧ st'.Shows sz v' ∧ DropEffect v self k a v' := by
  subst hv
  cases htgt with
  | directory he hm =>
    rename_i index
    obtain ⟨st1, hrem, h1⟩ := h.removeDirectoryMeta index
    have hlv : ∃ m', (w.writeDir n i m self).dirs.item index = some m' := by
      apply Option.isSome_iff_exists.mp
      rw [World.writeDir_apply]
      split
      · rw [isSome_put, hm]
        rfl
      · rw [hm]
        rfl
    obtain ⟨m', hm'⟩ := hlv
    rw [remove_of_some hm'] at hrem
    obtain ⟨st2, items, hdrop, h2⟩ := Shows.dropEntry ⟨st1, hrem, h1⟩
      (v := w.writeDir n i m self) (by rw [World.entries_writeDir]; exact he) rfl
    exact ⟨st2, _, hdrop, h2, .directory (by rw [World.entries_writeDir]; exact he) ⟨m', hm'⟩⟩
  | file he hm =>
    rename_i index fm
    obtain ⟨st0, hfr, h0⟩ := h.removeBlocksAnyway (blocksToRemove self fm)
    obtain ⟨st1, hrem, h1⟩ := h0.removeFileMeta index
    rw [World.files_writeDir, remove_of_some hm] at hrem
    obtain ⟨st2, items, hdrop, h2⟩ := Shows.dropEntry ⟨st1, hrem, h1⟩
      (v := w.writeDir n i m self) (by rw [World.entries_writeDir]; exact he) rfl
    refine ⟨st2, _, ?_, h2, .file (by rw [World.entries_writeDir]; exact he)
      (by rw [World.files_writeDir]; exact hm)⟩
    rw [bind_apply, hfr, done_bind, hdrop]

/-- What `removecd` does. -/
inductive RemoveStep (cfg : Config) (node : ℕ) (path : Path) (w : World) :
    Bool × Option Attribute → World → Prop where
  | nothing {a : Option Attribute} : RemoveStep cfg node path w (false, a) w
  | change {i : ℕ} {m : DirectoryMeta} {name : Path} {a : Attribute} {v : StoreView}
      (hparent : (w (cfg.nodeOf (getParentDirectory path).1)).directory
        (cfg.sha256 (getParentDirectory path).1) = some (i, m))
      (hname : getNameFromPath path = some name)
      (hempty : a = .directory → ∃ index, (w node).entries (cfg.sha256 path) = some (index, true) ∧
        (w node).dirs.item index = some [])
      (hdrop : DropEffect (w.writeDir (cfg.nodeOf (getParentDirectory path).1) i
        (m.without name) node) node (cfg.sha256 path) a v) :
      RemoveStep cfg node path w (true, some a)
        (update (w.writeDir (cfg.nodeOf (getParentDirectory path).1) i (m.without name)) node v)

lemma Cluster.Shows.removecd (h : c.Shows sz w) (hbad : ¬ Named path → bad) :
    Ends bad (removecd cfg self path c) fun r => ∃ w', r.2.Shows sz w' ∧
      RemoveStep cfg self path w r.1 w' := by
  refine (h.changecd (fun p ch ok v => ok = true ∧ ∃ a, p.metaFile = some a ∧
      DropEffect (w.writeDir ch.parentNodeID ch.metaAddress ch.written self) self
        (cfg.sha256 path) a v)
    (fun c1 h1 => h1.prepareRemove hbad) ?_).mono ?_
  · intro p ch hplan hch st hst
    obtain ⟨a, i, m, name, htgt, ha, -, -, -⟩ := hplan.change ch hch
    obtain ⟨st', v', hdn, h', hdrop⟩ := Shows.dropTarget rfl hst htgt
    rw [hdn]
    exact .done ⟨v', h', rfl, a, ha, hdrop⟩
  · rintro ⟨r, c'⟩ ⟨w', hw', heff⟩
    refine ⟨w', hw', ?_⟩
    cases heff with
    | nothing => exact .nothing
    | change hplan hch hdrop =>
      obtain ⟨a, i, m, name, htgt, ha, hparent, hname, hch'⟩ := hplan.change _ hch
      obtain ⟨rfl, a', ha', hdrop⟩ := hdrop
      cases ha.symm.trans ha'
      rw [hch'] at hdrop ⊢
      rw [ha]
      exact .change hparent hname htgt.empty hdrop

end Calls

end Librdpma.Octopus
