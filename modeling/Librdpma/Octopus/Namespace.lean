import Librdpma.Lib.NameTree
import Librdpma.Octopus.LockBalance
import Librdpma.Octopus.NameCalls

/-!
# The names of a file system on one node

With one node, every path is in the hash table of that node, and so is its
parent. A run of `mknodcd`, `mkdircd` and `removecd` keeps table and
directories a tree of names (`Lib.Catalogue.Tree`) as long as no step meets
one of the gaps in the code: `mknodcd` writes an unassigned flag into the
parent directory, nothing is undone when the metadata or the hash item cannot
be created, and the arrays of a directory are not checked.
-/

namespace Librdpma.Octopus

open Lib Outcome Function List Program StoreView

/-! ## Paths -/

/-- The path of name `n` in directory `q`. -/
def child (q n : Path) : Path := if q = root then slash :: n else q ++ slash :: n

/-- Paths as the code assumes them: the root, and names below such paths. -/
structure PathSet (S : Set Path) : Prop where
  root_mem : root ∈ S
  closed : ∀ p ∈ S, p ≠ root → ∃ q ∈ S, ∃ n, n ≠ [] ∧ slash ∉ n ∧ p = child q n

/-- The parent and the name of a path, as the calls compute them. -/
def parentOf (p : Path) : Path := (getParentDirectory p).1

def nameOf (p : Path) : Path := (getNameFromPath p).getD []

lemma length_child {q n : Path} (hn : n ≠ []) : q.length < (child q n).length := by
  have := length_pos_iff.mpr hn
  unfold child
  split_ifs with hq
  · rw [hq, root, length_cons, length_cons, length_nil]
    omega
  · rw [length_append, length_cons]
    omega

namespace PathSet

variable {S : Set Path}

lemma ne_nil (h : PathSet S) {p : Path} (hp : p ∈ S) : p ≠ [] := by
  by_cases hrt : p = root
  · rw [hrt]
    exact cons_ne_nil _ _
  · obtain ⟨q, -, n, hn, -, rfl⟩ := h.closed p hp hrt
    exact length_pos_iff.mp (Nat.lt_of_le_of_lt (Nat.zero_le _) (length_child hn))

lemma cut (h : PathSet S) {q n : Path} (hq : q ∈ S) (hn : n ≠ []) (hs : slash ∉ n) :
    getParentDirectory (child q n) = (q, true) ∧ getNameFromPath (child q n) = some n := by
  have hne : child q n ≠ root := by
    intro heq
    have hlen := length_child (q := q) hn
    rw [heq, root, length_singleton] at hlen
    exact h.ne_nil hq (length_eq_zero_iff.mp (by omega))
  have hspl : splitLast (child q n) = some (if q = root then [] else q, n) := by
    unfold child
    split
    · exact splitLast_append [] hs
    · exact splitLast_append q hs
  unfold getParentDirectory getNameFromPath
  rw [if_neg hne, if_neg hne, hspl]
  by_cases hrt : q = root
  · rw [if_pos hrt, hrt]
    exact ⟨rfl, rfl⟩
  · rw [if_neg hrt]
    cases q with
    | nil => exact absurd rfl (h.ne_nil hq)
    | cons b q => exact ⟨rfl, rfl⟩

lemma parts (h : PathSet S) {p : Path} (hp : p ∈ S) (hne : p ≠ root) :
    parentOf p ∈ S ∧ getNameFromPath p = some (nameOf p) ∧
      p = child (parentOf p) (nameOf p) ∧ nameOf p ≠ [] := by
  obtain ⟨q, hq, n, hn, hs, rfl⟩ := h.closed p hp hne
  obtain ⟨hpar, hnm⟩ := h.cut hq hn hs
  unfold parentOf nameOf
  rw [hpar, hnm]
  exact ⟨hq, rfl, rfl, hn⟩

lemma keySet (h : PathSet S) : KeySet S root parentOf nameOf where
  root_mem := h.root_mem
  parent_mem := fun _ hp hne => (h.parts hp hne).1
  parent_ne := fun p hp hne heq => by
    obtain ⟨-, -, hchd, hn⟩ := h.parts hp hne
    have hlen := length_child (q := parentOf p) hn
    rw [← hchd, heq] at hlen
    exact absurd hlen (lt_irrefl _)
  inj := fun p hp hne p' hp' hne' hpar hnm => by
    rw [(h.parts hp hne).2.2.1, (h.parts hp' hne').2.2.1, hpar, hnm]

end PathSet

/-! ## The tree of a node -/

/-- What the tables of a node say of paths. -/
def catalogue (cfg : Config) (v : StoreView) : Catalogue Path Path where
  kind := fun p => (v.entries (cfg.sha256 p)).map Prod.snd
  list := fun p => (v.directory (cfg.sha256 p)).map fun d =>
    d.2.map fun e => (e.names, e.isDirectories)

/-- The names form a tree, and directories have metadata of their own. -/
structure NameInv (cfg : Config) (S : Set Path) (v : StoreView) : Prop where
  tree : (catalogue cfg v).Tree S root parentOf nameOf
  live : ∀ k i, v.entries k = some (i, true) → ∃ m, v.dirs.item i = some m
  inj : ∀ k k' i, v.entries k = some (i, true) → v.entries k' = some (i, true) → k = k'

section Steps

variable {cfg : Config} {S : Set Path} {v v' : StoreView} {path : Path} {i index : ℕ}
  {m : DirectoryMeta}

lemma catalogue_list_of_directory (h : v.directory (cfg.sha256 path) = some (i, m)) :
    (catalogue cfg v).list path = some (m.map fun e => (e.names, e.isDirectories)) := by
  simp only [catalogue, h, Option.map_some]

lemma StoreView.directory_congr {k : UniqueHash} (he : v'.entries k = v.entries k)
    (hd : ∀ j, v.entries k = some (j, true) → v'.dirs.item j = v.dirs.item j) :
    v'.directory k = v.directory k := by
  unfold directory
  rw [he]
  match hk : v.entries k with
  | none => rfl
  | some (j, false) => rfl
  | some (j, true) =>
    dsimp only
    rw [hd j hk]

/-- The entry of the path and its line in the parent change together, as in `t`.
The metadata of a new directory are new. -/
lemma NameInv.rebind (h : NameInv cfg S v) (hS : PathSet S) (hinj : Set.InjOn cfg.sha256 S)
    (hp : path ∈ S) (hne : path ≠ root)
    (hprn : v.directory (cfg.sha256 (parentOf path)) = some (i, m)) (m' : DirectoryMeta)
    {e : Option (ℕ × Bool)} {t : Catalogue Path Path}
    (hent : v'.entries = update v.entries (cfg.sha256 path) e)
    (hdr : ∀ k j, k ≠ cfg.sha256 path → v.entries k = some (j, true) →
      v'.dirs.item j = if j = i then some m' else v.dirs.item j)
    (hnew : ∀ j, e = some (j, true) → v'.dirs.item j = some [] ∧ ∀ k, v.entries k ≠ some (j, true))
    (htree : t.Tree S root parentOf nameOf)
    (hkn : t.kind = update (catalogue cfg v).kind path (e.map Prod.snd))
    (hls : t.list = update (update (catalogue cfg v).list (parentOf path)
      (some (m'.map fun e => (e.names, e.isDirectories)))) path
      (if e.map Prod.snd = some true then some [] else none)) : NameInv cfg S v' := by
  obtain ⟨hpe, hpm⟩ := directory_eq_some.mp hprn
  have hold : ∀ k, k ≠ cfg.sha256 path → v'.entries k = v.entries k := fun k hk => by
    rw [hent, update_of_ne hk]
  have hsf : v'.entries (cfg.sha256 path) = e := by
    rw [hent, update_self]
  refine ⟨htree.congr hS.keySet (fun p hpp => ?_) (fun p hpp => ?_), fun k j hk => ?_,
    fun k k' j hk hk' => ?_⟩
  · rw [hkn]
    by_cases hpt : p = path
    · rw [hpt, update_self]
      simp only [catalogue, hsf]
    · rw [update_of_ne hpt]
      simp only [catalogue, hold _ (hinj.ne hpp hp hpt)]
  · rw [hls]
    by_cases hpt : p = path
    · rw [hpt, update_self]
      simp only [catalogue, directory, hsf]
      match e, hnew with
      | none, _ => rfl
      | some (j, false), _ => rfl
      | some (j, true), hnew =>
        dsimp only
        rw [(hnew j rfl).1]
        rfl
    · have hsha := hinj.ne hpp hp hpt
      rw [update_of_ne hpt]
      by_cases hpar : p = parentOf path
      · subst hpar
        rw [update_self]
        refine catalogue_list_of_directory (i := i) (directory_eq_some.mpr
          ⟨(hold _ hsha).trans hpe, ?_⟩)
        rw [hdr _ _ hsha hpe, if_pos rfl]
      · rw [update_of_ne hpar]
        refine congrArg (Option.map _) (directory_congr (hold _ hsha) fun j hj => ?_)
        rw [hdr _ _ hsha hj, if_neg]
        rintro rfl
        exact hpar (hinj hpp (hS.parts hp hne).1 (h.inj _ _ _ hj hpe))
  · by_cases hpt : k = cfg.sha256 path
    · rw [hpt, hsf] at hk
      exact ⟨[], (hnew j hk).1⟩
    · rw [hold k hpt] at hk
      rw [hdr k j hpt hk]
      split
      · exact ⟨_, rfl⟩
      · exact h.live k j hk
  · by_cases hpt : k = cfg.sha256 path
    · by_cases hpt' : k' = cfg.sha256 path
      · rw [hpt, hpt']
      · rw [hpt, hsf] at hk
        rw [hold k' hpt'] at hk'
        exact absurd hk' ((hnew j hk).2 k')
    · rw [hold k hpt] at hk
      by_cases hpt' : k' = cfg.sha256 path
      · rw [hpt', hsf] at hk'
        exact absurd hk ((hnew j hk').2 k)
      · rw [hold k' hpt'] at hk'
        exact h.inj k k' j hk hk'

/-- A call that binds the path to new metadata and adds its name to the
parent. -/
lemma NameInv.make (h : NameInv cfg S v) (hS : PathSet S) (hinj : Set.InjOn cfg.sha256 S)
    (hp : path ∈ S) (hne : path ≠ root)
    (hpar : v.directory (cfg.sha256 (parentOf path)) = some (i, m))
    (hnew : v.entries (cfg.sha256 path) = none) (isDirectory : Bool)
    (hent : v'.entries = update v.entries (cfg.sha256 path) (some (index, isDirectory)))
    (hdr : ∀ j, v'.dirs.item j = if isDirectory = true ∧ j = index then some []
      else if j = i then some (m ++ [⟨nameOf path, isDirectory⟩]) else v.dirs.item j)
    (hfr : isDirectory = true → v.dirs.item index = none) : NameInv cfg S v' := by
  -- metadata in use are not the new ones
  have hus : ∀ k j, v.entries k = some (j, true) → ¬ (isDirectory = true ∧ j = index) := by
    rintro k j hk ⟨hdir, rfl⟩
    obtain ⟨m', hm'⟩ := h.live k j hk
    rw [hfr hdir] at hm'
    cases hm'
  have hkn : (catalogue cfg v).kind path = none := by
    simp only [catalogue, hnew, Option.map_none]
  refine h.rebind hS hinj hp hne hpar (m ++ [⟨nameOf path, isDirectory⟩]) hent
    (fun k j _ hk => ?_) (fun j hj => ?_) (h.tree.add hS.keySet hp hne hkn
      (catalogue_list_of_directory hpar) isDirectory) rfl ?_
  · rw [hdr, if_neg (hus k j hk)]
  · cases hj
    exact ⟨by rw [hdr, if_pos ⟨rfl, rfl⟩], fun k hk => hus k index hk ⟨rfl, rfl⟩⟩
  · simp [Catalogue.add]

/-- A call that unbinds the path and takes its name out of the parent. `index`
is that of the metadata of a directory. -/
lemma NameInv.drop (h : NameInv cfg S v) (hS : PathSet S) (hinj : Set.InjOn cfg.sha256 S)
    (hp : path ∈ S) (hne : path ≠ root)
    (hpar : v.directory (cfg.sha256 (parentOf path)) = some (i, m)) {isDirectory : Bool}
    (hbd : v.entries (cfg.sha256 path) = some (index, isDirectory))
    (hemp : isDirectory = true → v.dirs.item index = some [])
    (hent : v'.entries = update v.entries (cfg.sha256 path) none)
    (hdr : ∀ j, v'.dirs.item j = if isDirectory = true ∧ j = index then none
      else if j = i then some (m.without (nameOf path)) else v.dirs.item j) :
    NameInv cfg S v' := by
  have hnil : ∀ l, (catalogue cfg v).list path = some l → l = [] := by
    intro l hl
    cases isDirectory with
    | true =>
      have hdir := directory_eq_some.mpr ⟨hbd, hemp rfl⟩
      rw [catalogue_list_of_directory hdir] at hl
      cases hl
      rfl
    | false => simp [catalogue, directory, hbd] at hl
  refine h.rebind hS hinj hp hne hpar (m.without (nameOf path)) hent (fun k j hk hkj => ?_) nofun
    (h.tree.remove hS.keySet hp hne (catalogue_list_of_directory hpar) hnil) rfl ?_
  · -- other directories have other metadata
    rw [hdr, if_neg]
    rintro ⟨rfl, rfl⟩
    exact hk (h.inj k _ j hkj hbd)
  · simp [Catalogue.remove, DirectoryMeta.without, filter_map, comp_def]

end Steps

/-! ## One call -/

/-- What the creation of metadata does to a view: a new directory is empty, at
a place that was free. -/
structure Creates (isDirectory : Bool) (v : StoreView) (r : Option ℕ × StoreView) : Prop where
  entries : r.2.entries = v.entries
  items : r.2.items = v.items
  dirs : ∀ index, r.1 = some index → ∀ j, r.2.dirs.item j =
    if isDirectory = true ∧ j = index then some [] else v.dirs.item j
  fresh : ∀ index, r.1 = some index → isDirectory = true → index ∈ v.dirs.free

lemma creates_createFile (m : FileMeta) (v : StoreView) : Creates false v (v.createFile m) :=
  ⟨rfl, rfl, fun _ _ _ => rfl, fun _ _ => nofun⟩

lemma creates_createDir (v : StoreView) : Creates true v v.createDir := by
  unfold createDir
  rcases v.dirs.create_cases [] with ⟨-, heq⟩ | ⟨i, rest, hfr, heq⟩
  · rw [heq]
    exact ⟨rfl, rfl, nofun, nofun⟩
  · rw [heq]
    refine ⟨rfl, rfl, fun index h j => ?_, fun index h _ => ?_⟩
    · cases h
      by_cases hj : j = i
      · simp [hj]
      · simp [hj]
    · cases h
      rw [hfr]
      exact mem_cons_self

section Calls

variable {cfg : Config} {S : Set Path} {path : Path} {sz : StoreSize} {c : Cluster} {w w' : World}

lemma NameInv.ne_root {v : StoreView} (h : NameInv cfg S v)
    (hnew : v.entries (cfg.sha256 path) = none) : path ≠ root := by
  rintro rfl
  have htop := h.tree.top
  simp only [catalogue, hnew, Option.map_none] at htop
  cases htop

/-- A path is made: with the flag of the hash item in the parent directory, and
with room in the tables. -/
lemma NameInv.makeStep (h : NameInv cfg S (w 1)) (hS : PathSet S) (hinj : Set.InjOn cfg.sha256 S)
    (hp : path ∈ S) (hsf : ∀ p, cfg.nodeOf p = 1)
    (hfr : ∀ i ∈ (w 1).dirs.free, (w 1).dirs.item i = none) {isDirectories isDirectory ok : Bool}
    {create : StoreView → Option ℕ × StoreView} (hcrt : ∀ v, Creates isDirectory v (create v))
    (hft : ∀ i m, (w 1).directory (cfg.sha256 (parentOf path)) = some (i, m) →
      (w 1).entries (cfg.sha256 path) = none → isDirectories = isDirectory ∧ (w 1).items ≠ [] ∧
        ∀ m', (create (w.writeDir 1 i m' 1)).1 ≠ none)
    (hst : MakeStep cfg 1 path isDirectories isDirectory create w ok w') :
    NameInv cfg S (w' 1) := by
  cases hst with
  | nothing => exact h
  | change hpar hnew hnm hmd =>
    rename_i i m name v
    rw [hsf] at hpar hmd ⊢
    obtain ⟨rfl, hits, hrm⟩ := hft i m hpar hnew
    rw [update_self]
    have hne := h.ne_root hnew
    obtain rfl : name = nameOf path := by rw [nameOf, hnm]; rfl
    have hcr := hcrt (w.writeDir 1 i (m ++ [⟨nameOf path, isDirectories⟩]) 1)
    have hm := (directory_eq_some.mp hpar).2
    have hitem := World.item_writeDir_self hm (m ++ [⟨nameOf path, isDirectories⟩])
    cases hmd with
    | full hno => exact absurd hno (hrm _)
    | noItem hsome hnil =>
      rw [hcr.items, World.items_writeDir] at hnil
      exact absurd hnil hits
    | made hsome =>
      rename_i index items
      refine h.make hS hinj hp hne hpar hnew isDirectories ?_ (fun j => ?_)
        (fun hdir => hfr index ?_)
      · rw [hcr.entries, World.entries_writeDir]
      · rw [← hitem j]
        exact hcr.dirs index hsome j
      · have hmem := hcr.fresh index hsome hdir
        rw [World.writeDir_apply, if_pos rfl, TableView.put_of_some hm] at hmem
        exact hmem

lemma NameInv.removeStep (h : NameInv cfg S (w 1)) (hS : PathSet S)
    (hinj : Set.InjOn cfg.sha256 S) (hp : path ∈ S) (hsf : ∀ p, cfg.nodeOf p = 1)
    {r : Bool × Option Attribute} (hst : RemoveStep cfg 1 path w r w') :
    NameInv cfg S (w' 1) := by
  cases hst with
  | nothing => exact h
  | change hpar hnm hemp hdr =>
    rename_i i m name a v
    rw [hsf] at hpar hdr ⊢
    rw [update_self]
    have hne : path ≠ root := by
      rintro rfl
      cases hnm
    obtain rfl : name = nameOf path := by rw [nameOf, hnm]; rfl
    have hitem := World.item_writeDir_self (directory_eq_some.mp hpar).2 (m.without (nameOf path))
    cases hdr with
    | directory he hm =>
      rename_i index items
      obtain ⟨m', hm'⟩ := hm
      rw [World.entries_writeDir] at he
      obtain ⟨index', he', hnil⟩ := hemp rfl
      cases he.symm.trans he'
      refine h.drop hS hinj hp hne hpar he (fun _ => hnil) ?_ fun j => ?_
      · rw [World.entries_writeDir]
      · rw [← hitem j]
        rw [TableView.remove_of_some hm']
        by_cases hj : j = index
        · simp [hj]
        · simp [hj]
    | file he hm =>
      rename_i index fm items
      rw [World.entries_writeDir] at he
      refine h.drop hS hinj hp hne hpar he nofun ?_ fun j => ?_
      · rw [World.entries_writeDir]
      · rw [← hitem j]
        simp

/-! ## The root cannot be removed -/

lemma lockWrite_shuts {i : ℕ} (hi : BitVec.ofNat 16 i ≠ 0#16) (a : AddressHash) (c : Cluster) :
    Ends False (lockWriteHashItem i a c) fun r =>
      LockWord.upper ((r.2.lock i).word a) ≠ 0#64 := by
  unfold lockWriteHashItem onLock zoom LockService.writeLock
  split
  · refine .done ?_
    rw [Cluster.lock_setLock, update_self]
    dsimp only [LockService.log]
    rw [update_self, ne_eq, LockWord.upper_eq_zero, LockWord.toNat_writeKey]
    have := BitVec.toNat_ne.mp hi
    rw [BitVec.toNat_zero] at this
    omega
  · exact .loop

lemma lockRead_shut {i : ℕ} {a : AddressHash}
    (h : LockWord.upper ((c.lock i).word a) ≠ 0#64) : lockReadHashItem i a c = .loop := by
  unfold lockReadHashItem onLock zoom LockService.readLock
  rw [if_neg h]
  rfl

lemma prepareRemove_root (h : c.Shows sz w) (hsf : ∀ p, cfg.nodeOf p = 1)
    (hshut : LockWord.upper ((c.lock 1).word (cfg.addressOf root)) ≠ 0#64) {i : ℕ}
    (hrt : (w 1).entries (cfg.sha256 root) = some (i, true)) :
    Ends False (prepareRemove cfg 1 root c) fun r => r.1.change = none := by
  unfold prepareRemove
  rw [bind_apply, h.getEntry, done_bind, hrt]
  dsimp only
  rw [bind_apply, h.getDirectoryMeta, done_bind]
  cases (w 1).dirs.item i with
  | none => exact .done rfl
  | some m =>
    dsimp only
    split
    · exact .done rfl
    · -- the parent of the root is the root
      have hrd : ∀ c' : Cluster, c'.lock = c.lock →
          readDirectoryMeta cfg (getParentDirectory root).1 c' = .loop := by
        intro c' hc'
        have hwt : lockReadHashItem 1 (cfg.addressOf root) c' = .loop :=
          lockRead_shut (by rw [hc']; exact hshut)
        unfold readDirectoryMeta
        rw [hsf, bind_apply]
        exact congrArg (· >>= _) hwt
      obtain ⟨txID, c1, htx, hlk⟩ : ∃ txID c1, txLocalBegin 1 c = .done (txID, c1) ∧
          c1.lock = c.lock := ⟨_, _, rfl, Cluster.lock_setTx ..⟩
      unfold prepareUnlink
      rw [bind_apply, htx, done_bind]
      rw [bind_apply, hrd c1 hlk]
      exact .loop

lemma Cluster.Shows.removecd_root (h : c.Shows sz w) (hsf : ∀ p, cfg.nodeOf p = 1) {i : ℕ}
    (hrt : (w 1).entries (cfg.sha256 root) = some (i, true)) :
    Ends False (Octopus.removecd cfg 1 root c) fun r => ∃ w', r.2.Shows sz w' ∧
      RemoveStep cfg 1 root w r.1 w' := by
  have hsafe : Ends False (Octopus.removecd cfg 1 root c) fun _ => True := by
    unfold Octopus.removecd Octopus.changecd
    rw [if_pos (hsf root)]
    have hlk := (lockWrite_shuts (i := 1) (by decide) (cfg.addressOf root) c).and
      (h.lockWrite 1 (cfg.addressOf root))
    refine hlk.bind fun r hr => (prepareRemove_root hr.2 hsf hr.1 hrt).bind fun p hp => ?_
    dsimp only
    rw [hp]
    exact .done trivial
  exact (hsafe.and (h.removecd fun _ => trivial)).mono fun _ hr => hr.2

end Calls

/-! ## Runs -/

namespace Storage

/-- The flag a path is stored with, if it is in the hash table. -/
def flag (st : Storage) (k : UniqueHash) : Option Bool :=
  match getEntry k st with
  | .done (e, _) => e.map Prod.snd
  | _ => none

/-- The `DirectoryMeta` of a path that is a directory in the hash table. -/
def contents (st : Storage) (k : UniqueHash) : Option DirectoryMeta :=
  match lookupDirectory k st with
  | .done (d, _) => d.map Prod.snd
  | _ => none

/-- A path other than the root is in the hash table exactly if its name stands
once in its parent, which is a directory, and with the same flag. -/
def NamesAgree (cfg : Config) (S : Set Path) (st : Storage) : Prop :=
  ∀ p ∈ S, p ≠ root → ∀ b, st.flag (cfg.sha256 p) = some b ↔
    ∃ m, st.contents (cfg.sha256 (parentOf p)) = some m ∧
      (m.map (·.names)).count (nameOf p) = 1 ∧ ⟨nameOf p, b⟩ ∈ m

/-- There is room for one more name in a directory. -/
def HoldsName (m : DirectoryMeta) (name : Path) : Prop :=
  m.length < maxDirectoryCount ∧ name.length < maxFileNameLength

/-- What the code takes for granted when it makes a path: that the parent
directory has room, a hash item and metadata are free, and the unassigned
`isDirectory` of `mknodcd` is false. Nothing is asked of a call that finds no
parent, or finds the path. -/
def Fits (cfg : Config) (st : Storage) (unset : Unset) : Message → Prop
  | .mknod path => ∀ m, st.contents (cfg.sha256 (parentOf path)) = some m →
      st.flag (cfg.sha256 path) = none → unset.isDirectory = false ∧ HoldsName m (nameOf path) ∧
        st.tableFileMeta.headFreeBit ≠ [] ∧ st.hashtable.headFreeBit ≠ []
  | .mkdir path => ∀ m, st.contents (cfg.sha256 (parentOf path)) = some m →
      st.flag (cfg.sha256 path) = none → HoldsName m (nameOf path) ∧
        st.tableDirectoryMeta.headFreeBit ≠ [] ∧ st.hashtable.headFreeBit ≠ []
  | _ => True

namespace Shows

variable {sz : StoreSize} {st : Storage} {v : StoreView}

lemma flag (h : st.Shows sz v) (k : UniqueHash) : st.flag k = (v.entries k).map Prod.snd := by
  rw [Storage.flag, h.getEntry]

lemma contents (h : st.Shows sz v) (k : UniqueHash) :
    st.contents k = (v.directory k).map Prod.snd := by
  rw [Storage.contents, h.lookupDirectory]

end Shows

end Storage

/-- A call that makes or removes a path of the set. -/
def Message.Within (S : Set Path) : Message → Prop
  | .mknod path => path ∈ S
  | .mkdir path => path ∈ S
  | .remove path => path ∈ S
  | _ => False

section Runs

variable {cfg : Config} {S : Set Path} {sz : StoreSize} {path : Path}

lemma NameInv.agree {st : Storage} {v : StoreView} (h : NameInv cfg S v) (hS : PathSet S)
    (hst : st.Shows sz v) : st.NamesAgree cfg S := by
  intro p hp hne b
  rw [hst.flag]
  refine (h.tree.bound_iff hS.keySet hp hne b).trans ⟨?_, ?_⟩
  · rintro ⟨l, hl, hcnt, hmem⟩
    obtain ⟨d, hd, rfl⟩ := Option.map_eq_some_iff.mp hl
    refine ⟨d.2, by rw [hst.contents, hd]; rfl, ?_, ?_⟩
    · rw [map_map] at hcnt
      exact hcnt
    · obtain ⟨e, he, heq⟩ := mem_map.mp hmem
      rw [Prod.mk.injEq] at heq
      rw [← heq.1, ← heq.2]
      exact he
  · rintro ⟨m, hm, hcnt, hmem⟩
    rw [hst.contents] at hm
    obtain ⟨d, hd, rfl⟩ := Option.map_eq_some_iff.mp hm
    refine ⟨_, catalogue_list_of_directory hd, ?_, ?_⟩
    · rw [map_map]
      exact hcnt
    · exact mem_map.mpr ⟨_, hmem, rfl⟩

/-- The state of the only node. -/
def NamesKept (cfg : Config) (S : Set Path) (sz : StoreSize) (c : Cluster) : Prop :=
  ∃ w, c.Shows sz w ∧ NameInv cfg S (w 1)

lemma make_roomy (hsf : ∀ p, cfg.nodeOf p = 1) (hS : PathSet S) (hp : path ∈ S)
    {v : World} (h : NameInv cfg S (v 1))
    (hft : ∀ i m, (v 1).directory (cfg.sha256 (parentOf path)) = some (i, m) →
      (v 1).entries (cfg.sha256 path) = none → Storage.HoldsName m (nameOf path)) :
    Roomy cfg 1 path v := by
  intro i m hpar hnew
  rw [hsf] at hpar
  exact ⟨nameOf path, (hS.parts hp (h.ne_root hnew)).2.1, hft i m hpar hnew⟩

lemma ends_names (hone : cfg.countNode = 1) (hS : PathSet S) (hinj : Set.InjOn cfg.sha256 S)
    (c : Cluster) (unset : Unset) (msg : Message) (h : NamesKept cfg S sz c)
    (hmsg : msg.Within S ∧ (c.storage 1).Fits cfg unset msg) :
    Ends False (parseMessage cfg unset 1 msg c) fun r => NamesKept cfg S sz r.2 := by
  obtain ⟨w, hw, hinv⟩ := h
  obtain ⟨hp, hft⟩ := hmsg
  have hsf := Config.nodeOf_one hone
  have hfr : ∀ i ∈ (w 1).dirs.free, (w 1).dirs.item i = none := fun i hi =>
    (hw 1).dirs.free_none hi
  match msg with
  | .mknod path =>
    have hft' : ∀ i m, (w 1).directory (cfg.sha256 (parentOf path)) = some (i, m) →
        (w 1).entries (cfg.sha256 path) = none → unset.isDirectory = false ∧
          Storage.HoldsName m (nameOf path) ∧ (w 1).files.free ≠ [] ∧ (w 1).items ≠ [] := by
      intro i m hd he
      have := hft m (by rw [(hw 1).contents, hd]; rfl) (by rw [(hw 1).flag, he]; rfl)
      rwa [(hw 1).items, (hw 1).files.headFreeBit] at this
    refine (hw.mknodcd unset fun hrm => hrm ?_).bind ?_
    · exact make_roomy hsf hS hp hinv fun i m hd he => (hft' i m hd he).2.1
    · rintro ⟨ok, c'⟩ ⟨w', hw', hst⟩
      refine .done ⟨w', hw', hinv.makeStep hS hinj hp hsf hfr
        (creates_createFile _) (fun i m hd he => ?_) hst⟩
      obtain ⟨hfl, -, hfls, hits⟩ := hft' i m hd he
      refine ⟨hfl, hits, fun m' => TableView.create_ne_none ?_ _⟩
      rw [World.files_writeDir]
      exact hfls
  | .mkdir path =>
    have hft' : ∀ i m, (w 1).directory (cfg.sha256 (parentOf path)) = some (i, m) →
        (w 1).entries (cfg.sha256 path) = none →
          Storage.HoldsName m (nameOf path) ∧ (w 1).dirs.free ≠ [] ∧ (w 1).items ≠ [] := by
      intro i m hd he
      have := hft m (by rw [(hw 1).contents, hd]; rfl) (by rw [(hw 1).flag, he]; rfl)
      rwa [(hw 1).items, (hw 1).dirs.headFreeBit] at this
    refine (hw.mkdircd fun hrm => hrm ?_).bind ?_
    · exact make_roomy hsf hS hp hinv fun i m hd he => (hft' i m hd he).1
    · rintro ⟨ok, c'⟩ ⟨w', hw', hst⟩
      refine .done ⟨w', hw', hinv.makeStep hS hinj hp hsf hfr
        creates_createDir (fun i m hd he => ?_) hst⟩
      obtain ⟨-, hdr, hits⟩ := hft' i m hd he
      refine ⟨rfl, hits, fun m' => TableView.create_ne_none ?_ _⟩
      rw [World.free_writeDir]
      exact hdr
  | .remove path =>
    have hrem : Ends False (removecd cfg 1 path c) fun r =>
        ∃ w', r.2.Shows sz w' ∧ RemoveStep cfg 1 path w r.1 w' := by
      by_cases hrt : path = root
      · rw [hrt]
        obtain ⟨⟨i, b⟩, he, hb⟩ := Option.map_eq_some_iff.mp hinv.tree.top
        cases hb
        exact hw.removecd_root hsf he
      · exact hw.removecd fun hnmd => hnmd ⟨_, (hS.parts hp hrt).2.1⟩
    refine hrem.bind ?_
    rintro ⟨r, c'⟩ ⟨w', hw', hst⟩
    exact .done ⟨w', hw', hinv.removeStep hS hinj hp hsf hst⟩

lemma StoreView.RootOnly.nameInv {v : StoreView} (h : v.RootOnly cfg sz)
    (hS : PathSet S) (hinj : Set.InjOn cfg.sha256 S) : NameInv cfg S v := by
  have hoth : ∀ p ∈ S, p ≠ root → v.entries (cfg.sha256 p) = none := fun p hp hne => by
    rw [h.entries, update_of_ne (hinj.ne hp hS.root_mem hne)]
  have hrt : v.directory (cfg.sha256 root) = some (0, []) :=
    directory_eq_some.mpr ⟨by rw [h.entries, update_self], by rw [h.dirs, update_self]⟩
  have honly : ∀ k i, v.entries k = some (i, true) → k = cfg.sha256 root ∧ i = 0 := by
    intro k i hk
    rw [h.entries] at hk
    by_cases hk' : k = cfg.sha256 root
    · rw [hk', update_self] at hk
      cases hk
      exact ⟨hk', rfl⟩
    · rw [update_of_ne hk'] at hk
      cases hk
  refine ⟨Catalogue.Tree.single hS.keySet ?_ ?_ ?_ ?_, fun k i hk => ?_, fun k k' i hk hk' => ?_⟩
  · simp [catalogue, h.entries]
  · rw [catalogue_list_of_directory hrt]
    rfl
  · intro p hp hne
    simp [catalogue, hoth p hp hne]
  · intro p hp hne
    simp [catalogue, directory, hoth p hp hne]
  · rw [(honly k i hk).2, h.dirs, update_self]
    exact ⟨_, rfl⟩
  · rw [(honly k i hk).1, (honly k' i hk').1]

/-- **Table and directories agree after every sequence of calls that never asks
the code for more than it can hold.** -/
theorem names_agree (s : Setup) (hs : s.Sound) (hone : cfg.countNode = 1)
    (hS : PathSet S) (hinj : Set.InjOn cfg.sha256 S) (c : Cluster)
    (hc : s.start cfg = .done c) (reqs : List (Unset × Message))
    (hreqs : Along cfg 1 (fun c unset msg =>
      msg.Within S ∧ (c.storage 1).Fits cfg unset msg) reqs c) :
    Ends False (serve cfg 1 reqs c) fun r => (r.2.storage 1).NamesAgree cfg S := by
  obtain ⟨w, hw⟩ := hs.started hc
  have hrt := hw.root
  rw [Config.nodeOf_one hone] at hrt
  have hkp : NamesKept cfg S s.size c := ⟨w, hw.shows, hrt.nameInv hS hinj⟩
  refine (hreqs.ends (ends_names hone hS hinj) hkp).mono fun r hr => ?_
  obtain ⟨w', hw', hinv⟩ := hr
  exact hinv.agree hS (hw' 1)

end Runs

/-! ## Small runs -/

/-- The root and `/a`. -/
def samplePaths : Set Path := {root, pathA}

lemma samplePaths_pathSet : PathSet samplePaths where
  root_mem := Set.mem_insert _ _
  closed := by
    rintro p (rfl | rfl) hne
    · exact absurd rfl hne
    · exact ⟨root, Set.mem_insert _ _, [97#8], by decide, by decide, by decide⟩

lemma samplePaths_injOn : Set.InjOn oneNode.sha256 samplePaths := by
  rintro p (rfl | rfl) q (rfl | rfl) heq
  · rfl
  · exact absurd heq (by decide)
  · cases heq
  · rfl

/-- `mknod` with the flag false. -/
theorem names_agree_mknod : ∃ c, (sampleSetup 64).start oneNode = .done c ∧
      Along oneNode 1 (fun c unset msg =>
        msg.Within samplePaths ∧ (c.storage 1).Fits oneNode unset msg)
        [(sampleUnset, .mknod pathA)] c ∧
      Ends False (serve oneNode 1 [(sampleUnset, .mknod pathA)] c) fun r =>
        (r.2.storage 1).NamesAgree oneNode samplePaths := by
  obtain ⟨c, hc, hrt, hfls, hits⟩ : ∃ c, (sampleSetup 64).start oneNode = .done c ∧
      (c.storage 1).contents (oneNode.sha256 root) = some [] ∧
      (c.storage 1).tableFileMeta.headFreeBit ≠ [] ∧
      (c.storage 1).hashtable.headFreeBit ≠ [] := by
    decide +kernel
  have haln : Along oneNode 1 (fun c unset msg =>
      msg.Within samplePaths ∧ (c.storage 1).Fits oneNode unset msg)
      [(sampleUnset, .mknod pathA)] c := by
    refine ⟨⟨Set.mem_insert_of_mem _ rfl, fun m hm _ => ?_⟩, fun _ _ _ => trivial⟩
    cases hrt.symm.trans hm
    exact ⟨rfl, ⟨by decide, by decide⟩, hfls, hits⟩
  exact ⟨c, hc, haln, names_agree (sampleSetup 64) (by decide) rfl samplePaths_pathSet
    samplePaths_injOn c hc _ haln⟩

/-- `mknod` with the flag it happens to find. -/
theorem names_disagree : ¬ ∀ (s : Setup) (cfg : Config) (S : Set Path) (c c' : Cluster)
        (reqs : List (Unset × Message)) (rs : List Response), s.Sound →
        cfg.countNode = 1 → PathSet S → Set.InjOn cfg.sha256 S → s.start cfg = .done c →
        (∀ r ∈ reqs, r.2.Within S) → serve cfg 1 reqs c = .done (rs, c') →
        (c'.storage 1).NamesAgree cfg S := by
  intro hall
  obtain ⟨c, hc, ⟨rs, c'⟩, hsrv, hfl, hrt⟩ : ∃ c, (sampleSetup 64).start oneNode = .done c ∧
      ∃ r, serve oneNode 1 [({ sampleUnset with isDirectory := true }, .mknod pathA)] c = .done r ∧
        (r.2.storage 1).flag (oneNode.sha256 pathA) = some false ∧
        (r.2.storage 1).contents (oneNode.sha256 root) = some [⟨nameOf pathA, true⟩] := by
    decide +kernel
  have hagr := hall _ _ samplePaths _ _ _ _ (by decide) rfl samplePaths_pathSet
    samplePaths_injOn hc (by
      intro r hr
      rw [mem_singleton.mp hr]
      exact Set.mem_insert_of_mem _ rfl) hsrv
  obtain ⟨m, hm, -, hmem⟩ := (hagr pathA (Set.mem_insert_of_mem _ rfl) (by decide) false).mp hfl
  cases hrt.symm.trans hm
  exact absurd hmem (by decide)

end Librdpma.Octopus
