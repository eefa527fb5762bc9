import Librdpma.Octopus.StoreView

/-!
# A file system at its start

Each node builds its tables over zero-filled memory (`Storage::Storage`), with
all lock words 0 and an empty log, and then runs `rootInitialize`, which makes
the root directory on the node that owns it. What the memory holds besides is
not known: it is a field of `Setup`.
-/

namespace Librdpma.Octopus

open Lib Function List Outcome Storage StoreView

/-- `rootInitialize` -/
def rootInitialize (cfg : Config) (self : ℕ) : Sys Unit :=
  if cfg.nodeOf root = self then do
    match ← onStorage self (createDirectoryMeta []) with
    | none => Program.ofOutcome .exit
    | some index =>
        match ← onStorage self (putEntry (cfg.sha256 root) index true) with
        | false => Program.ofOutcome .exit
        | true => return ()
  else return ()

lemma Config.nodeOf_one {cfg : Config} (hone : cfg.countNode = 1) (path : Path) :
    cfg.nodeOf path = 1 := by
  rw [Config.nodeOf, hone, Nat.mod_one]

/-- What the nodes are started with. -/
structure Setup where
  countFile : ℕ
  countDirectory : ℕ
  countBlock : ℕ
  layFile : Layout FileMeta
  layDirectory : Layout DirectoryMeta
  writeID : ℕ → BitVec 16
  logData : ℕ → ℕ → DirectoryMeta
  data : ℕ → ℕ → BitVec 8

namespace Setup

def size (s : Setup) : StoreSize where
  items := s.countDirectory + s.countFile
  files := s.countFile
  dirs := s.countDirectory
  blocks := s.countBlock

/-- The counts for which the tables work: multiples of 8 that an `int` loop
can run over. -/
structure Sound (s : Setup) : Prop where
  file : s.countFile % 8 = 0 ∧ 0 < s.countFile ∧ s.countFile ≤ 2 ^ 31
  directory : s.countDirectory % 8 = 0 ∧ 0 < s.countDirectory ∧ s.countDirectory ≤ 2 ^ 31
  block : s.countBlock % 8 = 0 ∧ s.countBlock ≤ 2 ^ 31

instance (s : Setup) : Decidable s.Sound :=
  decidable_of_iff (_ ∧ _ ∧ _) ⟨fun h => ⟨h.1, h.2.1, h.2.2⟩, fun h => ⟨h.1, h.2, h.3⟩⟩

def storage (s : Setup) : Outcome Storage :=
  construct s.layFile s.layDirectory s.countFile s.countDirectory s.countBlock

/-- The nodes before `rootInitialize`. -/
def nodes (s : Setup) (st : Storage) : Cluster := fun i =>
  { storage := st
    lock := ⟨fun _ => 0#64, s.writeID i, []⟩
    tx := ⟨0, s.logData i, []⟩
    data := s.data i }

/-- The cluster after all nodes have started. -/
def start (s : Setup) (cfg : Config) : Outcome Cluster := do
  let st ← s.storage
  let r ← rootInitialize cfg (cfg.nodeOf root) (s.nodes st)
  return r.2

end Setup

/-! ## What it shows -/

namespace StoreView

/-- Tables of the given sizes with nothing in them. -/
def empty (sz : StoreSize) (items : List ℕ) : StoreView where
  entries := fun _ => none
  items := items
  files := ⟨range sz.files, fun _ => none⟩
  dirs := ⟨range sz.dirs, fun _ => none⟩
  blocks := ⟨range sz.blocks, fun _ => none⟩

/-- A node that holds the root directory, which is empty, and nothing else. -/
structure RootOnly (cfg : Config) (sz : StoreSize) (v : StoreView) : Prop where
  entries : v.entries = update (fun _ => none) (cfg.sha256 root) (some (0, true))
  files : v.files = ⟨range sz.files, fun _ => none⟩
  dirs : v.dirs.item = update (fun _ => none) 0 (some ([] : DirectoryMeta))
  blocks : v.blocks = ⟨range sz.blocks, fun _ => none⟩

end StoreView

namespace Setup

variable {s : Setup} {cfg : Config}

lemma Sound.storage (h : s.Sound) :
    ∃ st items, s.storage = .done st ∧ items ≠ [] ∧ st.Shows s.size (empty s.size items) := by
  obtain ⟨⟨hf8, hfpos, hf⟩, ⟨hd8, hdpos, hd⟩, hb8, hb⟩ := h
  have hcount8 : (s.countDirectory + s.countFile) % 8 = 0 := by omega
  obtain ⟨hash, hhash⟩ := HashTable.construct_zero_done hcount8 (by omega) (by omega)
  obtain ⟨tf, htf, hfsh⟩ := Table.construct_shows s.layFile hf8 hf
  obtain ⟨td, htd, hdsh⟩ := Table.construct_shows s.layDirectory hd8 hd
  obtain ⟨tb, htb, hbsh⟩ := Table.construct_shows (T := Unit) ⟨blockSize, fun _ => ()⟩ hb8 hb
  have hmod : HashTable.Models getAddressHash (s.countDirectory + s.countFile) hash fun _ => none :=
    HashTable.construct_models hhash
  refine ⟨⟨hash, tf, td, tb⟩, hash.headFreeBit, ?_, ?_, hmod, rfl, hfsh, hdsh, hbsh⟩
  · rw [Setup.storage, construct, hhash, done_bind, htf, done_bind, htd, done_bind, htb]
    rfl
  · -- items `1 ..` are free, and there are at least sixteen
    obtain ⟨chain, hshp, hrep⟩ := hmod
    have hno : ¬ ∃ a, 1 ∈ chain a := by
      rintro ⟨a, ha⟩
      have hat := hshp.hashed a 1 ha
      rw [← hat] at ha
      exact absurd ((hrep _ _).mpr ⟨1, ha, rfl, rfl⟩) nofun
    have hmem := (hshp.free.mem_iff 1).mpr ⟨by omega, hno⟩
    exact ne_nil_of_mem hmem

/-- The cluster `c` has just started, and its nodes show `w`. -/
structure Started (s : Setup) (cfg : Config) (c : Cluster) (w : World) : Prop where
  shows : c.Shows s.size w
  root : StoreView.RootOnly cfg s.size (w (cfg.nodeOf root))
  rest : ∀ i, i ≠ cfg.nodeOf Octopus.root → ∃ items, w i = empty s.size items
  lock : ∀ i a, (c.lock i).word a = 0#64
  tx : ∀ i, (c.tx i).localLogIndex = 0 ∧ (c.tx i).written = []

lemma create_empty {T : Type} {n : ℕ} (hn : 0 < n) (x : T) :
    (⟨range n, fun _ => none⟩ : TableView T).create x
      = (some 0, ⟨range' 1 (n - 1), update (fun _ => none) 0 (some x)⟩) := by
  obtain ⟨m, rfl⟩ : ∃ m, n = m + 1 := ⟨n - 1, by omega⟩
  rw [range_eq_range', range'_succ]
  rfl

/-- The two calls of `rootInitialize` on the tables of the owner. -/
lemma Sound.makeRoot (h : s.Sound) (cfg : Config) {st : Storage} {items : List ℕ}
    (hits : items ≠ []) (hst : st.Shows s.size (empty s.size items)) :
    ∃ st1 st2 v, createDirectoryMeta [] st = .done (some 0, st1) ∧
      putEntry (cfg.sha256 root) 0 true st1 = .done (true, st2) ∧
      st2.Shows s.size v ∧ StoreView.RootOnly cfg s.size v := by
  obtain ⟨st1, hcr, hsh1⟩ := hst.createDirectoryMeta []
  have hdr : (empty s.size items).dirs.create [] = (some 0, ⟨range' 1 (s.countDirectory - 1), _⟩) :=
    create_empty h.directory.2.1 []
  rw [hdr] at hcr hsh1
  rcases hsh1.putEntry (cfg.sha256 root) 0 true with
    ⟨st2, items2, hput, hsh2⟩ | ⟨-, hnil⟩
  · exact ⟨st1, st2, _, hcr, hput, hsh2, rfl, rfl, rfl, rfl⟩
  · exact absurd hnil hits

lemma Sound.start (h : s.Sound) (cfg : Config) :
    ∃ c w, s.start cfg = .done c ∧ Started s cfg c w := by
  obtain ⟨st, items, hst, hits, hsh⟩ := h.storage
  obtain ⟨st1, st2, v, hcr, hput, hv, hrt⟩ := h.makeRoot cfg hits hsh
  have hin : rootInitialize cfg (cfg.nodeOf root) (s.nodes st)
      = .done ((), ((s.nodes st).setStorage (cfg.nodeOf root) st1).setStorage
          (cfg.nodeOf root) st2) := by
    have hput' : putEntry (cfg.sha256 root) 0 true
        (((s.nodes st).setStorage (cfg.nodeOf root) st1).storage (cfg.nodeOf root))
          = .done (true, st2) := by
      rw [Cluster.storage_setStorage, update_self]
      exact hput
    rw [rootInitialize, if_pos rfl, Program.bind_apply, Cluster.Shows.onStorage_done hcr, done_bind]
    dsimp only
    rw [Program.bind_apply, Cluster.Shows.onStorage_done hput', done_bind]
    rfl
  have hshw : (s.nodes st).Shows s.size fun _ => empty s.size items := fun _ => hsh
  have hmid : ((s.nodes st).setStorage (cfg.nodeOf root) st1).setStorage (cfg.nodeOf root) st2
      = (s.nodes st).setStorage (cfg.nodeOf root) st2 := by
    unfold Cluster.setStorage
    rw [update_idem, update_self]
  rw [hmid] at hin
  refine ⟨_, _, ?_, hshw.setStorage (i := cfg.nodeOf root) hv, ?_, fun i hi =>
    ⟨items, ?_⟩, fun i a => ?_,
    fun i => ?_⟩
  · rw [Setup.start, hst, done_bind, hin, done_bind]
    rfl
  · rw [update_self]
    exact hrt
  · rw [update_of_ne hi]
  · rw [Cluster.lock_setStorage]
    rfl
  · rw [Cluster.tx_setStorage]
    exact ⟨rfl, rfl⟩

lemma Sound.started (h : s.Sound) {c : Cluster} (hc : s.start cfg = .done c) :
    ∃ w, Started s cfg c w := by
  obtain ⟨c', w, hc', hw⟩ := h.start cfg
  cases hc.symm.trans hc'
  exact ⟨w, hw⟩

end Setup

/-! ## A small file system to run -/

/-- A hash that is the path read as a number, which tells short paths apart. -/
def sampleHash (path : Path) : UniqueHash where
  value0 := BitVec.ofNat 64 (path.foldl (fun acc b => acc * 256 + b.toNat) 0)
  value1 := 0#64
  value2 := 0#64
  value3 := BitVec.ofNat 64 (path.foldl (fun acc b => acc + b.toNat) 0)

def sampleConfig (countNode : ℕ) (hpos : 0 < countNode) (hlt : countNode < 2 ^ 16) :
    Config where
  sha256 := sampleHash
  countNode := countNode
  countNode_pos := hpos
  countNode_lt := hlt

def oneNode : Config := sampleConfig 1 (by decide) (by decide)

def twoNodes : Config := sampleConfig 2 (by decide) (by decide)

def sampleSetup (countBlock : ℕ) : Setup where
  countFile := 8
  countDirectory := 8
  countBlock := countBlock
  layFile := ⟨512, fun _ => ⟨0, 0, fun _ => ⟨0, 0, 0⟩⟩⟩
  layDirectory := ⟨directoryMetaSize, fun _ => []⟩
  writeID := fun _ => 0#16
  logData := fun _ _ => []
  data := fun _ _ => 0#8

def sampleUnset : Unset where
  isDirectory := false
  tuple := fun _ => ⟨0, 0, 0⟩
  localTxID := 0
  offset := 0
  result := true

/-- The path `/a` -/
def pathA : Path := [slash, 97#8]

/-- The path `/b` -/
def pathB : Path := [slash, 98#8]

end Librdpma.Octopus
