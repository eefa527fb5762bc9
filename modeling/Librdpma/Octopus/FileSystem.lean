import Librdpma.Lib.Program
import Librdpma.Octopus.HashTable
import Librdpma.Octopus.Lock
import Librdpma.Octopus.Table

/-!
# The state of an Octopus cluster (`include/common.hpp`, `src/fs/storage.cpp`,
`src/fs/TxManager.cpp`)

A node holds a `Storage` (the hash table from paths to metadata and the three
tables of file metadata, directory metadata and blocks), the lock words of the
hash items, the local transaction log, and the bytes of its blocks. A cluster
is a family of nodes, and the operations of the file system are programs over
it: a call that goes to another node runs there.

Left out are the time stamps of files, the mutexes of the tables, and the
cache flushes. (`Table::create` returns with the mutex held when the table is
full, so that the next call on that table waits for ever. The model goes on;
the states of the code are then among its states.)
-/

namespace Librdpma.Octopus

open Lib Function

/-! ## Constants and records -/

/-- `BLOCK_SIZE` -/
def blockSize : ℕ := 2 ^ 20

/-- `MAX_FILE_EXTENT_COUNT` -/
def maxFileExtentCount : ℕ := 20

/-- `MAX_MESSAGE_BLOCK_COUNT` -/
def maxMessageBlockCount : ℕ := 10

/-- `MAX_FILE_NAME_LENGTH`, the terminating NUL included. -/
def maxFileNameLength : ℕ := 50

/-- `MAX_DIRECTORY_COUNT` -/
def maxDirectoryCount : ℕ := 60

/-- The bytes of a C string before its NUL. -/
abbrev Path := List (BitVec 8)

/-- An extent: `countExtentBlock` blocks of node `hashNode`, from
`indexExtentStartBlock` on. -/
structure FileMetaTuple where
  hashNode : ℕ
  indexExtentStartBlock : ℕ
  countExtentBlock : ℕ
deriving DecidableEq

/-- The first `count` entries of `tuple` are the extents of the file. Writes
stay below `maxFileExtentCount` (`FileMeta.addExtent`). -/
structure FileMeta where
  count : ℕ
  size : ℕ
  tuple : ℕ → FileMetaTuple

structure DirectoryMetaTuple where
  names : Path
  isDirectories : Bool
deriving DecidableEq

/-- The entries in use; `count` is their number. -/
abbrev DirectoryMeta := List DirectoryMetaTuple

/-- `strcpy` of a name into the entry behind the last one. Neither the number
of entries nor the length of the name is checked. -/
def DirectoryMeta.add (m : DirectoryMeta) (name : Path) (isDirectory : Bool) :
    Outcome DirectoryMeta :=
  if m.length < maxDirectoryCount ∧ name.length < maxFileNameLength then
    .done (m ++ [⟨name, isDirectory⟩])
  else .undefined

/-- The loop that copies all entries but those of the given name. -/
def DirectoryMeta.without (m : DirectoryMeta) (name : Path) : DirectoryMeta :=
  m.filter fun e => e.names ≠ name

def FileMeta.setTuple (m : FileMeta) (i : ℕ) (e : FileMetaTuple) : FileMeta :=
  { m with tuple := update m.tuple i e }

/-- A new extent at place `i`; the array bound is not checked. -/
def FileMeta.addExtent (m : FileMeta) (i : ℕ) (e : FileMetaTuple) : Outcome FileMeta :=
  if i < maxFileExtentCount then .done { m.setTuple i e with count := m.count + 1 }
  else .undefined

/-! ## Paths -/

def slash : BitVec 8 := 47#8

/-- The path `/` -/
def root : Path := [slash]

/-- What stands before and behind the last `/`. -/
def splitLast : Path → Option (Path × Path)
  | [] => none
  | b :: rest =>
      match splitLast rest with
      | some (before, behind) => some (b :: before, behind)
      | none => if b = slash then some ([], rest) else none

lemma splitLast_of_not_mem {n : Path} (h : slash ∉ n) : splitLast n = none := by
  induction n with
  | nil => rfl
  | cons b n ih =>
    rw [List.mem_cons, not_or] at h
    rw [splitLast, ih h.2]
    exact if_neg fun heq => h.1 heq.symm

lemma splitLast_append (q : Path) {n : Path} (h : slash ∉ n) :
    splitLast (q ++ slash :: n) = some (q, n) := by
  induction q with
  | nil =>
    rw [List.nil_append, splitLast, splitLast_of_not_mem h]
    exact if_pos rfl
  | cons b q ih => rw [List.cons_append, splitLast, ih]

/-- The buffer `getParentDirectory` leaves, and its result. A path it cannot
cut stays as it is. -/
def getParentDirectory (path : Path) : Path × Bool :=
  if path = root then (path, false)
  else
    match splitLast path with
    | none => (path, false)
    | some ([], _) => (root, true)
    | some (b :: before, _) => (b :: before, true)

/-- The name `getNameFromPath` copies; `none` if it leaves the buffer as it is. -/
def getNameFromPath (path : Path) : Option Path :=
  if path = root then none else (splitLast path).map Prod.snd

/-! ## The local log -/

/-- `LOCALLOGSIZE` -/
def localLogSize : ℕ := 40 * 2 ^ 20

/-- A packed `LocalLogEntry`: `TxID`, `begin`, `logData`, `commit`. -/
def localLogEntrySize : ℕ := 8 + 1 + 4086 + 1

/-- `sizeof(DirectoryMeta)` -/
def directoryMetaSize : ℕ := 3072

/-- Bytes from an offset on. -/
structure ByteRange where
  offset : ℕ
  length : ℕ

/-- `written` records which bytes were written, relative to
`LocalLogAddress`. -/
structure TxManager where
  localLogIndex : ℕ
  logData : ℕ → DirectoryMeta
  written : List ByteRange

namespace TxManager

def txLocalBegin (t : TxManager) : ℕ × TxManager :=
  let entry := t.localLogIndex * localLogEntrySize
  (t.localLogIndex,
    { t with
      localLogIndex := t.localLogIndex + 1
      written := ⟨entry, 8⟩ :: ⟨entry + 8, 1⟩ :: t.written })

def txWriteData (txID : ℕ) (data : DirectoryMeta) (t : TxManager) : Unit × TxManager :=
  ((), { t with
    logData := update t.logData txID data
    written := ⟨txID * localLogEntrySize + 9, directoryMetaSize⟩ :: t.written })

def txLocalCommit (txID : ℕ) (t : TxManager) : Unit × TxManager :=
  ((), { t with written := ⟨txID * localLogEntrySize + 4095, 1⟩ :: t.written })

end TxManager

/-! ## The lock words of a node -/

inductive LockMode : Type where
  | read
  | write
deriving DecidableEq

inductive LockEvent : Type where
  | locked (mode : LockMode) (address : AddressHash)
  | unlocked (mode : LockMode) (address : AddressHash)
deriving DecidableEq

/-- `trace` records the calls that returned, in order. -/
structure LockService where
  word : AddressHash → BitVec 64
  writeID : BitVec 16
  trace : List LockEvent

namespace LockService

def log (l : LockService) (address : AddressHash) (word : BitVec 64)
    (event : LockEvent) : LockService :=
  { l with word := update l.word address word, trace := l.trace ++ [event] }

/-- `WriteLock`. With nobody else at work the loop ends at once or never. -/
def writeLock (nodeID : ℕ) (address : AddressHash) :
    Program LockService (BitVec 64) := fun l =>
  let key := LockWord.writeKey (BitVec.ofNat 16 nodeID) l.writeID
  if l.word address = 0#64 then
    .done (key, { l.log address key (.locked .write address) with
      writeID := l.writeID + 1 })
  else .loop

/-- `WriteUnlock`; the key is not looked at. -/
def writeUnlock (address : AddressHash) : Program LockService Unit := fun l =>
  .done ((), l.log address (LockWord.clearUpper (l.word address)) (.unlocked .write address))

/-- `ReadLock` -/
def readLock (address : AddressHash) : Program LockService Unit := fun l =>
  if LockWord.upper (l.word address) = 0#64 then
    .done ((), l.log address (l.word address + 1#64) (.locked .read address))
  else .loop

/-- `ReadUnlock` -/
def readUnlock (address : AddressHash) : Program LockService Unit := fun l =>
  .done ((), l.log address (l.word address - 1#64) (.unlocked .read address))

end LockService

/-! ## The storage of a node -/

structure Storage where
  hashtable : HashTable
  tableFileMeta : Table FileMeta
  tableDirectoryMeta : Table DirectoryMeta
  tableBlock : Table Unit

namespace Storage

def getEntry (hashUnique : UniqueHash) : Program Storage (Option (ℕ × Bool)) :=
  fun st => st.hashtable.get getAddressHash hashUnique >>= fun r => .done (r, st)

def putEntry (hashUnique : UniqueHash) (indexMeta : ℕ) (isDirectory : Bool) :
    Program Storage Bool := fun st =>
  st.hashtable.put getAddressHash hashUnique indexMeta isDirectory >>= fun r =>
    .done (r.1, { st with hashtable := r.2 })

def delEntry (hashUnique : UniqueHash) : Program Storage Bool := fun st =>
  st.hashtable.del getAddressHash hashUnique >>= fun r =>
    .done (r.1, { st with hashtable := r.2 })

def onFileMeta {α : Type} (f : Table FileMeta → α × Table FileMeta) :
    Program Storage α := fun st =>
  .done ((f st.tableFileMeta).1, { st with tableFileMeta := (f st.tableFileMeta).2 })

def onDirectoryMeta {α : Type} (f : Table DirectoryMeta → α × Table DirectoryMeta) :
    Program Storage α := fun st =>
  .done ((f st.tableDirectoryMeta).1, { st with tableDirectoryMeta := (f st.tableDirectoryMeta).2 })

def onBlock {α : Type} (f : Table Unit → α × Table Unit) : Program Storage α := fun st =>
  .done ((f st.tableBlock).1, { st with tableBlock := (f st.tableBlock).2 })

def getFileMeta (index : ℕ) : Program Storage (Option FileMeta) :=
  onFileMeta fun t => (t.get index, t)

def putFileMeta (index : ℕ) (m : FileMeta) : Program Storage Bool :=
  onFileMeta fun t => t.put index m

def createFileMeta (m : FileMeta) : Program Storage (Option ℕ) :=
  onFileMeta (Table.createItem m)

def removeFileMeta (index : ℕ) : Program Storage Bool :=
  onFileMeta fun t => t.remove index

def getDirectoryMeta (index : ℕ) : Program Storage (Option DirectoryMeta) :=
  onDirectoryMeta fun t => (t.get index, t)

def createDirectoryMeta (m : DirectoryMeta) : Program Storage (Option ℕ) :=
  onDirectoryMeta (Table.createItem m)

def removeDirectoryMeta (index : ℕ) : Program Storage Bool :=
  onDirectoryMeta fun t => t.remove index

/-- `memcpy` to the address of an item, which is given by its index. -/
def writeDirectoryMeta (index : ℕ) (m : DirectoryMeta) : Program Storage Unit :=
  onDirectoryMeta fun t => ((), { t with items := update t.items index m })

def createBlock : Program Storage (Option ℕ) := onBlock Table.create

def removeBlock (index : ℕ) : Program Storage Bool := onBlock fun t => t.remove index

/-- Look up a directory: it has to be in the hash table, to be a directory,
and to have metadata. -/
def lookupDirectory (hashUnique : UniqueHash) :
    Program Storage (Option (ℕ × DirectoryMeta)) := do
  match ← getEntry hashUnique with
  | none => return none
  | some (_, false) => return none
  | some (index, true) =>
      let m ← getDirectoryMeta index
      return m.map fun m => (index, m)

/-- Look up a file in the same way. -/
def lookupFile (hashUnique : UniqueHash) : Program Storage (Option (ℕ × FileMeta)) := do
  match ← getEntry hashUnique with
  | none => return none
  | some (_, true) => return none
  | some (index, false) =>
      let m ← getFileMeta index
      return m.map fun m => (index, m)

/-- `Storage::Storage` over zero-filled buffers. -/
def construct (layFile : Layout FileMeta) (layDirectory : Layout DirectoryMeta)
    (countFile countDirectory countBlock : ℕ) : Outcome Storage := do
  let hashtable ← HashTable.construct (countDirectory + countFile) fun _ => 0#8
  let tableFileMeta ← Table.construct layFile countFile fun _ => 0#8
  let tableDirectoryMeta ← Table.construct layDirectory countDirectory fun _ => 0#8
  let tableBlock ← Table.construct ⟨blockSize, fun _ => ()⟩ countBlock fun _ => 0#8
  return { hashtable, tableFileMeta, tableDirectoryMeta, tableBlock }

end Storage

/-! ## Nodes and clusters -/

/-- `data` holds the bytes of the blocks, by their offset from the first one. -/
structure Node where
  storage : Storage
  lock : LockService
  tx : TxManager
  data : ℕ → BitVec 8

abbrev Cluster := ℕ → Node

/-- How paths are spread over the nodes `1 .. countNode`. Node numbers travel
as `uint16_t`. -/
structure Config where
  sha256 : Path → UniqueHash
  countNode : ℕ
  countNode_pos : 0 < countNode
  countNode_lt : countNode < 2 ^ 16

namespace Config

/-- `getNodeHash` of the hash of a path. -/
def nodeOf (cfg : Config) (path : Path) : ℕ :=
  (cfg.sha256 path).value3.toNat % cfg.countNode + 1

/-- `getAddressHash` of the hash of a path. -/
def addressOf (cfg : Config) (path : Path) : AddressHash :=
  getAddressHash (cfg.sha256 path)

end Config

/-- What an operation does to the cluster. -/
abbrev Sys := Program Cluster

namespace Cluster

def setStorage (i : ℕ) (st : Storage) (c : Cluster) : Cluster :=
  update c i { c i with storage := st }

def setLock (i : ℕ) (l : LockService) (c : Cluster) : Cluster :=
  update c i { c i with lock := l }

def setTx (i : ℕ) (t : TxManager) (c : Cluster) : Cluster :=
  update c i { c i with tx := t }

def setData (i : ℕ) (data : ℕ → BitVec 8) (c : Cluster) : Cluster :=
  update c i { c i with data }

/-- The four parts of the state, node by node. -/
def storage (c : Cluster) (i : ℕ) : Storage := (c i).storage

def lock (c : Cluster) (i : ℕ) : LockService := (c i).lock

def tx (c : Cluster) (i : ℕ) : TxManager := (c i).tx

def data (c : Cluster) (i : ℕ) : ℕ → BitVec 8 := (c i).data

section Parts

variable (i : ℕ) (st : Storage) (l : LockService) (t : TxManager) (d : ℕ → BitVec 8) (c : Cluster)

/-- Setting one part of a node is an update of that part of the cluster and
leaves the others. -/
lemma part_update {α : Type} (part : Node → α) (n : Node) :
    (fun j => part (update c i n j)) = update (fun j => part (c j)) i (part n) := by
  funext j
  by_cases h : j = i
  · rw [h, update_self, update_self]
  · rw [update_of_ne h, update_of_ne h]

@[simp] lemma storage_setStorage : storage (setStorage i st c) = update (storage c) i st :=
  part_update i c Node.storage _

@[simp] lemma lock_setLock : lock (setLock i l c) = update (lock c) i l :=
  part_update i c Node.lock _

@[simp] lemma tx_setTx : tx (setTx i t c) = update (tx c) i t := part_update i c Node.tx _

lemma part_update_self {α : Type} (part : Node → α) {n : Node} (h : part n = part (c i)) :
    (fun j => part (update c i n j)) = fun j => part (c j) := by
  rw [part_update, h]
  exact update_eq_self i (fun j => part (c j))

@[simp] lemma storage_setLock : storage (setLock i l c) = storage c :=
  part_update_self i c Node.storage rfl

@[simp] lemma storage_setTx : storage (setTx i t c) = storage c :=
  part_update_self i c Node.storage rfl

@[simp] lemma storage_setData : storage (setData i d c) = storage c :=
  part_update_self i c Node.storage rfl

@[simp] lemma lock_setStorage : lock (setStorage i st c) = lock c :=
  part_update_self i c Node.lock rfl

@[simp] lemma lock_setTx : lock (setTx i t c) = lock c := part_update_self i c Node.lock rfl

@[simp] lemma tx_setStorage : tx (setStorage i st c) = tx c := part_update_self i c Node.tx rfl

@[simp] lemma tx_setLock : tx (setLock i l c) = tx c := part_update_self i c Node.tx rfl

end Parts

end Cluster

section Sys

variable {α : Type}

/-- Run a program on the storage of a node. -/
def onStorage (i : ℕ) (x : Program Storage α) : Sys α :=
  Program.zoom (fun c => c.storage i) (Cluster.setStorage i) x

def onLock (i : ℕ) (x : Program LockService α) : Sys α :=
  Program.zoom (fun c => c.lock i) (Cluster.setLock i) x

def onTx (i : ℕ) (f : TxManager → α × TxManager) : Sys α :=
  Program.zoom (fun c => c.tx i) (Cluster.setTx i) (Program.call f)

end Sys

def lockWriteHashItem (hashNode : ℕ) (hashAddress : AddressHash) : Sys (BitVec 64) :=
  onLock hashNode (LockService.writeLock hashNode hashAddress)

def unlockWriteHashItem (hashNode : ℕ) (hashAddress : AddressHash) : Sys Unit :=
  onLock hashNode (LockService.writeUnlock hashAddress)

def lockReadHashItem (hashNode : ℕ) (hashAddress : AddressHash) : Sys Unit :=
  onLock hashNode (LockService.readLock hashAddress)

def unlockReadHashItem (hashNode : ℕ) (hashAddress : AddressHash) : Sys Unit :=
  onLock hashNode (LockService.readUnlock hashAddress)

end Librdpma.Octopus
