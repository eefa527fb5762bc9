import Librdpma.Octopus.Extents

/-!
# Names and directories (`src/fs/filesystem.cpp`)

The calls that make, remove, look up and move paths. A call that concerns
another node's directory is answered there by the same function, so that
`readDirectoryMeta`, `addMetaToDirectory`, `removeMetaFromDirectory` and
`updateDirectoryMeta` run at the owner of the path, wherever they are called.

`mknodcd`, `mkdircd` and `removecd` have the same five parts: lock the own
hash item, prepare (with a look at the parent directory), write the parent
directory, change the own tables, commit and unlock. The third part writes
back a copy of the parent directory read in the second; between the two the
parent is not locked.
-/

namespace Librdpma.Octopus

open Lib Program Storage

/-- Values the code reads without having assigned them. -/
structure Unset where
  /-- `isDirectory` of `mknodcd`, which a failed `get` leaves alone -/
  isDirectory : Bool
  /-- the extents of the `metaFile` of `mknodcd` -/
  tuple : ℕ → FileMetaTuple
  /-- `LocalTxID` of `addMetaToDirectory` and `removeMetaFromDirectory` -/
  localTxID : ℕ
  /-- `offset` of the response of an extent call -/
  offset : ℕ
  /-- `result` of `blockFree` -/
  result : Bool

/-- What `getattr` and `removecd` tell of a path: for a directory only a
`count` of `MAX_FILE_EXTENT_COUNT` is set. -/
inductive Attribute : Type where
  | file (m : FileMeta)
  | directory

def Attribute.count : Attribute → ℕ
  | .file m => m.count
  | .directory => maxFileExtentCount

section Directory

variable (cfg : Config)

/-! ## The parent directory -/

/-- `readDirectoryMeta`: the index of the metadata (for its address) and a
copy of it. -/
def readDirectoryMeta (path : Path) : Sys (Option (ℕ × DirectoryMeta)) := do
  let hashNode := cfg.nodeOf path
  lockReadHashItem hashNode (cfg.addressOf path)
  let r ← onStorage hashNode (lookupDirectory (cfg.sha256 path))
  unlockReadHashItem hashNode (cfg.addressOf path)
  return r

/-- `updateRemoteMeta`: a `memcpy` on the own node, an RDMA write on another. -/
def updateRemoteMeta (parentNodeID metaAddress : ℕ) (m : DirectoryMeta) : Sys Unit :=
  onStorage parentNodeID (writeDirectoryMeta metaAddress m)

def txLocalBegin (self : ℕ) : Sys ℕ := onTx self TxManager.txLocalBegin

def txWriteData (self txID : ℕ) (m : DirectoryMeta) : Sys Unit :=
  onTx self (TxManager.txWriteData txID m)

def txLocalCommit (self txID : ℕ) : Sys Unit := onTx self (TxManager.txLocalCommit txID)

/-! ## The five parts of a change -/

/-- What the first two parts leave to do: the parent directory to write, what
goes to the log before, and the changes of the own tables. -/
structure Change where
  parentNodeID : ℕ
  metaAddress : ℕ
  logged : DirectoryMeta
  written : DirectoryMeta
  tables : Program Storage Bool

/-- What the second part gives: the transaction, the change if nothing stands
against it, and the attributes of a path that is to be removed. -/
structure Prepared where
  txID : ℕ
  change : Option Change
  metaFile : Option Attribute

/-- Third part: log and write the parent directory. -/
def writeParent (self txID : ℕ) (ch : Change) : Sys Unit := do
  txWriteData self txID ch.logged
  updateRemoteMeta ch.parentNodeID ch.metaAddress ch.written

/-- Fifth part: commit and unlock. -/
def finish (self : ℕ) (path : Path) (txID : ℕ) : Sys Unit := do
  txLocalCommit self txID
  unlockWriteHashItem self (cfg.addressOf path)

/-- Third and fourth part. -/
def applyChange (self txID : ℕ) : Option Change → Sys Bool
  | none => return false
  | some ch => do
      writeParent self txID ch
      onStorage self ch.tables

/-- The parts in order. -/
def changecd (self : ℕ) (path : Path) (prepare : Sys Prepared) :
    Sys (Bool × Option Attribute) :=
  if cfg.nodeOf path = self then do
    let _ ← lockWriteHashItem self (cfg.addressOf path)
    let p ← prepare
    let result ← applyChange self p.txID p.change
    finish cfg self path p.txID
    return (result, p.metaFile)
  else return (false, none)

/-! ## Making -/

/-- The tables of a new path: metadata first, then the hash item. A failure of
the second does not undo the first. -/
def Storage.makeEntry (hashUnique : UniqueHash) (create : Program Storage (Option ℕ))
    (isDirectory : Bool) : Program Storage Bool := do
  match ← create with
  | none => return false
  | some index => putEntry hashUnique index isDirectory

/-- The second part of `mknodcd` and `mkdircd`. -/
def prepareMake (self : ℕ) (path : Path) (isDirectories : Bool)
    (tables : Program Storage Bool) : Sys Prepared := do
  let txID ← txLocalBegin self
  let parent := (getParentDirectory path).1
  match ← readDirectoryMeta cfg parent with
  | none => return ⟨txID, none, none⟩
  | some (metaAddress, parentMeta) =>
      match ← onStorage self (getEntry (cfg.sha256 path)) with
      | some _ => return ⟨txID, none, none⟩
      | none =>
          match getNameFromPath path with
          | none => ofOutcome .undefined
          | some name => do
              let parentMeta ← ofOutcome (parentMeta.add name isDirectories)
              let change : Change :=
                { parentNodeID := cfg.nodeOf parent, metaAddress,
                  logged := parentMeta, written := parentMeta, tables }
              return ⟨txID, some change, none⟩

/-- The entry `mknodcd` writes into the parent directory gets the value
`isDirectory` happens to have. -/
def prepareMknod (unset : Unset) (self : ℕ) (path : Path) : Sys Prepared :=
  prepareMake cfg self path unset.isDirectory (makeEntry (cfg.sha256 path)
    (createFileMeta ⟨0, 0, unset.tuple⟩) false)

def mknodcd (unset : Unset) (self : ℕ) (path : Path) : Sys Bool := do
  let r ← changecd cfg self path (prepareMknod cfg unset self path)
  return r.1

def prepareMkdir (self : ℕ) (path : Path) : Sys Prepared :=
  prepareMake cfg self path true (makeEntry (cfg.sha256 path) (createDirectoryMeta []) true)

def mkdircd (self : ℕ) (path : Path) : Sys Bool := do
  let r ← changecd cfg self path (prepareMkdir cfg self path)
  return r.1

/-- `mknodWithMeta` leaves the parent directory to its caller. -/
def mknodWithMeta (self : ℕ) (path : Path) (metaFile : FileMeta) : Sys Bool :=
  if cfg.nodeOf path = self then do
    let _ ← lockWriteHashItem self (cfg.addressOf path)
    let result ← onStorage self do
      match ← getEntry (cfg.sha256 path) with
      | some _ => return false
      | none => makeEntry (cfg.sha256 path) (createFileMeta metaFile) false
    unlockWriteHashItem self (cfg.addressOf path)
    return result
  else return false

/-! ## Removing -/

/-- The first extents of a file up to one of another node. -/
def localExtents (hashNode : ℕ) (m : FileMeta) : List FileMetaTuple :=
  ((List.range m.count).map m.tuple).takeWhile fun e => e.hashNode = hashNode

/-- The blocks `removecd` gives back. -/
def blocksToRemove (hashNode : ℕ) (m : FileMeta) : List ℕ :=
  (localExtents hashNode m).flatMap fun e => e.blocksDown (toInt e.countExtentBlock - 1) 0

/-- The tables of a removed path: metadata first, then the hash item. -/
def Storage.dropEntry (hashUnique : UniqueHash) (remove : Program Storage Bool) :
    Program Storage Bool := do
  match ← remove with
  | false => return false
  | true => delEntry hashUnique

/-- The end of the second part of `removecd`: copy the parent directory
without the name. What goes to the log is the directory with it. -/
def prepareUnlink (self : ℕ) (path : Path) (metaFile : Attribute)
    (tables : Program Storage Bool) : Sys Prepared := do
  let txID ← txLocalBegin self
  let parent := (getParentDirectory path).1
  match ← readDirectoryMeta cfg parent with
  | none => return ⟨txID, none, some metaFile⟩
  | some (metaAddress, parentMeta) =>
      match getNameFromPath path with
      | none => ofOutcome .undefined
      | some name =>
          let change : Change :=
            { parentNodeID := cfg.nodeOf parent, metaAddress,
              logged := parentMeta, written := parentMeta.without name, tables }
          return ⟨txID, some change, some metaFile⟩

/-- The second part of `removecd`. Where it finds nothing to remove, the
transaction number is the 0 it was initialised with. -/
def prepareRemove (self : ℕ) (path : Path) : Sys Prepared := do
  match ← onStorage self (getEntry (cfg.sha256 path)) with
  | none => return ⟨0, none, none⟩
  | some (index, true) =>
      match ← onStorage self (getDirectoryMeta index) with
      | none => return ⟨0, none, none⟩
      | some m =>
          if m.length ≠ 0 then return ⟨0, none, some .directory⟩
          else
            prepareUnlink cfg self path .directory
              (dropEntry (cfg.sha256 path) (removeDirectoryMeta index))
  | some (index, false) =>
      match ← onStorage self (getFileMeta index) with
      | none => return ⟨0, none, none⟩
      | some m =>
          prepareUnlink cfg self path (.file m) do
            removeBlocksAnyway (blocksToRemove self m)
            dropEntry (cfg.sha256 path) (removeFileMeta index)

/-- `removecd`, with the attributes it hands out. -/
def removecd (self : ℕ) (path : Path) : Sys (Bool × Option Attribute) :=
  changecd cfg self path (prepareRemove cfg self path)

/-! ## Looking up -/

def getattr (self : ℕ) (path : Path) : Sys (Option Attribute) :=
  if cfg.nodeOf path = self then do
    lockReadHashItem self (cfg.addressOf path)
    let r ← onStorage self do
      match ← getEntry (cfg.sha256 path) with
      | none => return none
      | some (_, true) => return some .directory
      | some (index, false) =>
          let m ← getFileMeta index
          return m.map Attribute.file
    unlockReadHashItem self (cfg.addressOf path)
    return r
  else return none

def access (self : ℕ) (path : Path) : Sys Bool :=
  if cfg.nodeOf path = self then do
    lockReadHashItem self (cfg.addressOf path)
    let r ← onStorage self (getEntry (cfg.sha256 path))
    unlockReadHashItem self (cfg.addressOf path)
    return r.isSome
  else return false

def readdir (self : ℕ) (path : Path) : Sys (Option DirectoryMeta) :=
  if cfg.nodeOf path = self then do
    lockReadHashItem self (cfg.addressOf path)
    let r ← onStorage self (lookupDirectory (cfg.sha256 path))
    unlockReadHashItem self (cfg.addressOf path)
    return r.map Prod.snd
  else return none

/-! ## Changing a directory in two messages -/

/-- What the first message leaves for the second: the transaction (whose log
data is `srcBuffer`), the directory metadata at `desBuffer`, and the hash item
that is locked. -/
structure DirectoryUpdate where
  txID : ℕ
  desBuffer : ℕ
  key : BitVec 64
  offset : ℕ

/-- `addMetaToDirectory` and `removeMetaFromDirectory`: lock the directory,
log its new contents, and return with the lock held. `edit` gives the new
contents, or `none` if there is nothing to edit. -/
def editDirectory (unset : Unset) (path : Path)
    (edit : DirectoryMeta → Outcome (Option DirectoryMeta)) :
    Sys (Option DirectoryUpdate) := do
  let node := cfg.nodeOf path
  let key ← lockWriteHashItem node (cfg.addressOf path)
  match ← onStorage node (lookupDirectory (cfg.sha256 path)) with
  | none => do
      txLocalCommit node unset.localTxID
      return none
  | some (index, m) => do
      let txID ← txLocalBegin node
      match ← ofOutcome (edit m) with
      | none => do
          txLocalCommit node txID
          txLocalCommit node txID
          return none
      | some m => do
          txWriteData node txID m
          txLocalCommit node txID
          return some { txID, desBuffer := index, key, offset := (cfg.addressOf path).val }

/-- The `put` that follows the log only asks for the address of the item that
was just read. -/
def addMetaToDirectory (unset : Unset) (path name : Path) (isDirectory : Bool) :
    Sys (Option DirectoryUpdate) :=
  editDirectory cfg unset path fun m => do
    let m ← m.add name isDirectory
    return some m

def removeMetaFromDirectory (unset : Unset) (path name : Path) :
    Sys (Option DirectoryUpdate) :=
  editDirectory cfg unset path fun m =>
    .done (if ∃ e ∈ m, e.names = name then some (m.without name) else none)

/-- Unlock the hash item a message names; other offsets lie outside the
table. -/
def unlockOffset (unlock : AddressHash → Sys Unit) (offset : ℕ) : Sys Unit :=
  if h : offset < hashItemsCount then unlock ⟨offset, h⟩
  else ofOutcome .undefined

/-- `updateDirectoryMeta`, the second message: copy the logged contents and
unlock. -/
def updateDirectoryMeta (path : Path) (u : DirectoryUpdate) : Sys Bool := do
  let node := cfg.nodeOf path
  let entry ← onStorage node (getEntry (cfg.sha256 path))
  let m ← reads fun c => (c.tx node).logData u.txID
  if entry.isSome then
    onStorage node (writeDirectoryMeta u.desBuffer m)
  unlockOffset (unlockWriteHashItem node) u.offset
  txLocalCommit node u.txID
  return entry.isSome

/-- The body of `rmdir` under the lock. The directory the name is taken out of
stays locked. -/
def rmdirLocked (unset : Unset) (self : ℕ) (path : Path) : Sys Bool := do
  match ← onStorage self (getEntry (cfg.sha256 path)) with
  | none => return false
  | some (_, false) => return false
  | some (index, true) =>
      match getNameFromPath path with
      | none => ofOutcome .undefined
      | some name =>
          match ← removeMetaFromDirectory cfg unset (getParentDirectory path).1 name with
          | none => return false
          | some _ =>
              match ← onStorage self (getDirectoryMeta index) with
              | none => return false
              | some m =>
                  if m.length ≠ 0 then return false
                  else
                    onStorage self (dropEntry (cfg.sha256 path) (removeDirectoryMeta index))

def rmdir (unset : Unset) (self : ℕ) (path : Path) : Sys Bool :=
  if cfg.nodeOf path = self then do
    let _ ← lockWriteHashItem self (cfg.addressOf path)
    let result ← rmdirLocked cfg unset self path
    unlockWriteHashItem self (cfg.addressOf path)
    return result
  else return true

/-- The body of `rename` under the lock: only the old path is taken out; the
new one has been made by `mknodWithMeta`. -/
def renameLocked (unset : Unset) (self : ℕ) (pathOld : Path) : Sys Bool := do
  match ← onStorage self (getEntry (cfg.sha256 pathOld)) with
  | none => return false
  | some (_, true) => return false
  | some (index, false) =>
      match getNameFromPath pathOld with
      | none => ofOutcome .undefined
      | some name =>
          let parent := (getParentDirectory pathOld).1
          match ← removeMetaFromDirectory cfg unset parent name with
          | none => return false
          | some u =>
              match ← onStorage self (getFileMeta index) with
              | none => return false
              | some _ => do
                  let _ ← updateDirectoryMeta cfg parent u
                  onStorage self (dropEntry (cfg.sha256 pathOld) (removeFileMeta index))

def rename (unset : Unset) (self : ℕ) (pathOld : Path) : Sys Bool :=
  if cfg.nodeOf pathOld = self then do
    let _ ← lockWriteHashItem self (cfg.addressOf pathOld)
    let result ← renameLocked cfg unset self pathOld
    unlockWriteHashItem self (cfg.addressOf pathOld)
    return result
  else return false

end Directory

end Librdpma.Octopus
