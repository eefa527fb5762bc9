import Librdpma.Octopus.FileSystem

/-!
# Extents of a file (`src/fs/filesystem.cpp`)

`extentRead` and `extentWrite` turn a byte range of a file into a list of byte
ranges of nodes; `extentWrite` also takes the blocks the range needs. Both
return with the hash item locked and leave the unlocking to the caller.
`truncate` gives blocks back.

Sizes and offsets are `uint64_t`; the members of an extent are `uint32_t`, so
that `countExtentBlock * BLOCK_SIZE` is a product of 32 bits.
-/

namespace Librdpma.Octopus

open Lib

/-! ## Positions -/

structure FilePosTuple where
  nodeId : ℕ
  offset : ℕ
  size : ℕ
deriving DecidableEq

/-- The entries of a `file_pos_info`; `len` is their number. -/
abbrev FilePosInfo := List FilePosTuple

namespace FileMetaTuple

/-- `countExtentBlock * BLOCK_SIZE` -/
def bytes (e : FileMetaTuple) : ℕ := e.countExtentBlock * blockSize % 2 ^ 32

/-- `indexExtentStartBlock * BLOCK_SIZE` -/
def start (e : FileMetaTuple) : ℕ := e.indexExtentStartBlock * blockSize % 2 ^ 32

end FileMetaTuple

/-- One of the two loops of `fillFilePositionInformation`: the extent that
holds byte `target`, and the offset of its first byte in the file. The fuel is
the number of extents left. -/
def findExtent (m : FileMeta) (target : ℕ) : ℕ → ℕ → ℕ → Option (ℕ × ℕ)
  | 0, _, _ => none
  | fuel + 1, i, offsetStartOfCurrentExtent =>
      -- the last byte of the extent, computed modulo 2 ^ 64
      if (offsetStartOfCurrentExtent + (m.tuple i).bytes + (2 ^ 64 - 1)) % 2 ^ 64 ≥ target
      then some (i, offsetStartOfCurrentExtent)
      else findExtent m target fuel (i + 1) (offsetStartOfCurrentExtent + (m.tuple i).bytes)

/-- The entries between the first and the last one. -/
def middleExtents (m : FileMeta) (first count : ℕ) : FilePosInfo :=
  (List.range count).map fun j =>
    let e := m.tuple (first + 1 + j)
    ⟨e.hashNode % 2 ^ 16, e.start, e.bytes⟩

/-- `fillFilePositionInformation`. If an extent is not found its bound is
never assigned; more than `maxMessageBlockCount` entries do not fit. The last
of several entries has offset 0. -/
def fillFilePositionInformation (size offset : ℕ) (m : FileMeta) : Outcome FilePosInfo :=
  let offsetEnd := size + offset - 1
  match findExtent m offset m.count 0 0, findExtent m offsetEnd m.count 0 0 with
  | some (boundStart, startOffset), some (boundEnd, endOffset) =>
      let first := m.tuple boundStart
      let last := m.tuple boundEnd
      let offsetInStart := offset - startOffset
      if boundStart = boundEnd then
        .done [⟨first.hashNode % 2 ^ 16, first.start + offsetInStart, size⟩]
      else if boundEnd - boundStart + 1 ≤ maxMessageBlockCount then
        .done (⟨first.hashNode % 2 ^ 16, first.start + offsetInStart,
            (first.bytes + (2 ^ 64 - offsetInStart)) % 2 ^ 64⟩
          :: middleExtents m boundStart (boundEnd - boundStart - 1)
          ++ [⟨last.hashNode % 2 ^ 16, 0, offsetEnd - endOffset + 1⟩])
      else .undefined
  | _, _ => .undefined

/-! ## Reading and writing -/

/-- The offset of the hash item an extent call has locked, if it got there,
and the positions if it succeeded. -/
structure ExtentReply where
  offset : Option AddressHash
  fpi : Option FilePosInfo

/-- The body of `extentRead` under the lock. -/
def Storage.positionsToRead (hashUnique : UniqueHash) (size offset : ℕ) :
    Program Storage (Option FilePosInfo) := do
  match ← lookupFile hashUnique with
  | none => return none
  | some (_, m) =>
      if (offset + 1) % 2 ^ 64 > m.size then return some []
      else do
        let fpi ← Program.ofOutcome
          (fillFilePositionInformation (min size (m.size - offset)) offset m)
        return some fpi

def extentRead (cfg : Config) (self : ℕ) (path : Path) (size offset : ℕ) :
    Sys ExtentReply :=
  if size = 0 then return ⟨none, none⟩
  else if cfg.nodeOf path = self then do
    lockReadHashItem self (cfg.addressOf path)
    let fpi ← onStorage self (Storage.positionsToRead (cfg.sha256 path) size offset)
    return ⟨some (cfg.addressOf path), fpi⟩
  else return ⟨none, none⟩

/-- The allocation loop of `extentWrite`, `count` blocks to go. `next` is
`boundCurrentExtraExtent + 1`. A block that follows the last extent is merged
into it, whatever node that extent is on. -/
def Storage.allocate (hashLocalNode : ℕ) :
    ℕ → ℕ → FileMeta → Program Storage (Option FileMeta)
  | 0, _, m => return some m
  | count + 1, next, m => do
      match ← createBlock with
      | none => return none
      | some index =>
          let last := m.tuple (next - 1)
          if 0 < next ∧ index = (last.indexExtentStartBlock + last.countExtentBlock) % 2 ^ 32 then
            allocate hashLocalNode count next (m.setTuple (next - 1)
              { last with countExtentBlock := (last.countExtentBlock + 1) % 2 ^ 32 })
          else do
            let m ← Program.ofOutcome (m.addExtent next ⟨hashLocalNode, index % 2 ^ 32, 1⟩)
            allocate hashLocalNode count (next + 1) m

/-- How many blocks `extentWrite` adds to a file so that it reaches byte
`offset + size - 1`. -/
def countExtraBlock (m : FileMeta) (size offset : ℕ) : ℕ :=
  if m.size = 0 then (offset + size - 1) / blockSize + 1
  else (offset + size - 1) / blockSize - (m.size - 1) / blockSize

/-- The place of the first new extent: an empty file starts over. -/
def firstExtraExtent (m : FileMeta) : ℕ := if m.size = 0 then 0 else m.count

/-- The body of `extentWrite` under the lock. The metadata is stored only on
success; blocks taken before a failure are not given back. -/
def Storage.positionsToWrite (hashLocalNode : ℕ) (hashUnique : UniqueHash)
    (size offset : ℕ) : Program Storage (Option FilePosInfo) := do
  match ← lookupFile hashUnique with
  | none => return none
  | some (index, m) =>
      if 2 ^ 64 - 1 - offset < size ∨ size = 0 then return none
      else if 0 < countExtraBlock m size offset then do
        match ← allocate hashLocalNode (countExtraBlock m size offset) (firstExtraExtent m) m with
        | none => return none
        | some m => do
            let m := { m with size := offset + size }
            let fpi ← Program.ofOutcome (fillFilePositionInformation size offset m)
            let _ ← putFileMeta index m
            return some fpi
      else do
        let m := { m with size := max (offset + size) m.size }
        let fpi ← Program.ofOutcome (fillFilePositionInformation size offset m)
        let _ ← putFileMeta index m
        return some fpi

def extentWrite (cfg : Config) (self : ℕ) (path : Path) (size offset : ℕ) :
    Sys ExtentReply :=
  if cfg.nodeOf path = self then do
    let _ ← lockWriteHashItem self (cfg.addressOf path)
    let fpi ← onStorage self (Storage.positionsToWrite self (cfg.sha256 path) size offset)
    return ⟨some (cfg.addressOf path), fpi⟩
  else return ⟨none, none⟩

/-! ## Giving blocks back -/

/-- A number converted to `int`. -/
def toInt (n : ℕ) : ℤ := Int.bmod n (2 ^ 32)

/-- `for (int j = high; j >= low; j--)` -/
def descend (high low : ℤ) : List ℤ :=
  (List.range (high - low + 1).toNat).map fun (k : ℕ) => high - k

/-- `indexExtentStartBlock + j`, with `j` converted to `uint32_t`. -/
def FileMetaTuple.block (e : FileMetaTuple) (j : ℤ) : ℕ :=
  ((e.indexExtentStartBlock + j) % 2 ^ 32).toNat

/-- The blocks of an extent that a loop from `high` down to `low` names. -/
def FileMetaTuple.blocksDown (e : FileMetaTuple) (high low : ℤ) : List ℕ :=
  (descend high low).map e.block

/-- `int j = countExtentBlock - 1`: the difference of `uint32_t`, converted. -/
def FileMetaTuple.lastBlock (e : FileMetaTuple) : ℤ :=
  toInt (e.countExtentBlock + (2 ^ 32 - 1))

/-- Give blocks back until one fails. -/
def Storage.removeBlocks : List ℕ → Program Storage Bool
  | [] => return true
  | b :: rest => do
      match ← removeBlock b with
      | false => return false
      | true => removeBlocks rest

/-- Give blocks back, whatever each call answers. -/
def Storage.removeBlocksAnyway : List ℕ → Program Storage Unit
  | [] => return ()
  | b :: rest => do
      let _ ← removeBlock b
      removeBlocksAnyway rest

/-- The loop of `truncate` that looks for the last extent to keep: its index
and the number of blocks before it. -/
def findLastExtent (m : FileMeta) (countNewTotalBlock : ℕ) :
    ℕ → ℕ → ℕ → Option (ℕ × ℕ)
  | 0, _, _ => none
  | fuel + 1, i, countTotalBlockTillLastExtentEnd =>
      if countTotalBlockTillLastExtentEnd + (m.tuple i).countExtentBlock ≥ countNewTotalBlock then
        some (i, countTotalBlockTillLastExtentEnd)
      else
        findLastExtent m countNewTotalBlock fuel (i + 1)
          (countTotalBlockTillLastExtentEnd + (m.tuple i).countExtentBlock)

/-- The extents behind the last one to keep. A failure ends the loop over its
own extent only. -/
def Storage.removeExtents (m : FileMeta) : List ℕ → Program Storage Bool
  | [] => return true
  | i :: rest => do
      let e := m.tuple i
      let ok ← removeBlocks (e.blocksDown e.lastBlock 0)
      let ok' ← removeExtents m rest
      return ok && ok'

/-- The number of blocks a file of the given size has. -/
def countBlocks (size : ℕ) : ℕ := if size = 0 then 0 else (size - 1) / blockSize + 1

/-- The body of `truncate` under the lock. The blocks behind the new end are
given back, but the last extent keeps its `countExtentBlock`. -/
def Storage.shrink (hashUnique : UniqueHash) (size : ℕ) : Program Storage Bool := do
  match ← lookupFile hashUnique with
  | none => return false
  | some (index, m) =>
      if size ≥ m.size then return false
      else
        match findLastExtent m (countBlocks size) m.count 0 0 with
        | none => return false
        | some (i, till) => do
            let e := m.tuple i
            match ← removeBlocks (e.blocksDown e.lastBlock (toInt (countBlocks size - till))) with
            | false => return false
            | true =>
                match ← removeExtents m (List.range' (i + 1) (m.count - (i + 1))) with
                | false => return false
                | true => putFileMeta index { m with size, count := i + 1 }

def truncate (cfg : Config) (self : ℕ) (path : Path) (size : ℕ) : Sys Bool :=
  if cfg.nodeOf path = self then do
    let _ ← lockWriteHashItem self (cfg.addressOf path)
    let result ← onStorage self (Storage.shrink (cfg.sha256 path) size)
    unlockWriteHashItem self (cfg.addressOf path)
    return result
  else return false

/-- `blockFree`; `result` is not assigned unless a block could not be
removed. -/
def blockFree (self startBlock countBlock : ℕ) (result : Bool) : Sys Bool := do
  let ok ← onStorage self (Storage.removeBlocks
    ((descend (toInt countBlock - 1) 0).map fun j =>
      ((startBlock + j) % 2 ^ 64).toNat))
  return ok && result

end Librdpma.Octopus
