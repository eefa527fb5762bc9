import Librdpma.Octopus.Bitmap

/-!
# The hash table of Octopus (`src/fs/hashtable.cpp`)

The table maps the SHA-256 value of a path to the index of its metadata. It
lives in one array of chained items: each bucket of the hash items is the
index of the first item of its chain, each item holds the index of the next
one, and `0` is no item. Which items are free is kept in a bitmap and in a
linked list of `FreeBit` nodes, modelled by the positions its nodes hold.

The assignment `addr` of hashes to buckets is a parameter of every operation;
the source's own is `getAddressHash`. So is `sha256`, on which nothing here
depends. The mutex and the checks for null arguments are left out.
-/

namespace Librdpma.Octopus

open Lib Function

/-- `HASH_ITEMS_COUNT` -/
def hashItemsCount : ℕ := 2 ^ 20

/-- `HASH_ITEMS_SIZE`, with 16 bytes for a `HashItem`. -/
def hashItemsSize : ℕ := hashItemsCount * 16

abbrev AddressHash := Fin hashItemsCount

structure UniqueHash where
  value0 : BitVec 64
  value1 : BitVec 64
  value2 : BitVec 64
  value3 : BitVec 64
deriving DecidableEq

structure ChainedItem where
  indexNext : ℕ
  indexMeta : ℕ
  isDirectory : Bool
  hashUnique : UniqueHash

/-- What `get` hands out of an item. -/
def ChainedItem.entry (item : ChainedItem) : ℕ × Bool :=
  (item.indexMeta, item.isDirectory)

structure HashTable where
  bitmapChainedItems : Bitmap
  itemsHash : AddressHash → ℕ
  itemsChained : ℕ → ChainedItem
  headFreeBit : List ℕ

/-- `getAddressHash(hashUnique)`: the low 20 bits of the first word. -/
def getAddressHash (hashUnique : UniqueHash) : AddressHash :=
  ⟨hashUnique.value0.toNat % hashItemsCount, Nat.mod_lt _ (by decide)⟩

/-- The first argument of the two overloads of `get`, `put` and `del`. -/
inductive HashKey : Type where
  | path (path : List (BitVec 8))
  | hash (hashUnique : UniqueHash)

/-- The unique hash an overload works with. -/
def HashKey.hashUnique (sha256 : List (BitVec 8) → UniqueHash) :
    HashKey → UniqueHash
  | .path name => sha256 name
  | .hash value => value

namespace HashTable

/-! ## The constructor -/

/-- Eight bytes, least significant first. -/
def readWord (buffer : ℕ → BitVec 8) (offset : ℕ) : ℕ :=
  (List.range 8).foldr (fun i acc => acc * 256 + (buffer (offset + i)).toNat) 0

/-- A `ChainedItem` of 56 bytes; `isDirectory` is padded to eight. -/
def readItem (buffer : ℕ → BitVec 8) (offset : ℕ) : ChainedItem where
  indexNext := readWord buffer offset
  indexMeta := readWord buffer (offset + 8)
  isDirectory := buffer (offset + 16) != 0#8
  hashUnique :=
    { value0 := readWord buffer (offset + 24)
      value1 := readWord buffer (offset + 32)
      value2 := readWord buffer (offset + 40)
      value3 := readWord buffer (offset + 48) }

/-- The loop that pushes the positions `1 .. count - 1` on the free chain. -/
def freeChain : ℕ → List ℕ
  | 0 => []
  | i + 1 => if i = 0 then [] else i :: freeChain i

/-- `HashTable::HashTable`. -/
def construct (count : ℕ) (buffer : ℕ → BitVec 8) : Outcome HashTable := do
  let bitmapChainedItems ← Bitmap.construct count (fun i => buffer (hashItemsSize + i))
  match bitmapChainedItems.set 0 with
  | (false, _) => .exit
  | (true, bitmapChainedItems) =>
      return {
        bitmapChainedItems
        itemsHash := fun a => readWord buffer (a * 16 + 8)
        itemsChained := fun i =>
          readItem buffer (hashItemsSize + count / 8 + i * 56)
        headFreeBit := freeChain bitmapChainedItems.countTotal }

/-! ## Traversal

The loops of `get`, `put` and `del` compare, step to the next item and stop
at index 0. They return the item before the one they stopped at, and that
one. The fuel bounds the number of items visited. -/

/-- The `do … while` loop, from a nonzero `indexCurrent`. -/
def traverse (itemsChained : ℕ → ChainedItem) (hashUnique : UniqueHash) :
    ℕ → ℕ → ℕ → Outcome (ℕ × ℕ)
  | 0, _, _ => .loop
  | fuel + 1, indexBeforeCurrent, indexCurrent =>
      if (itemsChained indexCurrent).hashUnique = hashUnique then
        .done (indexBeforeCurrent, indexCurrent)
      else
        let indexNext := (itemsChained indexCurrent).indexNext
        if indexNext = 0 then .done (indexCurrent, 0)
        else traverse itemsChained hashUnique fuel indexCurrent indexNext

/-- The `while` loop of `del`, which may start at index 0. -/
def traverseRest (itemsChained : ℕ → ChainedItem) (hashUnique : UniqueHash)
    (fuel indexBeforeCurrent indexCurrent : ℕ) : Outcome (ℕ × ℕ) :=
  if indexCurrent = 0 then .done (indexBeforeCurrent, 0)
  else traverse itemsChained hashUnique fuel indexBeforeCurrent indexCurrent

/-! ## The operations -/

section Operations

variable (addr : UniqueHash → AddressHash)

def get (t : HashTable) (hashUnique : UniqueHash) :
    Outcome (Option (ℕ × Bool)) :=
  let indexHead := t.itemsHash (addr hashUnique)
  if indexHead = 0 then .done none
  else do
    let (_, indexCurrent) ← traverse t.itemsChained hashUnique
      t.bitmapChainedItems.countTotal 0 indexHead
    if indexCurrent = 0 then return none
    else return some (t.itemsChained indexCurrent).entry

/-- Take a free item, fill it, and let `link` put its index where the chain
ends. Both branches of `put` that create an item do this. -/
def putFree (link : ℕ → HashTable → HashTable) (item : ChainedItem)
    (t : HashTable) : Bool × HashTable :=
  match t.headFreeBit with
  | [] => (false, t)
  | index :: nextFreeBit =>
      match t.bitmapChainedItems.set index with
      | (false, bitmapChainedItems) =>
          (false, { t with bitmapChainedItems, headFreeBit := nextFreeBit })
      | (true, bitmapChainedItems) =>
          (true, link index { t with
            bitmapChainedItems
            headFreeBit := nextFreeBit
            itemsChained := update t.itemsChained index item })

/-- `itemsHash[hashAddress].indexHead = index` -/
def linkHead (hashAddress : AddressHash) (index : ℕ) (t : HashTable) :
    HashTable :=
  { t with itemsHash := update t.itemsHash hashAddress index }

/-- `itemsChained[indexBefore].indexNext = index` -/
def linkNext (indexBefore index : ℕ) (t : HashTable) : HashTable :=
  { t with
    itemsChained := update t.itemsChained indexBefore
      { t.itemsChained indexBefore with indexNext := index } }

def put (t : HashTable) (hashUnique : UniqueHash) (indexMeta : ℕ)
    (isDirectory : Bool) : Outcome (Bool × HashTable) :=
  let hashAddress := addr hashUnique
  let indexHead := t.itemsHash hashAddress
  let item : ChainedItem := { indexNext := 0, indexMeta, isDirectory, hashUnique }
  if indexHead = 0 then .done (putFree (linkHead hashAddress) item t)
  else do
    let (indexBeforeCurrent, indexCurrent) ← traverse t.itemsChained hashUnique
      t.bitmapChainedItems.countTotal 0 indexHead
    if indexCurrent = 0 then
      return putFree (linkNext indexBeforeCurrent) item t
    else
      return (true, { t with
        itemsChained := update t.itemsChained indexCurrent
          { t.itemsChained indexCurrent with indexMeta, isDirectory } })

/-- Give an item back and let `unlink` take it out of its chain. The contents
of the item stay until the next `put`. -/
def delFree (unlink : HashTable → HashTable) (index : ℕ) (t : HashTable) :
    Bool × HashTable :=
  match t.bitmapChainedItems.clear index with
  | (false, bitmapChainedItems) => (false, { t with bitmapChainedItems })
  | (true, bitmapChainedItems) =>
      (true, unlink { t with
        bitmapChainedItems
        headFreeBit := index :: t.headFreeBit })

def del (t : HashTable) (hashUnique : UniqueHash) :
    Outcome (Bool × HashTable) :=
  let hashAddress := addr hashUnique
  let indexHead := t.itemsHash hashAddress
  if indexHead = 0 then .done (false, t)
  else if (t.itemsChained indexHead).hashUnique = hashUnique then
    .done (delFree (linkHead hashAddress (t.itemsChained indexHead).indexNext) indexHead t)
  else do
    let (indexBeforeCurrent, indexCurrent) ← traverseRest t.itemsChained
      hashUnique t.bitmapChainedItems.countTotal indexHead
      (t.itemsChained indexHead).indexNext
    -- a key that is in no item of the chain counts as deleted
    if indexCurrent = 0 then return (true, t)
    else
      return delFree (linkNext indexBeforeCurrent (t.itemsChained indexCurrent).indexNext)
        indexCurrent t

end Operations

/-! ## Sequences of calls -/

inductive Op : Type where
  | get (key : HashKey)
  | put (key : HashKey) (indexMeta : ℕ) (isDirectory : Bool)
  | del (key : HashKey)

/-- A finite map from unique hashes to metadata index and kind. -/
abbrev Entries := UniqueHash → Option (ℕ × Bool)

/-- One call on the table, with the map it should stand for: a successful
`put` binds the key and a successful `del` removes it. -/
def step (sha256 : List (BitVec 8) → UniqueHash)
    (addr : UniqueHash → AddressHash) (s : HashTable × Entries) :
    Op → Outcome (HashTable × Entries)
  | .get key => do
      let _ ← s.1.get addr (key.hashUnique sha256)
      return s
  | .put key indexMeta isDirectory => do
      let (ok, t) ← s.1.put addr (key.hashUnique sha256) indexMeta isDirectory
      return (t, if ok then
        update s.2 (key.hashUnique sha256) (some (indexMeta, isDirectory))
        else s.2)
  | .del key => do
      let (ok, t) ← s.1.del addr (key.hashUnique sha256)
      return (t, if ok then
        update s.2 (key.hashUnique sha256) none else s.2)

def run (sha256 : List (BitVec 8) → UniqueHash)
    (addr : UniqueHash → AddressHash) (s : HashTable × Entries) :
    List Op → Outcome (HashTable × Entries)
  | [] => .done s
  | op :: ops => do
      let s ← step sha256 addr s op
      run sha256 addr s ops

end HashTable

end Librdpma.Octopus
