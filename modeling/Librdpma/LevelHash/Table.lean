import Librdpma.Lib.Bytes
import Librdpma.Lib.Outcome

/-!
# The C level hash (`levelkv/src/levelhashing/level_hashing.c`)

Two arrays of buckets, the top level twice as large as the bottom level. A key
has two buckets in each of them. An insertion that finds no free slot in the
four tries to move an item aside, and otherwise puts a new top level on the
table and rehashes the bottom level into it.

A pointer argument is the memory from the pointer on. The hash functions, with
their seeds, are a parameter, and so are the contents of freshly allocated
arrays (`fresh`). An array of `2 ^ 57` buckets or more has no size a `size_t`
can hold, so allocating one is left undefined. `resize_state` is not modelled:
it is only ever written.
-/

namespace Librdpma.LevelHash

open Lib List Function

/-- `entry`, with `KEY_LEN` 16 and `VALUE_LEN` 15. -/
structure Entry where
  key : Bytes 16
  value : Bytes 15
deriving DecidableEq

/-- `level_bucket`, with `ASSOC_NUM` 4. -/
structure Bucket where
  token : Fin 4 → UInt8
  slot : Fin 4 → Entry

/-- The memory behind `slot[j].key`, to the end of the bucket. -/
def Bucket.keyMemory (b : Bucket) (j : Fin 4) : List UInt8 :=
  ((finRange 4).drop j).flatMap fun i =>
    (b.slot i).key.toList ++ (b.slot i).value.toList

abbrev Buckets := ℕ → Bucket

/-- Fill slot `j` of bucket `idx` and set its token. -/
def putSlot (bs : Buckets) (idx : ℕ) (j : Fin 4) (e : Entry) : Buckets :=
  update bs idx
    { token := update (bs idx).token j 1
      slot := update (bs idx).slot j e }

/-- Clear a token; the slot keeps its bytes. -/
def clearSlot (bs : Buckets) (idx : ℕ) (j : Fin 4) : Buckets :=
  update bs idx { bs idx with token := update (bs idx).token j 0 }

/-- `F_HASH` and `S_HASH`: functions of the key string. -/
structure Hashes where
  fHash : List UInt8 → ℕ
  sHash : List UInt8 → ℕ

def fIdx (hashKey capacity : ℕ) : ℕ := hashKey % (capacity / 2)

def sIdx (hashKey capacity : ℕ) : ℕ := hashKey % (capacity / 2) + capacity / 2

/-- There are two levels, 0 and 1. -/
scoped instance twoLevels : NeZero 2 := ⟨Nat.succ_ne_zero 1⟩

structure Level where
  buckets : Fin 2 → Buckets
  levelItemNum : Fin 2 → UInt64
  addrCapacity : ℕ
  totalCapacity : ℕ
  levelSize : ℕ
  levelExpandTime : UInt8
  /-- How many arrays `alignedmalloc` has handed out. -/
  allocated : ℕ

/-- The number of buckets of level `i`, as the loops compute it. -/
def Level.capacity (level : Level) (i : Fin 2) : ℕ :=
  level.addrCapacity / (1 + i)

/-- An array of this many buckets of 128 bytes has a size in `size_t`. -/
def Allocatable (count : ℕ) : Prop := count * 128 < 2 ^ 64

instance (count : ℕ) : Decidable (Allocatable count) := inferInstanceAs (Decidable (_ < _))

/-- The two buckets of a key in an array of `capacity` buckets. -/
def bucketsOf (H : Hashes) (key : List UInt8) (capacity : ℕ) : List ℕ :=
  [fIdx (H.fHash key) capacity, sIdx (H.sHash key) capacity]

/-- The first free slot of the two buckets, taken alternately. -/
def emptySlot (bs : Buckets) (f s : ℕ) : Option (ℕ × Fin 4) :=
  (finRange 4).findSome? fun j =>
    if (bs f).token j = 0 then some (f, j)
    else if (bs s).token j = 0 then some (s, j)
    else none

/-- The first slot of a bucket that holds the key. -/
def findSlot (b : Bucket) (key : List UInt8) : Option (Fin 4) :=
  (finRange 4).find? fun j => b.token j = 1 ∧ cstr (b.keyMemory j) = key

namespace Level

/-- Fill a slot and count it. -/
def insertAt (level : Level) (i : Fin 2) (idx : ℕ) (j : Fin 4) (e : Entry) :
    Level :=
  { level with
    buckets := update level.buckets i (putSlot (level.buckets i) idx j e)
    levelItemNum := update level.levelItemNum i (level.levelItemNum i + 1) }

section

variable (H : Hashes)

/-- The slot of a key: level by level in the given order, first bucket before
second. The loops of the queries, of `level_delete` and of `level_update`. -/
def search (level : Level) (levels : List (Fin 2)) (key : List UInt8) :
    Option (Fin 2 × ℕ × Fin 4) :=
  levels.findSome? fun i =>
    (bucketsOf H (cstr key) (level.capacity i)).findSome? fun idx =>
      (findSlot (level.buckets i idx) (cstr key)).map fun j => (i, idx, j)

/-- What a returned slot pointer points at. -/
def valueAt (level : Level) (p : Fin 2 × ℕ × Fin 4) : Bytes 15 :=
  ((level.buckets p.1 p.2.1).slot p.2.2).value

def levelStaticQuery (level : Level) (key : List UInt8) : Option (Bytes 15) :=
  (level.search H [0, 1] key).map level.valueAt

/-- The level with more items is searched first. -/
def levelDynamicQuery (level : Level) (key : List UInt8) : Option (Bytes 15) :=
  if level.levelItemNum 0 > level.levelItemNum 1 then
    (level.search H [0, 1] key).map level.valueAt
  else (level.search H [1, 0] key).map level.valueAt

def levelDelete (level : Level) (key : List UInt8) : UInt8 × Level :=
  match level.search H [0, 1] key with
  | none => (1, level)
  | some (i, idx, j) =>
      (0, { level with
        buckets := update level.buckets i (clearSlot (level.buckets i) idx j)
        levelItemNum := update level.levelItemNum i (level.levelItemNum i - 1) })

def levelUpdate (level : Level) (key newValue : List UInt8) : UInt8 × Level :=
  match level.search H [0, 1] key with
  | none => (1, level)
  | some (i, idx, j) =>
      (0, { level with
        buckets := update level.buckets i
          (update (level.buckets i) idx
            { level.buckets i idx with
              slot := update (level.buckets i idx).slot j
                { (level.buckets i idx).slot j with
                  value := memcpy 15 newValue } }) })

/-- `try_movement`: move one item of the bucket to its other bucket in the
same level and put the new item in its place. `none` is the return value 1.
The tokens of the bucket itself are not looked at. -/
def tryMovement (level : Level) (idx : ℕ) (i : Fin 2) (e : Entry) :
    Option Level :=
  (finRange 4).findSome? fun slot =>
    let b := level.buckets i idx
    let mKey := cstr (b.keyMemory slot)
    let f := fIdx (H.fHash mKey) (level.capacity i)
    let s := sIdx (H.sHash mKey) (level.capacity i)
    let jdx := if f = idx then s else f
    ((finRange 4).find? fun j =>
        (level.buckets i jdx).token j = 0).map fun j =>
      let bs := putSlot (level.buckets i) jdx j (b.slot slot)
      let bs := clearSlot bs idx slot
      { level with
        buckets := update level.buckets i (putSlot bs idx slot e)
        levelItemNum := update level.levelItemNum i (level.levelItemNum i + 1) }

/-- `b2t_movement`: move one item of the bottom bucket to the top level and
return its slot. -/
def b2tMovement (level : Level) (idx : ℕ) : Option (Fin 4 × Level) :=
  (finRange 4).findSome? fun slot =>
    let b := level.buckets 1 idx
    let key := cstr (b.keyMemory slot)
    let f := fIdx (H.fHash key) level.addrCapacity
    let s := sIdx (H.sHash key) level.addrCapacity
    (emptySlot (level.buckets 0) f s).map fun (jdx, j) =>
      (slot, { level with
        buckets := update (update level.buckets 0 (putSlot (level.buckets 0) jdx j (b.slot slot)))
          1 (clearSlot (level.buckets 1) idx slot)
        levelItemNum := update (update level.levelItemNum 0 (level.levelItemNum 0 + 1))
          1 (level.levelItemNum 1 - 1) })

end

/-! ## Expansion -/

/-- What the rehashing loop changes: the new level, the old bottom level and
the number of items moved. -/
structure Rehash where
  newBuckets : Buckets
  oldBuckets : Buckets
  newLevelItemNum : UInt64

/-- The loop body for one slot of the bottom level. -/
def rehashSlot (H : Hashes) (addrCapacity : ℕ) (r : Rehash) (p : ℕ × Fin 4) :
    Outcome Rehash :=
  let b := r.oldBuckets p.1
  if b.token p.2 = 1 then
    let key := cstr (b.keyMemory p.2)
    match emptySlot r.newBuckets (fIdx (H.fHash key) addrCapacity)
        (sIdx (H.sHash key) addrCapacity) with
    | none => .exit
    | some (idx, j) =>
        .done {
          newBuckets := putSlot r.newBuckets idx j (b.slot p.2)
          oldBuckets := clearSlot r.oldBuckets p.1 p.2
          newLevelItemNum := r.newLevelItemNum + 1 }
  else .done r

/-- The slots of the first `count` buckets, in the order of the loops. -/
def slotsBelow (count : ℕ) : List (ℕ × Fin 4) :=
  (range count).flatMap fun idx => (finRange 4).map fun j => (idx, j)

/-- The end of `level_expand`: the new level becomes the top level, the old top
level the bottom level, and the old bottom level is freed. -/
def adopt (level : Level) (r : Rehash) : Level where
  buckets := fun i => if i = 0 then r.newBuckets else level.buckets 0
  levelItemNum := fun i =>
    if i = 0 then r.newLevelItemNum else level.levelItemNum 0
  addrCapacity := 2 ^ (level.levelSize + 1)
  totalCapacity := 2 ^ (level.levelSize + 1) + 2 ^ level.levelSize
  levelSize := level.levelSize + 1
  levelExpandTime := level.levelExpandTime + 1
  allocated := level.allocated + 1

def levelExpand (H : Hashes) (fresh : ℕ → Buckets) (level : Level) :
    Outcome Level :=
  let addrCapacity := 2 ^ (level.levelSize + 1)
  if Allocatable addrCapacity then do
    let r ← (slotsBelow (2 ^ (level.levelSize - 1))).foldlM (rehashSlot H addrCapacity)
      { newBuckets := fresh level.allocated
        oldBuckets := level.buckets 1
        newLevelItemNum := 0 }
    return level.adopt r
  else .undefined

/-! ## Insertion -/

/-- One round of `level_insert`, up to the expansion: a free slot, a movement
inside a level, or a movement from the bottom to the top level. -/
def insertOnce (H : Hashes) (level : Level) (key : List UInt8) (e : Entry) :
    Option Level :=
  let free := [0, 1].findSome? fun i =>
    (emptySlot (level.buckets i) (fIdx (H.fHash key) (level.capacity i))
      (sIdx (H.sHash key) (level.capacity i))).map fun (idx, j) =>
        level.insertAt i idx j e
  let moved := [0, 1].findSome? fun i =>
    (bucketsOf H key (level.capacity i)).findSome? fun idx =>
      level.tryMovement H idx i e
  let lifted :=
    if level.levelExpandTime > 0 then
      (bucketsOf H key (level.capacity 1)).findSome? fun idx =>
        (level.b2tMovement H idx).map fun (j, level) => level.insertAt 1 idx j e
    else none
  free.or (moved.or lifted)

/-- `level_insert`. Each round of the recursion expands the table. -/
def levelInsert (H : Hashes) (fresh : ℕ → Buckets) :
    ℕ → Level → List UInt8 → List UInt8 → Outcome (UInt8 × Level)
  | 0, _, _, _ => .loop
  | fuel + 1, level, key, value =>
      match level.insertOnce H (cstr key) ⟨memcpy 16 key, memcpy 15 value⟩ with
      | some level => .done (0, level)
      | none => do
          let level ← level.levelExpand H fresh
          levelInsert H fresh fuel level key value

/-! ## Shrinking -/

/-- The start of `level_shrink`: the bottom level becomes the top level over a new,
smaller bottom level. -/
def lowered (fresh : ℕ → Buckets) (level : Level) : Level where
  buckets := fun i => if i = 0 then level.buckets 1 else fresh level.allocated
  levelItemNum := fun i => if i = 0 then level.levelItemNum 1 else 0
  addrCapacity := 2 ^ (level.levelSize - 1)
  totalCapacity := 2 ^ (level.levelSize - 1) + 2 ^ (level.levelSize - 1 - 1)
  levelSize := level.levelSize - 1
  levelExpandTime := level.levelExpandTime
  allocated := level.allocated + 1

/-- The loop body for one slot of the old top level, `interimBuckets`. -/
def reinsertSlot (H : Hashes) (fresh : ℕ → Buckets) (fuel idx : ℕ) (x : Buckets × Level)
    (j : Fin 4) : Outcome (Buckets × Level) :=
  if (x.1 idx).token j = 1 then do
    let (ret, level) ← x.2.levelInsert H fresh fuel ((x.1 idx).keyMemory j)
      ((x.1 idx).slot j).value.toList
    if ret = 0 then .done (clearSlot x.1 idx j, level) else .exit
  else .done x

/-- The loop over the buckets that are left of the old top level. Its bound is read
again each time and may have grown; a bucket behind the last one is not there. -/
def shrinkLoop (H : Hashes) (fresh : ℕ → Buckets) (fuel count : ℕ) :
    List ℕ → Buckets × Level → Outcome (Buckets × Level)
  | [], x => if count < 2 ^ (x.2.levelSize + 1) then .undefined else .done x
  | idx :: rest, x =>
      if idx < 2 ^ (x.2.levelSize + 1) then do
        let x ← (finRange 4).foldlM (reinsertSlot H fresh fuel idx) x
        shrinkLoop H fresh fuel count rest x
      else .done x

/-- The table has at most 40% of its slots filled. The source compares with the
`double` product `total_capacity * ASSOC_NUM * 0.4`. -/
def fewItems (level : Level) : Bool :=
  (level.levelItemNum 0 + level.levelItemNum 1).toNat * 10 ≤ level.totalCapacity * 4 * 4

/-- `level_shrink`; `fuel` is for each of its insertions. -/
def levelShrink (H : Hashes) (fresh : ℕ → Buckets) (fuel : ℕ) (level : Level) :
    Outcome Level :=
  if level.fewItems then do
    let x ← shrinkLoop H fresh fuel (2 ^ level.levelSize) (range (2 ^ level.levelSize))
      (level.buckets 0, level.lowered fresh)
    return { x.2 with levelExpandTime := 0 }
  else .exit

/-- `level_init`. -/
def levelInit (fresh : ℕ → Buckets) (levelSize : ℕ) : Outcome Level :=
  if Allocatable (2 ^ levelSize) then
    .done {
      buckets := fun i => if i = 0 then fresh 0 else fresh 1
      levelItemNum := fun _ => 0
      addrCapacity := 2 ^ levelSize
      totalCapacity := 2 ^ levelSize + 2 ^ (levelSize - 1)
      levelSize
      levelExpandTime := 0
      allocated := 2 }
  else .undefined

end Level

end Librdpma.LevelHash
