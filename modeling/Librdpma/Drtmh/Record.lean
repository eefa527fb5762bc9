import Mathlib

/-!
# Records and the operations on one of them (`src/rtx/local_op_impl.hpp`)

A record is a `MemNode`: a lock word, a sequence number that every write
advances by 2, and the value. The lock word is 0 or the lock content of the
coroutine that holds it. Each node stores the records with its number as `pid`.
-/

namespace Librdpma.Drtmh

/-- Where a record is: its node, its table and its key. -/
structure RecordId where
  pid : ℕ
  tableid : ℕ
  key : BitVec 64
deriving DecidableEq

structure MemNode (V : Type) where
  lock : BitVec 64
  seq : BitVec 64
  value : V

/-- The records of all nodes. -/
abbrev Store (V : Type) := RecordId → MemNode V

/-- `ENCODE_LOCK_CONTENT`, an `int` that becomes a `uint64_t`. -/
def encodeLockContent (mac tid corId : BitVec 32) : BitVec 64 :=
  (mac <<< 16 ||| tid <<< 10 ||| corId).signExtend 64

/-- `CONFLICT_WRITE_FLAG` -/
def conflictWriteFlag : BitVec 64 := 73#64

namespace MemNode

variable {V : Type}

/-- `local_get_op`: the sequence number and the value. While the sequence
number is `CONFLICT_WRITE_FLAG` the loop goes on. -/
def localGetOp (n : MemNode V) : Option (BitVec 64 × V) :=
  if n.seq = conflictWriteFlag then none else some (n.seq, n.value)

/-- `local_try_lock_op` -/
def localTryLockOp (lockContent : BitVec 64) (n : MemNode V) : Bool × MemNode V :=
  if n.lock ≠ 0#64 then (false, n) else (true, { n with lock := lockContent })

/-- `local_try_release_op` -/
def localTryReleaseOp (lockContent : BitVec 64) (n : MemNode V) : Bool × MemNode V :=
  if n.lock = lockContent then (true, { n with lock := 0#64 }) else (false, n)

/-- `local_validate_op` -/
def localValidateOp (seq : BitVec 64) (n : MemNode V) : Bool :=
  seq = n.seq && n.lock = 0#64

/-- `inplace_write_op` with `OPT_NT` = 0 and `DRAM_LOCK` = 0. -/
def inplaceWriteOp (val : V) (n : MemNode V) : MemNode V :=
  { lock := 0#64, seq := n.seq + 2#64, value := val }

end MemNode

/-! ## Batches

One message carries all items of a batch to each of the nodes concerned, which
pick their own. The number of items travels as an `int8_t`. -/

/-- How often `for (i = 0; i < num; i++)` runs for the `num` of a batch of `n`
items. -/
def itemCount (n : ℕ) : ℕ := (BitVec.ofNat 8 n).toInt.toNat

lemma itemCount_of_le {n : ℕ} (h : n ≤ 127) : itemCount n = n := by
  have hlt : 2 * (BitVec.ofNat 8 n).toNat < 2 ^ 8 := by
    rw [BitVec.toNat_ofNat]
    omega
  rw [itemCount, BitVec.toInt_eq_toNat_of_lt hlt, BitVec.toNat_ofNat]
  omega

/-- The items a handler's loop goes through. -/
def sentItems {α : Type} (items : List α) : List α := items.take (itemCount items.length)

lemma sentItems_of_le {α : Type} {items : List α} (h : items.length ≤ 127) :
    sentItems items = items := by
  rw [sentItems, itemCount_of_le h, List.take_length]

/-- `RtxLockItem` -/
structure RtxLockItem where
  rid : RecordId
  seq : BitVec 64

end Librdpma.Drtmh
