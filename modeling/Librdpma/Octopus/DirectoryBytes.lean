import Librdpma.Lib.ByteMemory
import Librdpma.Octopus.Directory

/-!
# The bytes that `updateRemoteMeta` writes

A `DirectoryMeta` is a `count` of 8 bytes and 60 entries of 51 bytes, padded to
3072. On the own node it is copied whole. To another node only the part up to
the last entry in use is sent: what comes behind it in the slot stays. The
addresses are relative to the registered memory of a node.
-/

namespace Librdpma.Octopus

open Lib Memory Function

/-- `sizeof(DirectoryMetaTuple)` -/
def directoryMetaTupleSize : ℕ := maxFileNameLength + 1

/-- How much of a `DirectoryMeta` goes to another node, in 64 bits. -/
def sentSize (count : BitVec 64) : BitVec 64 :=
  BitVec.ofNat 64 directoryMetaSize -
    BitVec.ofNat 64 directoryMetaTupleSize * (BitVec.ofNat 64 maxDirectoryCount - count)

/-- `updateRemoteMeta` on the memories of the nodes; `meta` points to the bytes
`image`. The final `RdmaRead` brings the bytes just written. -/
def updateRemoteBytes (self parentNodeID sendBuffer parentMetaAddress : ℕ) (image : Memory)
    (mem : ℕ → Memory) : ℕ → Memory :=
  if parentNodeID = self then
    update mem self ((mem self).write parentMetaAddress (image.read 0 directoryMetaSize))
  else
    let size := (sentSize (image.u64 0)).toNat
    let mem := update mem self ((mem self).write sendBuffer (image.read 0 size))
    let mem := update mem parentNodeID
      ((mem parentNodeID).write parentMetaAddress ((mem self).read sendBuffer size))
    update mem self ((mem self).write sendBuffer ((mem parentNodeID).read parentMetaAddress size))

lemma toNat_sentSize {count : BitVec 64} (h : count.toNat ≤ maxDirectoryCount) :
    (sentSize count).toNat = 12 + directoryMetaTupleSize * count.toNat := by
  unfold sentSize directoryMetaSize directoryMetaTupleSize maxDirectoryCount maxFileNameLength at *
  bv_omega

/-- The parent's node gets the bytes up to the last entry in use, or all, and no
other node changes outside the send buffer. -/
lemma updateRemoteBytes_apply (self parentNodeID sendBuffer parentMetaAddress : ℕ)
    {image : Memory} (mem : ℕ → Memory) (h : (image.u64 0).toNat ≤ maxDirectoryCount) :
    ∃ len, 8 + directoryMetaTupleSize * (image.u64 0).toNat ≤ len ∧ len ≤ directoryMetaSize ∧
      (∀ a, updateRemoteBytes self parentNodeID sendBuffer parentMetaAddress image mem
          parentNodeID a
        = if parentMetaAddress ≤ a ∧ a < parentMetaAddress + len then image (a - parentMetaAddress)
          else mem parentNodeID a) ∧
      ∀ node ≠ parentNodeID, ∀ a,
        node ≠ self ∨ a < sendBuffer ∨ sendBuffer + directoryMetaSize ≤ a →
        updateRemoteBytes self parentNodeID sendBuffer parentMetaAddress image mem node a
          = mem node a := by
  have hsz := toNat_sentSize h
  have hle : directoryMetaTupleSize * (image.u64 0).toNat
      ≤ directoryMetaTupleSize * maxDirectoryCount := Nat.mul_le_mul_left _ h
  have hall : 12 + directoryMetaTupleSize * maxDirectoryCount = directoryMetaSize := by decide
  unfold updateRemoteBytes
  by_cases hsf : parentNodeID = self
  · refine ⟨directoryMetaSize, by omega, le_rfl, fun a => ?_, fun node hnd a _ => ?_⟩
    · rw [if_pos hsf, hsf, update_self, write_read_apply, zero_add]
    · rw [if_pos hsf, update_of_ne (hsf ▸ hnd)]
  · refine ⟨(sentSize (image.u64 0)).toNat, by omega, by omega, fun a => ?_,
      fun node hnd a ha => ?_⟩
    · rw [if_neg hsf, update_of_ne hsf, update_self, update_of_ne hsf,
        update_self, write_read_apply]
      split
      · rw [write_read_apply, if_pos (by omega), Nat.zero_add, Nat.add_sub_cancel_left]
      · rfl
    · rw [if_neg hsf]
      by_cases hsdr : node = self
      · rw [hsdr, update_self, write_read_apply, if_neg (by omega), update_of_ne (Ne.symm hsf),
          update_self, write_read_apply, if_neg (by omega)]
      · rw [update_of_ne hsdr, update_of_ne hnd, update_of_ne hsdr]

/-- **The slot of the parent directory has the count and the entries of the
given one**, on whichever node it is, and nothing but the send buffer changes
outside the slot. -/
theorem updateRemoteBytes_complete (self parentNodeID sendBuffer parentMetaAddress : ℕ)
    (image : Memory) (mem : ℕ → Memory) (h : (image.u64 0).toNat ≤ maxDirectoryCount) :
    let mem' := updateRemoteBytes self parentNodeID sendBuffer parentMetaAddress image mem
    (mem' parentNodeID).u64 parentMetaAddress = image.u64 0 ∧
      (∀ i < (image.u64 0).toNat,
        (mem' parentNodeID).read (parentMetaAddress + (8 + directoryMetaTupleSize * i))
            directoryMetaTupleSize
          = image.read (8 + directoryMetaTupleSize * i) directoryMetaTupleSize) ∧
      (∀ a, a < parentMetaAddress ∨ parentMetaAddress + directoryMetaSize ≤ a →
        mem' parentNodeID a = mem parentNodeID a) ∧
      ∀ node ≠ parentNodeID, ∀ a,
        node ≠ self ∨ a < sendBuffer ∨ sendBuffer + directoryMetaSize ≤ a →
        mem' node a = mem node a := by
  obtain ⟨len, hlow, hhg, hbs, hoth⟩ :=
    updateRemoteBytes_apply self parentNodeID sendBuffer parentMetaAddress mem h
  generalize updateRemoteBytes self parentNodeID sendBuffer parentMetaAddress image mem = mem'
    at hbs hoth
  have hcp : ∀ off k, off + k ≤ 8 + directoryMetaTupleSize * (image.u64 0).toNat →
      (mem' parentNodeID).read (parentMetaAddress + off) k = image.read off k := by
    intro off k hk
    refine List.map_congr_left fun i hi => ?_
    have hlt := List.mem_range.mp hi
    rw [hbs, if_pos (by omega), Nat.add_assoc, Nat.add_sub_cancel_left]
  refine ⟨congrArg (fun bs => BitVec.ofNat 64 (leNat bs)) (hcp 0 8 (by omega)), fun i hi => ?_,
    fun a ha => ?_, hoth⟩
  · have hnx := Nat.mul_le_mul_left directoryMetaTupleSize (show i + 1 ≤ _ from hi)
    rw [Nat.mul_succ] at hnx
    exact hcp _ _ (by omega)
  · rw [hbs, if_neg (by omega)]

/-- A directory with two entries, sent to node 2. -/
theorem updateRemoteBytes_complete_two :
    (u64 (putU64 (fun _ => 7#8) 0 2#64) 0).toNat ≤ maxDirectoryCount ∧
      u64 (updateRemoteBytes 1 2 0 4096 (putU64 (fun _ => 7#8) 0 2#64) (fun _ _ => 1#8) 2) 4096
        = u64 (putU64 (fun _ => 7#8) 0 2#64) 0 := by
  have hcnt : (u64 (putU64 (fun _ => 7#8) 0 2#64) 0).toNat ≤ maxDirectoryCount := by
    rw [u64_putU64]
    decide
  exact ⟨hcnt, (updateRemoteBytes_complete 1 2 0 4096 _ (fun _ _ => 1#8) hcnt).1⟩

end Librdpma.Octopus
