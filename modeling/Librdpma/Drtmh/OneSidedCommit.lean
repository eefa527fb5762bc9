import Librdpma.Drtmh.OneSided

/-!
# One-sided validation and write-back (`src/rtx/occ_rdma.cc`)

Other transactions go on while the headers are read back, so each entry of the
read set comes with the memory of its node at the moment its header is read.
-/

namespace Librdpma.Drtmh

open Lib Memory List

/-! ## Validation -/

/-- An entry of the read set, and the memory of the record's node when its
header is read back. -/
structure ReadBack where
  item : RdmaItem
  now : Memory

/-- `local_validate_op` -/
def localValidateAt (m : Memory) (node : ℕ) (seq : BitVec 64) : Bool :=
  seq = m.u64 (node + 8) && m.u64 node = 0#64

/-- The first loop of `validate_reads_w_rdma`, on the memory of the own
buffers. The sequence number is copied out before lock word and sequence number
are read into the header again. -/
def postReads (noAbort : Bool) (env : RdmaEnv) :
    List ReadBack → Memory → Bool × List RdmaItem × Memory
  | [], buf => (true, [], buf)
  | r :: rest, buf =>
      let it := r.item
      if it.pid ≠ env.nodeId then
        let it := { it with seq := buf.u64 (it.header + 8) }
        let buf := buf.write it.header (r.now.read (it.target env) 16)
        let res := postReads noAbort env rest buf
        (res.1, it :: res.2.1, res.2.2)
      else if localValidateAt r.now it.ref it.seq = false ∧ noAbort = false then
        (false, [], buf)
      else
        let res := postReads noAbort env rest buf
        (res.1, it :: res.2.1, res.2.2)

/-- The second loop. The `return false` stands under `#if NO_ABORT`. -/
def checkReads (noAbort : Bool) (env : RdmaEnv) (buf : Memory) : List RdmaItem → Bool
  | [] => true
  | it :: rest =>
      if it.pid ≠ env.nodeId ∧
          (buf.u64 (it.checked + 8) ≠ it.seq ∨ buf.u64 it.checked ≠ 0#64) ∧ noAbort = true then
        false
      else checkReads noAbort env buf rest

/-- `OCCR::validate_reads_w_rdma` -/
def validateReadsWRdma (noAbort : Bool) (env : RdmaEnv) (readSet : List ReadBack)
    (buf : Memory) : Bool :=
  match postReads noAbort env readSet buf with
  | (false, _, _) => false
  | (true, items, buf) => checkReads noAbort env buf items

/-- The sequence number recorded at the first read. -/
def recordedSeq (env : RdmaEnv) (buf : Memory) (it : RdmaItem) : BitVec 64 :=
  if it.pid = env.nodeId then it.seq else buf.u64 (it.header + 8)

/-- When read back, the record is free and as it was first read. -/
def ReadBack.Fresh (env : RdmaEnv) (buf : Memory) (r : ReadBack) : Prop :=
  r.now.u64 (r.item.address env + 8) = recordedSeq env buf r.item ∧
    r.now.u64 (r.item.address env) = 0#64

instance (env : RdmaEnv) (buf : Memory) (r : ReadBack) : Decidable (r.Fresh env buf) :=
  inferInstanceAs (Decidable (_ ∧ _))

section Validate

variable {env : RdmaEnv} {buf buf' : Memory} {readSet : List ReadBack} {r : ReadBack}

lemma checkReads_abort (items : List RdmaItem) : checkReads false env buf items = true := by
  induction items with
  | nil => rfl
  | cons it rest ih => rwa [checkReads, if_neg fun h => Bool.false_ne_true h.2.2]

/-- For a record of the own node `Fresh` does not depend on the buffers. -/
lemma ReadBack.fresh_local (h : r.item.pid = env.nodeId) :
    r.Fresh env buf ↔ localValidateAt r.now r.item.ref r.item.seq = true := by
  unfold ReadBack.Fresh recordedSeq RdmaItem.address localValidateAt
  rw [if_pos h, if_pos h, Bool.and_eq_true, decide_eq_true_iff, decide_eq_true_iff]
  exact and_congr_left fun _ => eq_comm

/-- With `NO_ABORT` = 0 only the records of the own node are checked. -/
lemma postReads_abort : (postReads false env readSet buf).1 = true ↔
      ∀ r ∈ readSet, r.item.pid = env.nodeId → r.Fresh env buf' := by
  induction readSet generalizing buf with
  | nil => exact ⟨fun _ => nofun, fun _ => rfl⟩
  | cons r rest ih =>
    rw [postReads, forall_mem_cons]
    by_cases hloc : r.item.pid = env.nodeId
    · rw [if_neg (not_not.mpr hloc), ReadBack.fresh_local hloc]
      by_cases hval : localValidateAt r.now r.item.ref r.item.seq = true
      · rw [if_neg fun h => Bool.false_ne_true (h.1.symm.trans hval)]
        exact ⟨fun h => ⟨fun _ => hval, ih.mp h⟩, fun h => ih.mpr h.2⟩
      · rw [if_pos ⟨Bool.eq_false_iff.mpr hval, rfl⟩]
        exact ⟨nofun, fun h => absurd (h.1 hloc) hval⟩
    · rw [if_pos hloc]
      exact ⟨fun h => ⟨fun heq => absurd heq hloc, ih.mp h⟩, fun h => ih.mpr h.2⟩

lemma validateReadsWRdma_abort : validateReadsWRdma false env readSet buf = true ↔
      ∀ r ∈ readSet, r.item.pid = env.nodeId → r.Fresh env buf := by
  have hpst : (postReads false env readSet buf).1 = true ↔
      ∀ r ∈ readSet, r.item.pid = env.nodeId → r.Fresh env buf := postReads_abort
  rw [← hpst, validateReadsWRdma]
  split
  · rename_i heq
    rw [heq]
  · rename_i heq
    rw [heq, checkReads_abort]

/-- **What `validate_reads_w_rdma` answers is right exactly if** a record of the
own node makes it fail, or no record of another node was changed or locked. -/
theorem validate_w_rdma_sound_iff (env : RdmaEnv) (readSet : List ReadBack) (buf : Memory) :
    (validateReadsWRdma false env readSet buf = true → ∀ r ∈ readSet, r.Fresh env buf) ↔
      (∃ r ∈ readSet, r.item.pid = env.nodeId ∧ ¬ r.Fresh env buf) ∨
        ∀ r ∈ readSet, r.item.pid ≠ env.nodeId → r.Fresh env buf := by
  rw [validateReadsWRdma_abort]
  constructor
  · intro h
    by_cases hloc : ∀ r ∈ readSet, r.item.pid = env.nodeId → r.Fresh env buf
    · exact .inr fun r hr _ => h hloc r hr
    · push Not at hloc
      exact .inl hloc
  · rintro (⟨r, hr, hpid, hstl⟩ | hrmt) hloc r' hr'
    · exact absurd (hloc r hr hpid) hstl
    · by_cases hpid : r'.item.pid = env.nodeId
      · exact hloc r' hr' hpid
      · exact hrmt r' hr' hpid

end Validate

/-- The record at offset 0 of node 0 has been locked, and its sequence number
has gone from 0 to 2. -/
theorem validate_w_rdma_unsound : ¬ ∀ (env : RdmaEnv) (readSet : List ReadBack) (buf : Memory),
        validateReadsWRdma false env readSet buf = true →
        ∀ r ∈ readSet, r.Fresh env buf := by
  intro hall
  have h := hall sampleEnv
    [⟨sampleItem, fun a => if a = 0 then 5#8 else if a = 8 then 2#8 else 0#8⟩] (fun _ => 0#8)
    (by decide) _ (mem_singleton_self _)
  exact absurd h (by decide)

/-! ## Write-back -/

/-- `nt_memcpy_128` on bytes: `n` words, the first word left out. -/
def ntCopyWords (m : Memory) (src target : ℕ) : ℕ → Memory
  | 0 => m
  | n + 1 =>
      let m := ntCopyWords m src target n
      m.write (target + 8 * (n + 1)) (m.read (src + 8 * (n + 1)) 8)

/-- `inplace_write_op` with `OPT_NT` = 1 on a `MemNode` at address `node`, whose
third word points to the value. -/
def inplaceWriteAt (m : Memory) (node val len : ℕ) : Memory :=
  ntCopyWords m val (m.u64 (node + 16)).toNat ((len + 7) / 8)

/-- `RDMAWriteReq`: the value behind the header, and 8 zero bytes on the lock
word. -/
def writeReq (env : RdmaEnv) (it : RdmaItem) (mem : Memories) : Memories :=
  let val := (mem env.nodeId).read it.dataPtr it.len
  let mem := mem.on it.pid fun m => m.write (it.target env + rdmaValHeaderSize) val
  mem.on it.pid fun m => m.putU64 (it.target env) 0#64

/-- One turn of the loop of `OCCR::write_back_w_rdma`. The new sequence number
goes into the header of the local buffer. -/
def writeBackItem (env : RdmaEnv) (mem : Memories) (it : RdmaItem) : Memories :=
  if it.pid ≠ env.nodeId then
    let mem := mem.on env.nodeId fun m => m.putU64 (it.header + 8) (it.seq + 2#64)
    let mem := mem.on env.nodeId fun m => m.putU64 it.header 0#64
    writeReq env it mem
  else mem.on env.nodeId fun m => inplaceWriteAt m it.ref it.dataPtr it.len

/-- `OCCR::write_back_w_rdma`, when its requests are done. -/
def writeBackWRdma (env : RdmaEnv) (writeSet : List RdmaItem) (mem : Memories) : Memories :=
  writeSet.foldl (writeBackItem env) mem

/-- All records are on other nodes and do not overlap, nor do buffers overlap
with headers. -/
structure WriteLayout (env : RdmaEnv) (writeSet : List RdmaItem) : Prop where
  remote : ∀ it ∈ writeSet, it.pid ≠ env.nodeId
  records : writeSet.Pairwise fun it it' => it.pid = it'.pid →
    Apart (it.target env) (16 + it.len) (it'.target env) (16 + it'.len)
  buffers : ∀ it ∈ writeSet, ∀ it' ∈ writeSet, Apart it.dataPtr it.len it'.header 16

section WriteBack

variable {env : RdmaEnv} {it it' : RdmaItem} {mem : Memories} {writeSet : List RdmaItem}

lemma WriteLayout.tail (h : WriteLayout env (it :: writeSet)) : WriteLayout env writeSet := by
  have hsub : ∀ it' ∈ writeSet, it' ∈ it :: writeSet := fun _ => mem_cons_of_mem _
  exact ⟨fun a ha => h.remote a (hsub a ha), (pairwise_cons.mp h.records).2,
    fun a ha b hb => h.buffers a (hsub a ha) b (hsub b hb)⟩

section

variable (hpid : it.pid ≠ env.nodeId)

include hpid

lemma read_own_writeBackItem {a len : ℕ} (h : Apart a len it.header 16) :
    (writeBackItem env mem it env.nodeId).read a len = (mem env.nodeId).read a len := by
  rw [writeBackItem, if_pos hpid, writeReq, Memories.on_of_ne _ hpid.symm,
    Memories.on_of_ne _ hpid.symm, Memories.on_self, Memories.on_self, putU64, putU64,
    read_write_apart, read_write_apart]
  · rw [length_leBytes]
    unfold Apart at h ⊢
    omega
  · rw [length_leBytes]
    exact h.of_le le_rfl (by omega)

lemma read_other_writeBackItem {node a len : ℕ} (hnd : node ≠ env.nodeId)
    (h : node = it.pid → Apart a len (it.target env) 8 ∧ Apart a len (it.target env + 16) it.len) :
    (writeBackItem env mem it node).read a len = (mem node).read a len := by
  rw [writeBackItem, if_pos hpid, writeReq]
  by_cases hsm : node = it.pid
  · subst hsm
    obtain ⟨hlk, hval⟩ := h rfl
    rw [Memories.on_self, Memories.on_self, Memories.on_of_ne _ hnd, Memories.on_of_ne _ hnd,
      putU64, read_write_apart, read_write_apart]
    · rwa [length_read]
    · rwa [length_leBytes]
  · rw [Memories.on_of_ne _ hsm, Memories.on_of_ne _ hsm, Memories.on_of_ne _ hnd,
      Memories.on_of_ne _ hnd]

lemma value_writeBackItem (hbfr : Apart it.dataPtr it.len it.header 16) :
    (writeBackItem env mem it it.pid).read (it.target env + 16) it.len
      = (mem env.nodeId).read it.dataPtr it.len := by
  have hkp : (writeBackItem env mem it env.nodeId).read it.dataPtr it.len
      = (mem env.nodeId).read it.dataPtr it.len := read_own_writeBackItem hpid hbfr
  rw [writeBackItem, if_pos hpid, writeReq, Memories.on_of_ne _ hpid.symm,
    Memories.on_of_ne _ hpid.symm] at hkp
  rw [writeBackItem, if_pos hpid, writeReq, Memories.on_self, Memories.on_self, putU64,
    read_write_apart, hkp]
  · have hwrt := read_write (mem it.pid) (it.target env + rdmaValHeaderSize)
      ((mem env.nodeId).read it.dataPtr it.len)
    rw [length_read] at hwrt
    rw [Memories.on_of_ne _ hpid, Memories.on_of_ne _ hpid]
    exact hwrt
  · right
    rw [length_leBytes]
    omega

lemma lock_writeBackItem : (writeBackItem env mem it it.pid).u64 (it.target env) = 0#64 := by
  rw [writeBackItem, if_pos hpid, writeReq, Memories.on_self, u64_putU64]

end

lemma read_other_writeBack {node a len : ℕ} (hrmt : ∀ it ∈ writeSet, it.pid ≠ env.nodeId)
    (hnd : node ≠ env.nodeId)
    (h : ∀ it ∈ writeSet, node = it.pid → Apart a len (it.target env) 8 ∧
      Apart a len (it.target env + 16) it.len) :
    (writeBackWRdma env writeSet mem node).read a len = (mem node).read a len := by
  induction writeSet generalizing mem with
  | nil => rfl
  | cons it rest ih =>
    obtain ⟨hit, hrs⟩ := forall_mem_cons.mp hrmt
    obtain ⟨hfr, hfrs⟩ := forall_mem_cons.mp h
    rw [writeBackWRdma, foldl_cons, ← writeBackWRdma, ih hrs hfrs,
      read_other_writeBackItem hit hnd hfr]

lemma WriteLayout.apart_tail (h : WriteLayout env (it :: writeSet)) {a len : ℕ}
    (hin : it.target env ≤ a) (hend : a + len ≤ it.target env + 16 + it.len) :
    ∀ it' ∈ writeSet, it.pid = it'.pid → Apart a len (it'.target env) 8 ∧
      Apart a len (it'.target env + 16) it'.len := by
  intro it' hit' hpid
  have := (pairwise_cons.mp h.records).1 it' hit' hpid
  unfold Apart at this ⊢
  omega

/-- Each record has the value of its buffer, its lock word is 0, and its
sequence number is as before. -/
lemma writeBack_leaves (hlay : WriteLayout env writeSet) (hit : it ∈ writeSet) :
    (writeBackWRdma env writeSet mem it.pid).read (it.target env + 16) it.len
        = (mem env.nodeId).read it.dataPtr it.len ∧
      (writeBackWRdma env writeSet mem it.pid).u64 (it.target env) = 0#64 ∧
      (writeBackWRdma env writeSet mem it.pid).u64 (it.target env + 8)
        = (mem it.pid).u64 (it.target env + 8) := by
  induction writeSet generalizing mem with
  | nil => cases hit
  | cons it0 rest ih =>
    have hpid := hlay.remote it0 mem_cons_self
    rw [writeBackWRdma, foldl_cons, ← writeBackWRdma]
    rcases mem_cons.mp hit with rfl | hit
    · -- the rest of the write set is apart from this record
      have hkp : ∀ a len, it.target env ≤ a → a + len ≤ it.target env + 16 + it.len →
          (writeBackWRdma env rest (writeBackItem env mem it) it.pid).read a len
            = (writeBackItem env mem it it.pid).read a len := fun a len hin hend =>
        read_other_writeBack hlay.tail.remote hpid (hlay.apart_tail hin hend)
      refine ⟨?_, ?_, ?_⟩
      · rw [hkp _ _ (by omega) (by omega)]
        exact value_writeBackItem hpid (hlay.buffers it mem_cons_self it mem_cons_self)
      · rw [u64, hkp _ _ (by omega) (by omega), ← u64]
        exact lock_writeBackItem hpid
      · rw [u64, hkp _ _ (by omega) (by omega), u64, read_other_writeBackItem hpid hpid]
        intro _
        unfold Apart
        omega
    · obtain ⟨hval, hlk, hseq⟩ := @ih (writeBackItem env mem it0) hlay.tail hit
      have hpid' := hlay.tail.remote it hit
      refine ⟨hval.trans ?_, hlk, hseq.trans ?_⟩
      · exact read_own_writeBackItem hpid (hlay.buffers it (mem_cons_of_mem _ hit) it0
          mem_cons_self)
      · rw [u64, read_other_writeBackItem hpid hpid', ← u64]
        intro hsm
        have := (pairwise_cons.mp hlay.records).1 it hit hsm.symm
        unfold Apart at this ⊢
        omega

end WriteBack

/-- The record in remote memory after the write-back: the new value, a free lock
word, and a sequence number 2 above the old one. -/
def Advanced (env : RdmaEnv) (mem mem' : Memories) (it : RdmaItem) : Prop :=
  (mem' it.pid).read (it.target env + 16) it.len = (mem env.nodeId).read it.dataPtr it.len ∧
    (mem' it.pid).u64 (it.target env) = 0#64 ∧
    (mem' it.pid).u64 (it.target env + 8) = (mem it.pid).u64 (it.target env + 8) + 2#64

/-- **No write-back advances a sequence number**: the records are written and
released, and keep the number the transaction had read. -/
theorem write_back_w_rdma_advances_iff (env : RdmaEnv) (writeSet : List RdmaItem)
    (hlayout : WriteLayout env writeSet) (mem : Memories) :
    (∀ it ∈ writeSet, Advanced env mem (writeBackWRdma env writeSet mem) it) ↔ writeSet = [] := by
  constructor
  · intro h
    rw [eq_nil_iff_forall_not_mem]
    intro it hit
    have hseq := (h it hit).2.2
    rw [(writeBack_leaves hlayout hit).2.2] at hseq
    have hne : ∀ w : BitVec 64, w ≠ w + 2#64 := by
      intro w
      bv_omega
    exact hne _ hseq
  · rintro rfl
    exact nofun

lemma sampleWriteLayout : WriteLayout sampleEnv [sampleItem] := by
  refine ⟨?_, pairwise_singleton _ _, ?_⟩
  · simp only [mem_singleton, forall_eq]
    decide
  · simp only [mem_singleton, forall_eq]
    decide

/-- A record of zero-filled memory is written, and not advanced. -/
theorem write_back_w_rdma_advances_sample : WriteLayout sampleEnv [sampleItem] ∧
      ¬ ∀ it ∈ [sampleItem], Advanced sampleEnv (fun _ _ => 0#8)
        (writeBackWRdma sampleEnv [sampleItem] fun _ _ => 0#8) it := by
  refine ⟨sampleWriteLayout, ?_⟩
  rw [write_back_w_rdma_advances_iff sampleEnv [sampleItem] sampleWriteLayout]
  exact cons_ne_nil _ _

/-- A record of node 0, locked with the content 9 of the transaction, is written
and keeps its sequence number. -/
theorem write_back_w_rdma_keeps_seq :
    ¬ ∀ (env : RdmaEnv) (writeSet : List RdmaItem) (mem : Memories), WriteLayout env writeSet →
        (∀ it ∈ writeSet, (mem it.pid).u64 (it.target env) = env.lockContent) →
        ∀ it ∈ writeSet, Advanced env mem (writeBackWRdma env writeSet mem) it := by
  intro hall
  have h := hall sampleEnv [sampleItem] (fun _ a => if a = 0 then 9#8 else 0#8)
    sampleWriteLayout (by simp only [mem_singleton, forall_eq]; decide) sampleItem
    (mem_singleton_self _)
  have hseq := h.2.2
  rw [(writeBack_leaves sampleWriteLayout (mem_singleton_self _)).2.2] at hseq
  cases hseq

end Librdpma.Drtmh
