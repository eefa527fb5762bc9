import Librdpma.Lib.ByteMemory
import Librdpma.Lib.Outcome

/-!
# One-sided locking, validation and write-back (`src/rtx/occ_rdma.cc`)

The requests go past the other node's processor: each reads or writes a range
of bytes there and a range of bytes of a local buffer. A record in remote
memory starts with an `RdmaValHeader` (lock word and sequence number), its
value follows. The local buffer of a record is the same, and `data_ptr` points
behind its header.

The functions are modelled with `INLINE_OVERWRITE` = 0 and `DRAM_LOCK` = 0, and
the requests of a call are served in order.
-/

namespace Librdpma.Drtmh

open Lib Memory List

/-- `sizeof(RdmaValHeader)` -/
def rdmaValHeaderSize : ℕ := 16

/-- `sizeof(MemNode)`, a cache line. -/
def memNodeSize : ℕ := 64

/-- A `ReadSetItem`. `ref` is the union of `node`, the address of a record of
the own node, and `off`, the offset of a record of another node from the start
of that node's registered memory. -/
structure RdmaItem where
  pid : ℕ
  ref : ℕ
  dataPtr : ℕ
  len : ℕ
  seq : BitVec 64

/-- The coroutine: its node, its lock content, and where the registered memory
of each node starts. -/
structure RdmaEnv where
  nodeId : ℕ
  lockContent : BitVec 64
  base : ℕ → ℕ

/-- The memory of all nodes. -/
abbrev Memories := ℕ → Memory

/-- Change the memory of one node. -/
def Memories.on (mem : Memories) (node : ℕ) (f : Memory → Memory) : Memories :=
  Function.update mem node (f (mem node))

@[simp] lemma Memories.on_self (mem : Memories) (node : ℕ) (f : Memory → Memory) :
    mem.on node f node = f (mem node) := Function.update_self ..

lemma Memories.on_of_ne (mem : Memories) {node other : ℕ} (h : other ≠ node)
    (f : Memory → Memory) : mem.on node f other = mem other := Function.update_of_ne h ..

namespace RdmaItem

/-- The header in the local buffer. -/
def header (it : RdmaItem) : ℕ := it.dataPtr - rdmaValHeaderSize

/-- Where `lock_writes_w_rdma` and `validate_reads_w_rdma` look for the header
when the requests are done: `data_ptr - sizeof(MemNode)`. -/
def checked (it : RdmaItem) : ℕ := it.dataPtr - memNodeSize

lemma checked_setSeq (it : RdmaItem) (seq : BitVec 64) : { it with seq }.checked = it.checked := rfl

/-- The address a one-sided request goes to. -/
def target (env : RdmaEnv) (it : RdmaItem) : ℕ := env.base it.pid + it.ref

/-- The address of the record. -/
def address (env : RdmaEnv) (it : RdmaItem) : ℕ :=
  if it.pid = env.nodeId then it.ref else it.target env

end RdmaItem

/-! ## Locking -/

/-- `RDMALockReq`: compare-and-swap of the lock word from 0, and a read of the
sequence number, both into the header of the local buffer. -/
def lockReq (env : RdmaEnv) (it : RdmaItem) (mem : Memories) : Memories :=
  let old := (mem it.pid).u64 (it.target env)
  let mem := if old = 0#64 then mem.on it.pid fun m => m.putU64 (it.target env) env.lockContent
    else mem
  let mem := mem.on env.nodeId fun m => m.putU64 it.header old
  let seq := (mem it.pid).u64 (it.target env + 8)
  mem.on env.nodeId fun m => m.putU64 (it.header + 8) seq

/-- The first loop of `lock_writes_w_rdma`. A record counts as remote if its
`pid` is 0. The write set comes back with the sequence numbers copied out of
the buffers. -/
def postLocks (env : RdmaEnv) :
    List RdmaItem → Memories → Bool × List RdmaItem × Memories
  | [], mem => (true, [], mem)
  | it :: rest, mem =>
      if it.pid = 0 then
        let it := { it with seq := (mem env.nodeId).u64 (it.header + 8) }
        let r := postLocks env rest (lockReq env it mem)
        (r.1, it :: r.2.1, r.2.2)
      else if (mem env.nodeId).u64 it.ref ≠ 0#64 then (false, [], mem)
      else
        let mem := mem.on env.nodeId fun m => m.putU64 it.ref env.lockContent
        -- `local_validate_op`, which wants the lock word to be 0
        if (it.seq = (mem env.nodeId).u64 (it.ref + 8) &&
            (mem env.nodeId).u64 it.ref = 0#64) = false then (false, [], mem)
        else
          let r := postLocks env rest mem
          (r.1, it :: r.2.1, r.2.2)

/-- The second loop. A lock word other than 0 meets `ASSERT(false)`. -/
def checkLocks (env : RdmaEnv) (m : Memory) : List RdmaItem → Outcome Bool
  | [] => .done true
  | it :: rest =>
      if it.pid ≠ env.nodeId then
        if m.u64 it.checked ≠ 0#64 then .exit
        else if m.u64 (it.checked + 8) ≠ it.seq then .done false
        else checkLocks env m rest
      else checkLocks env m rest

/-- `OCCR::lock_writes_w_rdma` with `NO_ABORT` = 0. -/
def lockWritesWRdma (env : RdmaEnv) (writeSet : List RdmaItem) (mem : Memories) :
    Outcome (Bool × Memories) :=
  match postLocks env writeSet mem with
  | (false, _, mem) => .done (false, mem)
  | (true, items, mem) => checkLocks env (mem env.nodeId) items >>= fun ok => .done (ok, mem)

/-- The sequence number the transaction has read: it stands in the buffer of a
remote record and in the item of a local one. -/
def seqRead (env : RdmaEnv) (mem : Memories) (it : RdmaItem) : BitVec 64 :=
  if it.pid = env.nodeId then it.seq else (mem env.nodeId).u64 (it.header + 8)

/-- The record is locked by the transaction and as it was read from `mem0`. -/
def LockedAsRead (env : RdmaEnv) (mem0 mem : Memories) (it : RdmaItem) : Prop :=
  (mem it.pid).u64 (it.address env) = env.lockContent ∧
    (mem it.pid).u64 (it.address env + 8) = seqRead env mem0 it

/-- Buffers, records and the words in front of the buffers do not overlap. -/
structure LockLayout (env : RdmaEnv) (writeSet : List RdmaItem) : Prop where
  /-- a buffer has room for its header and what is looked at in front of it -/
  room : ∀ it ∈ writeSet, memNodeSize ≤ it.dataPtr
  headers : writeSet.Pairwise fun it it' => Apart it.header 16 it'.header 16
  checked : ∀ it ∈ writeSet, ∀ it' ∈ writeSet, Apart it.checked 16 it'.header 16
  targets : ∀ it ∈ writeSet, ∀ it' ∈ writeSet, it.target env = it'.target env ∨
    Apart (it.target env) 16 (it'.target env) 16
  /-- on node 0 all of this is one memory -/
  own : env.nodeId = 0 → ∀ it ∈ writeSet, ∀ it' ∈ writeSet,
    Apart (it.target env) 16 it'.header 16 ∧ Apart (it.target env) 16 it'.checked 16 ∧
      Apart it.ref 16 (it'.target env) 16 ∧ Apart it.ref 16 it'.header 16

section Lock

variable {env : RdmaEnv} {it : RdmaItem} {mem : Memories} {writeSet : List RdmaItem}

/-- What a lock request leaves alone: words that it does not write, and a lock
word that is not 0. -/
def Untouched (env : RdmaEnv) (mem : Memories) (node a : ℕ) (it : RdmaItem) : Prop :=
  (node = env.nodeId → Apart a 8 it.header 16) ∧
    (node = 0 → Apart a 8 (it.target env) 8 ∨ (a = it.target env ∧ (mem 0).u64 a ≠ 0#64))

lemma u64_on_header {node a : ℕ} (h : node = env.nodeId → Apart a 8 it.header 16)
    (mem : Memories) {d : ℕ} (hd : d = 0 ∨ d = 8) (w : BitVec 64) :
    ((mem.on env.nodeId fun m => m.putU64 (it.header + d) w) node).u64 a = (mem node).u64 a := by
  by_cases hnd : node = env.nodeId
  · rw [hnd, Memories.on_self]
    refine u64_putU64_apart ?_
    have := h hnd
    unfold Apart at this ⊢
    omega
  · rw [Memories.on_of_ne mem hnd]

lemma u64_lockReq {node a : ℕ} (hpid : it.pid = 0) (h : Untouched env mem node a it) :
    (lockReq env it mem node).u64 a = (mem node).u64 a := by
  have hswap : ((if (mem it.pid).u64 (it.target env) = 0#64 then
      mem.on it.pid fun m => m.putU64 (it.target env) env.lockContent else mem) node).u64 a
        = (mem node).u64 a := by
    rw [hpid]
    split_ifs with hz
    · by_cases hnd : node = 0
      · rw [hnd, Memories.on_self]
        refine u64_putU64_apart ((h.2 hnd).resolve_right ?_)
        rintro ⟨rfl, hne⟩
        exact hne hz
      · rw [Memories.on_of_ne mem hnd]
    · rfl
  rw [lockReq, u64_on_header h.1 _ (.inr rfl)]
  have hfst := u64_on_header h.1 (if (mem it.pid).u64 (it.target env) = 0#64 then
      mem.on it.pid fun m => m.putU64 (it.target env) env.lockContent else mem) (.inl rfl)
      ((mem it.pid).u64 (it.target env))
  rw [add_zero] at hfst
  rw [hfst, hswap]

lemma lock_lockReq (hpid : it.pid = 0)
    (hown : env.nodeId = 0 → Apart (it.target env) 16 it.header 16) :
    (lockReq env it mem 0).u64 (it.target env)
      = if (mem 0).u64 (it.target env) = 0#64 then env.lockContent
        else (mem 0).u64 (it.target env) := by
  have hhdr : (0 : ℕ) = env.nodeId → Apart (it.target env) 8 it.header 16 := fun h =>
    (hown h.symm).of_le (by decide) le_rfl
  rw [lockReq, u64_on_header hhdr _ (.inr rfl), hpid]
  have hfst := u64_on_header hhdr (if (mem 0).u64 (it.target env) = 0#64 then
      mem.on 0 fun m => m.putU64 (it.target env) env.lockContent else mem) (.inl rfl)
      ((mem 0).u64 (it.target env))
  rw [add_zero] at hfst
  rw [hfst]
  split
  · rw [Memories.on_self, u64_putU64]
  · rfl

/-- The first loop on records that all count as remote. -/
def lockReqs (env : RdmaEnv) (writeSet : List RdmaItem) (mem : Memories) : Memories :=
  writeSet.foldl (fun mem it => lockReq env it mem) mem

lemma u64_lockReqs {node a : ℕ} (hpid : ∀ it ∈ writeSet, it.pid = 0)
    (h : ∀ it ∈ writeSet, Untouched env mem node a it) :
    (lockReqs env writeSet mem node).u64 a = (mem node).u64 a := by
  induction writeSet generalizing mem with
  | nil => rfl
  | cons it rest ih =>
    obtain ⟨hit, hrs⟩ := forall_mem_cons.mp hpid
    obtain ⟨hfr, hfrs⟩ := forall_mem_cons.mp h
    have hkp := u64_lockReq hit hfr
    rw [lockReqs, foldl_cons, ← lockReqs, ih hrs, hkp]
    intro it' hit'
    refine ⟨(hfrs it' hit').1, fun hnd => ((hfrs it' hit').2 hnd).imp id fun hsm =>
      ⟨hsm.1, ?_⟩⟩
    subst hnd
    rw [hkp]
    exact hsm.2

lemma lockReq_setSeq (it : RdmaItem) (seq : BitVec 64) (mem : Memories) :
    lockReq env { it with seq } mem = lockReq env it mem := rfl

/-- The write set as the first loop leaves it. -/
def withSeqs (env : RdmaEnv) (mem : Memories) (writeSet : List RdmaItem) : List RdmaItem :=
  writeSet.map fun it => { it with seq := (mem env.nodeId).u64 (it.header + 8) }

lemma LockLayout.tail (h : LockLayout env (it :: writeSet)) : LockLayout env writeSet := by
  have hsub : ∀ it' ∈ writeSet, it' ∈ it :: writeSet := fun _ => mem_cons_of_mem _
  exact ⟨fun a ha => h.room a (hsub a ha), (pairwise_cons.mp h.headers).2,
    fun a ha b hb => h.checked a (hsub a ha) b (hsub b hb),
    fun a ha b hb => h.targets a (hsub a ha) b (hsub b hb),
    fun h0 a ha b hb => h.own h0 a (hsub a ha) b (hsub b hb)⟩

lemma postLocks_remote (hlay : LockLayout env writeSet) (hpid : ∀ it ∈ writeSet, it.pid = 0) :
    postLocks env writeSet mem = (true, withSeqs env mem writeSet, lockReqs env writeSet mem) := by
  induction writeSet generalizing mem with
  | nil => rfl
  | cons it rest ih =>
    obtain ⟨hit, hrs⟩ := forall_mem_cons.mp hpid
    have hseqs : withSeqs env (lockReq env it mem) rest = withSeqs env mem rest := by
      refine map_congr_left fun it' hit' => ?_
      have hwr : (lockReq env it mem env.nodeId).u64 (it'.header + 8)
          = (mem env.nodeId).u64 (it'.header + 8) := by
        refine u64_lockReq hit ⟨fun _ => ?_, fun hnd => .inl ?_⟩
        · have := (pairwise_cons.mp hlay.headers).1 it' hit'
          exact this.symm.word (by omega)
        · have := (hlay.own hnd it mem_cons_self it' (mem_cons_of_mem _ hit')).1
          exact (this.symm.word (by decide)).of_le le_rfl (by decide)
      rw [hwr]
    rw [postLocks, if_pos hit]
    dsimp only
    rw [lockReq_setSeq, ih hlay.tail hrs, hseqs]
    rfl

/-- A record with another `pid` makes the loop fail, locked or not. -/
lemma postLocks_local (hcon : env.lockContent ≠ 0#64)
    (hloc : ∃ it ∈ writeSet, it.pid ≠ 0) : (postLocks env writeSet mem).1 = false := by
  induction writeSet generalizing mem with
  | nil =>
    obtain ⟨it, hit, -⟩ := hloc
    cases hit
  | cons it rest ih =>
    rw [postLocks]
    split
    · rename_i hit
      refine ih ?_
      obtain ⟨it', hit', hp'⟩ := hloc
      rcases mem_cons.mp hit' with rfl | hit'
      · exact absurd hit hp'
      · exact ⟨it', hit', hp'⟩
    · split
      · rfl
      · dsimp only
        rw [Memories.on_self, u64_putU64]
        simp [hcon]

/-- The second loop lets through what agrees with the words in front of the
buffers. -/
lemma checkLocks_true {m : Memory} {items : List RdmaItem} : checkLocks env m items = .done true ↔
      ∀ it ∈ items, it.pid ≠ env.nodeId →
        m.u64 it.checked = 0#64 ∧ m.u64 (it.checked + 8) = it.seq := by
  induction items with
  | nil => exact ⟨fun _ => nofun, fun _ => rfl⟩
  | cons it rest ih =>
    rw [checkLocks, forall_mem_cons]
    by_cases hp : it.pid = env.nodeId
    · rw [if_neg (not_not.mpr hp), ih]
      exact ⟨fun h => ⟨fun hne => absurd hp hne, h⟩, And.right⟩
    · rw [if_pos hp]
      by_cases hlk : m.u64 it.checked = 0#64
      · rw [if_neg (not_not.mpr hlk)]
        by_cases hseq : m.u64 (it.checked + 8) = it.seq
        · rw [if_neg (not_not.mpr hseq), ih]
          exact ⟨fun h => ⟨fun _ => ⟨hlk, hseq⟩, h⟩, And.right⟩
        · rw [if_pos hseq]
          refine ⟨fun h => ?_, fun h => absurd (h.1 hp).2 hseq⟩
          cases h
      · rw [if_pos hlk]
        refine ⟨fun h => ?_, fun h => absurd (h.1 hp).1 hlk⟩
        cases h

/-- The words in front of the buffers happen to look like a free lock and the
sequence number read. Node 0 does not look. -/
def PassesCheck (env : RdmaEnv) (writeSet : List RdmaItem) (mem : Memories) : Prop :=
  env.nodeId ≠ 0 → ∀ it ∈ writeSet, (mem env.nodeId).u64 it.checked = 0#64 ∧
    (mem env.nodeId).u64 (it.checked + 8) = (mem env.nodeId).u64 (it.header + 8)

lemma lockWritesWRdma_true (hcon : env.lockContent ≠ 0#64)
    (hlay : LockLayout env writeSet) {mem' : Memories} :
    lockWritesWRdma env writeSet mem = .done (true, mem') ↔
      (∀ it ∈ writeSet, it.pid = 0) ∧ PassesCheck env writeSet mem ∧
        mem' = lockReqs env writeSet mem := by
  by_cases hpid : ∀ it ∈ writeSet, it.pid = 0
  · have hwds : ∀ it ∈ writeSet, ∀ d, d = 0 ∨ d = 8 →
        (lockReqs env writeSet mem env.nodeId).u64 (it.checked + d)
          = (mem env.nodeId).u64 (it.checked + d) := by
      intro it hit d hd
      refine u64_lockReqs hpid fun it' hit' => ⟨fun _ => ?_, fun hnd => .inl ?_⟩
      · exact (hlay.checked it hit it' hit').word (by omega)
      · have := (hlay.own hnd it' hit' it hit).2.1
        exact (this.symm.word (by omega)).of_le le_rfl (by decide)
    have hchk : checkLocks env (lockReqs env writeSet mem env.nodeId)
        (withSeqs env mem writeSet) = .done true ↔ PassesCheck env writeSet mem := by
      rw [checkLocks_true, withSeqs, forall_mem_map]
      simp only [RdmaItem.checked_setSeq]
      constructor
      · intro h hnd it hit
        have hne : it.pid ≠ env.nodeId := by
          rw [hpid it hit]
          exact hnd.symm
        have hps := h it hit hne
        have h0 := hwds it hit 0 (.inl rfl)
        rw [add_zero] at h0
        exact ⟨h0.symm.trans hps.1, (hwds it hit 8 (.inr rfl)).symm.trans hps.2⟩
      · intro h it hit hne
        have hnd : env.nodeId ≠ 0 := by
          intro h0
          exact hne ((hpid it hit).trans h0.symm)
        have h0 := hwds it hit 0 (.inl rfl)
        rw [add_zero] at h0
        exact ⟨h0.trans (h hnd it hit).1, (hwds it hit 8 (.inr rfl)).trans (h hnd it hit).2⟩
    rw [lockWritesWRdma, postLocks_remote hlay hpid]
    dsimp only
    constructor
    · intro h
      obtain ⟨ok, hok, heq⟩ := Outcome.bind_eq_done.mp h
      cases heq
      exact ⟨hpid, hchk.mp hok, rfl⟩
    · rintro ⟨-, hps, rfl⟩
      rw [hchk.mpr hps]
      rfl
  · refine ⟨fun h => ?_, fun h => absurd h.1 hpid⟩
    push Not at hpid
    have hf : (postLocks env writeSet mem).1 = false := postLocks_local hcon hpid
    rw [lockWritesWRdma] at h
    split at h
    · cases h
    · rename_i heq
      rw [heq] at hf
      cases hf

lemma lock_lockReqs (hcon : env.lockContent ≠ 0#64) (hlay : LockLayout env writeSet)
    (hpid : ∀ it ∈ writeSet, it.pid = 0) (hit : it ∈ writeSet) :
    (lockReqs env writeSet mem 0).u64 (it.target env)
      = if (mem 0).u64 (it.target env) = 0#64 then env.lockContent
        else (mem 0).u64 (it.target env) := by
  induction writeSet generalizing mem with
  | nil => cases hit
  | cons it0 rest ih =>
    obtain ⟨hit0, hrs⟩ := forall_mem_cons.mp hpid
    have hfst : (lockReq env it0 mem 0).u64 (it0.target env)
        = if (mem 0).u64 (it0.target env) = 0#64 then env.lockContent
          else (mem 0).u64 (it0.target env) := lock_lockReq hit0 fun h0 =>
      (hlay.own h0 it0 mem_cons_self it0 mem_cons_self).1
    rw [lockReqs, foldl_cons, ← lockReqs]
    by_cases hsm : it.target env = it0.target env
    · -- the first request on this word has left it other than 0
      rw [hsm]
      have hne : (lockReq env it0 mem 0).u64 (it0.target env) ≠ 0#64 := by
        rw [hfst]
        split
        · exact hcon
        · assumption
      rw [u64_lockReqs hrs, hfst]
      intro it' hit'
      have hmem' := mem_cons_of_mem it0 hit'
      refine ⟨fun hnd => ?_, fun _ => ?_⟩
      · exact (hlay.own hnd.symm it0 mem_cons_self it' hmem').1.of_le (by decide) le_rfl
      · rcases hlay.targets it0 mem_cons_self it' hmem' with heq | hap
        · exact .inr ⟨heq, hne⟩
        · exact .inl (hap.of_le (by decide) (by decide))
    · have hin : it ∈ rest := by
        rcases mem_cons.mp hit with rfl | h
        · exact absurd rfl hsm
        · exact h
      have hkp : (lockReq env it0 mem 0).u64 (it.target env) = (mem 0).u64 (it.target env) := by
        refine u64_lockReq hit0 ⟨fun hnd => ?_, fun _ => .inl ?_⟩
        · exact (hlay.own hnd.symm it hit it0 mem_cons_self).1.of_le (by decide) le_rfl
        · have := (hlay.targets it hit it0 mem_cons_self).resolve_left hsm
          exact this.of_le (by decide) (by decide)
      rw [ih hlay.tail hrs hin, hkp]

/-- **What `lock_writes_w_rdma` answers is right exactly in these cases**: it
does not answer true, because some record has a `pid` other than 0 or the words
in front of a buffer are not what is looked for; or the records were free, or
held by the transaction, and unchanged. On node 0 the requests do not reach the
records. -/
theorem lock_w_rdma_sound_iff (env : RdmaEnv) (hcontent : env.lockContent ≠ 0#64)
    (writeSet : List RdmaItem) (hlayout : LockLayout env writeSet) (mem : Memories) :
    (∀ mem', lockWritesWRdma env writeSet mem = .done (true, mem') →
        ∀ it ∈ writeSet, LockedAsRead env mem mem' it) ↔
      (∃ it ∈ writeSet, it.pid ≠ 0) ∨ ¬ PassesCheck env writeSet mem ∨
        ∀ it ∈ writeSet,
          ((mem it.pid).u64 (it.address env) = env.lockContent ∨
            ((mem it.pid).u64 (it.address env) = 0#64 ∧ env.nodeId ≠ 0)) ∧
          (mem it.pid).u64 (it.address env + 8) = seqRead env mem it := by
  by_cases hpid : ∀ it ∈ writeSet, it.pid = 0
  swap
  · refine ⟨fun _ => .inl (by push Not at hpid; exact hpid), fun _ mem' h => ?_⟩
    exact absurd ((lockWritesWRdma_true hcontent hlayout).mp h).1 hpid
  by_cases hps : PassesCheck env writeSet mem
  swap
  · refine ⟨fun _ => .inr (.inl hps), fun _ mem' h => ?_⟩
    exact absurd ((lockWritesWRdma_true hcontent hlayout).mp h).2.1 hps
  have hone : (∀ mem', lockWritesWRdma env writeSet mem = .done (true, mem') →
      ∀ it ∈ writeSet, LockedAsRead env mem mem' it) ↔
      ∀ it ∈ writeSet, LockedAsRead env mem (lockReqs env writeSet mem) it := by
    constructor
    · intro h
      exact h _ ((lockWritesWRdma_true hcontent hlayout).mpr ⟨hpid, hps, rfl⟩)
    · intro h mem' hrun
      rw [((lockWritesWRdma_true hcontent hlayout).mp hrun).2.2]
      exact h
  rw [hone, or_iff_right fun ⟨it, hit, hne⟩ => hne (hpid it hit), or_iff_right (not_not.mpr hps)]
  refine forall₂_congr fun it hit => ?_
  unfold LockedAsRead
  rw [hpid it hit]
  by_cases hnd : env.nodeId = 0
  · -- the record is at `ref`, which no request touches
    have had : it.address env = it.ref := if_pos ((hpid it hit).trans hnd.symm)
    have hkp : ∀ d, d = 0 ∨ d = 8 → (lockReqs env writeSet mem 0).u64 (it.ref + d)
        = (mem 0).u64 (it.ref + d) := by
      intro d hd
      refine u64_lockReqs hpid fun it' hit' => ⟨fun _ => ?_, fun _ => .inl ?_⟩
      · exact (hlayout.own hnd it hit it' hit').2.2.2.word (by omega)
      · have := (hlayout.own hnd it hit it' hit').2.2.1
        exact (this.word (by omega)).of_le le_rfl (by decide)
    have h0 := hkp 0 (.inl rfl)
    rw [add_zero] at h0
    rw [had, h0, hkp 8 (.inr rfl)]
    simp [hnd]
  · have had : it.address env = it.target env := if_neg fun h => hnd (h.symm.trans (hpid it hit))
    have hseq : (lockReqs env writeSet mem 0).u64 (it.target env + 8)
        = (mem 0).u64 (it.target env + 8) := by
      refine u64_lockReqs hpid fun it' hit' => ⟨fun h => absurd h.symm hnd, fun _ => .inl ?_⟩
      rcases hlayout.targets it hit it' hit' with heq | hap
      · unfold Apart
        omega
      · exact (hap.word (by decide)).of_le le_rfl (by decide)
    rw [had, hseq, lock_lockReqs hcontent hlayout hpid hit]
    refine and_congr_left fun _ => ?_
    split_ifs with hz
    · exact ⟨fun _ => .inr ⟨hz, hnd⟩, fun _ => rfl⟩
    · exact ⟨.inl, fun h => h.resolve_right fun h' => hz h'.1⟩

end Lock

/-- Node 1 with memory registered from address 0 on. -/
def sampleEnv : RdmaEnv := ⟨1, 9#64, fun _ => 0⟩

/-- A record at offset 0 of node 0, with its buffer at address 128. -/
def sampleItem : RdmaItem := ⟨0, 0, 128, 8, 0#64⟩

lemma sampleLayout : LockLayout sampleEnv [sampleItem] := by
  refine ⟨?_, pairwise_singleton _ _, ?_, ?_, by decide⟩
  · simp only [mem_singleton, forall_eq]
    decide
  · simp only [mem_singleton, forall_eq]
    decide
  · simp only [mem_singleton, forall_eq]
    decide

/-- In zero-filled memory the record is free and unchanged. -/
theorem lock_w_rdma_sound_zero : sampleEnv.lockContent ≠ 0#64 ∧ LockLayout sampleEnv [sampleItem] ∧
      ∀ mem', lockWritesWRdma sampleEnv [sampleItem] (fun _ _ => 0#8) = .done (true, mem') →
        ∀ it ∈ [sampleItem], LockedAsRead sampleEnv (fun _ _ => 0#8) mem' it := by
  refine ⟨by decide, sampleLayout, (lock_w_rdma_sound_iff sampleEnv (by decide) [sampleItem]
    sampleLayout fun _ _ => 0#8).mpr (.inr (.inr ?_))⟩
  simp only [mem_singleton, forall_eq]
  decide

/-- The record is held by somebody else: its lock word is 5. -/
theorem lock_w_rdma_unsound : ¬ ∀ (env : RdmaEnv) (writeSet : List RdmaItem) (mem mem' : Memories),
        env.lockContent ≠ 0#64 → LockLayout env writeSet →
        lockWritesWRdma env writeSet mem = .done (true, mem') →
        ∀ it ∈ writeSet, LockedAsRead env mem mem' it := by
  intro hall
  set mem : Memories := fun node a => if node = 0 ∧ a = 0 then 5#8 else 0#8
  have hrun : lockWritesWRdma sampleEnv [sampleItem] mem
      = .done (true, lockReqs sampleEnv [sampleItem] mem) := by
    refine (lockWritesWRdma_true (by decide) sampleLayout).mpr ⟨?_, fun _ => ?_, rfl⟩
    · simp only [mem_singleton, forall_eq]
      decide
    · simp only [mem_singleton, forall_eq]
      decide
  have h := hall sampleEnv [sampleItem] mem _ (by decide) sampleLayout hrun sampleItem
    (mem_singleton_self _)
  exact absurd h.1 (by decide)

end Librdpma.Drtmh
