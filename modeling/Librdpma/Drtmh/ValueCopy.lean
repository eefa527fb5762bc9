import Librdpma.Lib.ByteMemory
import Librdpma.Lib.Outcome
import Librdpma.Drtmh.Record

/-!
# Copying values (`src/rtx/local_op_impl.hpp`, `src/rtx/occ.cc`)

`nt_memcpy_128` copies a value by 8-byte stores; `OPT_NT` selects it. Without
it `inplace_write_op` and `local_get_op` copy the bytes from an offset `meta`
on. Its default is 0, and some of their callers pass the `meta_len` of the
table.
-/

namespace Librdpma.Drtmh

open Lib Memory List Outcome

/-! ## The copy by 8-byte stores -/

/-- The loop of `nt_memcpy_128` with `OPT_NT_ALIGN` = 0: `cur` and the memory
at its end. `int cur` is advanced before each store. -/
def streamWords (src size target cur : ℕ) (m : Memory) : Outcome (ℕ × Memory) :=
  if cur < size then
    if cur + 8 < 2 ^ 31 then
      streamWords src size target (cur + 8)
        (m.write (target + (cur + 8)) (m.read (src + (cur + 8)) 8))
    else .undefined
  else .done (cur, m)
termination_by size - cur

/-- `nt_memcpy_128` on a memory. -/
def ntMemcpy128At (src size target : ℕ) (m : Memory) : Outcome (ℕ × Memory) :=
  streamWords src size target 0 m

/-- `memcpy` from `src` to `target`. -/
def IsCopy (src size target : ℕ) (m m' : Memory) : Prop :=
  (∀ i < size, m' (target + i) = m (src + i)) ∧ ∀ a, a < target ∨ target + size ≤ a → m' a = m a

/-- The byte stored at offset `j` of the target. Behind the source the last
store may read what the first one has written. -/
def streamed (src target : ℕ) (m : Memory) (j : ℕ) : BitVec 8 :=
  if src < target ∧ target + 8 ≤ src + j ∧ 16 ≤ j then m (src + (src + j - target)) else m (src + j)

/-- The memory after `k` stores. -/
def Streamed (src target k : ℕ) (m m' : Memory) : Prop :=
  ∀ a, m' a = if target + 8 ≤ a ∧ a < target + (8 * k + 8) then streamed src target m (a - target)
    else m a

section Stream

variable {src size target k : ℕ} {m m' : Memory}

lemma Streamed.step (hap : Apart src size target size) (hk : 8 * k < size)
    (h : Streamed src target k m m') :
    Streamed src target (k + 1) m
      (m'.write (target + (8 * k + 8)) (m'.read (src + (8 * k + 8)) 8)) := by
  intro a
  rw [write_read_apply]
  by_cases hnew : target + (8 * k + 8) ≤ a ∧ a < target + (8 * k + 8) + 8
  · obtain ⟨j, rfl⟩ := Nat.exists_eq_add_of_le (show target ≤ a by omega)
    rw [if_pos hnew, if_pos (by omega), h,
      show src + (8 * k + 8) + (target + j - (target + (8 * k + 8))) = src + j from by omega,
      Nat.add_sub_cancel_left]
    unfold Apart at hap
    by_cases hsn : target + 8 ≤ src + j ∧ src + j < target + (8 * k + 8)
    · -- the byte read was written by the first store
      rw [if_pos hsn, streamed, if_neg (by omega), streamed, if_pos (by omega)]
    · rw [if_neg hsn, streamed, if_neg (by omega)]
  · rw [if_neg hnew, h]
    by_cases hold : target + 8 ≤ a ∧ a < target + (8 * k + 8)
    · rw [if_pos hold, if_pos (by omega)]
    · rw [if_neg hold, if_neg (by omega)]

lemma streamWords_spec (hap : Apart src size target size) {k : ℕ} {m' : Memory}
    (hk : 8 * k < size + 8) (hint : 8 * k < 2 ^ 31) (h : Streamed src target k m m') :
    if size ≤ 2 ^ 31 - 8 then
      ∃ m'', streamWords src size target (8 * k) m' = .done (8 * ((size + 7) / 8), m'') ∧
        Streamed src target ((size + 7) / 8) m m''
    else streamWords src size target (8 * k) m' = .undefined := by
  rw [streamWords]
  by_cases hlt : 8 * k < size
  · rw [if_pos hlt]
    by_cases hint' : 8 * k + 8 < 2 ^ 31
    · rw [if_pos hint']
      exact streamWords_spec (k := k + 1) hap (by omega) (by omega) (h.step hap hlt)
    · rw [if_neg hint', if_neg (by omega)]
  · rw [if_neg hlt, if_pos (by omega)]
    have hend : (size + 7) / 8 = k := by omega
    rw [hend]
    exact ⟨m', rfl, h⟩
termination_by size - 8 * k

lemma streamed_zero (m : Memory) : Streamed src target 0 m m := by
  intro a
  rw [if_neg (by omega)]

lemma Streamed.isCopy_iff (hap : Apart src size target size)
    (h : Streamed src target ((size + 7) / 8) m m') :
    IsCopy src size target m m' ↔
      (∀ i < size, i < 8 → m (target + i) = m (src + i)) ∧
        ∀ j, 8 ≤ j → size ≤ j → j < 8 * ((size + 7) / 8) + 8 →
          streamed src target m j = m (target + j) := by
  have hfst : ∀ i < 8, m' (target + i) = m (target + i) := by
    intro i hi
    rw [h, if_neg (by omega)]
  have hnx : ∀ j, 8 ≤ j → j < 8 * ((size + 7) / 8) + 8 →
      m' (target + j) = streamed src target m j := by
    intro j hj hj'
    rw [h, if_pos (by omega), Nat.add_sub_cancel_left]
  constructor
  · rintro ⟨hin, hout⟩
    refine ⟨fun i hi hi8 => ?_, fun j hj hsz hend => ?_⟩
    · rw [← hfst i hi8, hin i hi]
    · rw [← hnx j hj hend, hout _ (.inr (by omega))]
  · rintro ⟨hst, hend⟩
    refine ⟨fun i hi => ?_, fun a ha => ?_⟩
    · by_cases hi8 : i < 8
      · rw [hfst i hi8, hst i hi hi8]
      · unfold Apart at hap
        rw [hnx i (by omega) (by omega), streamed, if_neg (by omega)]
    · by_cases hcov : target + 8 ≤ a ∧ a < target + (8 * ((size + 7) / 8) + 8)
      · obtain ⟨j, rfl⟩ := Nat.exists_eq_add_of_le (show target ≤ a by omega)
        rw [hnx j (by omega) (by omega), hend j (by omega) (by omega) (by omega)]
      · rw [h, if_neg hcov]

end Stream

/-- **`nt_memcpy_128` is a `memcpy` exactly if** the loop stays within `int`,
the first 8 bytes are there already, and so is what the last store brings behind
the end. -/
theorem ntMemcpy128At_isCopy_iff (src size target : ℕ) (m : Memory)
    (hap : Apart src size target size) :
    (∃ cur m', ntMemcpy128At src size target m = .done (cur, m') ∧ IsCopy src size target m m') ↔
      size ≤ 2 ^ 31 - 8 ∧ (∀ i < size, i < 8 → m (target + i) = m (src + i)) ∧
        ∀ j, 8 ≤ j → size ≤ j → j < 8 * ((size + 7) / 8) + 8 →
          streamed src target m j = m (target + j) := by
  have hrun := streamWords_spec hap (by omega) (by omega) (streamed_zero m)
  rw [mul_zero] at hrun
  unfold ntMemcpy128At
  by_cases hsz : size ≤ 2 ^ 31 - 8
  · rw [if_pos hsz] at hrun
    obtain ⟨m'', hdn, hstr⟩ := hrun
    rw [hdn, and_iff_right hsz, ← hstr.isCopy_iff hap]
    constructor
    · rintro ⟨_, _, heq, hcp⟩
      cases heq
      exact hcp
    · exact fun hcp => ⟨_, _, rfl, hcp⟩
  · rw [if_neg hsz] at hrun
    rw [hrun]
    exact iff_of_false (fun ⟨_, _, h, _⟩ => nomatch h) fun h => hsz h.1

/-- The bytes 0 to 63, and at 64 the same again but for 12 zero bytes at 72. -/
def gapMemory : Memory := fun a => if 72 ≤ a ∧ a < 84 then 0#8 else BitVec.ofNat 8 (a % 64)

theorem ntMemcpy128At_isCopy_gap : Apart 0 20 64 20 ∧ ∃ cur m',
    ntMemcpy128At 0 20 64 gapMemory = .done (cur, m') ∧ IsCopy 0 20 64 gapMemory m' := by
  have hend : ∀ j < 8 * ((20 + 7) / 8) + 8, 8 ≤ j → 20 ≤ j →
      streamed 0 64 gapMemory j = gapMemory (64 + j) := by
    decide
  exact ⟨by decide, (ntMemcpy128At_isCopy_iff 0 20 64 _ (by decide)).mpr
    ⟨by decide, by decide, fun j h8 h20 hlt => hend j hlt h8 h20⟩⟩

/-- One byte is not copied. -/
theorem ntMemcpy128At_one_byte : ∃ m', ntMemcpy128At 0 1 64 (fun a => if a = 0 then 1#8 else 0#8)
    = .done (8, m') ∧ m' 64 = 0#8 := by
  unfold ntMemcpy128At
  rw [streamWords, if_pos (by decide), if_pos (by decide), streamWords, if_neg (by decide)]
  exact ⟨_, rfl, by decide⟩

/-! ## The offset of the value -/

/-- The paths of OCC that write a record at commit. -/
inductive Writer : Type where
  | writeBackOneshot
  | commitOneshotHandler
deriving DecidableEq

/-- The paths of OCC that read a record. -/
inductive Reader : Type where
  | localRead
  | reqRead
  | reqReadLock
deriving DecidableEq

/-- A record with the bytes `value` points to, unless it is NULL. -/
abbrev ByteNode := MemNode (Option Memory)

/-- `inplace_write_op` with `OPT_NT` = 0; `fresh` is what `malloc` returns. -/
def MemNode.inplaceWriteBytes (fresh : Memory) (val : List (BitVec 8)) (off : ℕ) (n : ByteNode) :
    Outcome ByteNode :=
  if n.seq = 1#64 then .exit
  else .done (n.inplaceWriteOp (some ((n.value.getD fresh).write off val)))

/-- `local_get_op`, with the assertion on `value`. -/
def MemNode.localGetBytes (len off : ℕ) (n : ByteNode) : Outcome (List (BitVec 8)) :=
  match n.value, n.localGetOp with
  | none, _ => .exit
  | some _, none => .loop
  | some value, some _ => .done (value.read off len)

/-- The local branch of `write_back_oneshot` leaves the offset at its default. -/
def Writer.commit (metaLen : ℕ) (fresh : Memory) (val : List (BitVec 8)) (n : ByteNode) :
    Writer → Outcome ByteNode
  | .writeBackOneshot => n.inplaceWriteBytes fresh val 0
  | .commitOneshotHandler => n.inplaceWriteBytes fresh val metaLen

/-- `RTX_REQ_READ_LOCK` leaves the offset at its default. It returns no bytes if
the record is locked. -/
def Reader.fetch (metaLen len : ℕ) (lockContent : BitVec 64) (n : ByteNode) :
    Reader → Outcome (List (BitVec 8))
  | .localRead | .reqRead => n.localGetBytes len metaLen
  | .reqReadLock =>
      match MemNode.localTryLockOp lockContent n with
      | (false, _) => .done []
      | (true, n) => n.localGetBytes len 0

/-- Every path that reads the record returns what any path that writes it has
committed, and the commit keeps the first `metaLen` bytes. -/
def PathsAgree (metaLen : ℕ) (n : ByteNode) : Prop :=
  ∀ (w : Writer) (r : Reader) (fresh : Memory) (val : List (BitVec 8)) (lockContent : BitVec 64),
    ∃ n', w.commit metaLen fresh val n = .done n' ∧
      r.fetch metaLen val.length lockContent n' = .done val ∧
      ∀ v v', n.value = some v → n'.value = some v' → ∀ i < metaLen, v' i = v i

/-- **The paths agree exactly on tables without a prefix.** A sequence number 1
fails the assertion of the writer, and after 71 the writer leaves
`CONFLICT_WRITE_FLAG`. -/
theorem pathsAgree_iff (metaLen : ℕ) (n : ByteNode) :
    PathsAgree metaLen n ↔ metaLen = 0 ∧ n.seq ≠ 1#64 ∧ n.seq ≠ 71#64 := by
  have hfl : n.seq + 2#64 = conflictWriteFlag ↔ n.seq = 71#64 := by
    unfold conflictWriteFlag
    constructor <;> intro h <;> bv_omega
  constructor
  · intro h
    have hseq : n.seq ≠ 1#64 := by
      intro h1
      obtain ⟨n', hn', -⟩ := h .writeBackOneshot .localRead (fun _ => 0#8) [] 0#64
      rw [Writer.commit, MemNode.inplaceWriteBytes, if_pos h1] at hn'
      cases hn'
    -- a byte that differs from the one at `metaLen`
    let old := (n.value.getD fun _ => 0#8) metaLen
    obtain ⟨n', hn', hrd, -⟩ := h .writeBackOneshot .localRead (fun _ => 0#8) [old + 1#8] 0#64
    rw [Writer.commit, MemNode.inplaceWriteBytes, if_neg hseq, done.injEq] at hn'
    subst hn'
    rw [Reader.fetch, MemNode.localGetBytes, MemNode.localGetOp, MemNode.inplaceWriteOp] at hrd
    by_cases hbad : n.seq + 2#64 = conflictWriteFlag
    · simp only [if_pos hbad] at hrd
      cases hrd
    · refine ⟨?_, hseq, fun h71 => hbad (hfl.mpr h71)⟩
      by_contra hmeta
      simp only [if_neg hbad, done.injEq] at hrd
      have hkp : ((n.value.getD fun _ => 0#8).write 0 [old + 1#8]).read metaLen 1
          = (n.value.getD fun _ => 0#8).read metaLen 1 :=
        read_write_apart (.inr (by rw [length_singleton]; omega))
      rw [length_singleton, hkp] at hrd
      simp [Memory.read, old] at hrd
  · rintro ⟨rfl, hseq, hseq'⟩ w r fresh val lockContent
    have hok : n.seq + 2#64 ≠ conflictWriteFlag := fun h => hseq' (hfl.mp h)
    refine ⟨n.inplaceWriteOp (some ((n.value.getD fresh).write 0 val)), ?_, ?_, ?_⟩
    · cases w <;> exact if_neg hseq
    · have hget : ∀ lock, MemNode.localGetBytes val.length 0 ⟨lock, n.seq + 2#64,
          some ((n.value.getD fresh).write 0 val)⟩ = .done val := by
        intro lock
        rw [MemNode.localGetBytes, MemNode.localGetOp, if_neg hok]
        simp only [read_write]
      cases r with
      | localRead | reqRead => exact hget _
      | reqReadLock => exact hget lockContent
    · exact fun _ _ _ _ i hi => absurd hi (Nat.not_lt_zero i)

/-- A prefix of 8 bytes: `local_read` returns the byte before the commit. -/
theorem localRead_misses_commit :
    (Writer.writeBackOneshot.commit 8 (fun _ => 0#8) [1#8] ⟨0#64, 2#64, some fun _ => 0#8⟩).bind
      (fun n => Reader.localRead.fetch 8 1 3#64 n) = .done [0#8] := by
  decide

end Librdpma.Drtmh
