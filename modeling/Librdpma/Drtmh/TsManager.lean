import Librdpma.Lib.Outcome

/-!
# The timestamp oracle (`src/db/txs/ts_manager.hpp`)

`TSManager` hands out commit timestamps and keeps the global timestamp
`ts_buffer[0]` that snapshots start from. With `ONE_CLOCK` = 1 every commit
reports its timestamp to `ts_update_handler`, which queues it and releases what
it can from the top of the queue.

The queue is a `std::priority_queue` over `uint64_t` with the default order, so
its top is the largest timestamp waiting, and the loop compares it with the
value below the global timestamp, not with the one above.
-/

namespace Librdpma.Drtmh

open Lib List

/-- An update message: the node it comes from and `UpdateArg`. -/
structure UpdateMsg where
  id : ℤ
  threadId : BitVec 16
  counter : BitVec 64
deriving DecidableEq

/-- The two assertions of `ts_update_handler` hold. -/
def UpdateMsg.Sent (nthreads : ℕ) (msg : UpdateMsg) : Prop :=
  msg.threadId.toNat < nthreads ∧ 0 ≤ msg.id ∧ msg.id < 64

instance (nthreads : ℕ) (msg : UpdateMsg) : Decidable (msg.Sent nthreads) :=
  inferInstanceAs (Decidable (_ ∧ _))

/-- `pending_ts_` is listed from its top. -/
structure TsManager where
  localTs : BitVec 64
  tsBuffer : BitVec 64
  pendingTs : List (BitVec 64)
deriving DecidableEq

namespace TsManager

/-- The constructor of the class, with `init_ts_meta`. -/
def init : TsManager := { localTs := 3#64, tsBuffer := 2#64, pendingTs := [] }

def getCommitTs (m : TsManager) : BitVec 64 × TsManager :=
  (m.localTs, { m with localTs := m.localTs + 1#64 })

/-- The timestamps of `k` calls of `get_commit_ts`. -/
def commitTss (m : TsManager) : ℕ → List (BitVec 64)
  | 0 => []
  | k + 1 => m.getCommitTs.1 :: m.getCommitTs.2.commitTss k

/-- The loop of `ts_update_handler`. There is no top of an empty queue. -/
def release : List (BitVec 64) → BitVec 64 → Outcome (List (BitVec 64) × BitVec 64)
  | [], _ => .undefined
  | top :: rest, ts => if top = ts - 1#64 then release rest (ts + 1#64) else .done (top :: rest, ts)

def tsUpdateHandler (nthreads : ℕ) (m : TsManager) (msg : UpdateMsg) : Outcome TsManager :=
  if ¬ msg.Sent nthreads then .exit
  else do
    let (pending, ts) ← release (m.pendingTs.orderedInsert (· ≥ ·) msg.counter) m.tsBuffer
    return { m with tsBuffer := ts, pendingTs := pending }

/-- The messages arrive in the order of the list. -/
def run (nthreads : ℕ) : List UpdateMsg → TsManager → Outcome TsManager
  | [], m => .done m
  | msg :: rest, m => do run nthreads rest (← m.tsUpdateHandler nthreads msg)

/-! ## The timestamps that are handed out -/

lemma commitTss_eq (m : TsManager) (k : ℕ) :
    m.commitTss k = (range k).map fun i => m.localTs + BitVec.ofNat 64 i := by
  induction k generalizing m with
  | zero => rfl
  | succ k ih =>
    rw [commitTss, ih, range_succ_eq_map]
    simp only [getCommitTs, map_cons, map_map]
    congr 1
    · exact (BitVec.add_zero _).symm
    · refine map_congr_left fun i _ => ?_
      simp only [Function.comp_apply, Nat.succ_eq_add_one, BitVec.ofNat_add]
      rw [BitVec.add_assoc, BitVec.add_comm 1#64]

/-- As long as the counter does not wrap, a new manager hands out 3, 4, and so
on. -/
lemma mem_commitTss_init {k : ℕ} (hk : k + 2 < 2 ^ 64) {c : BitVec 64} :
    c ∈ init.commitTss k ↔ 3 ≤ c.toNat ∧ c.toNat < k + 3 := by
  rw [commitTss_eq, mem_map]
  constructor
  · rintro ⟨i, hi, rfl⟩
    have hi := mem_range.mp hi
    have h : (init.localTs + BitVec.ofNat 64 i).toNat = 3 + i := by
      simp only [init, BitVec.toNat_add, BitVec.toNat_ofNat]
      omega
    omega
  · rintro ⟨h3, hlt⟩
    refine ⟨c.toNat - 3, mem_range.mpr (by omega), ?_⟩
    apply BitVec.eq_of_toNat_eq
    simp only [init, BitVec.toNat_add, BitVec.toNat_ofNat]
    omega

/-! ## The loop releases nothing -/

/-- A queue whose top is not one below the global timestamp stays as it is. -/
lemma release_of_ne {top ts : BitVec 64} {rest : List (BitVec 64)} (h : top ≠ ts - 1#64) :
    release (top :: rest) ts = .done (top :: rest, ts) := if_neg h

lemma release_of_forall {q : List (BitVec 64)} {ts : BitVec 64} (hne : q ≠ [])
    (h : ∀ c ∈ q, c ≠ ts - 1#64) : release q ts = .done (q, ts) := by
  cases q with
  | nil => exact absurd rfl hne
  | cons top rest => exact release_of_ne (h top mem_cons_self)

/-- Only a queue with the timestamp 1 would move a global timestamp of 2. -/
lemma tsUpdateHandler_done {nthreads : ℕ} {m : TsManager} {msg : UpdateMsg}
    (hts : m.tsBuffer = 2#64) (hq : ∀ c ∈ m.pendingTs, c ≠ 1#64) (hsn : msg.Sent nthreads)
    (hc : msg.counter ≠ 1#64) :
    m.tsUpdateHandler nthreads msg =
      .done { m with pendingTs := m.pendingTs.orderedInsert (· ≥ ·) msg.counter } := by
  have hrel : release (m.pendingTs.orderedInsert (· ≥ ·) msg.counter) m.tsBuffer =
      .done (m.pendingTs.orderedInsert (· ≥ ·) msg.counter, m.tsBuffer) := by
    apply release_of_forall
    · exact ne_nil_of_mem ((mem_orderedInsert _).mpr (.inl rfl))
    · intro c hmem
      rw [hts]
      rcases (mem_orderedInsert _).mp hmem with rfl | hmem
      · exact hc
      · exact hq c hmem
  rw [tsUpdateHandler, if_neg (not_not.mpr hsn), hrel]
  rfl

lemma run_tsBuffer {nthreads : ℕ} {msgs : List UpdateMsg} {m : TsManager}
    (hts : m.tsBuffer = 2#64) (hq : ∀ c ∈ m.pendingTs, c ≠ 1#64)
    (hsn : ∀ msg ∈ msgs, msg.Sent nthreads) (hc : ∀ msg ∈ msgs, msg.counter ≠ 1#64) :
    ∃ m', run nthreads msgs m = .done m' ∧ m'.tsBuffer = 2#64 := by
  induction msgs generalizing m with
  | nil => exact ⟨m, rfl, hts⟩
  | cons msg rest ih =>
    have hmsg := hc msg mem_cons_self
    rw [run, tsUpdateHandler_done hts hq (hsn msg mem_cons_self) hmsg, Outcome.done_bind]
    refine ih hts (fun c hmem => ?_) (fun msg' h => hsn msg' (mem_cons_of_mem _ h))
      (fun msg' h => hc msg' (mem_cons_of_mem _ h))
    rcases (mem_orderedInsert _).mp hmem with rfl | hmem
    · exact hmsg
    · exact hq c hmem

/-! ## The global timestamp -/

/-- All of 3, ..., `t` have been reported. -/
def Complete (msgs : List UpdateMsg) (t : ℕ) : Prop :=
  2 ≤ t ∧ ∀ u, 3 ≤ u → u ≤ t → ∃ msg ∈ msgs, msg.counter.toNat = u

lemma isGreatest_complete_two {msgs : List UpdateMsg} :
    IsGreatest {t | Complete msgs t} 2 ↔ ∀ msg ∈ msgs, msg.counter ≠ 3#64 := by
  constructor
  · rintro ⟨-, hupr⟩ msg hmem hctr
    have h3 : Complete msgs 3 := by
      refine ⟨by omega, fun u hle hge => ⟨msg, hmem, ?_⟩⟩
      rw [hctr]
      exact le_antisymm hle hge
    have := hupr h3
    omega
  · intro hno
    refine ⟨⟨le_refl 2, fun u hle hge => by omega⟩, ?_⟩
    rintro t ⟨-, hall⟩
    by_contra hlt
    obtain ⟨msg, hmem, hctr⟩ := hall 3 (le_refl 3) (by omega)
    exact hno msg hmem (BitVec.eq_of_toNat_eq hctr)

/-- The messages for the first `k` commit timestamps, that is 3, ..., `k + 2`,
arrive in some order. After any number of them the global timestamp is the last
complete one exactly as long as the message for 3 has not arrived. -/
theorem global_ts_iff (nthreads k : ℕ) (hk : k + 2 < 2 ^ 64) (arrived rest : List UpdateMsg)
    (hsent : ∀ msg ∈ arrived ++ rest, msg.Sent nthreads)
    (hperm : ((arrived ++ rest).map UpdateMsg.counter).Perm (init.commitTss k)) :
    ∃ m, run nthreads arrived init = .done m ∧
      (IsGreatest {t | Complete arrived t} m.tsBuffer.toNat ↔
        ∀ msg ∈ arrived, msg.counter ≠ 3#64) := by
  have hone : ∀ msg ∈ arrived, msg.counter ≠ 1#64 := by
    intro msg hmem hctr
    have hmem : msg.counter ∈ init.commitTss k :=
      hperm.mem_iff.mp (mem_map_of_mem (mem_append_left _ hmem))
    have := (mem_commitTss_init hk).mp hmem
    rw [hctr] at this
    exact absurd this.1 (by decide)
  obtain ⟨m, hrun, hts⟩ := run_tsBuffer (m := init) rfl nofun
    (fun msg hmem => hsent msg (mem_append_left _ hmem)) hone
  refine ⟨m, hrun, ?_⟩
  rw [hts]
  exact isGreatest_complete_two

/-- The message for 4 arrives before the one for 3. -/
theorem global_ts_four_first : ∃ m, run 1 [⟨0, 0#16, 4#64⟩] init = .done m ∧
      (IsGreatest {t | Complete [⟨0, 0#16, 4#64⟩] t} m.tsBuffer.toNat ↔
        ∀ msg ∈ [(⟨0, 0#16, 4#64⟩ : UpdateMsg)], msg.counter ≠ 3#64) :=
  global_ts_iff 1 2 (by decide) [⟨0, 0#16, 4#64⟩] [⟨0, 0#16, 3#64⟩] (by decide) (by decide)

/-- The only commit timestamp handed out is 3, its message arrives, and the
global timestamp is still 2. -/
theorem global_ts_stuck : init.commitTss 1 = [3#64] ∧
      run 1 [⟨0, 0#16, 3#64⟩] init = .done { init with pendingTs := [3#64] } ∧
      ¬ IsGreatest {t | Complete [⟨0, 0#16, 3#64⟩] t} init.tsBuffer.toNat := by
  refine ⟨rfl, by decide, fun h => ?_⟩
  exact isGreatest_complete_two.mp h ⟨0, 0#16, 3#64⟩ mem_cons_self rfl

end TsManager
end Librdpma.Drtmh
