import Librdpma.Lib.Outcome
import Librdpma.Lib.Ring

/-!
# The coroutines of a worker (`src/core/routine.h`, `src/core/rdma_sched.h`, `src/core/rrpc.h`)

A worker thread runs coroutines 1, …, `n` and the master 0, which polls. The
coroutines that can run are on the routine list, with the master as its header.
A coroutine posts operations, registers replies, and leaves the list with
`indirect_yield`; the master puts it back when both its counters are 0.

A completion names its coroutine in the low 8 bits of the work request id. A
reply names it in the field `cid` of the message header, which has 7 bits.
-/

namespace Librdpma.Drtmh.Routines

open Lib Function List

/-- A signalled operation that has not completed: its queue pair, and what
`encode_wrid` puts into the work request id. -/
structure Wr where
  qp : ℕ
  corId : ℕ
  watermark : ℕ
deriving DecidableEq

/-- `encode_wrid`, in 64 bits. -/
def encodeWrid (corId watermark : ℕ) : ℕ := (watermark <<< 8 ||| corId) % 2 ^ 64

def decodeCorid (wrid : ℕ) : ℕ := wrid &&& 255

def decodeWatermark (wrid : ℕ) : ℕ := wrid >>> 8

/-- The routine records by id, the counters of `RScheduler` and `RRpc` by
coroutine, and the marks of the queue pairs. `flight` holds the operations that
have not completed, in the order they were posted, and `replies` the coroutine
of each reply that has not arrived. -/
structure State where
  next : ℕ → ℕ
  prev : ℕ → ℕ
  tailer : ℕ
  active : ℕ → Bool
  pendingCounts : ℕ → ℤ
  replyCounts : ℕ → ℤ
  high : ℕ → ℕ
  low : ℕ → ℕ
  pendings : ℕ → ℤ
  flight : List Wr
  replies : List ℕ
  corId : ℕ

/-- `thread_local_init` with `n` coroutines; the master runs. -/
def init (n : ℕ) : State where
  next i := if i = n then 0 else i + 1
  -- the master is its own predecessor
  prev i := i - 1
  tailer := n
  active _ := false
  pendingCounts _ := 0
  replyCounts _ := 0
  high _ := 0
  low _ := 0
  pendings _ := 0
  flight := []
  replies := []
  corId := 0

/-- What happens next. The first four are calls of the running coroutine, the
others are steps of the master. -/
inductive Event where
  | post (qp doorbellNum : ℕ)
  | register (num : ℕ)
  | indirectYield
  | yieldNext
  | schedule
  | poll (qp : ℕ)
  | reply (c : ℕ)

/-- A value of type `int`. -/
def int (z : ℤ) : Outcome ℤ := if -2 ^ 31 ≤ z ∧ z < 2 ^ 31 then .done z else .undefined

namespace State

variable (σ : State)

/-- Both counters of `c` are 0. -/
def Ready (c : ℕ) : Prop := σ.pendingCounts c = 0 ∧ σ.replyCounts c = 0

instance (c : ℕ) : Decidable (σ.Ready c) := inferInstanceAs (Decidable (_ ∧ _))

def yieldTo (c : ℕ) : State :=
  { σ with active := update σ.active c true, corId := c }

/-- `c` leaves the list and is no longer active. -/
def unlink (c : ℕ) : State :=
  { σ with
    next := update σ.next (σ.prev c) (σ.next c)
    prev := update σ.prev (σ.next c) (σ.prev c)
    tailer := if σ.tailer = c then σ.prev c else σ.tailer
    active := update σ.active c false }

def yieldFromRoutineList : Outcome State :=
  if σ.active σ.corId = false then .exit
  else .done ((σ.unlink σ.corId).yieldTo (σ.next σ.corId))

def addToRoutineList (c : ℕ) : State :=
  -- a coroutine that has not left the list is skipped
  if σ.active c then σ
  else
    { σ with
      next := update (update σ.next σ.tailer c) c 0
      tailer := c
      prev := update σ.prev c σ.tailer }

/-- `post_batch`, with `add_pending`. `post_send` and `post_cas` do the same with
`doorbell_num` = 0. -/
def postBatch (qp doorbellNum : ℕ) : Outcome State := do
  let high := (σ.high qp + (1 + doorbellNum)) % 2 ^ 64
  let count ← int (σ.pendingCounts σ.corId + 1)
  let pendings ← int (σ.pendings qp + 1)
  return { σ with
    high := update σ.high qp high
    pendingCounts := update σ.pendingCounts σ.corId count
    pendings := update σ.pendings qp pendings
    flight := σ.flight ++ [⟨qp, σ.corId, high⟩] }

/-- `prepare_multi_req`; the requests go out with it. -/
def prepareMultiReq (num : ℕ) : Outcome State :=
  if num = 0 then .exit
  else do
    let count ← int (σ.replyCounts σ.corId + num)
    return { σ with
      replyCounts := update σ.replyCounts σ.corId count
      replies := replicate num σ.corId ++ σ.replies }

def indirectYield : Outcome State :=
  if σ.Ready σ.corId then .done σ else σ.yieldFromRoutineList

/-- The last lines of `poll_comps` and of `poll_comp_callback`. -/
def wake (c : ℕ) : State := if σ.Ready c then σ.addToRoutineList c else σ

/-- The body of the loop of `poll_comps`, for an entry of the queue pair. The
completions of one queue pair come in the order of its operations. -/
def pollComp (qp : ℕ) : Outcome State :=
  match σ.flight.find? (·.qp = qp) with
  | none => .done σ
  | some w =>
      let wrid := encodeWrid w.corId w.watermark
      let corId := decodeCorid wrid
      if ¬ 0 < σ.pendings qp then .exit
      else if ¬ σ.low qp < decodeWatermark wrid then .exit
      else
        let σ' := { σ with
          flight := σ.flight.eraseP (·.qp = qp)
          pendings := update σ.pendings qp (σ.pendings qp - 1)
          low := update σ.low qp (decodeWatermark wrid) }
        -- an operation of no coroutine is ignored
        if corId = 0 then .done σ'
        else if ¬ 0 < σ.pendingCounts corId then .exit
        else .done (wake { σ' with
          pendingCounts :=
            update σ.pendingCounts corId (σ.pendingCounts corId - 1) } corId)

/-- The branch of `poll_comp_callback` for a reply to coroutine `c`, whose
header was written by `prepare_header`. -/
def pollReply (c : ℕ) : Outcome State := do
  -- `cid` is a bit field of width 7
  let cid := c % 2 ^ 7
  let σ := { σ with replies := σ.replies.erase c }
  if cid = 0 then .exit
  -- `LOG(7)` ends the process
  else if σ.replyCounts cid ≤ 0 then .exit
  else do
    let count ← int (σ.replyCounts cid - 1)
    return wake { σ with replyCounts := update σ.replyCounts cid count } cid

/-- The body of the loop of the master, after the events. -/
def schedule : State := if σ.next 0 ≠ 0 then σ.yieldTo (σ.next 0) else σ

def step : Event → Outcome State
  | .post qp doorbellNum => σ.postBatch qp doorbellNum
  | .register num => σ.prepareMultiReq num
  | .indirectYield => σ.indirectYield
  | .yieldNext => .done (σ.yieldTo (σ.next σ.corId))
  | .schedule => .done σ.schedule
  | .poll qp => σ.pollComp qp
  | .reply c => σ.pollReply c

/-- The coroutines make calls while one of them runs, the master polls and
schedules, and a reply arrives once. -/
def Enabled : Event → Prop
  | .post _ _ | .indirectYield | .yieldNext => σ.corId ≠ 0
  | .register num => σ.corId ≠ 0 ∧ num ≠ 0
  | .schedule | .poll _ => σ.corId = 0
  | .reply c => σ.corId = 0 ∧ c ∈ σ.replies

/-- The counters stay below 2³¹ and the marks below 2⁵⁶. -/
def Fits : Event → Prop
  | .post qp doorbellNum => σ.pendingCounts σ.corId + 1 < 2 ^ 31 ∧ σ.pendings qp + 1 < 2 ^ 31 ∧
      σ.high qp + (1 + doorbellNum) < 2 ^ 56
  | .register num => σ.replyCounts σ.corId + num < 2 ^ 31
  | _ => True

instance : (e : Event) → Decidable (σ.Enabled e)
  | .post _ _ | .indirectYield | .yieldNext => inferInstanceAs (Decidable (_ ≠ _))
  | .register _ => inferInstanceAs (Decidable (_ ∧ _))
  | .schedule | .poll _ => inferInstanceAs (Decidable (_ = _))
  | .reply _ => inferInstanceAs (Decidable (_ ∧ _))

instance : (e : Event) → Decidable (σ.Fits e)
  | .post _ _ => inferInstanceAs (Decidable (_ ∧ _))
  | .register _ => inferInstanceAs (Decidable (_ < _))
  | .indirectYield | .yieldNext | .schedule | .poll _ | .reply _ => .isTrue trivial

/-- The event is the completion of an operation of `c`, or a reply to `c`. -/
def Arrives (c : ℕ) : Event → Prop
  | .poll qp => ∃ w, σ.flight.find? (·.qp = qp) = some w ∧ w.corId = c
  | .reply c' => c' = c
  | _ => False

end State

/-- The states of a worker with `n` coroutines. -/
inductive Reaches (n : ℕ) : State → Prop where
  | init : Reaches n (init n)
  | step {σ σ' : State} {e : Event} : Reaches n σ → σ.Enabled e → σ.Fits e →
      σ.step e = .done σ' → Reaches n σ'

/-- The routine list is the ring `l`. A coroutine that is active is listed, and
one that is not is listed exactly if it waits for nothing. The next event returns;
it puts `c` on the list exactly if it is the last one that `c` waited for, and
takes it off exactly if `c` yields and has to wait. -/
structure WokenOnce (n : ℕ) (σ : State) (l : List ℕ) : Prop where
  ring : Ring σ.next σ.prev σ.tailer l
  pending : ∀ c, 1 ≤ c → c ≤ n → σ.pendingCounts c = σ.flight.countP (·.corId = c)
  reply : ∀ c, 1 ≤ c → c ≤ n → σ.replyCounts c = σ.replies.count c
  active : ∀ c, 1 ≤ c → c ≤ n → σ.active c = true → c ∈ l
  inactive : ∀ c, 1 ≤ c → c ≤ n → σ.active c = false → (c ∈ l ↔ σ.Ready c)
  returns : ∀ e, σ.Enabled e → σ.Fits e → ∃ σ' l', σ.step e = .done σ' ∧
    Ring σ'.next σ'.prev σ'.tailer l' ∧ ∀ c, 1 ≤ c → c ≤ n →
      ((c ∉ l ∧ c ∈ l') ↔ (c ∉ l ∧ σ.Arrives c e ∧ σ'.Ready c)) ∧
      ((c ∈ l ∧ c ∉ l') ↔ (e = .indirectYield ∧ σ.corId = c ∧ ¬ σ.Ready c))

/-! ## The work request id -/

variable {c w : ℕ}

lemma encodeWrid_eq (hc : c < 2 ^ 8) (hw : w < 2 ^ 56) : encodeWrid c w = w * 2 ^ 8 + c := by
  have hlt : w * 2 ^ 8 + c < 2 ^ 64 := by omega
  rw [encodeWrid, ← Nat.shiftLeft_add_eq_or_of_lt hc, Nat.shiftLeft_eq, Nat.mod_eq_of_lt hlt]

lemma decodeCorid_encodeWrid (hc : c < 2 ^ 8) (hw : w < 2 ^ 56) :
    decodeCorid (encodeWrid c w) = c := by
  rw [encodeWrid_eq hc hw, decodeCorid, Nat.and_two_pow_sub_one_eq_mod _ 8]
  omega

lemma decodeWatermark_encodeWrid (hc : c < 2 ^ 8) (hw : w < 2 ^ 56) :
    decodeWatermark (encodeWrid c w) = w := by
  rw [encodeWrid_eq hc hw, decodeWatermark, Nat.shiftRight_eq_div_pow]
  omega

lemma int_eq {z : ℤ} (h : 0 ≤ z + 1) (hz : z < 2 ^ 31) : int z = .done z := if_pos ⟨by omega, hz⟩

/-! ## What is under way -/

/-- After an operation was posted. -/
def State.posted (σ : State) (qp doorbellNum : ℕ) : State :=
  { σ with
    high := update σ.high qp (σ.high qp + (1 + doorbellNum))
    pendingCounts := update σ.pendingCounts σ.corId (σ.pendingCounts σ.corId + 1)
    pendings := update σ.pendings qp (σ.pendings qp + 1)
    flight := σ.flight ++ [⟨qp, σ.corId, σ.high qp + (1 + doorbellNum)⟩] }

/-- After replies were registered. -/
def State.registered (σ : State) (num : ℕ) : State :=
  { σ with
    replyCounts := update σ.replyCounts σ.corId (σ.replyCounts σ.corId + num)
    replies := replicate num σ.corId ++ σ.replies }

/-- After the completion of `w`, before the coroutine is woken. -/
def State.completed (σ : State) (w : Wr) : State :=
  { σ with
    flight := σ.flight.eraseP (·.qp = w.qp)
    pendings := update σ.pendings w.qp (σ.pendings w.qp - 1)
    low := update σ.low w.qp w.watermark
    pendingCounts := update σ.pendingCounts w.corId (σ.pendingCounts w.corId - 1) }

/-- After a reply to `c`, before the coroutine is woken. -/
def State.answered (σ : State) (c : ℕ) : State :=
  { σ with
    replies := σ.replies.erase c
    replyCounts := update σ.replyCounts c (σ.replyCounts c - 1) }

/-- The counters count what has not arrived, and the operations of a queue pair
complete with growing marks. -/
structure Counts (n : ℕ) (σ : State) : Prop where
  pending : ∀ c, σ.pendingCounts c = σ.flight.countP (·.corId = c)
  pendings : ∀ q, σ.pendings q = σ.flight.countP (·.qp = q)
  reply : ∀ c, σ.replyCounts c = σ.replies.count c
  posted : ∀ w ∈ σ.flight, 1 ≤ w.corId ∧ w.corId ≤ n
  asked : ∀ c ∈ σ.replies, 1 ≤ c ∧ c ≤ n
  marks : ∀ w ∈ σ.flight, σ.low w.qp < w.watermark ∧ w.watermark ≤ σ.high w.qp
  sorted : σ.flight.Pairwise fun v w => v.qp = w.qp → v.watermark < w.watermark
  high : ∀ q, σ.high q < 2 ^ 56
  low : ∀ q, σ.low q ≤ σ.high q
  small : ∀ c, σ.replyCounts c < 2 ^ 31

namespace Counts

variable {n : ℕ} {σ : State}

lemma init (n : ℕ) : Counts n (init n) where
  pending _ := rfl
  pendings _ := rfl
  reply _ := rfl
  posted _ hw := absurd hw not_mem_nil
  asked _ hc := absurd hc not_mem_nil
  marks _ hw := absurd hw not_mem_nil
  sorted := Pairwise.nil
  high _ := Nat.two_pow_pos 56
  low _ := le_refl _
  small _ := Int.pow_pos (by decide)

variable {qp c : ℕ} {w : Wr}

section

variable (h : Counts n σ)

include h

lemma postBatch_eq {doorbellNum : ℕ} (hft : σ.Fits (.post qp doorbellNum)) :
    σ.postBatch qp doorbellNum = .done (σ.posted qp doorbellNum) := by
  obtain ⟨hcnt, hpnd, hhg⟩ := hft
  have h0 : 0 ≤ σ.pendingCounts σ.corId := by rw [h.pending]; omega
  have h1 : 0 ≤ σ.pendings qp := by rw [h.pendings]; omega
  rw [State.postBatch, int_eq (by omega) hcnt, int_eq (by omega) hpnd, Nat.mod_eq_of_lt (by omega)]
  rfl

lemma prepareMultiReq_eq {num : ℕ} (hnum : num ≠ 0)
    (hft : σ.Fits (.register num)) : σ.prepareMultiReq num = .done (σ.registered num) := by
  have h0 : 0 ≤ σ.replyCounts σ.corId := by rw [h.reply]; omega
  rw [State.prepareMultiReq, if_neg hnum, int_eq (by omega) hft]
  rfl

lemma post {doorbellNum : ℕ} (hc : 1 ≤ σ.corId ∧ σ.corId ≤ n)
    (hhg : σ.high qp + (1 + doorbellNum) < 2 ^ 56) : Counts n (σ.posted qp doorbellNum) := by
  have hlt : σ.high qp < σ.high qp + (1 + doorbellNum) := by omega
  refine ⟨fun c => ?_, fun q => ?_, h.reply, fun w hw => ?_, h.asked, fun w hw => ?_, ?_,
    fun q => ?_, fun q => ?_, h.small⟩
  · by_cases hcc : c = σ.corId
    · subst hcc
      simp [State.posted, countP_append, h.pending]
    · simp [State.posted, countP_append, h.pending, update_of_ne hcc, Ne.symm hcc]
  · by_cases hq : q = qp
    · subst hq
      simp [State.posted, countP_append, h.pendings]
    · simp [State.posted, countP_append, h.pendings, update_of_ne hq, Ne.symm hq]
  · rcases mem_append.mp hw with hw | hw
    · exact h.posted w hw
    · rw [mem_singleton.mp hw]
      exact hc
  · rcases mem_append.mp hw with hw | hw
    · obtain ⟨hlow, hle⟩ := h.marks w hw
      refine ⟨hlow, hle.trans ?_⟩
      by_cases hq : w.qp = qp
      · simp [State.posted, hq]
      · simp [State.posted, update_of_ne hq]
    · rw [mem_singleton.mp hw]
      simpa [State.posted] using (h.low qp).trans_lt hlt
  · refine pairwise_append.mpr ⟨h.sorted, pairwise_singleton _ _, ?_⟩
    intro v hv w hw hqp
    rw [mem_singleton.mp hw] at hqp ⊢
    have := (h.marks v hv).2
    rw [hqp] at this
    exact this.trans_lt hlt
  · by_cases hq : q = qp
    · subst hq
      simpa [State.posted] using hhg
    · simpa [State.posted, update_of_ne hq] using h.high q
  · by_cases hq : q = qp
    · subst hq
      simpa [State.posted] using (h.low q).trans hlt.le
    · simpa [State.posted, update_of_ne hq] using h.low q

lemma register {num : ℕ} (hc : 1 ≤ σ.corId ∧ σ.corId ≤ n)
    (hft : σ.Fits (.register num)) : Counts n (σ.registered num) := by
  refine { h with reply := fun c => ?_, asked := fun c hmem => ?_, small := fun c => ?_ }
  · by_cases hcc : c = σ.corId
    · subst hcc
      simp [State.registered, count_append, h.reply, add_comm]
    · simp [State.registered, count_append, h.reply, update_of_ne hcc, count_replicate, Ne.symm hcc]
  · rcases mem_append.mp hmem with hmem | hmem
    · rw [eq_of_mem_replicate hmem]
      exact hc
    · exact h.asked c hmem
  · by_cases hcc : c = σ.corId
    · subst hcc
      simpa [State.registered, State.Fits] using hft
    · simpa [State.registered, update_of_ne hcc] using h.small c

lemma pending_pos (hw : w ∈ σ.flight) : 0 < σ.pendingCounts w.corId := by
  rw [h.pending]
  exact_mod_cast countP_pos_iff.mpr ⟨w, hw, by simp⟩

lemma reply_pos (hc : c ∈ σ.replies) : 0 < σ.replyCounts c := by
  rw [h.reply]
  exact_mod_cast count_pos_iff.mpr hc

lemma pollComp_eq (hn : n ≤ 127) (hfd : σ.flight.find? (·.qp = qp) = some w) :
    σ.pollComp qp = .done ((σ.completed w).wake w.corId) := by
  have hw := mem_of_find?_eq_some hfd
  have hqp : w.qp = qp := by simpa using find?_some hfd
  obtain ⟨hc, hcn⟩ := h.posted w hw
  obtain ⟨hlow, hhg⟩ := h.marks w hw
  have hmark := hhg.trans_lt (h.high w.qp)
  have hpos : 0 < σ.pendings w.qp := by
    rw [h.pendings]
    exact_mod_cast countP_pos_iff.mpr ⟨w, hw, by simp⟩
  subst hqp
  simp only [State.pollComp, hfd]
  rw [decodeWatermark_encodeWrid (by omega) hmark, decodeCorid_encodeWrid (by omega) hmark,
    if_neg (not_not.mpr hpos), if_neg (not_not.mpr hlow), if_neg (by omega),
    if_neg (not_not.mpr (h.pending_pos hw))]
  rfl

lemma pollReply_eq (hn : n ≤ 127) (hc : c ∈ σ.replies) :
    σ.pollReply c = .done ((σ.answered c).wake c) := by
  obtain ⟨hc1, hcn⟩ := h.asked c hc
  have hcid : c % 2 ^ 7 = c := Nat.mod_eq_of_lt (by omega)
  have hpos := h.reply_pos hc
  simp only [State.pollReply, hcid]
  have hsm := h.small c
  rw [if_neg (by omega), if_neg (not_le.mpr hpos), int_eq (by omega) (by omega)]
  rfl

lemma complete (hfd : σ.flight.find? (·.qp = qp) = some w) : Counts n (σ.completed w) := by
  have hqp : w.qp = qp := by simpa using find?_some hfd
  subst hqp
  obtain ⟨-, l1, l2, hfl, hfst⟩ := find?_eq_some_iff_append.mp hfd
  have hfst : ∀ v ∈ l1, ¬ v.qp = w.qp := by simpa using hfst
  have hera : (σ.completed w).flight = l1 ++ l2 := by
    simp only [State.completed, hfl]
    rw [eraseP_append_right _ (by simpa using hfst), eraseP_cons_of_pos (by simp)]
  have hsrt := h.sorted
  rw [hfl, pairwise_append, pairwise_cons] at hsrt
  obtain ⟨hs1, ⟨hw2, hs2⟩, hs12⟩ := hsrt
  refine ⟨fun c => ?_, fun q => ?_, h.reply, fun v hv => ?_, h.asked, fun v hv => ?_, ?_, h.high,
    fun q => ?_, h.small⟩
  · have hcnt := h.pending c
    rw [hera]
    rw [hfl] at hcnt
    by_cases hc : c = w.corId
    · subst hc
      simp [State.completed, hcnt, countP_append]
      omega
    · simp [State.completed, hcnt, countP_append, update_of_ne hc, Ne.symm hc]
  · have hcnt := h.pendings q
    rw [hera]
    rw [hfl] at hcnt
    by_cases hq : q = w.qp
    · subst hq
      simp [State.completed, hcnt, countP_append]
      omega
    · simp [State.completed, hcnt, countP_append, update_of_ne hq, Ne.symm hq]
  · exact h.posted v (mem_of_mem_eraseP hv)
  · -- an operation of the same queue pair is behind `w`
    have hmrk := h.marks v (mem_of_mem_eraseP hv)
    have hv : v ∈ l1 ++ l2 := hera ▸ hv
    refine ⟨?_, hmrk.2⟩
    by_cases hq : v.qp = w.qp
    · have hv2 := (mem_append.mp hv).resolve_left fun hv1 => hfst v hv1 hq
      simpa [State.completed, hq] using hw2 v hv2 hq.symm
    · simpa [State.completed, update_of_ne hq] using hmrk.1
  · rw [hera]
    exact pairwise_append.mpr ⟨hs1, hs2, fun v hv u hu =>
      hs12 v hv u (mem_cons_of_mem _ hu)⟩
  · by_cases hq : q = w.qp
    · subst hq
      simpa [State.completed] using (h.marks w (mem_of_find?_eq_some hfd)).2
    · simpa [State.completed, update_of_ne hq] using h.low q

lemma answer (hc : c ∈ σ.replies) : Counts n (σ.answered c) := by
  have hpos := count_pos_iff.mpr hc
  refine { h with
    reply := fun d => ?_
    asked := fun d hd => h.asked d (mem_of_mem_erase hd)
    small := fun d => ?_ }
  · by_cases hd : d = c
    · subst hd
      simp only [State.answered, update_self, count_erase_self, h.reply]
      omega
    · simp only [State.answered, update_of_ne hd, count_erase_of_ne hd, h.reply]
  · have hsm := h.small d
    by_cases hd : d = c
    · subst hd
      simp only [State.answered, update_self]
      omega
    · simpa [State.answered, update_of_ne hd] using hsm

lemma wake (c : ℕ) : Counts n (σ.wake c) := by
  unfold State.wake State.addToRoutineList
  split_ifs
  · exact h
  · exact { h with }
  · exact h

end

end Counts

/-! ## The routine list -/

/-- A coroutine that waits is off the list and inactive, and one on the list that
waits for something has been started. -/
structure Listed (n : ℕ) (σ : State) (l : List ℕ) : Prop where
  ring : Ring σ.next σ.prev σ.tailer l
  le : ∀ c ∈ l, c ≤ n
  idle : ∀ c, c ≠ 0 → c ∉ l → σ.active c = false
  waiting : ∀ c, 1 ≤ c → c ≤ n → c ∉ l → ¬ σ.Ready c
  started : ∀ c ∈ l, ¬ σ.Ready c → σ.active c = true
  current : σ.corId = 0 ∨ (σ.corId ∈ l ∧ σ.active σ.corId = true)

/-- The list and the running coroutine are the same. -/
structure SameList (σ σ' : State) : Prop where
  next : σ'.next = σ.next
  prev : σ'.prev = σ.prev
  tailer : σ'.tailer = σ.tailer
  active : σ'.active = σ.active
  corId : σ'.corId = σ.corId

lemma State.ready_wake {σ : State} {c d : ℕ} : (σ.wake c).Ready d ↔ σ.Ready d := by
  unfold State.wake State.addToRoutineList
  split_ifs <;> rfl

namespace Listed

variable {n : ℕ} {σ σ' : State} {l : List ℕ}

lemma init (n : ℕ) : Listed n (init n) (range' 1 n) := by
  have hlk : ∀ m k, k + m = n →
      Linked (Routines.init n).next ((Routines.init n).next k) (range' (k + 1) m) := by
    intro m
    induction m with
    | zero =>
      intro k hk
      exact if_pos hk
    | succ m ih =>
      intro k hk
      exact ⟨if_neg (by omega), by omega, ih (k + 1) (by omega)⟩
  have hbck : ∀ m k, Backed (Routines.init n).prev k (range' (k + 1) m) := by
    intro m
    induction m with
    | zero => exact fun k => trivial
    | succ m ih => exact fun k => ⟨rfl, ih (k + 1)⟩
  have hla : ∀ m k, lastOr k (range' (k + 1) m) = k + m := by
    intro m
    induction m with
    | zero => exact fun k => rfl
    | succ m ih =>
      intro k
      rw [range'_succ, lastOr, ih]
      omega
  refine ⟨⟨hlk n 0 (by omega), hbck n 0, ?_⟩, fun c hc => ?_, fun _ _ _ => rfl,
    fun c h1 hn hc => ?_, fun c _ hrdy => absurd ⟨rfl, rfl⟩ hrdy, .inl rfl⟩
  · rw [hla, zero_add]
    rfl
  · have := mem_range'_1.mp hc
    omega
  · exact absurd (mem_range'_1.mpr ⟨h1, by omega⟩) hc

lemma ring_of_same (h : Listed n σ l) (hsm : SameList σ σ') : Ring σ'.next σ'.prev σ'.tailer l := by
  rw [hsm.next, hsm.prev, hsm.tailer]
  exact h.ring

lemma same (h : Listed n σ l) (hsm : SameList σ σ')
    (hwtn : ∀ c, 1 ≤ c → c ≤ n → c ∉ l → ¬ σ'.Ready c)
    (hstr : ∀ c ∈ l, ¬ σ'.Ready c → σ.active c = true) : Listed n σ' l := by
  refine ⟨h.ring_of_same hsm, h.le, ?_, hwtn, ?_, ?_⟩
  · rw [hsm.active]
    exact h.idle
  · rw [hsm.active]
    exact hstr
  · rw [hsm.corId, hsm.active]
    exact h.current

lemma await (h : Listed n σ l) (hsm : SameList σ σ') (hcur : σ.corId ≠ 0)
    (hls : ∀ c, σ'.Ready c → σ.Ready c) (hoth : ∀ c, c ≠ σ.corId → σ.Ready c → σ'.Ready c) :
    Listed n σ' l := by
  refine h.same hsm (fun c h1 hn hc hrdy => ?_) fun c hc hrdy => ?_
  · exact h.waiting c h1 hn hc (hls c hrdy)
  · by_cases hcc : c = σ.corId
    · rw [hcc]
      exact (h.current.resolve_left hcur).2
    · exact h.started c hc fun hr => hrdy (hoth c hcc hr)

variable {c : ℕ}

lemma yieldTo (h : Listed n σ l) (hc : c = 0 ∨ c ∈ l) : Listed n (σ.yieldTo c) l := by
  refine ⟨h.ring, h.le, fun d hd hdl => ?_, h.waiting, fun d hd hrdy => ?_, ?_⟩
  · have hne : d ≠ c := by
      rintro rfl
      exact hc.elim hd hdl
    exact (update_of_ne hne _ _).trans (h.idle d hd hdl)
  · by_cases hdc : d = c
    · subst hdc
      exact update_self ..
    · exact (update_of_ne hdc _ _).trans (h.started d hd hrdy)
  · exact hc.imp_right fun hmem => ⟨hmem, update_self ..⟩

lemma leave (h : Listed n σ l) (hcur : σ.corId ≠ 0) (hrdy : ¬ σ.Ready σ.corId) :
    ∃ l', Listed n ((σ.unlink σ.corId).yieldTo (σ.next σ.corId)) l' ∧
      ∀ c, c ∈ l' ↔ c ∈ l ∧ c ≠ σ.corId := by
  obtain ⟨hmem, hact⟩ := h.current.resolve_left hcur
  obtain ⟨l1, l2, hl⟩ := append_of_mem hmem
  have hrn := h.ring
  rw [hl] at hrn
  have hnd : (l1 ++ σ.corId :: l2).Nodup := (nodup_cons.mp hrn.nodup).2
  have hntn : σ.corId ∉ l1 ++ l2 := (nodup_cons.mp (nodup_middle.mp hnd)).1
  have hmem' : ∀ c, c ∈ l1 ++ l2 ↔ c ∈ l ∧ c ≠ σ.corId := by
    intro c
    have hcl : c ∈ l ↔ c = σ.corId ∨ c ∈ l1 ++ l2 := by
      rw [hl, mem_append, mem_cons, mem_append]
      tauto
    rw [hcl]
    refine ⟨fun hc => ⟨.inr hc, ?_⟩, fun hc => hc.1.resolve_left hc.2⟩
    rintro rfl
    exact hntn hc
  have hnx : σ.next σ.corId = 0 ∨ σ.next σ.corId ∈ l1 ++ l2 :=
    hrn.linked.after.head_mem.imp_right (mem_append_right _)
  have hsty : ∀ c, c ∈ l → c ∉ l1 ++ l2 → c = σ.corId := fun c hc hcl =>
    by_contra fun hcc => hcl ((hmem' c).mpr ⟨hc, hcc⟩)
  -- the next routine is started last, so that its flag is set whatever it was
  refine ⟨l1 ++ l2, ⟨hrn.remove, fun c hc => h.le c ((hmem' c).mp hc).1, fun c hc hcl => ?_,
    fun c h1 hn hcl => ?_, fun c hc hr => ?_, ?_⟩, hmem'⟩
  · have hne : c ≠ σ.next σ.corId := by
      rintro rfl
      exact hnx.elim hc hcl
    refine (update_of_ne hne _ _).trans ?_
    by_cases hcc : c = σ.corId
    · rw [hcc]
      exact update_self ..
    · exact (update_of_ne hcc _ _).trans (h.idle c hc fun hmem => hcc (hsty c hmem hcl))
  · by_cases hcc : c = σ.corId
    · rw [hcc]
      exact hrdy
    · exact h.waiting c h1 hn fun hmem => hcc (hsty c hmem hcl)
  · obtain ⟨hmem, hcc⟩ := (hmem' c).mp hc
    by_cases hne : c = σ.next σ.corId
    · rw [hne]
      exact update_self ..
    · refine (update_of_ne hne _ _).trans ?_
      exact (update_of_ne hcc _ _).trans (h.started c hmem hr)
  · exact hnx.imp_right fun hmem => ⟨hmem, update_self ..⟩

/-- A coroutine off the list waits for nothing any more, and is added. -/
lemma add (h : Listed n σ l) (hsm : SameList σ σ') (hc : 1 ≤ c ∧ c ≤ n) (hmem : c ∉ l)
    (hrdy : σ'.Ready c) (hoth : ∀ d, d ≠ c → (σ'.Ready d ↔ σ.Ready d)) :
    Listed n (σ'.addToRoutineList c) (l ++ [c]) := by
  have hc0 : c ≠ 0 := by omega
  have hid : σ'.active c = false := by rw [hsm.active, h.idle c hc0 hmem]
  have hkp : ∀ d, σ'.active d = σ.active d := fun d => congrFun hsm.active d
  rw [State.addToRoutineList, hid]
  refine ⟨(h.ring_of_same hsm).insert hc0 hmem, fun d hd => ?_, fun d h0 hd => ?_,
    fun d h1 hn hd => ?_, fun d hd hr => ?_, ?_⟩
  · rcases mem_append.mp hd with hd | hd
    · exact h.le d hd
    · rw [mem_singleton.mp hd]
      exact hc.2
  · exact (hkp d).trans (h.idle d h0 fun hmem => hd (mem_append_left _ hmem))
  · have hne : d ≠ c := by
      rintro rfl
      exact hd (mem_append_right _ (mem_singleton_self _))
    exact (hoth d hne).not.mpr (h.waiting d h1 hn fun hmem => hd (mem_append_left _ hmem))
  · have hne : d ≠ c := by
      rintro rfl
      exact hr hrdy
    have hdl := (mem_append.mp hd).resolve_right fun hd => hne (mem_singleton.mp hd)
    exact (hkp d).trans (h.started d hdl ((hoth d hne).not.mp hr))
  · have hcur := h.current
    rw [← hsm.corId, ← hsm.active] at hcur
    exact hcur.imp_right fun hcur => ⟨mem_append_left _ hcur.1, hcur.2⟩

lemma arrive (h : Listed n σ l) (hsm : SameList σ σ') (hc : 1 ≤ c ∧ c ≤ n) (hwt : ¬ σ.Ready c)
    (hoth : ∀ d, d ≠ c → (σ'.Ready d ↔ σ.Ready d)) :
    ∃ l', Listed n (σ'.wake c) l' ∧ ∀ d, d ∈ l' ↔ d ∈ l ∨ (c = d ∧ σ'.Ready d) := by
  by_cases hadd : c ∉ l ∧ σ'.Ready c
  · obtain ⟨hmem, hrdy⟩ := hadd
    refine ⟨l ++ [c], ?_, fun d => ?_⟩
    · rw [State.wake, if_pos hrdy]
      exact h.add hsm hc hmem hrdy hoth
    · rw [mem_append, mem_singleton]
      refine or_congr_right ⟨?_, fun hd => hd.1.symm⟩
      rintro rfl
      exact ⟨rfl, hrdy⟩
  · have hstl : σ'.Ready c → c ∈ l := fun hrdy => by_contra fun hmem => hadd ⟨hmem, hrdy⟩
    have hwake : σ'.wake c = σ' := by
      rw [State.wake]
      split
      · -- a listed coroutine that waits has been started, and is not added again
        rename_i hrdy
        rw [State.addToRoutineList, hsm.active, if_pos (h.started c (hstl hrdy) hwt)]
      · rfl
    rw [hwake]
    refine ⟨l, h.same hsm (fun d h1 hn hd hr => ?_) fun d hd hr => ?_, fun d => ?_⟩
    · by_cases hdc : d = c
      · subst hdc
        exact hd (hstl hr)
      · exact h.waiting d h1 hn hd ((hoth d hdc).mp hr)
    · by_cases hdc : d = c
      · subst hdc
        exact h.started d hd hwt
      · exact h.started d hd ((hoth d hdc).not.mp hr)
    · refine ⟨.inl, ?_⟩
      rintro (hd | ⟨rfl, hr⟩)
      · exact hd
      · exact hstl hr

end Listed

/-! ## Every event -/

section

variable {n : ℕ} {σ σ' : State} {l l' : List ℕ} {e : Event}

/-- The coroutines an event puts on the list, and those it takes off. -/
lemma moves_of_mem (he : e ≠ .indirectYield)
    (hmem : ∀ c, c ∈ l' ↔ c ∈ l ∨ (σ.Arrives c e ∧ σ'.Ready c)) (c : ℕ) :
    ((c ∉ l ∧ c ∈ l') ↔ (c ∉ l ∧ σ.Arrives c e ∧ σ'.Ready c)) ∧
      ((c ∈ l ∧ c ∉ l') ↔ (e = .indirectYield ∧ σ.corId = c ∧ ¬ σ.Ready c)) := by
  constructor
  · refine and_congr_right fun hc => ?_
    rw [hmem c]
    exact or_iff_right hc
  · refine ⟨fun hc => absurd ((hmem c).mpr (.inl hc.1)) hc.2, fun hc => absurd hc.1 he⟩

lemma moves_of_not_arrives (he : e ≠ .indirectYield) (hno : ∀ c, ¬ σ.Arrives c e) (c : ℕ) :
    ((c ∉ l ∧ c ∈ l) ↔ (c ∉ l ∧ σ.Arrives c e ∧ σ'.Ready c)) ∧
      ((c ∈ l ∧ c ∉ l) ↔ (e = .indirectYield ∧ σ.corId = c ∧ ¬ σ.Ready c)) :=
  moves_of_mem he (fun c => ⟨.inl, fun h => h.resolve_right fun h => hno c h.1⟩) c

/-- The event returns, keeps the invariants, and moves only the coroutines that
arrive or have to wait. -/
def Steps (n : ℕ) (σ : State) (l : List ℕ) (e : Event) : Prop :=
  ∃ σ' l', σ.step e = .done σ' ∧ Counts n σ' ∧ Listed n σ' l' ∧ ∀ c,
    ((c ∉ l ∧ c ∈ l') ↔ (c ∉ l ∧ σ.Arrives c e ∧ σ'.Ready c)) ∧
    ((c ∈ l ∧ c ∉ l') ↔ (e = .indirectYield ∧ σ.corId = c ∧ ¬ σ.Ready c))

lemma Listed.corId_range (h : Listed n σ l) (hcur : σ.corId ≠ 0) : 1 ≤ σ.corId ∧ σ.corId ≤ n :=
  ⟨Nat.pos_of_ne_zero hcur, h.le _ (h.current.resolve_left hcur).1⟩

lemma post_steps (hcnt : Counts n σ) (hls : Listed n σ l) {qp : ℕ} (hcur : σ.corId ≠ 0)
    {doorbellNum : ℕ} (hft : σ.Fits (.post qp doorbellNum)) :
    Steps n σ l (.post qp doorbellNum) := by
  have h0 : 0 ≤ σ.pendingCounts σ.corId := by rw [hcnt.pending]; omega
  refine ⟨σ.posted qp doorbellNum, l, hcnt.postBatch_eq hft,
    hcnt.post (hls.corId_range hcur) hft.2.2,
    hls.await ⟨rfl, rfl, rfl, rfl, rfl⟩ hcur (fun c hc => ?_) (fun c hc hr => ?_),
    moves_of_not_arrives nofun fun _ => id⟩
  · by_cases hcc : c = σ.corId
    · have hz : σ.pendingCounts σ.corId + 1 = 0 := by
        simpa [State.posted, hcc] using hc.1
      omega
    · simpa [State.Ready, State.posted, update_of_ne hcc] using hc
  · simpa [State.Ready, State.posted, update_of_ne hc] using hr

lemma register_steps (hcnt : Counts n σ) (hls : Listed n σ l) {num : ℕ}
    (hcur : σ.corId ≠ 0) (hnum : num ≠ 0) (hft : σ.Fits (.register num)) :
    Steps n σ l (.register num) := by
  have h0 : 0 ≤ σ.replyCounts σ.corId := by rw [hcnt.reply]; omega
  refine ⟨σ.registered num, l, hcnt.prepareMultiReq_eq hnum hft,
    hcnt.register (hls.corId_range hcur) hft,
    hls.await ⟨rfl, rfl, rfl, rfl, rfl⟩ hcur (fun c hc => ?_) (fun c hc hr => ?_),
    moves_of_not_arrives nofun fun _ => id⟩
  · by_cases hcc : c = σ.corId
    · have hz : σ.replyCounts σ.corId + num = 0 := by
        simpa [State.registered, hcc] using hc.2
      omega
    · simpa [State.Ready, State.registered, update_of_ne hcc] using hc
  · simpa [State.Ready, State.registered, update_of_ne hc] using hr

lemma indirectYield_steps (hcnt : Counts n σ) (hls : Listed n σ l) (hcur : σ.corId ≠ 0) :
    Steps n σ l .indirectYield := by
  obtain ⟨hmem, hact⟩ := hls.current.resolve_left hcur
  by_cases hrdy : σ.Ready σ.corId
  · refine ⟨σ, l, if_pos hrdy, hcnt, hls, fun c => ⟨?_, ?_⟩⟩
    · exact ⟨fun h => absurd h.2 h.1, fun h => h.2.1.elim⟩
    · refine ⟨fun h => absurd h.1 h.2, ?_⟩
      rintro ⟨-, rfl, hr⟩
      exact absurd hrdy hr
  · obtain ⟨l', hls', hmem'⟩ := hls.leave hcur hrdy
    refine ⟨(σ.unlink σ.corId).yieldTo (σ.next σ.corId), l', ?_, { hcnt with }, hls',
      fun c => ⟨?_, ?_⟩⟩
    · rw [State.step, State.indirectYield, if_neg hrdy, State.yieldFromRoutineList,
        if_neg (by simp [hact])]
    · exact ⟨fun h => absurd ((hmem' c).mp h.2).1 h.1, fun h => h.2.1.elim⟩
    · constructor
      · rintro ⟨hc, hc'⟩
        have hcc : c = σ.corId := by_contra fun hcc => hc' ((hmem' c).mpr ⟨hc, hcc⟩)
        subst hcc
        exact ⟨rfl, rfl, hrdy⟩
      · rintro ⟨-, rfl, -⟩
        exact ⟨hmem, fun hc => ((hmem' _).mp hc).2 rfl⟩

lemma schedule_steps (hcnt : Counts n σ) (hls : Listed n σ l) : Steps n σ l .schedule := by
  by_cases h0 : σ.next 0 = 0
  · refine ⟨σ, l, ?_, hcnt, hls, moves_of_not_arrives nofun fun _ => id⟩
    rw [State.step, State.schedule, if_neg (not_not.mpr h0)]
  · refine ⟨σ.yieldTo (σ.next 0), l, ?_, { hcnt with },
      hls.yieldTo (hls.ring.next_mem mem_cons_self),
      moves_of_not_arrives nofun fun _ => id⟩
    rw [State.step, State.schedule, if_pos h0]

lemma poll_steps (hn : n ≤ 127) (hcnt : Counts n σ) (hls : Listed n σ l) (qp : ℕ) :
    Steps n σ l (.poll qp) := by
  cases hfd : σ.flight.find? (·.qp = qp) with
  | none =>
    refine ⟨σ, l, ?_, hcnt, hls, moves_of_not_arrives nofun fun c => ?_⟩
    · rw [State.step, State.pollComp, hfd]
    · rintro ⟨w, hw, -⟩
      exact nomatch hfd.symm.trans hw
  | some w =>
    have hw := mem_of_find?_eq_some hfd
    have hpos := hcnt.pending_pos hw
    have hsm : SameList σ (σ.completed w) := ⟨rfl, rfl, rfl, rfl, rfl⟩
    obtain ⟨l', hls', hmem⟩ := hls.arrive hsm (hcnt.posted w hw) (fun hr => Int.ne_of_gt hpos hr.1)
      fun d hd => by simp [State.Ready, State.completed, update_of_ne hd]
    refine ⟨_, l', hcnt.pollComp_eq hn hfd, (hcnt.complete hfd).wake _, hls',
      moves_of_mem nofun fun c => ?_⟩
    rw [hmem c, State.ready_wake]
    refine or_congr_right (and_congr_left fun _ => ?_)
    constructor
    · exact fun hc => ⟨w, hfd, hc⟩
    · rintro ⟨v, hv, hc⟩
      cases hfd.symm.trans hv
      exact hc

lemma reply_steps (hn : n ≤ 127) (hcnt : Counts n σ) (hls : Listed n σ l) {c : ℕ}
    (hc : c ∈ σ.replies) : Steps n σ l (.reply c) := by
  have hpos := hcnt.reply_pos hc
  have hsm : SameList σ (σ.answered c) := ⟨rfl, rfl, rfl, rfl, rfl⟩
  obtain ⟨l', hls', hmem⟩ := hls.arrive hsm (hcnt.asked c hc) (fun hr => Int.ne_of_gt hpos hr.2)
    fun d hd => by simp [State.Ready, State.answered, update_of_ne hd]
  refine ⟨_, l', hcnt.pollReply_eq hn hc, (hcnt.answer hc).wake c, hls',
    moves_of_mem nofun fun d => ?_⟩
  rw [hmem d, State.ready_wake]
  rfl

lemma step_spec (hn : n ≤ 127) (hcnt : Counts n σ) (hls : Listed n σ l)
    (hen : σ.Enabled e) (hft : σ.Fits e) : Steps n σ l e := by
  cases e with
  | post qp => exact post_steps hcnt hls hen hft
  | register num => exact register_steps hcnt hls hen.1 hen.2 hft
  | indirectYield => exact indirectYield_steps hcnt hls hen
  | yieldNext =>
    have hmem := (hls.current.resolve_left hen).1
    exact ⟨_, l, rfl, { hcnt with }, hls.yieldTo (hls.ring.next_mem (mem_cons_of_mem _ hmem)),
      moves_of_not_arrives nofun fun _ => id⟩
  | schedule => exact schedule_steps hcnt hls
  | poll qp => exact poll_steps hn hcnt hls qp
  | reply c => exact reply_steps hn hcnt hls hen.2

lemma Reaches.inv (hn : n ≤ 127) (h : Reaches n σ) : ∃ l, Counts n σ ∧ Listed n σ l := by
  induction h with
  | init => exact ⟨_, Counts.init n, Listed.init n⟩
  | step _ hen hft hst ih =>
    obtain ⟨l, hcnt, hls⟩ := ih
    obtain ⟨σ', l', hdn, hcnt', hls', -⟩ := step_spec hn hcnt hls hen hft
    rw [hdn] at hst
    cases hst
    exact ⟨l', hcnt', hls'⟩

/-- With at most 127 coroutines each one is woken once for each time it yields,
when the last thing it waits for arrives, and the list stays a ring. -/
theorem coroutines_woken_once (hn : n ≤ 127) (h : Reaches n σ) : ∃ l, WokenOnce n σ l := by
  obtain ⟨l, hcnt, hls⟩ := h.inv hn
  refine ⟨l, hls.ring, fun c _ _ => hcnt.pending c, fun c _ _ => hcnt.reply c,
    fun c h1 _ hact => ?_, fun c h1 hcn hid => ⟨fun hc => ?_, fun hrdy => ?_⟩,
    fun e hen hft => ?_⟩
  · by_contra hc
    have hid := hls.idle c (by omega) hc
    rw [hact] at hid
    cases hid
  · by_contra hrdy
    have hact := hls.started c hc hrdy
    rw [hid] at hact
    cases hact
  · exact by_contra fun hc => hls.waiting c h1 hcn hc hrdy
  · obtain ⟨σ', l', hdn, -, hls', hmv⟩ := step_spec hn hcnt hls hen hft
    exact ⟨σ', l', hdn, hls'.ring, fun c _ _ => hmv c⟩

end

/-! ## Coroutine 128 -/

/-- The first `k` coroutines have been started, and none has posted anything. -/
def running (n k : ℕ) : State :=
  { init n with active := fun c => decide (1 ≤ c ∧ c ≤ k), corId := k }

lemma running_zero (n : ℕ) : running n 0 = init n := by
  have hact : (fun c => decide (1 ≤ c ∧ c ≤ 0)) = fun _ => false := by
    funext c
    exact decide_eq_false (by omega)
  simp only [running, hact]
  rfl

lemma running_succ {n k : ℕ} (hk : k < n) :
    (running n k).yieldTo ((running n k).next k) = running n (k + 1) := by
  have hnx : (running n k).next k = k + 1 := if_neg (by omega)
  have hact : update (running n k).active (k + 1) true = fun c => decide (1 ≤ c ∧ c ≤ k + 1) := by
    funext c
    by_cases hc : c = k + 1
    · subst hc
      simp
    · rw [update_of_ne hc]
      exact decide_eq_decide.mpr (by omega)
  simp only [State.yieldTo, hnx, hact]
  rfl

lemma reaches_running {n k : ℕ} (hk : k ≤ n) : Reaches n (running n k) := by
  induction k with
  | zero =>
    rw [running_zero]
    exact .init
  | succ k ih =>
    have hsc := running_succ (Nat.lt_of_succ_le hk)
    have hrch := ih (Nat.le_of_succ_le hk)
    by_cases h0 : k = 0
    · subst h0
      refine hrch.step (e := .schedule) rfl trivial ?_
      have hnx : (running n 0).next 0 = 1 := if_neg (by omega)
      rw [State.step, State.schedule, if_pos (by rw [hnx]; decide), hsc]
    · refine hrch.step (e := .yieldNext) h0 trivial ?_
      rw [State.step]
      exact congrArg Outcome.done hsc

theorem coroutines_woken_once_two : ∃ σ, (2 ≤ 127 ∧ Reaches 2 σ ∧ σ.corId = 2 ∧ ¬ σ.Ready 1) ∧
    ∃ l, WokenOnce 2 σ l := by
  have hone : Reaches 2 (running 2 1) := reaches_running (by decide)
  have hpost := hone.step (e := .post 0 0) (by decide) (by decide) rfl
  have hask := hpost.step (e := .register 2) (by decide) (by decide) rfl
  have hyl := hask.step (e := .indirectYield) (by decide) trivial rfl
  exact ⟨_, ⟨by decide, hyl, rfl, by decide⟩, coroutines_woken_once (by decide) hyl⟩

/-- The reply to coroutine 128 names coroutine 0, and the process ends. -/
theorem reply_names_master : ∃ σ, Reaches 128 σ ∧ σ.Enabled (.reply 128) ∧ σ.Fits (.reply 128) ∧
    σ.pendingCounts 128 = 0 ∧ σ.replyCounts 128 = 1 ∧ σ.step (.reply 128) = .exit ∧
    ¬ ∃ l, WokenOnce 128 σ l := by
  have hla : Reaches 128 (running 128 128) := reaches_running (le_refl _)
  have hask := hla.step (e := .register 1) (by decide) (by decide) rfl
  have hyl := hask.step (e := .indirectYield) (by decide) trivial rfl
  refine ⟨_, hyl, ⟨rfl, by decide⟩, trivial, rfl, rfl, rfl, ?_⟩
  rintro ⟨l, hl⟩
  obtain ⟨σ', l', hdn, -⟩ := hl.returns (.reply 128) ⟨rfl, by decide⟩ trivial
  cases hdn

end Librdpma.Drtmh.Routines
