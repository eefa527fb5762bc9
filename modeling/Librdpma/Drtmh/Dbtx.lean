import Librdpma.Drtmh.CoordinatorRuns
import Librdpma.Drtmh.RemoteSet

/-!
# Remote transactions of DBTX (`src/db/txs/dbtx.cc`)

A transaction adds records to its remote set and reads them in rounds; each round
reads every record of the set again. Records that have been read can be promoted
to writes. `DBTX::end` locks the promoted records, validates the whole set, and
writes back with one message to each server concerned.

The request buffer and the lock buffer bound both sets. A value is `none` for a
record that has been deleted (`value == NULL`).
-/

namespace Librdpma.Drtmh

open Lib List

variable {C W : Type} [DecidableEq C]

/-! ## The remote set -/

/-- An entry of `kvs_`. Before the record has been read `seq` and `node` are not
set. -/
structure DbtxItem where
  rid : RecordId
  seq : Option (BitVec 64)

/-- The item of a lock or validation request. -/
def DbtxItem.lockItem (it : DbtxItem) : Option RtxLockItem :=
  it.seq.map fun seq => ⟨it.rid, seq⟩

/-- The sequence number with which `get_rpc_handler` answers. -/
def MemNode.readSeq (n : MemNode (Option W)) : BitVec 64 :=
  match n.value with
  | none => 0#64
  | some _ => n.seq

structure DbtxTx (W : Type) where
  items : List DbtxItem
  /-- `num` in the header of the request, from the last `do_reads` -/
  num : ℕ
  readItems : BitVec 16
  /-- the servers whose replies to `RPC_READ` are missing -/
  waiting : List ℕ
  /-- the lock requests with the new values -/
  locks : List (RtxLockItem × Option W)
  seen : List (RecordId × Option W)
  items_fit : requestHeaderSize + requestItemSize * items.length ≤ maxMsgSize
  locks_fit : requestHeaderSize + lockItemSize * locks.length ≤ maxMsgSize

inductive DbtxOp (W : Type) : Type where
  | add (x : RecordId)
  | doReads
  | readMsg (p : ℕ)
  | promoteToWrite (id : ℕ) (v : Option W)

/-- What `get_results` makes of the reply of server `p`. -/
def DbtxItem.answer (p : ℕ) (s : Store (Option W)) (it : DbtxItem) : DbtxItem :=
  if it.rid.pid = p then { it with seq := some (s it.rid).readSeq } else it

namespace DbtxTx

/-- The requested items of server `p`. -/
def requested (p : ℕ) (l : DbtxTx W) : List DbtxItem :=
  (l.items.take l.num).filter fun it => it.rid.pid = p

def itemAt (l : DbtxTx W) (i : ℕ) : Option RtxLockItem := l.items[i]?.bind DbtxItem.lockItem

/-- `add` -/
def add (x : RecordId) (l : DbtxTx W) : Option (DbtxTx W) :=
  if h : l.waiting = [] ∧
      requestHeaderSize + requestItemSize * (l.items.length + 1) ≤ maxMsgSize then
    some { l with
      items := l.items ++ [⟨x, none⟩]
      items_fit := by
        rw [length_append]
        exact h.2 }
  else none

/-- `do_reads` -/
def doReads (l : DbtxTx W) : Option (DbtxTx W) :=
  if l.waiting = [] ∧ l.items ≠ [] then
    some { l with
      num := l.items.length
      readItems := BitVec.ofNat 16 l.items.length
      waiting := (l.items.map fun it => it.rid.pid).dedup }
  else none

/-- `get_rpc_handler` at server `p`, and `get_results` on its reply. While a
sequence number is 1 the handler retries. -/
def readMsg (p : ℕ) (s : Store (Option W)) (l : DbtxTx W) : Option (DbtxTx W) :=
  if p ∈ l.waiting ∧ ∀ it ∈ l.requested p, (s it.rid).seq ≠ 1#64 then
    some { l with
      items := l.items.mapIdx fun i it => if i < l.num then it.answer p s else it
      waiting := l.waiting.filter fun q => q ≠ p
      seen := l.seen ++ (l.requested p).map fun it => (it.rid, (s it.rid).value)
      items_fit := by
        rw [length_mapIdx]
        exact l.items_fit }
  else none

/-- `promote_to_write` of a record that has been read. -/
def promoteToWrite (id : ℕ) (v : Option W) (l : DbtxTx W) : Option (DbtxTx W) :=
  match l.itemAt id with
  | none => none
  | some item =>
      if h : l.waiting = [] ∧
          requestHeaderSize + lockItemSize * (l.locks.length + 1) ≤ maxMsgSize then
        some { l with
          readItems := l.readItems - 1#16
          locks := l.locks ++ [(item, v)]
          locks_fit := by
            rw [length_append]
            exact h.2 }
      else none

def lockBatch (l : DbtxTx W) : List RtxLockItem := l.locks.map Prod.fst

/-- `validate_remote` sends the request of the last `do_reads`, unless
`read_items_` is 0. -/
def validateBatch (l : DbtxTx W) : List RtxLockItem :=
  if l.readItems = 0#16 then [] else (l.items.take l.num).filterMap DbtxItem.lockItem

def writes (l : DbtxTx W) : List (RecordId × Option W) := l.locks.map fun e => (e.1.rid, e.2)

end DbtxTx

def dbtx : Protocol (DbtxTx W) (DbtxOp W) (Option W) where
  start :=
    { items := [], num := 0, readItems := 0#16, waiting := [], locks := [], seen := []
      items_fit := by decide
      locks_fit := by simp [requestHeaderSize, maxMsgSize] }
  exec
    | .add x, _, l => l.add x
    | .doReads, _, l => l.doReads
    | .readMsg p, s, l => l.readMsg p s
    | .promoteToWrite id v, _, l => l.promoteToWrite id v
  ready := fun l => l.waiting.isEmpty
  seen := DbtxTx.seen
  lockBatch := DbtxTx.lockBatch
  validateBatch := DbtxTx.validateBatch
  writes := DbtxTx.writes
  commitMsgs := fun l =>
    (macSet l.lockBatch).map fun p => l.writes.filter fun e => e.1.pid = p
  valid := fun seq n => n.seq = seq

/-! ## The conditions -/

/-- A record that is read again still answers with the same sequence number. -/
def DbtxSteady (s : Store (Option W)) (l : DbtxTx W) : DbtxOp W → Prop
  | .readMsg p => ∀ it ∈ l.requested p, it.seq = none ∨ it.seq = some (s it.rid).readSeq
  | _ => True

/-- The conditions on a step: records are steady while they are read, a record
that is validated and has not changed is not locked by another coroutine, and a
record that is written has a sequence number below `2 ^ 64 - 2`. -/
def DbtxMeets (content : C → BitVec 64) (σ : System C (DbtxTx W) (Option W)) :
    Act C (DbtxOp W) → Prop
  | .exec c op => DbtxSteady σ.store (σ.cor c).loc op
  | .validateMsg c p => ∀ it ∈ (σ.cor c).loc.validateBatch, it.rid.pid = p →
      (σ.store it.rid).seq = it.seq →
      (σ.store it.rid).lock = 0#64 ∨ (σ.store it.rid).lock = content c
  | .commitMsg c i => ∀ e ∈ (σ.cor c).stage.message i, (σ.store e.1).seq.toNat + 2 < 2 ^ 64
  | _ => True

/-! ## The protocol is lawful -/

lemma flatten_filter_perm {α : Type} (f : α → ℕ) {ps : List ℕ} (hnd : ps.Nodup)
    {l : List α} (hmem : ∀ e ∈ l, f e ∈ ps) :
    (ps.map fun p => l.filter fun e => f e = p).flatten.Perm l := by
  induction ps generalizing l with
  | nil =>
    rw [eq_nil_iff_forall_not_mem.mpr fun e he => not_mem_nil (hmem e he)]
    exact .refl _
  | cons p ps ih =>
    obtain ⟨hp, hps⟩ := nodup_cons.mp hnd
    have hrs := ih hps (l := l.filter fun e => !decide (f e = p)) fun e he => by
      obtain ⟨hin, hne⟩ := mem_filter.mp he
      refine (mem_cons.mp (hmem e hin)).resolve_left fun heq => ?_
      rw [heq] at hne
      simp at hne
    have hprt : (ps.map fun q => (l.filter fun e => !decide (f e = p)).filter
        fun e => f e = q) = ps.map fun q => l.filter fun e => f e = q := by
      refine map_congr_left fun q hq => ?_
      rw [filter_filter]
      refine filter_congr fun e _ => ?_
      by_cases he : f e = q
      · have hqp : q ≠ p := fun heq => hp (heq ▸ hq)
        simp [he, hqp]
      · simp [he]
    rw [hprt] at hrs
    rw [map_cons, flatten_cons]
    exact (hrs.append_left _).trans (filter_append_perm _ l)

/-- Each read has an item of the last request, and `read_items_` counts the items
that have not been promoted since. -/
structure DbtxTx.Tracks (l : DbtxTx W) (R : List (RecordId × ℕ)) : Prop where
  num_le : l.num ≤ l.items.length
  read_lt : ∀ i item, l.itemAt i = some item → i < l.num
  reads : ∀ r ∈ R, ∃ i item, l.itemAt i = some item ∧ item.rid = r.1 ∧ item.seq.toNat ≤ r.2
  promoted : ∃ (old new : List RtxLockItem) (ps : List ℕ), l.lockBatch = old ++ new ∧
    ps.map l.itemAt = new.map some ∧
    l.readItems = BitVec.ofNat 16 l.num - BitVec.ofNat 16 ps.length

namespace DbtxTx

variable {l l' : DbtxTx W} {R : List (RecordId × ℕ)} {s : Store (Option W)}

lemma items_le (l : DbtxTx W) : l.items.length ≤ 127 := by
  have h := l.items_fit
  unfold requestHeaderSize requestItemSize maxMsgSize at h
  omega

lemma locks_le (l : DbtxTx W) : l.lockBatch.length ≤ 127 := by
  have h := l.locks_fit
  unfold requestHeaderSize lockItemSize maxMsgSize at h
  rw [lockBatch, length_map]
  omega

lemma validateBatch_le (l : DbtxTx W) : l.validateBatch.length ≤ 127 := by
  unfold validateBatch
  split
  · exact Nat.zero_le _
  · calc ((l.items.take l.num).filterMap DbtxItem.lockItem).length
        ≤ (l.items.take l.num).length := length_filterMap_le ..
      _ ≤ l.items.length := length_take_le' ..
      _ ≤ 127 := l.items_le

lemma Tracks.add (h : l.Tracks R) {x : RecordId} (hs : l.add x = some l') :
    l'.seen = l.seen ∧ l'.Tracks R := by
  rw [DbtxTx.add] at hs
  split at hs
  swap
  · cases hs
  cases hs
  refine ⟨rfl, ?_⟩
  -- the new item has not been read
  have hsm : ∀ i, ((l.items ++ [⟨x, none⟩])[i]?).bind DbtxItem.lockItem = l.itemAt i := by
    intro i
    rw [itemAt, getElem?_append]
    split
    · rfl
    · rename_i hi
      rw [getElem?_eq_none (Nat.le_of_not_lt hi), getElem?_singleton]
      split <;> rfl
  have hitemAt : (fun i => ((l.items ++ [⟨x, none⟩])[i]?).bind DbtxItem.lockItem) = l.itemAt :=
    funext hsm
  refine ⟨?_, fun i item hi => h.read_lt i item ((hsm i).symm.trans hi), fun r hr => ?_, ?_⟩
  · rw [length_append]
    exact Nat.le_add_right_of_le h.num_le
  · obtain ⟨i, item, hi, hrs⟩ := h.reads r hr
    exact ⟨i, item, (hsm i).trans hi, hrs⟩
  · obtain ⟨old, new, ps, hlks, hps, hcnt⟩ := h.promoted
    refine ⟨old, new, ps, hlks, ?_, hcnt⟩
    rw [← hps, ← hitemAt]
    rfl

lemma Tracks.doReads (h : l.Tracks R) (hs : l.doReads = some l') :
    l'.seen = l.seen ∧ l'.Tracks R := by
  rw [DbtxTx.doReads] at hs
  split at hs
  swap
  · cases hs
  cases hs
  refine ⟨rfl, le_rfl, fun i item hi => ?_, h.reads, l.lockBatch, [], [], ?_, rfl, ?_⟩
  · exact (h.read_lt i item hi).trans_le h.num_le
  · exact (append_nil _).symm
  · exact (BitVec.sub_zero _).symm

lemma readSeq_le (n : MemNode (Option W)) : n.readSeq.toNat ≤ n.seq.toNat := by
  unfold MemNode.readSeq
  split
  · exact Nat.zero_le _
  · exact le_rfl

lemma Tracks.readMsg (h : l.Tracks R) {p : ℕ}
    (hok : ∀ it ∈ l.requested p, it.seq = none ∨ it.seq = some (s it.rid).readSeq)
    (hs : l.readMsg p s = some l') :
    l'.seen = l.seen ++ (l.requested p).map (fun it => (it.rid, (s it.rid).value)) ∧
      l'.Tracks (R ++ (l.requested p).map fun it => (it.rid, (s it.rid).seq.toNat)) := by
  rw [DbtxTx.readMsg] at hs
  split at hs
  swap
  · cases hs
  cases hs
  refine ⟨rfl, ?_⟩
  set f := fun i (it : DbtxItem) => if i < l.num then it.answer p s else it with hf
  have hat : ∀ i, ((l.items.mapIdx f)[i]?).bind DbtxItem.lockItem
      = l.items[i]?.bind fun it => (f i it).lockItem := by
    intro i
    rw [getElem?_mapIdx, Option.bind_map]
    rfl
  have hrqs : ∀ i it, i < l.num → l.items[i]? = some it → it.rid.pid = p → it ∈ l.requested p := by
    intro i it hi hit hp
    refine mem_filter.mpr ⟨mem_of_getElem? (i := i) ?_, by simpa using hp⟩
    rw [getElem?_take_of_lt hi, hit]
  -- an item that has been read before keeps its sequence number
  have hkp : ∀ i item, l.itemAt i = some item →
      ((l.items.mapIdx f)[i]?).bind DbtxItem.lockItem = some item := by
    intro i item hi
    have hlt := h.read_lt i item hi
    obtain ⟨it, hit, hitem⟩ := Option.bind_eq_some_iff.mp hi
    obtain ⟨seq, hseq, -⟩ := Option.map_eq_some_iff.mp hitem
    rw [hat, hit, Option.bind_some, hf]
    dsimp only
    rw [if_pos hlt, DbtxItem.answer]
    split_ifs with hp
    · rcases hok it (hrqs i it hlt hit hp) with hno | hsm
      · exact absurd (hno.symm.trans hseq) nofun
      · rw [← hsm]
        exact hitem
    · exact hitem
  refine ⟨?_, fun i item hi => ?_, fun r hr => ?_, ?_⟩
  · rw [length_mapIdx]
    exact h.num_le
  · by_contra hlt
    have hsm : l.itemAt i = some item := by
      rw [← hi]
      refine (hat i).trans ?_ |>.symm
      simp only [hf, if_neg hlt]
      rfl
    exact hlt (h.read_lt i item hsm)
  · rcases mem_append.mp hr with hr | hr
    · obtain ⟨i, item, hi, hrs⟩ := h.reads r hr
      exact ⟨i, item, hkp i item hi, hrs⟩
    · obtain ⟨it, hit, rfl⟩ := mem_map.mp hr
      obtain ⟨htk, hp⟩ := mem_filter.mp hit
      obtain ⟨i, hi⟩ := mem_iff_getElem?.mp htk
      rw [getElem?_take] at hi
      split at hi
      swap
      · cases hi
      rename_i hlt
      refine ⟨i, ⟨it.rid, (s it.rid).readSeq⟩, ?_, rfl, readSeq_le _⟩
      refine (hat i).trans ?_
      rw [hi, Option.bind_some, hf]
      dsimp only
      rw [if_pos hlt, DbtxItem.answer, if_pos (by simpa using hp)]
      rfl
  · obtain ⟨old, new, ps, hlks, hps, hcnt⟩ := h.promoted
    refine ⟨old, new, ps, hlks, ?_, hcnt⟩
    rw [← hps]
    refine map_congr_left fun i hi => ?_
    have hsome : l.itemAt i ∈ new.map some := by
      rw [← hps]
      exact mem_map_of_mem hi
    obtain ⟨item, -, hitem⟩ := mem_map.mp hsome
    rw [← hitem]
    exact hkp i item hitem.symm

lemma Tracks.promoteToWrite (h : l.Tracks R) {id : ℕ} {v : Option W}
    (hs : l.promoteToWrite id v = some l') : l'.seen = l.seen ∧ l'.Tracks R := by
  rw [DbtxTx.promoteToWrite] at hs
  split at hs
  · cases hs
  rename_i item hitem
  split at hs
  swap
  · cases hs
  cases hs
  obtain ⟨old, new, ps, hlks, hps, hcnt⟩ := h.promoted
  refine ⟨rfl, h.num_le, h.read_lt, h.reads, old, new ++ [item], ps ++ [id], ?_, ?_, ?_⟩
  · change (l.locks ++ [(item, v)]).map Prod.fst = _
    rw [map_append, ← append_assoc, ← hlks]
    rfl
  · change (ps ++ [id]).map l.itemAt = _
    rw [map_append, map_append, hps, map_singleton, hitem]
    rfl
  · rw [hcnt, length_append, length_singleton, BitVec.ofNat_add]
    bv_omega

/-- A read that is not validated is of a record that has been promoted. -/
lemma Tracks.covered (h : l.Tracks R) (hnd : (l.lockBatch.map RtxLockItem.rid).Nodup) :
    ∀ r ∈ R, ∃ it ∈ l.lockBatch ++ l.validateBatch, it.rid = r.1 ∧ it.seq.toNat ≤ r.2 := by
  intro r hr
  obtain ⟨i, item, hi, hrs⟩ := h.reads r hr
  have hlt := h.read_lt i item hi
  refine ⟨item, mem_append.mpr ?_, hrs⟩
  by_cases hz : l.readItems = 0#16
  · left
    obtain ⟨old, new, ps, hlks, hps, hcnt⟩ := h.promoted
    have hlen : ps.length = new.length := by
      have hlens := congrArg length hps
      rwa [length_map, length_map] at hlens
    have hnew : new.length ≤ 127 := by
      have hle := l.locks_le
      rw [hlks, length_append] at hle
      exact (Nat.le_add_left _ _).trans hle
    have hnum : l.num ≤ 127 := h.num_le.trans l.items_le
    have hall : ps.length = l.num := by
      rw [hz] at hcnt
      bv_omega
    have hdis : ps.Nodup := by
      rw [hlks, map_append] at hnd
      refine Nodup.of_map l.itemAt ?_
      rw [hps]
      exact (Nodup.of_map _ hnd.of_append_right).map (Option.some_injective _)
    have hsub : ps ⊆ range l.num := by
      intro j hj
      have hsome : l.itemAt j ∈ new.map some := by
        rw [← hps]
        exact mem_map_of_mem hj
      obtain ⟨item', -, hit'⟩ := mem_map.mp hsome
      exact mem_range.mpr (h.read_lt j item' hit'.symm)
    -- as many promotions as items, so that each item has been promoted
    have hperm : ps.Perm (range l.num) :=
      (hdis.subperm hsub).perm_of_length_le (by rw [length_range, hall])
    have hin : l.itemAt i ∈ new.map some := by
      rw [← hps]
      exact mem_map_of_mem (hperm.mem_iff.mpr (mem_range.mpr hlt))
    rw [hi] at hin
    obtain ⟨item', hmem, heq⟩ := mem_map.mp hin
    rw [hlks, ← Option.some.inj heq]
    exact mem_append_right _ hmem
  · right
    obtain ⟨it, hit, hitem⟩ := Option.bind_eq_some_iff.mp hi
    rw [validateBatch, if_neg hz]
    refine mem_filterMap.mpr ⟨it, mem_of_getElem? (i := i) ?_, hitem⟩
    rw [getElem?_take_of_lt hlt, hit]

end DbtxTx

lemma dbtx_lawful : (dbtx : Protocol (DbtxTx W) (DbtxOp W) (Option W)).Lawful DbtxSteady
    DbtxTx.Tracks where
  valid_seq := fun seq n h => of_decide_eq_true h
  writes_rids := fun l => by
    simp [dbtx, Protocol.lockRids, DbtxTx.writes, DbtxTx.lockBatch]
  commit_perm := fun l => by
    refine flatten_filter_perm (fun e : RecordId × Option W => e.1.pid) (nodup_dedup _)
      fun e he => ?_
    obtain ⟨lock, hlk, rfl⟩ := mem_map.mp he
    exact mem_macSet (mem_map_of_mem hlk)
  seen_start := rfl
  tracks_start :=
    { num_le := le_rfl
      read_lt := fun _ _ => nofun
      reads := fun _ => nofun
      promoted := ⟨[], [], [], rfl, rfl, (BitVec.sub_zero _).symm⟩ }
  tracks_exec := fun a s l l' R hok hex htr => by
    cases a with
    | add x =>
        obtain ⟨hsn, h⟩ := htr.add hex
        exact ⟨[], by simpa [dbtx] using hsn, by simpa using h⟩
    | doReads =>
        obtain ⟨hsn, h⟩ := htr.doReads hex
        exact ⟨[], by simpa [dbtx] using hsn, by simpa using h⟩
    | readMsg p =>
        obtain ⟨hsn, h⟩ := htr.readMsg hok hex
        refine ⟨(l.requested p).map DbtxItem.rid, ?_, ?_⟩
        · rw [map_map]
          exact hsn
        · rw [map_map]
          exact h
    | promoteToWrite id v =>
        obtain ⟨hsn, h⟩ := htr.promoteToWrite hex
        exact ⟨[], by simpa [dbtx] using hsn, by simpa using h⟩
  covered := fun l R htr hnd => htr.covered hnd

/-! ## Serializability -/

variable {content : C → BitVec 64}

omit [DecidableEq C] in
lemma DbtxMeets.meets {σ : System C (DbtxTx W) (Option W)} {act : Act C (DbtxOp W)}
    (h : DbtxMeets content σ act) : dbtx.Meets content DbtxSteady σ act := by
  cases act with
  | exec c op | commitMsg c i => exact h
  | commit c => exact ⟨(σ.cor c).loc.locks_le, (σ.cor c).loc.validateBatch_le⟩
  | validateMsg c p => exact fun it hit hp hval => h it hit hp (of_decide_eq_true hval)
  | lockMsg | lockDone | validateDone | releaseMsg | next => trivial

/-- In every state of a run whose steps meet the conditions, the transactions
that have passed validation are serializable. -/
theorem dbtx_serializable (hinj : Function.Injective content) (hne : ∀ c, content c ≠ 0#64)
    (s0 : Store (Option W)) (hlock : ∀ x, (s0 x).lock = 0#64) (σ : System C (DbtxTx W) (Option W))
    (h : dbtx.Reached content (DbtxMeets content) s0 σ) : σ.Serializable s0 :=
  dbtx_lawful.serializable hinj hne hlock (fun _ _ => DbtxMeets.meets) h

instance (s : Store (Option W)) (l : DbtxTx W) (op : DbtxOp W) : Decidable (DbtxSteady s l op) := by
  cases op with
  | readMsg p => exact inferInstanceAs (Decidable (∀ it ∈ _, _ ∨ _))
  | add | doReads | promoteToWrite => exact inferInstanceAs (Decidable True)

instance (σ : System C (DbtxTx W) (Option W)) (act : Act C (DbtxOp W)) :
    Decidable (DbtxMeets content σ act) := by
  cases act with
  | exec c op => exact inferInstanceAs (Decidable (DbtxSteady ..))
  | validateMsg c p => exact inferInstanceAs (Decidable (∀ it ∈ _, _))
  | commitMsg c i => exact inferInstanceAs (Decidable (∀ e ∈ _, _))
  | commit | lockMsg | lockDone | validateDone | releaseMsg | next =>
      exact inferInstanceAs (Decidable True)

/-- The records of the runs below start unlocked, with value 0. -/
def zeroStore : Store (Option ℕ) := fun _ => ⟨0#64, 2#64, some 0⟩

/-- A coroutine reads two records of node 1 and writes the one with index `id`. -/
def dbtxPrepare (c : Bool) (x y : RecordId) (id : ℕ) : List (Act Bool (DbtxOp ℕ)) :=
  [.exec c (.add x), .exec c (.add y), .exec c .doReads, .exec c (.readMsg 1),
    .exec c (.promoteToWrite id (some 1)), .commit c, .lockMsg c 1, .lockDone c]

def dbtxValidate (c : Bool) : List (Act Bool (DbtxOp ℕ)) := [.validateMsg c 1, .validateDone c]

def dbtxWriteBack (c : Bool) : List (Act Bool (DbtxOp ℕ)) := [.commitMsg c 0, .next c]

theorem dbtx_serializable_pair :
    ∃ σ, dbtx.Reached twoCoroutines (DbtxMeets twoCoroutines) zeroStore σ ∧
      σ.committed.length = 2 ∧ σ.Serializable zeroStore := by
  have hrun : ((dbtx.run twoCoroutines (DbtxMeets twoCoroutines)
      (dbtxPrepare false ⟨1, 0, 0#64⟩ ⟨1, 0, 1#64⟩ 1 ++ dbtxValidate false ++
        dbtxWriteBack false ++ dbtxPrepare true ⟨1, 0, 0#64⟩ ⟨1, 0, 1#64⟩ 0 ++
        dbtxValidate true ++ dbtxWriteBack true)
      (dbtx.begin Bool zeroStore)).map fun σ => σ.committed.length) = some 2 := by
    decide +kernel
  obtain ⟨σ, hσ, hlen⟩ := Option.map_eq_some_iff.mp hrun
  have hrch := Protocol.Reached.of_run .start hσ
  exact ⟨σ, hrch, hlen, dbtx_serializable twoCoroutines_injective (by decide) zeroStore
    (fun _ => rfl) σ hrch⟩

/-- Write skew: both transactions read both records, and each writes one. When
they are validated both records are locked, which the handler does not look at. -/
theorem dbtx_write_skew :
    ∃ σ, dbtx.Reached twoCoroutines (fun _ _ => True) zeroStore σ ∧ ¬ σ.Serializable zeroStore := by
  have hrun : ((dbtx.run twoCoroutines (fun _ _ => True)
      (dbtxPrepare false ⟨1, 0, 0#64⟩ ⟨1, 0, 1#64⟩ 1 ++
        dbtxPrepare true ⟨1, 0, 0#64⟩ ⟨1, 0, 1#64⟩ 0 ++ dbtxValidate false ++
        dbtxValidate true ++ dbtxWriteBack false ++ dbtxWriteBack true)
      (dbtx.begin Bool zeroStore)).map fun σ => σ.committed.map fun t =>
        (t.reads, [t.writes ⟨1, 0, 0#64⟩, t.writes ⟨1, 0, 1#64⟩])) =
      some [([(⟨1, 0, 0#64⟩, some 0), (⟨1, 0, 1#64⟩, some 0)], [none, some (some 1)]),
        ([(⟨1, 0, 0#64⟩, some 0), (⟨1, 0, 1#64⟩, some 0)], [some (some 1), none])] := by
    decide +kernel
  obtain ⟨σ, hσ, hcom⟩ := Option.map_eq_some_iff.mp hrun
  obtain ⟨t, _, hall, ht, hrs⟩ := map_eq_cons_iff.mp hcom
  obtain ⟨u, _, rfl, hu, hnil⟩ := map_eq_cons_iff.mp hrs
  rw [map_eq_nil_iff.mp hnil] at hall
  simp only [Prod.mk.injEq, cons.injEq] at ht hu
  refine ⟨σ, Protocol.Reached.of_run .start hσ, System.not_serializable_of_two hall
    ⟨(⟨1, 0, 1#64⟩, some 0), ?_, ?_⟩ (.inl ⟨(⟨1, 0, 0#64⟩, some 0), ?_, ?_⟩)⟩
  · rw [hu.1]
    exact mem_of_mem_tail (mem_singleton_self _)
  · simp [Occ.replay, ht.2.2.1]
  · rw [ht.1]
    exact mem_cons_self
  · simp [Occ.replay, hu.2.1]

end Librdpma.Drtmh
