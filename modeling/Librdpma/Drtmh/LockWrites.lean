import Librdpma.Drtmh.Record

/-!
# Locking the write set (`OCC::lock_writes`, `OCC::lock_rpc_handler`)

Records of other nodes are locked by a batch of messages, the node's own ones
directly. Both paths compare the sequence number after the lock is taken. The
second does so with `local_validate_op`, the check of the read set, which also
wants the lock word to be 0: it always fails on a record just locked.
-/

namespace Librdpma.Drtmh

open List Function

variable {V : Type}

/-! ## The code -/

/-- The loop of `lock_rpc_handler` at node `responseNode`. -/
def lockItems (lockContent : BitVec 64) (responseNode : ℕ) :
    List RtxLockItem → Store V → Bool × Store V
  | [], s => (true, s)
  | item :: rest, s =>
      if item.rid.pid ≠ responseNode then lockItems lockContent responseNode rest s
      else
        match (s item.rid).localTryLockOp lockContent with
        | (false, _) => (false, s)
        | (true, node) =>
            let s := update s item.rid node
            if node.seq ≠ item.seq then (false, s)
            else lockItems lockContent responseNode rest s

def lockRpcHandler (lockContent : BitVec 64) (responseNode : ℕ) (msg : List RtxLockItem)
    (s : Store V) : Bool × Store V :=
  lockItems lockContent responseNode (sentItems msg) s

/-- The loop of `lock_writes`, which locks the records of the node itself. -/
def lockLocals (lockContent : BitVec 64) (nodeId : ℕ) :
    List RtxLockItem → Store V → Bool × Store V
  | [], s => (true, s)
  | it :: rest, s =>
      if it.rid.pid ≠ nodeId then lockLocals lockContent nodeId rest s
      else
        match (s it.rid).localTryLockOp lockContent with
        | (false, _) => (false, s)
        | (true, node) =>
            let s := update s it.rid node
            if node.localValidateOp it.seq = false then (false, s)
            else lockLocals lockContent nodeId rest s

/-- `mac_set_` of a batch. The nodes answer in any order; no two of them touch
the same record. -/
def macSet (batch : List RtxLockItem) : List ℕ := (batch.map fun it => it.rid.pid).dedup

/-- The messages to a list of nodes, and whether no answer is
`LOCK_FAIL_MAGIC`. -/
def lockAt (lockContent : BitVec 64) (batch : List RtxLockItem) :
    List ℕ → Store V → Bool × Store V
  | [], s => (true, s)
  | p :: ps, s =>
      let r := lockRpcHandler lockContent p batch s
      let rest := lockAt lockContent batch ps r.2
      (r.1 && rest.1, rest.2)

/-- `OCC::lock_writes` with `NO_ABORT` = 0. -/
def lockWrites (lockContent : BitVec 64) (nodeId : ℕ) (writeSet : List RtxLockItem)
    (s : Store V) : Bool × Store V :=
  match lockLocals lockContent nodeId writeSet s with
  | (false, s) => (false, s)
  | (true, s) =>
      let batch := writeSet.filter fun it => it.rid.pid ≠ nodeId
      lockAt lockContent batch (macSet batch) s

/-! ## Without contention -/

/-- Nobody holds the lock of a record of the write set, and nobody has changed
its sequence number. -/
def Uncontended (writeSet : List RtxLockItem) (s : Store V) : Prop :=
  ∀ it ∈ writeSet, (s it.rid).lock = 0#64 ∧ (s it.rid).seq = it.seq

/-- The records of a list locked. -/
def Store.locked (s : Store V) (lockContent : BitVec 64) (rids : List RecordId) : Store V :=
  fun x => if x ∈ rids then { s x with lock := lockContent } else s x

section Spec

variable {lockContent : BitVec 64} {s : Store V} {rids : List RecordId}

lemma locked_of_mem {x : RecordId} (h : x ∈ rids) :
    (s.locked lockContent rids) x = { s x with lock := lockContent } := if_pos h

lemma locked_of_not_mem {x : RecordId} (h : x ∉ rids) :
    (s.locked lockContent rids) x = s x := if_neg h

lemma update_locked (x : RecordId) :
    update (s.locked lockContent rids) x { s x with lock := lockContent }
      = s.locked lockContent (x :: rids) := by
  funext y
  by_cases hy : y = x
  · rw [hy, update_self, locked_of_mem mem_cons_self]
  · rw [update_of_ne hy]
    simp [Store.locked, hy]

lemma locked_congr {rids' : List RecordId} (h : ∀ x, x ∈ rids ↔ x ∈ rids') :
    s.locked lockContent rids = s.locked lockContent rids' := by
  funext x
  simp [Store.locked, h x]

/-- The records of one node that a list of items names. -/
def ownRids (p : ℕ) (items : List RtxLockItem) : List RecordId :=
  (items.filter fun it => it.rid.pid = p).map RtxLockItem.rid

lemma ownRids_cons_self {it : RtxLockItem} {p : ℕ} (h : it.rid.pid = p)
    (items : List RtxLockItem) : ownRids p (it :: items) = it.rid :: ownRids p items := by
  simp [ownRids, h]

lemma ownRids_cons_other {it : RtxLockItem} {p : ℕ} (h : it.rid.pid ≠ p)
    (items : List RtxLockItem) : ownRids p (it :: items) = ownRids p items := by
  simp [ownRids, h]

lemma mem_ownRids {p : ℕ} {items : List RtxLockItem} {x : RecordId} :
    x ∈ ownRids p items ↔ x.pid = p ∧ x ∈ items.map RtxLockItem.rid := by
  simp only [ownRids, mem_map, mem_filter, decide_eq_true_eq]
  constructor
  · rintro ⟨it, ⟨hit, hp⟩, rfl⟩
    exact ⟨hp, it, hit, rfl⟩
  · rintro ⟨hp, it, hit, rfl⟩
    exact ⟨it, ⟨hit, hp⟩, rfl⟩

/-- A handler locks its own records, unless one of them is named twice or
locked already. -/
lemma lockItems_locked (hcon : lockContent ≠ 0#64) (p : ℕ) {items : List RtxLockItem}
    (hfr : Uncontended items s) :
    ((lockItems lockContent p items (s.locked lockContent rids)).1 = true ↔
        (ownRids p items).Nodup ∧ ∀ x ∈ ownRids p items, x ∉ rids) ∧
      ((lockItems lockContent p items (s.locked lockContent rids)).1 = true →
        (lockItems lockContent p items (s.locked lockContent rids)).2
          = s.locked lockContent (ownRids p items ++ rids)) := by
  induction items generalizing rids with
  | nil => exact ⟨⟨fun _ => ⟨nodup_nil, nofun⟩, fun _ => rfl⟩, fun _ => rfl⟩
  | cons it items ih =>
    have hrs : Uncontended items s := fun it' h => hfr it' (mem_cons_of_mem _ h)
    obtain ⟨hlk, hseq⟩ := hfr it mem_cons_self
    by_cases hp : it.rid.pid = p
    · rw [ownRids_cons_self hp, lockItems, if_neg (not_not.mpr hp)]
      by_cases hmem : it.rid ∈ rids
      · -- the lock of the first occurrence is found
        have hhd : (s.locked lockContent rids it.rid).localTryLockOp lockContent
            = (false, s.locked lockContent rids it.rid) := by
          rw [MemNode.localTryLockOp, locked_of_mem hmem, if_pos hcon]
        rw [hhd]
        refine ⟨⟨nofun, fun h => ?_⟩, nofun⟩
        exact absurd hmem (h.2 it.rid mem_cons_self)
      · have htk : (s.locked lockContent rids it.rid).localTryLockOp lockContent
            = (true, { s it.rid with lock := lockContent }) := by
          rw [MemNode.localTryLockOp, locked_of_not_mem hmem, if_neg (not_not.mpr hlk)]
        rw [htk]
        dsimp only
        rw [if_neg (not_not.mpr hseq), update_locked]
        obtain ⟨hiff, hsto⟩ := @ih (it.rid :: rids) hrs
        refine ⟨hiff.trans ?_, fun h => ?_⟩
        · rw [nodup_cons]
          constructor
          · rintro ⟨hnd, hap⟩
            have hnew : it.rid ∉ ownRids p items := fun h =>
              hap _ h mem_cons_self
            refine ⟨⟨hnew, hnd⟩, fun x hx => ?_⟩
            rcases mem_cons.mp hx with rfl | hx
            · exact hmem
            · exact fun hxr => hap x hx (mem_cons_of_mem _ hxr)
          · rintro ⟨⟨hnew, hnd⟩, hap⟩
            refine ⟨hnd, fun x hx hxr => ?_⟩
            rcases mem_cons.mp hxr with rfl | hxr
            · exact hnew hx
            · exact hap x (mem_cons_of_mem _ hx) hxr
        · rw [hsto h]
          refine locked_congr fun x => ?_
          simp only [mem_append, mem_cons]
          tauto
    · rw [ownRids_cons_other hp, lockItems, if_pos hp]
      exact ih hrs

lemma lockAt_locked (hcon : lockContent ≠ 0#64) {batch : List RtxLockItem}
    (hfr : Uncontended batch s) {ps : List ℕ} (hps : ps.Nodup) (hrd : ∀ x ∈ rids, x.pid ∉ ps) :
    ((lockAt lockContent batch ps (s.locked lockContent rids)).1 = true ↔
        ∀ p ∈ ps, (ownRids p (sentItems batch)).Nodup) ∧
      ((lockAt lockContent batch ps (s.locked lockContent rids)).1 = true →
        (lockAt lockContent batch ps (s.locked lockContent rids)).2
          = s.locked lockContent (ps.flatMap (fun p => ownRids p (sentItems batch)) ++ rids)) := by
  induction ps generalizing rids with
  | nil => exact ⟨⟨fun _ => nofun, fun _ => rfl⟩, fun _ => rfl⟩
  | cons p ps ih =>
    have hsn : Uncontended (sentItems batch) s := fun it h =>
      hfr it (mem_of_mem_take h)
    obtain ⟨hpnew, hps⟩ := nodup_cons.mp hps
    obtain ⟨hiff, hsto⟩ := @lockItems_locked _ _ s rids hcon p _ hsn
    have hap : ∀ x ∈ ownRids p (sentItems batch), x ∉ rids := fun x hx hxr =>
      hrd x hxr (by rw [(mem_ownRids.mp hx).1]; exact mem_cons_self)
    rw [lockAt, lockRpcHandler]
    rw [Bool.and_eq_true]
    by_cases hok : (lockItems lockContent p (sentItems batch) (s.locked lockContent rids)).1 = true
    · have hpd : ∀ x ∈ ownRids p (sentItems batch) ++ rids, x.pid ∉ ps := by
        intro x hx
        rcases mem_append.mp hx with hx | hx
        · rw [(mem_ownRids.mp hx).1]
          exact hpnew
        · exact fun h => hrd x hx (mem_cons_of_mem _ h)
      obtain ⟨ihiff, ihstore⟩ := ih hps hpd
      rw [hsto hok]
      refine ⟨⟨fun h => ?_, fun h => ⟨hok, ihiff.mpr fun q hq => h q
        (mem_cons_of_mem _ hq)⟩⟩, fun h => ?_⟩
      · exact forall_mem_cons.mpr ⟨(hiff.mp hok).1, ihiff.mp h.2⟩
      · rw [ihstore h.2]
        refine locked_congr fun x => ?_
        simp only [mem_append, flatMap_cons]
        tauto
    · refine ⟨⟨fun h => absurd h.1 hok, fun h => ?_⟩, fun h => absurd h.1 hok⟩
      exact absurd (hiff.mpr ⟨h p mem_cons_self, hap⟩) hok

lemma nodup_rids_iff {items : List RtxLockItem} {ps : List ℕ}
    (hps : ∀ it ∈ items, it.rid.pid ∈ ps) :
    (items.map RtxLockItem.rid).Nodup ↔ ∀ p ∈ ps, (ownRids p items).Nodup := by
  constructor
  · intro h p _
    exact h.sublist (filter_sublist.map _)
  · intro h
    induction items with
    | nil => exact nodup_nil
    | cons it items ih =>
      obtain ⟨hit, hps⟩ := forall_mem_cons.mp hps
      have hown := h _ hit
      rw [ownRids_cons_self rfl, nodup_cons] at hown
      rw [map_cons, nodup_cons]
      refine ⟨fun hmem => hown.1 (mem_ownRids.mpr ⟨rfl, hmem⟩), ih hps fun p hp => ?_⟩
      have hnd := h p hp
      by_cases heq : it.rid.pid = p
      · rw [ownRids_cons_self heq] at hnd
        exact (nodup_cons.mp hnd).2
      · rwa [ownRids_cons_other heq] at hnd

/-- With a record of the node itself, `lock_writes` fails: the record is found
locked, or it is locked and then found so. -/
lemma lockLocals_fails (hcon : lockContent ≠ 0#64) {nodeId : ℕ}
    {writeSet : List RtxLockItem} (hloc : ∃ it ∈ writeSet, it.rid.pid = nodeId) (s : Store V) :
    (lockLocals lockContent nodeId writeSet s).1 = false := by
  induction writeSet with
  | nil =>
    obtain ⟨it, hit, -⟩ := hloc
    cases hit
  | cons it rest ih =>
    rw [lockLocals]
    by_cases hp : it.rid.pid = nodeId
    · rw [if_neg (not_not.mpr hp), MemNode.localTryLockOp]
      by_cases hlk : (s it.rid).lock = 0#64
      · rw [if_neg (not_not.mpr hlk)]
        simp [MemNode.localValidateOp, hcon]
      · rw [if_pos hlk]
    · rw [if_pos hp]
      refine ih ?_
      obtain ⟨it', hit', hp'⟩ := hloc
      rcases mem_cons.mp hit' with rfl | hit'
      · exact absurd hp' hp
      · exact ⟨it', hit', hp'⟩

lemma lockLocals_remote {nodeId : ℕ} {writeSet : List RtxLockItem}
    (hrmt : ∀ it ∈ writeSet, it.rid.pid ≠ nodeId) (s : Store V) :
    lockLocals lockContent nodeId writeSet s = (true, s) := by
  induction writeSet with
  | nil => rfl
  | cons it rest ih =>
    obtain ⟨hit, hrs⟩ := forall_mem_cons.mp hrmt
    rw [lockLocals, if_pos hit]
    exact ih hrs

/-- **Without contention `lock_writes` locks the write set exactly if no
record of it is local** and the items a handler gets to see name each record
once. -/
theorem lock_writes_locks_iff (hcontent : lockContent ≠ 0#64) (nodeId : ℕ)
    (writeSet : List RtxLockItem) (s : Store V) (hfree : Uncontended writeSet s) :
    ((lockWrites lockContent nodeId writeSet s).1 = true ∧
        ∀ it ∈ writeSet, ((lockWrites lockContent nodeId writeSet s).2 it.rid).lock = lockContent) ↔
      (∀ it ∈ writeSet, it.rid.pid ≠ nodeId) ∧ ((sentItems writeSet).map RtxLockItem.rid).Nodup ∧
        ∀ it ∈ writeSet, it.rid ∈ (sentItems writeSet).map RtxLockItem.rid := by
  by_cases hrmt : ∀ it ∈ writeSet, it.rid.pid ≠ nodeId
  · have hbat : (writeSet.filter fun it => it.rid.pid ≠ nodeId) = writeSet :=
      filter_eq_self.mpr fun it hit => by simpa using hrmt it hit
    have hrun : lockWrites lockContent nodeId writeSet s
        = lockAt lockContent writeSet (macSet writeSet) s := by
      rw [lockWrites, lockLocals_remote hrmt]
      rw [hbat]
    have hst : s.locked lockContent [] = s := by
      funext x
      exact locked_of_not_mem not_mem_nil
    have hpd : ∀ it ∈ sentItems writeSet, it.rid.pid ∈ macSet writeSet := fun it hit =>
      mem_dedup.mpr (mem_map_of_mem (mem_of_mem_take hit))
    have hsrv : (macSet writeSet).Nodup := nodup_dedup _
    obtain ⟨hiff, hsto⟩ := @lockAt_locked _ _ s [] hcontent writeSet hfree _ hsrv nofun
    rw [hst] at hiff hsto
    rw [hrun]
    constructor
    · rintro ⟨hok, hlkd⟩
      refine ⟨hrmt, (nodup_rids_iff hpd).mpr (hiff.mp hok), fun it hit => ?_⟩
      by_contra hms
      have hlk := hlkd it hit
      rw [hsto hok, locked_of_not_mem, (hfree it hit).1] at hlk
      · exact hcontent hlk.symm
      · rw [append_nil, mem_flatMap]
        rintro ⟨p, -, hx⟩
        exact hms (mem_ownRids.mp hx).2
    · rintro ⟨-, hnd, hcvr⟩
      have hok := hiff.mpr ((nodup_rids_iff hpd).mp hnd)
      refine ⟨hok, fun it hit => ?_⟩
      rw [hsto hok, locked_of_mem]
      rw [append_nil, mem_flatMap]
      have hmem := hcvr it hit
      obtain ⟨it', hit', heq⟩ := mem_map.mp hmem
      exact ⟨it.rid.pid, by rw [← heq]; exact hpd it' hit', mem_ownRids.mpr ⟨rfl, hmem⟩⟩
  · refine ⟨fun h => ?_, fun h => absurd h.1 hrmt⟩
    push Not at hrmt
    have hfls := lockLocals_fails hcontent hrmt s
    have hf : (lockWrites lockContent nodeId writeSet s).1 = false := by
      rw [lockWrites]
      split
      · rfl
      · rename_i s' heq
        rw [heq] at hfls
        cases hfls
    rw [hf] at h
    exact absurd h.1 nofun

end Spec

/-! ## Small write sets -/

/-- The store of unlocked records that all have sequence number 2. -/
def sampleStore : Store Unit := fun _ => ⟨0#64, 2#64, ()⟩

/-- Two records of node 2 and one of node 3. -/
def remoteLocks : List RtxLockItem :=
  [⟨⟨2, 0, 5#64⟩, 2#64⟩, ⟨⟨2, 0, 6#64⟩, 2#64⟩, ⟨⟨3, 0, 5#64⟩, 2#64⟩]

theorem lock_writes_locks_remote : 1#64 ≠ 0#64 ∧ Uncontended remoteLocks sampleStore ∧
      (lockWrites 1#64 1 remoteLocks sampleStore).1 = true ∧
      ∀ it ∈ remoteLocks,
        ((lockWrites 1#64 1 remoteLocks sampleStore).2 it.rid).lock = 1#64 := by
  have hfr : Uncontended remoteLocks sampleStore := by
    intro it hit
    simp only [remoteLocks, mem_cons, not_mem_nil, or_false] at hit
    rcases hit with rfl | rfl | rfl <;> exact ⟨rfl, rfl⟩
  exact ⟨by decide, hfr, (lock_writes_locks_iff (by decide) 1 _ sampleStore hfr).mpr
    ⟨by decide, by decide, by decide⟩⟩

/-- A record of node 1 itself. -/
theorem lock_writes_fails_local :
    ¬ ∀ (V : Type) (lockContent : BitVec 64) (nodeId : ℕ) (writeSet : List RtxLockItem)
        (s : Store V), lockContent ≠ 0#64 → (∃ it ∈ writeSet, it.rid.pid = nodeId) →
        Uncontended writeSet s →
        (lockWrites lockContent nodeId writeSet s).1 = true ∧
          ∀ it ∈ writeSet,
            ((lockWrites lockContent nodeId writeSet s).2 it.rid).lock = lockContent := by
  intro hall
  have h := hall Unit 1#64 1 [⟨⟨1, 0, 5#64⟩, 2#64⟩] sampleStore (by decide)
    ⟨_, mem_singleton_self _, rfl⟩ fun _ hit => by
      rw [mem_singleton.mp hit]
      exact ⟨rfl, rfl⟩
  exact absurd h.1 (by decide)

end Librdpma.Drtmh
