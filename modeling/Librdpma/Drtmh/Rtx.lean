import Librdpma.Drtmh.CoordinatorRuns

/-!
# Transactions of RTX (`src/rtx/occ.cc`)

All records are on nodes other than the coordinator's. A record that is read goes
to the end of the read set; `add_to_write` moves an item of the read set to the
write set. The write set is locked, the read set is validated, and each record is
written back with a message of its own.
-/

namespace Librdpma.Drtmh

open Lib List

variable {C V : Type} [DecidableEq C]

/-- `ReadSetItem` -/
structure ReadSetItem (V : Type) where
  rid : RecordId
  seq : BitVec 64
  data : V

/-- The item as it is sent. -/
def ReadSetItem.lockItem (it : ReadSetItem V) : RtxLockItem := ⟨it.rid, it.seq⟩

/-- The sets of a transaction, and the values it has read. -/
structure RtxTx (V : Type) where
  readSet : List (ReadSetItem V)
  writeSet : List (ReadSetItem V)
  seen : List (RecordId × V)

inductive RtxOp (V : Type) : Type where
  | read (x : RecordId)
  | addToWrite (idx : ℕ)
  /-- a new value through the pointer of `get_writeset` -/
  | put (idx : ℕ) (v : V)

namespace RtxTx

/-- `remote_read` with the answer to `RTX_REQ_READ`. -/
def read (x : RecordId) (s : Store V) (l : RtxTx V) : Option (RtxTx V) :=
  match (s x).localGetOp with
  | none => none
  | some (seq, v) =>
      some ⟨l.readSet ++ [⟨x, seq, v⟩], l.writeSet, l.seen ++ [(x, v)]⟩

/-- `add_to_write`, with its assertion on the index. -/
def addToWrite (idx : ℕ) (l : RtxTx V) : Option (RtxTx V) :=
  match l.readSet[idx]? with
  | none => none
  | some it => some ⟨l.readSet.eraseIdx idx, l.writeSet ++ [it], l.seen⟩

def put (idx : ℕ) (v : V) (l : RtxTx V) : Option (RtxTx V) :=
  match l.writeSet[idx]? with
  | none => none
  | some it => some { l with writeSet := l.writeSet.set idx { it with data := v } }

/-- The items of both sets as they are sent. -/
def items (l : RtxTx V) : List RtxLockItem := (l.writeSet ++ l.readSet).map ReadSetItem.lockItem

end RtxTx

def rtx : Protocol (RtxTx V) (RtxOp V) V where
  start := ⟨[], [], []⟩
  exec
    | .read x, s, l => l.read x s
    | .addToWrite idx, _, l => l.addToWrite idx
    | .put idx v, _, l => l.put idx v
  ready := fun _ => true
  seen := RtxTx.seen
  lockBatch := fun l => l.writeSet.map ReadSetItem.lockItem
  validateBatch := fun l => l.readSet.map ReadSetItem.lockItem
  writes := fun l => l.writeSet.map fun it => (it.rid, it.data)
  commitMsgs := fun l => l.writeSet.map fun it => [(it.rid, it.data)]
  valid := MemNode.localValidateOp

/-- The conditions on a step: both batches have at most 127 items, and a record
that is written has a sequence number below `2 ^ 64 - 2`. -/
def RtxMeets (σ : System C (RtxTx V) V) : Act C (RtxOp V) → Prop
  | .commit c => (σ.cor c).loc.writeSet.length ≤ 127 ∧ (σ.cor c).loc.readSet.length ≤ 127
  | .commitMsg c i => ∀ e ∈ (σ.cor c).stage.message i, (σ.store e.1).seq.toNat + 2 < 2 ^ 64
  | _ => True

/-! ## The protocol is lawful -/

/-- Each read has an item in one of the sets. -/
def RtxTx.Tracks (l : RtxTx V) (R : List (RecordId × ℕ)) : Prop :=
  ∀ r ∈ R, ∃ it ∈ l.items, it.rid = r.1 ∧ it.seq.toNat ≤ r.2

namespace RtxTx

variable {l l' : RtxTx V} {R : List (RecordId × ℕ)} {s : Store V}

lemma Tracks.mono (h : l.Tracks R) (hits : ∀ it ∈ l.items, it ∈ l'.items) : l'.Tracks R := by
  intro r hr
  obtain ⟨it, hit, hrid⟩ := h r hr
  exact ⟨it, hits it hit, hrid⟩

lemma mem_items {it : RtxLockItem} : it ∈ l.items ↔ it ∈ l.writeSet.map ReadSetItem.lockItem ∨
      it ∈ l.readSet.map ReadSetItem.lockItem := by
  rw [items, map_append, mem_append]

lemma Tracks.read (h : l.Tracks R) {x : RecordId} (hs : l.read x s = some l') :
    l'.seen = l.seen ++ [(x, (s x).value)] ∧ l'.Tracks (R ++ [(x, (s x).seq.toNat)]) := by
  rw [RtxTx.read, MemNode.localGetOp] at hs
  split at hs
  · cases hs
  rename_i seq v hget
  split at hget
  · cases hget
  cases hget
  cases hs
  refine ⟨rfl, fun r hr => ?_⟩
  rcases mem_append.mp hr with hr | hr
  · refine h.mono (fun it hit => ?_) r hr
    rw [mem_items] at hit ⊢
    exact hit.imp_right fun hit => by
      rw [map_append]
      exact mem_append_left _ hit
  · rw [mem_singleton.mp hr]
    exact ⟨⟨x, (s x).seq⟩, by simp [mem_items, ReadSetItem.lockItem], rfl, le_rfl⟩

lemma Tracks.addToWrite (h : l.Tracks R) {idx : ℕ} (hs : l.addToWrite idx = some l') :
    l'.seen = l.seen ∧ l'.Tracks R := by
  rw [RtxTx.addToWrite] at hs
  split at hs
  · cases hs
  rename_i it hget
  cases hs
  obtain ⟨hidx, rfl⟩ := List.getElem?_eq_some_iff.mp hget
  refine ⟨rfl, h.mono fun item hitem => ?_⟩
  have hperm : (l.writeSet ++ l.readSet).Perm
      ((l.writeSet ++ [l.readSet[idx]]) ++ l.readSet.eraseIdx idx) := by
    rw [append_assoc]
    exact (getElem_cons_eraseIdx_perm hidx).symm.append_left _
  exact (hperm.map ReadSetItem.lockItem).mem_iff.mp hitem

lemma Tracks.put (h : l.Tracks R) {idx : ℕ} {v : V} (hs : l.put idx v = some l') :
    l'.seen = l.seen ∧ l'.Tracks R := by
  rw [RtxTx.put] at hs
  split at hs
  · cases hs
  rename_i it hget
  cases hs
  obtain ⟨hidx, rfl⟩ := List.getElem?_eq_some_iff.mp hget
  refine ⟨rfl, h.mono fun item hitem => ?_⟩
  -- the new value is not part of the item that is sent
  have hsm : (l.writeSet.set idx { l.writeSet[idx] with data := v }).map ReadSetItem.lockItem
      = l.writeSet.map ReadSetItem.lockItem := by
    have hlen : idx < (l.writeSet.map ReadSetItem.lockItem).length := by
      rwa [length_map]
    have hsf := set_getElem_self hlen
    rw [getElem_map] at hsf
    rw [map_set]
    exact hsf
  rw [mem_items] at hitem ⊢
  rw [hsm]
  exact hitem

end RtxTx

lemma rtx_lawful : (rtx : Protocol (RtxTx V) (RtxOp V) V).Lawful (fun _ _ _ => True)
    RtxTx.Tracks where
  valid_seq := fun seq n h => by
    have hbt := Bool.and_eq_true_iff.mp h
    exact (of_decide_eq_true hbt.1).symm
  writes_rids := fun l => by simp [rtx, Protocol.lockRids, ReadSetItem.lockItem]
  commit_perm := fun l => by
    have hflat : (l.writeSet.map fun it => [(it.rid, it.data)]).flatten
        = l.writeSet.map fun it => (it.rid, it.data) := by
      induction l.writeSet with
      | nil => rfl
      | cons it rest ih => rw [map_cons, flatten_cons, ih, map_cons, singleton_append]
    exact .of_eq hflat
  seen_start := rfl
  tracks_start := fun _ => nofun
  tracks_exec := fun a s l l' R _ hex htr => by
    cases a with
    | read x => exact ⟨[x], htr.read hex⟩
    | addToWrite idx =>
      obtain ⟨hsn, h⟩ := htr.addToWrite hex
      exact ⟨[], by simpa [rtx] using hsn, by simpa using h⟩
    | put idx v =>
      obtain ⟨hsn, h⟩ := htr.put hex
      exact ⟨[], by simpa [rtx] using hsn, by simpa using h⟩
  covered := fun l R htr _ r hr => by
    obtain ⟨it, hit, h⟩ := htr r hr
    rw [RtxTx.items, map_append] at hit
    exact ⟨it, hit, h⟩

/-! ## Serializability -/

variable {content : C → BitVec 64}

omit [DecidableEq C] in
lemma RtxMeets.meets {σ : System C (RtxTx V) V} {act : Act C (RtxOp V)} (h : RtxMeets σ act) :
    rtx.Meets content (fun _ _ _ => True) σ act := by
  cases act with
  | commit c =>
    obtain ⟨hws, hrds⟩ := h
    exact ⟨(length_map _).trans_le hws, (length_map _).trans_le hrds⟩
  | validateMsg c p =>
    intro it _ _ hval
    have hbt := Bool.and_eq_true_iff.mp hval
    exact .inl (of_decide_eq_true hbt.2)
  | commitMsg c i => exact h
  | exec | lockMsg | lockDone | validateDone | releaseMsg | next => trivial

/-- In every state of a run whose steps meet the conditions, the committed
transactions are serializable. -/
theorem rtx_serializable (hinj : Function.Injective content) (hne : ∀ c, content c ≠ 0#64)
    (s0 : Store V) (hlock : ∀ x, (s0 x).lock = 0#64) (σ : System C (RtxTx V) V)
    (h : rtx.Reached content RtxMeets s0 σ) : σ.Serializable s0 :=
  rtx_lawful.serializable hinj hne hlock (fun _ _ => RtxMeets.meets) h

instance (σ : System C (RtxTx V) V) (act : Act C (RtxOp V)) : Decidable (RtxMeets σ act) := by
  cases act with
  | commit c => exact inferInstanceAs (Decidable (_ ∧ _))
  | commitMsg c i => exact inferInstanceAs (Decidable (∀ e ∈ _, _))
  | exec | lockMsg | lockDone | validateMsg | validateDone | releaseMsg | next =>
      exact inferInstanceAs (Decidable True)

/-- The records of the runs below start unlocked with sequence number 0. -/
def blankStore : Store ℕ := fun _ => ⟨0#64, 0#64, 0⟩

/-- A coroutine reads a record of node 1, writes it and commits. -/
def rtxWrite (c : Bool) (x : RecordId) (v : ℕ) : List (Act Bool (RtxOp ℕ)) :=
  [.exec c (.read x), .exec c (.addToWrite 0), .exec c (.put 0 v), .commit c, .lockMsg c 1,
    .lockDone c, .validateDone c, .commitMsg c 0, .next c]

theorem rtx_serializable_write :
    ∃ σ, rtx.Reached twoCoroutines RtxMeets blankStore σ ∧ σ.committed.length = 2 ∧
      σ.Serializable blankStore := by
  have hrun : ((rtx.run twoCoroutines RtxMeets (rtxWrite false ⟨1, 0, 0#64⟩ 1 ++
      rtxWrite true ⟨1, 0, 0#64⟩ 2) (rtx.begin Bool blankStore)).map
      fun σ => σ.committed.length) = some 2 := by decide +kernel
  obtain ⟨σ, hσ, hlen⟩ := Option.map_eq_some_iff.mp hrun
  have hrch := Protocol.Reached.of_run .start hσ
  exact ⟨σ, hrch, hlen, rtx_serializable twoCoroutines_injective (by decide) blankStore
    (fun _ => rfl) σ hrch⟩

/-- The first coroutine reads `x`; the second writes `x` and `y` and commits; the
first then reads `y` 127 times. -/
def rtxOverflow (x y : RecordId) : List (Act Bool (RtxOp ℕ)) :=
  [.exec false (.read x), .exec true (.read x), .exec true (.read y),
    .exec true (.addToWrite 0), .exec true (.addToWrite 0), .exec true (.put 0 1),
    .exec true (.put 1 1), .commit true, .lockMsg true 1, .lockDone true, .validateDone true,
    .commitMsg true 0, .commitMsg true 0] ++
  replicate 127 (.exec false (.read y)) ++
  [.commit false, .lockDone false, .validateMsg false 1, .validateDone false]

/-- The 128 items of the read set travel as the number -128, and the node
validates none of them. -/
theorem rtx_not_serializable : ∃ σ, rtx.Reached twoCoroutines (fun _ _ => True) blankStore σ ∧
      ¬ σ.Serializable blankStore := by
  have hrun : ((rtx.run twoCoroutines (fun _ _ => True)
      (rtxOverflow ⟨1, 0, 0#64⟩ ⟨1, 0, 1#64⟩) (rtx.begin Bool blankStore)).map
      fun σ => σ.committed.map fun t => (t.reads, t.writes ⟨1, 0, 0#64⟩)) =
      some [([(⟨1, 0, 0#64⟩, 0), (⟨1, 0, 1#64⟩, 0)], some 1),
        ((⟨1, 0, 0#64⟩, 0) :: replicate 127 (⟨1, 0, 1#64⟩, 1), none)] := by
    decide +kernel
  obtain ⟨σ, hσ, hcom⟩ := Option.map_eq_some_iff.mp hrun
  obtain ⟨t, _, hall, ht, hrs⟩ := map_eq_cons_iff.mp hcom
  obtain ⟨u, _, rfl, hu, hnil⟩ := map_eq_cons_iff.mp hrs
  rw [map_eq_nil_iff.mp hnil] at hall
  obtain ⟨-, htx⟩ := Prod.mk.inj ht
  obtain ⟨hrds, -⟩ := Prod.mk.inj hu
  refine ⟨σ, Protocol.Reached.of_run .start hσ, System.not_serializable_of_two hall
    ⟨(⟨1, 0, 0#64⟩, 0), ?_, ?_⟩ (.inr ⟨(⟨1, 0, 1#64⟩, 1), ?_, by decide⟩)⟩
  · rw [hrds]
    exact mem_cons_self
  · simp [Occ.replay, htx]
  · rw [hrds]
    exact mem_cons_of_mem _ (mem_replicate.mpr ⟨by decide, rfl⟩)

end Librdpma.Drtmh
