import Librdpma.Drtmh.Record

/-!
# Writing back (`OCC::write_back`, `OCC::write_back_oneshot`, `OPT_NT` = 1)

The four ways a record is written at commit all end in `inplace_write_op`. As
shipped, `OPT_NT` replaces its whole body by a copy with non-temporal stores:
the sequence number and the lock word stay as they are.
-/

namespace Librdpma.Drtmh

open Function

/-- Memory in words of 8 bytes. -/
abbrev Words := ℕ → BitVec 64

/-- `nt_memcpy_128` with `OPT_NT_ALIGN` = 0. The loop adds 8 to `cur` before it
copies a word, so that it leaves out the first word and copies one more than
`size` bytes have. -/
def ntMemcpy128 (src : Words) (size : ℕ) (target : Words) : Words := fun i =>
  if 1 ≤ i ∧ i ≤ (size + 7) / 8 then src i else target i

/-- An entry of the write set at commit: the record, and the buffered value. -/
structure WriteItem where
  rid : RecordId
  dataPtr : Words
  len : ℕ

/-- `inplace_write_op` with `OPT_NT` = 1. -/
def inplaceWriteOpNt (it : WriteItem) (n : MemNode Words) : MemNode Words :=
  { n with value := ntMemcpy128 it.dataPtr it.len n.value }

/-! ## The four paths -/

section Paths

variable (responseNode nodeId : ℕ)

/-- The loop of `commit_rpc_handler`. -/
def commitItems : List WriteItem → Store Words → Store Words
  | [], s => s
  | item :: rest, s =>
      if item.rid.pid ≠ responseNode then commitItems rest s
      else commitItems rest (update s item.rid (inplaceWriteOpNt item (s item.rid)))

def commitRpcHandler (msg : List WriteItem) (s : Store Words) : Store Words :=
  commitItems responseNode (sentItems msg) s

/-- `commit_oneshot_handler`, at the node of the record. -/
def commitOneshotHandler (item : WriteItem) (s : Store Words) : Store Words :=
  update s item.rid (inplaceWriteOpNt item (s item.rid))

/-- The records of the node itself in `write_back`. -/
def writeLocals : List WriteItem → Store Words → Store Words
  | [], s => s
  | it :: rest, s =>
      if it.rid.pid = nodeId then
        writeLocals rest (update s it.rid (inplaceWriteOpNt it (s it.rid)))
      else writeLocals rest s

/-- `write_back`: the own records, then one batch of the whole write set to the
nodes of the others. -/
def writeBack (writeSet : List WriteItem) (s : Store Words) : Store Words :=
  let remote := (writeSet.map fun it => it.rid.pid).filter fun p => p ≠ nodeId
  remote.dedup.foldl (fun s p => commitRpcHandler p writeSet s) (writeLocals nodeId writeSet s)

/-- `write_back_oneshot`: one message for each record of another node. -/
def writeBackOneshot : List WriteItem → Store Words → Store Words
  | [], s => s
  | it :: rest, s =>
      if it.rid.pid ≠ nodeId then writeBackOneshot rest (commitOneshotHandler it s)
      else writeBackOneshot rest (update s it.rid (inplaceWriteOpNt it (s it.rid)))

end Paths

inductive CommitPath : Type where
  | writeBack
  | writeBackOneshot

def CommitPath.run (path : CommitPath) (nodeId : ℕ) (writeSet : List WriteItem)
    (s : Store Words) : Store Words :=
  match path with
  | .writeBack => Drtmh.writeBack nodeId writeSet s
  | .writeBackOneshot => Drtmh.writeBackOneshot nodeId writeSet s

/-! ## What they leave -/

/-- Lock words and sequence numbers are as before. -/
def SameHeaders (s s' : Store Words) : Prop :=
  ∀ x, (s' x).lock = (s x).lock ∧ (s' x).seq = (s x).seq

lemma SameHeaders.refl (s : Store Words) : SameHeaders s s := fun _ => ⟨rfl, rfl⟩

lemma SameHeaders.trans {s s' s'' : Store Words} (h : SameHeaders s s')
    (h' : SameHeaders s' s'') : SameHeaders s s'' := fun x =>
  ⟨(h' x).1.trans (h x).1, (h' x).2.trans (h x).2⟩

lemma sameHeaders_write (it : WriteItem) (s : Store Words) :
    SameHeaders s (update s it.rid (inplaceWriteOpNt it (s it.rid))) := by
  intro x
  by_cases hx : x = it.rid
  · rw [hx, update_self]
    exact ⟨rfl, rfl⟩
  · rw [update_of_ne hx]
    exact ⟨rfl, rfl⟩

lemma sameHeaders_commitItems (p : ℕ) (items : List WriteItem) (s : Store Words) :
    SameHeaders s (commitItems p items s) := by
  induction items generalizing s with
  | nil => exact .refl s
  | cons item rest ih =>
    rw [commitItems]
    split
    · exact ih s
    · exact (sameHeaders_write item s).trans (ih _)

lemma sameHeaders_writeLocals (nodeId : ℕ) (items : List WriteItem) (s : Store Words) :
    SameHeaders s (writeLocals nodeId items s) := by
  induction items generalizing s with
  | nil => exact .refl s
  | cons it rest ih =>
    rw [writeLocals]
    split
    · exact (sameHeaders_write it s).trans (ih _)
    · exact ih s

lemma sameHeaders_run (path : CommitPath) (nodeId : ℕ) (writeSet : List WriteItem)
    (s : Store Words) : SameHeaders s (path.run nodeId writeSet s) := by
  cases path with
  | writeBack =>
    have hsrv : ∀ (ps : List ℕ) (s : Store Words),
        SameHeaders s (ps.foldl (fun s p => commitRpcHandler p writeSet s) s) := by
      intro ps
      induction ps with
      | nil => exact SameHeaders.refl
      | cons p ps ih =>
        intro s
        exact (sameHeaders_commitItems p (sentItems writeSet) s).trans (ih _)
    exact (sameHeaders_writeLocals nodeId writeSet s).trans (hsrv _ _)
  | writeBackOneshot =>
    rw [CommitPath.run]
    induction writeSet generalizing s with
    | nil => exact .refl s
    | cons it rest ih =>
      rw [writeBackOneshot]
      split
      · exact (sameHeaders_write it s).trans (ih _)
      · exact (sameHeaders_write it s).trans (ih _)

/-- Each written record is unlocked, and its sequence number has grown by 2. -/
def Released (writeSet : List WriteItem) (s s' : Store Words) : Prop :=
  ∀ it ∈ writeSet, (s' it.rid).lock = 0#64 ∧ (s' it.rid).seq = (s it.rid).seq + 2#64

/-- **No commit path releases a record it writes.** -/
theorem write_back_releases_iff (path : CommitPath) (nodeId : ℕ) (lockContent : BitVec 64)
    (hcontent : lockContent ≠ 0#64) (writeSet : List WriteItem) (s : Store Words)
    (hlocked : ∀ it ∈ writeSet, (s it.rid).lock = lockContent) :
    Released writeSet s (path.run nodeId writeSet s) ↔ writeSet = [] := by
  have hsm := sameHeaders_run path nodeId writeSet s
  constructor
  · intro h
    rw [List.eq_nil_iff_forall_not_mem]
    intro it hit
    have hlk := (h it hit).1
    rw [(hsm it.rid).1, hlocked it hit] at hlk
    exact hcontent hlk
  · rintro rfl
    exact nofun

/-- A record of the node itself and one of node 2. -/
def twoWrites : List WriteItem :=
  [⟨⟨1, 0, 5#64⟩, fun _ => 7#64, 8⟩, ⟨⟨2, 0, 5#64⟩, fun _ => 7#64, 8⟩]

/-- Neither of the two is released. -/
theorem write_back_releases_pair : 1#64 ≠ 0#64 ∧
      ¬ Released twoWrites (fun _ => ⟨1#64, 2#64, fun _ => 0#64⟩)
        (CommitPath.writeBack.run 1 twoWrites fun _ => ⟨1#64, 2#64, fun _ => 0#64⟩) := by
  refine ⟨by decide, ?_⟩
  rw [write_back_releases_iff .writeBack 1 1#64 (by decide) twoWrites _ fun _ _ => rfl]
  exact List.cons_ne_nil _ _

/-- A record of node 2 is still locked after `write_back_oneshot`. -/
theorem write_back_keeps_lock :
    ¬ ∀ (path : CommitPath) (nodeId : ℕ) (lockContent : BitVec 64) (writeSet : List WriteItem)
        (s : Store Words), lockContent ≠ 0#64 →
        (∀ it ∈ writeSet, (s it.rid).lock = lockContent) →
        Released writeSet s (path.run nodeId writeSet s) := by
  intro hall
  have h := hall .writeBackOneshot 1 1#64 [⟨⟨2, 0, 5#64⟩, fun _ => 7#64, 8⟩]
    (fun _ => ⟨1#64, 2#64, fun _ => 0#64⟩) (by decide) fun _ _ => rfl
  exact absurd (h _ (List.mem_singleton_self _)).1 (by decide)

end Librdpma.Drtmh
