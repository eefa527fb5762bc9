import Librdpma.Drtmh.Coordinator

/-!
# Releasing the write set (`OCC::release_writes`)

After a failure every record of the write set is released, locked or not:
`local_try_release_op` frees a lock word only if it holds the content of the
transaction. The batch is the one of `lock_writes`, so that the release reaches
what the lock messages may have locked.
-/

namespace Librdpma.Drtmh

open List Function

variable {V : Type} {c : BitVec 64} {rids : List RecordId} {s s' : Store V} {x : RecordId}

/-- `OCC::release_writes`. The loop over the node's own records is that of the
handler. -/
def releaseWrites (lockContent : BitVec 64) (nodeId : ℕ) (writeSet : List RtxLockItem)
    (s : Store V) : Store V :=
  let s := releaseItems lockContent nodeId writeSet s
  let batch := writeSet.filter fun it => it.rid.pid ≠ nodeId
  (macSet batch).foldl (fun s p => releaseItems lockContent p (sentItems batch) s) s

/-- Records of `rids` that were free have been locked. -/
def Locks (c : BitVec 64) (rids : List RecordId) (s s' : Store V) : Prop :=
  ∀ x, s' x = s x ∨ x ∈ rids ∧ (s x).lock = 0#64 ∧ s' x = { s x with lock := c }

lemma Locks.refl : Locks c rids s s := fun _ => .inl rfl

lemma Locks.mono {rids' : List RecordId} (h : Locks c rids s s') (hsub : rids ⊆ rids') :
    Locks c rids' s s' :=
  fun x => (h x).imp_right fun ⟨hx, hrs⟩ => ⟨hsub hx, hrs⟩

lemma Locks.trans {s'' : Store V} (hc : c ≠ 0#64) (h : Locks c rids s s')
    (h' : Locks c rids s' s'') : Locks c rids s s'' := by
  intro x
  rcases h' x with heq | ⟨hx, hlk, heq⟩
  · rw [heq]
    exact h x
  · rcases h x with heq' | ⟨-, -, heq'⟩
    · rw [heq'] at hlk heq
      exact .inr ⟨hx, hlk, heq⟩
    · rw [heq'] at hlk
      exact absurd hlk hc

/-- One record, and then the rest of the loop unless the record fails the
check. -/
lemma locks_item (hc : c ≠ 0#64) {check : MemNode V → Prop} [DecidablePred check]
    {rest : Store V → Bool × Store V} (hrs : ∀ s, Locks c rids s (rest s).2) :
    Locks c (x :: rids) s (match (s x).localTryLockOp c with
      | (false, _) => (false, s)
      | (true, node) =>
          if check node then (false, update s x node) else rest (update s x node)).2 := by
  unfold MemNode.localTryLockOp
  by_cases hfr : (s x).lock = 0#64
  · rw [if_neg (not_not.mpr hfr)]
    have hst : Locks c (x :: rids) s (update s x { s x with lock := c }) := by
      intro y
      by_cases hy : y = x
      · rw [hy, update_self]
        exact .inr ⟨mem_cons_self, hfr, rfl⟩
      · rw [update_of_ne hy]
        exact .inl rfl
    dsimp only
    split
    · exact hst
    · exact hst.trans hc ((hrs _).mono (subset_cons_self _ _))
  · rw [if_pos hfr]
    exact .refl

lemma lockItems_locks (hc : c ≠ 0#64) (p : ℕ) (items : List RtxLockItem) (s : Store V) :
    Locks c (ownRids p items) s (lockItems c p items s).2 := by
  induction items generalizing s with
  | nil => exact .refl
  | cons it items ih =>
    rw [lockItems]
    by_cases hp : it.rid.pid = p
    · rw [if_neg (not_not.mpr hp), ownRids_cons_self hp]
      exact locks_item hc ih
    · rw [if_pos hp, ownRids_cons_other hp]
      exact ih s

lemma lockLocals_locks (hc : c ≠ 0#64) (p : ℕ) (items : List RtxLockItem) (s : Store V) :
    Locks c (ownRids p items) s (lockLocals c p items s).2 := by
  induction items generalizing s with
  | nil => exact .refl
  | cons it items ih =>
    rw [lockLocals]
    by_cases hp : it.rid.pid = p
    · rw [if_neg (not_not.mpr hp), ownRids_cons_self hp]
      exact locks_item hc ih
    · rw [if_pos hp, ownRids_cons_other hp]
      exact ih s

lemma lockAt_locks (hc : c ≠ 0#64) (batch : List RtxLockItem) (ps : List ℕ) (s : Store V) :
    Locks c (ps.flatMap fun p => ownRids p (sentItems batch)) s (lockAt c batch ps s).2 := by
  induction ps generalizing s with
  | nil => exact .refl
  | cons p ps ih =>
    rw [lockAt, lockRpcHandler, flatMap_cons]
    exact ((lockItems_locks hc p _ s).mono (subset_append_left _ _)).trans hc
      ((ih _).mono (subset_append_right _ _))

/-- The records that the two calls get to. -/
def reachedRids (nodeId : ℕ) (writeSet : List RtxLockItem) : List RecordId :=
  let batch := writeSet.filter fun it => it.rid.pid ≠ nodeId
  ownRids nodeId writeSet ++ (macSet batch).flatMap fun p => ownRids p (sentItems batch)

lemma lockWrites_locks (hc : c ≠ 0#64) (nodeId : ℕ) (writeSet : List RtxLockItem) (s : Store V) :
    Locks c (reachedRids nodeId writeSet) s (lockWrites c nodeId writeSet s).2 := by
  have hloc := (lockLocals_locks hc nodeId writeSet s).mono
    (subset_append_left _ _ : _ ⊆ reachedRids nodeId writeSet)
  rw [lockWrites]
  split
  · rename_i heq
    rwa [heq] at hloc
  · rename_i heq
    rw [heq] at hloc
    exact hloc.trans hc ((lockAt_locks hc _ _ _).mono (subset_append_right _ _))

lemma tryRelease_again (hc : c ≠ 0#64) (n : MemNode V) :
    (((n.localTryReleaseOp c).2).localTryReleaseOp c).2 = (n.localTryReleaseOp c).2 := by
  unfold MemNode.localTryReleaseOp
  by_cases h : n.lock = c
  · rw [if_pos h, if_neg fun h => hc h.symm]
  · rw [if_neg h, if_neg h]

lemma releaseItems_apply (hc : c ≠ 0#64) (p : ℕ) (items : List RtxLockItem) (s : Store V) :
    releaseItems c p items s x
      = if x ∈ ownRids p items then ((s x).localTryReleaseOp c).2 else s x := by
  induction items generalizing s with
  | nil => rfl
  | cons it items ih =>
    rw [releaseItems]
    by_cases hp : it.rid.pid = p
    · rw [if_neg (not_not.mpr hp), ownRids_cons_self hp, ih]
      by_cases hx : x = it.rid
      · rw [hx, update_self, if_pos mem_cons_self, tryRelease_again hc, ite_self]
      · rw [update_of_ne hx]
        simp only [mem_cons, hx, false_or]
    · rw [if_pos hp, ownRids_cons_other hp, ih]

lemma releaseWrites_apply (hc : c ≠ 0#64) (nodeId : ℕ) (writeSet : List RtxLockItem)
    (s : Store V) : releaseWrites c nodeId writeSet s x
      = if x ∈ reachedRids nodeId writeSet then ((s x).localTryReleaseOp c).2 else s x := by
  have hfold : ∀ (items : List RtxLockItem) (ps : List ℕ) (rids : List RecordId) (s' : Store V),
      s' x = (if x ∈ rids then ((s x).localTryReleaseOp c).2 else s x) →
      ps.foldl (fun s p => releaseItems c p items s) s' x
        = if x ∈ rids ++ ps.flatMap fun p => ownRids p items
          then ((s x).localTryReleaseOp c).2 else s x := by
    intro items ps
    induction ps with
    | nil =>
      intro rids s' h
      rw [foldl_nil, flatMap_nil, append_nil, h]
    | cons p ps ih =>
      intro rids s' h
      rw [foldl_cons, flatMap_cons, ← append_assoc]
      refine ih _ _ ?_
      rw [releaseItems_apply hc, h]
      simp only [mem_append]
      by_cases hx : x ∈ rids <;> by_cases hp : x ∈ ownRids p items <;>
        simp [hx, hp, tryRelease_again hc]
  exact hfold _ _ _ _ (releaseItems_apply hc nodeId writeSet s)

/-- **Locking and releasing the write set leaves every lock word as it was**,
however far the locking got. In particular no record of the write set keeps the
lock. -/
theorem release_writes_restores (hc : c ≠ 0#64) (nodeId : ℕ) (writeSet : List RtxLockItem)
    (s : Store V) (hfree : ∀ it ∈ writeSet, (s it.rid).lock ≠ c) :
    (∀ it ∈ writeSet,
        (releaseWrites c nodeId writeSet (lockWrites c nodeId writeSet s).2 it.rid).lock ≠ c) ∧
      ∀ x, (releaseWrites c nodeId writeSet (lockWrites c nodeId writeSet s).2 x).lock
        = (s x).lock := by
  have hbc : ∀ x, (releaseWrites c nodeId writeSet (lockWrites c nodeId writeSet s).2 x).lock
      = (s x).lock := by
    intro x
    rw [releaseWrites_apply hc]
    rcases lockWrites_locks hc nodeId writeSet s x with heq | ⟨hx, hlk, heq⟩
    · -- a record that was not locked here does not hold `c`, and the release skips it
      rw [heq]
      split
      · rename_i hx
        obtain ⟨it, hit, rfl⟩ : ∃ it ∈ writeSet, it.rid = x := by
          rcases mem_append.mp hx with hx | hx
          · exact mem_map.mp (mem_ownRids.mp hx).2
          · obtain ⟨p, -, hx⟩ := mem_flatMap.mp hx
            obtain ⟨it, hit, heq⟩ := mem_map.mp (mem_ownRids.mp hx).2
            exact ⟨it, (mem_filter.mp (mem_of_mem_take hit)).1, heq⟩
        rw [MemNode.localTryReleaseOp, if_neg (hfree it hit)]
      · rfl
    · -- a record that was locked here was free before
      rw [if_pos hx, heq, MemNode.localTryReleaseOp, if_pos rfl, hlk]
  exact ⟨fun it hit => by rw [hbc]; exact hfree it hit, hbc⟩

/-- The second record is locked by someone else. -/
theorem release_writes_restores_pair : 1#64 ≠ 0#64 ∧
    (∀ it ∈ [(⟨⟨2, 0, 5#64⟩, 2#64⟩ : RtxLockItem), ⟨⟨2, 0, 6#64⟩, 2#64⟩],
      (update sampleStore ⟨2, 0, 6#64⟩ ⟨9#64, 2#64, ()⟩ it.rid).lock ≠ 1#64) ∧
    (releaseWrites 1#64 1 [⟨⟨2, 0, 5#64⟩, 2#64⟩, ⟨⟨2, 0, 6#64⟩, 2#64⟩]
      (lockWrites 1#64 1 [⟨⟨2, 0, 5#64⟩, 2#64⟩, ⟨⟨2, 0, 6#64⟩, 2#64⟩]
        (update sampleStore ⟨2, 0, 6#64⟩ ⟨9#64, 2#64, ()⟩)).2 ⟨2, 0, 6#64⟩).lock = 9#64 :=
  ⟨by decide, by decide, (release_writes_restores (by decide) 1 _ _ (by decide)).2 _⟩

end Librdpma.Drtmh
