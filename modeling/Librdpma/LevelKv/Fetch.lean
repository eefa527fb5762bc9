import Librdpma.LevelKv.Coherence

/-!
# Fetching a bucket

`FetchBucket` and `NewBucket` take a frame, flush it if it is dirty and give it
to a bucket; the caller enters the bucket into `bucket_table_`, possibly much
later. So a fetch is related to the state in which everything has been entered:
whatever stands in the table in the meantime, the fetch is a `Refill` of that
state.
-/

namespace Librdpma.LevelKv.Dpu

open Lib Function List Outcome

variable {K V : Type} {env : Env K} {base lo n : ℕ} {s s' M M' : Dpu K V}
  {f g : Frame} {b b' : ℕ} {x : Bucket K V}

/-- The state with another `bucket_table_`. -/
def withTable (s : Dpu K V) (table : ℕ → Option Frame) : Dpu K V :=
  { s with bucketTable := table }

lemma withTable_self (s : Dpu K V) : s.withTable s.bucketTable = s := rfl

lemma eraseBucket_none {T : ℕ → Option Frame} (h : T b = none) (old : Option ℕ) :
    eraseBucket T old b = none := by
  cases old with
  | none => exact h
  | some old =>
    by_cases hb : b = old
    · subst hb
      exact update_self ..
    · exact (update_of_ne hb ..).trans h

lemma eraseBucket_hide (T : ℕ → Option Frame) (old : Option ℕ) (pend : List ℕ) (b : ℕ) :
    eraseBucket (fun c => if c ∈ pend then none else T c) old b
      = if b ∈ pend then none else eraseBucket T old b := by
  cases old with
  | none => rfl
  | some old =>
    by_cases hb : b = old
    · subst hb
      simp only [eraseBucket, update_self, ite_self]
    · simp only [eraseBucket, update_of_ne hb]

/-! ## One fetch -/

lemma addressable (h : Coh base lo s) (hb : s.blStartBucketId ≤ b) (hhi : b < s.hi) :
    s.Addressable b := by
  obtain ⟨q, hq⟩ := h.geometry
  exact ⟨hb, hq.client_lt hb hhi⟩

lemma host_update (h : Coh base lo s) {old : ℕ} (hold : s.blStartBucketId ≤ old)
    (hb : s.blStartBucketId ≤ b) :
    update s.dmaClient (s.getClientBucket old).1
        (update (s.dmaClient (s.getClientBucket old).1) (s.getClientBucket old).2 x)
      (s.getClientBucket b).1 (s.getClientBucket b).2
      = if old = b then x else s.host b := by
  obtain ⟨q, hq⟩ := h.geometry
  by_cases hob : old = b
  · subst hob
    rw [if_pos rfl, update_self, update_self]
  rw [if_neg hob]
  by_cases hc : (s.getClientBucket b).1 = (s.getClientBucket old).1
  · have ho : (s.getClientBucket b).2 ≠ (s.getClientBucket old).2 := fun ho =>
      hob (hq.getClientBucket_inj hold hb (Prod.ext hc.symm ho.symm))
    rw [hc, update_self, update_of_ne ho]
    unfold host
    rw [hc]
  · rw [update_of_ne hc]
    rfl

/-- What "determine target frame" does to a coherent state, whatever stands in
the table: the frame leaves the free list or the replacer, and its bucket is
flushed if it is dirty. -/
structure Taken (s : Dpu K V) (f : Frame) (s' : Dpu K V) : Prop where
  control : s'.toControl = s.toControl
  cache : s'.cache = s.cache
  dirtyFlag : s'.dirtyFlag = update s.dirtyFlag f false
  bucketTable : s'.bucketTable = s.bucketTable
  bucketIds : s'.bucketIds = s.bucketIds
  constructed : s'.newBucketConstructed = s.newBucketConstructed
  wf : s'.replacer.WF
  lists : (s.freeList = f :: s'.freeList ∧ s'.replacer.frames = s.replacer.frames) ∨
    (s.freeList = [] ∧ s'.freeList = [] ∧ s.replacer.frames = s'.replacer.frames ++ [f])
  host : ∀ b, s.blStartBucketId ≤ b → s'.host b
    = if s.bucketIds f = some b ∧ s.dirtyFlag f = true then s.cache f else s.host b

lemma targetFrame_evict {r : Replacer Frame} (hfr : s.freeList = [])
    (hev : s.replacer.evict = some (f, r)) :
    s.targetFrame env = (let s := { s with replacer := r }
      if s.dirtyFlag f then do
        let s ← s.flushBucket env f
        return (f, { s with dirtyFlag := update s.dirtyFlag f false })
      else .done (f, s)) := by
  unfold targetFrame
  split
  · rw [hev]
  · rename_i h
    rw [hfr] at h
    cases h

lemma flushBucket_of_addressable {old : ℕ} (hids : s.bucketIds f = some old)
    (had : s.Addressable old) (hdma : env.dma s.dmaTick = true) :
    s.flushBucket env f = .done { s with
      dmaTick := s.dmaTick + 1
      dmaClient := update s.dmaClient (s.getClientBucket old).1
        (update (s.dmaClient (s.getClientBucket old).1)
          (s.getClientBucket old).2 (s.cache f)) } := by
  unfold flushBucket
  rw [hids]
  dsimp only
  rw [if_pos had, if_pos hdma]

/-- A frame of the replacer is taken: its bucket is written back if it is dirty. -/
lemma targetFrame_evicted (hdma : ∀ i, env.dma i = true) (h : Coh base lo M)
    (T : ℕ → Option Frame) (hfr : M.freeList = []) {r : Replacer Frame}
    (hev : M.replacer.evict = some (f, r)) :
    ∃ s', (M.withTable T).targetFrame env = .done (f, s') ∧ Taken (M.withTable T) f s' := by
  obtain ⟨hspl, hwf⟩ := h.wf.evict_some hev
  have hnot : f ∉ M.freeList := by
    rw [hfr]
    exact not_mem_nil
  obtain ⟨old, hids, htab⟩ := h.held f hnot
  rw [targetFrame_evict (s := M.withTable T) hfr hev]
  dsimp only
  cases hd : M.dirtyFlag f with
  | false =>
    rw [show (M.withTable T).dirtyFlag f = false from hd]
    refine ⟨_, rfl, ⟨rfl, rfl, ?_, rfl, rfl, rfl, hwf, .inr ⟨hfr, hfr, hspl⟩, ?_⟩⟩
    · show M.dirtyFlag = _
      rw [← hd]
      exact (update_eq_self f M.dirtyFlag).symm
    · intro b _
      rw [if_neg]
      · rfl
      · rintro ⟨-, hdt⟩
        rw [show (M.withTable T).dirtyFlag f = false from hd] at hdt
        cases hdt
  | true =>
    have hlo : M.blStartBucketId ≤ old := le_trans h.low (h.dirty old f htab hd)
    have had : M.Addressable old := addressable h hlo (h.bound old f htab).2
    rw [show (M.withTable T).dirtyFlag f = true from hd, if_pos rfl,
      flushBucket_of_addressable (s := { M.withTable T with replacer := r }) hids had (hdma _)]
    refine ⟨_, rfl, ⟨rfl, rfl, rfl, rfl, rfl, rfl, hwf, .inr ⟨hfr, hfr, hspl⟩, ?_⟩⟩
    intro b hb
    refine (host_update (x := M.cache f) h hlo hb).trans ?_
    by_cases hob : old = b
    · rw [if_pos hob, if_pos]
      · rfl
      · exact ⟨by rw [← hob]; exact hids, hd⟩
    · rw [if_neg hob, if_neg]
      · rfl
      · rintro ⟨hb', -⟩
        exact hob (Option.some.inj (hids.symm.trans hb'))

lemma targetFrame_taken (hdma : ∀ i, env.dma i = true) (h : Coh base lo M)
    (T : ℕ → Option Frame) :
    ∃ f s', (M.withTable T).targetFrame env = .done (f, s') ∧ Taken (M.withTable T) f s' := by
  cases hfr : M.freeList with
  | cons f rest =>
    have hids : M.bucketIds f = none := h.free f (by rw [hfr]; exact mem_cons_self)
    unfold targetFrame
    rw [show (M.withTable T).freeList = f :: rest from hfr]
    refine ⟨f, _, rfl, ⟨rfl, rfl, rfl, rfl, rfl, rfl, h.wf, .inl ⟨hfr, rfl⟩, ?_⟩⟩
    intro b _
    rw [if_neg]
    · rfl
    · rintro ⟨hb, -⟩
      rw [show (M.withTable T).bucketIds f = none from hids] at hb
      cases hb
  | nil =>
    cases hev : M.replacer.evict with
    | none =>
      -- with no free frame the replacer holds all 128
      have hlen := length_used h.partition hfr
      rw [Replacer.evict_none_iff.mp hev] at hlen
      cases hlen
    | some p => exact ⟨p.1, targetFrame_evicted hdma h T hfr hev⟩

/-- After a frame has been taken, giving it to a bucket is a refill of the
state in which the bucket has been entered. -/
lemma Taken.refill (h : Coh base lo M) {T : ℕ → Option Frame} (ht : Taken (M.withTable T) f s)
    (b : ℕ) {s' : Dpu K V} (hctl : s'.toControl = s.toControl)
    (hca : s'.cache = update s.cache f x) (hdrt : s'.dirtyFlag = s.dirtyFlag)
    (htab : s'.bucketTable = update (eraseBucket M.bucketTable (M.bucketIds f)) b (some f))
    (hids : s'.bucketIds = update s.bucketIds f (some b))
    (hrep : s'.replacer = s.replacer.recordAccess f) (hfr : s'.freeList = s.freeList)
    (hhs : s'.dmaClient = s.dmaClient) :
    Refill M f b x s' := by
  refine ⟨hctl.trans ht.control, ?_, hdrt.trans ht.dirtyFlag, htab, ?_, ?_, ?_, ?_⟩
  · rw [hca, ht.cache]
    rfl
  · rw [hids, ht.bucketIds]
    rfl
  · rw [hrep]
    exact ht.wf.recordAccess f
  · have hfrm : TakesFrame f M.replacer.frames M.freeList s.replacer.frames s.freeList := ht.lists
    rw [hrep, ht.wf.frames_recordAccess f, hfr, erase_of_not_mem (hfrm.not_mem h.partition).1]
    exact exists_takesFrame_iff.mp ⟨_, hfrm, rfl⟩
  · intro b' hb'
    have hsm : s'.host b' = s.host b' := by
      unfold Dpu.host
      rw [hhs, hctl]
    rw [hsm]
    exact ht.host b' hb'

/-- **`FetchBucket`** on a coherent state, whatever stands in the table: the
frame it returns can be entered, and that is a refill from host memory. -/
lemma fetchBucket_refill (hdma : ∀ i, env.dma i = true) (h : Coh base lo M) (T : ℕ → Option Frame)
    (hb : M.blStartBucketId ≤ b) (hhi : b < M.hi) (hun : M.bucketTable b = none) :
    ∃ f s', (M.withTable T).fetchBucket env b = .done ((true, f), s') ∧
      s'.bucketTable = eraseBucket T (M.bucketIds f) ∧
      Refill M f b (M.host b) (s'.withTable
        (update (eraseBucket M.bucketTable (M.bucketIds f)) b (some f))) ∧
      s'.newBucketConstructed = M.newBucketConstructed := by
  obtain ⟨f, s1, htgt, ht⟩ := targetFrame_taken hdma h T
  have had : (s1.retarget f b).Addressable b := by
    have := addressable h hb hhi
    unfold Addressable at this ⊢
    rw [show (s1.retarget f b).toControl = M.toControl from ht.control]
    exact this
  unfold fetchBucket
  rw [htgt]
  simp only [monadLift_self, done_bind]
  unfold readBucket
  rw [if_pos had]
  simp only [done_bind, note_outcome, pure_eq, hdma, if_true]
  refine ⟨f, _, rfl, ?_, ?_, ht.constructed⟩
  · show eraseBucket s1.bucketTable (s1.bucketIds f) = _
    rw [ht.bucketTable, ht.bucketIds]
    rfl
  · have hhs : (s1.retarget f b).host b = M.host b := by
      have hrd := ht.host b hb
      rw [if_neg] at hrd
      · exact hrd
      · rintro ⟨hids, -⟩
        rw [h.table_of_ids hids] at hun
        cases hun
    refine ht.refill h b rfl ?_ rfl rfl rfl rfl rfl rfl
    show update s1.cache f ((s1.retarget f b).host b) = _
    rw [hhs]

/-- **`NewBucket`**: the same, with a zeroed frame. -/
lemma newBucket_refill [Inhabited K] [Inhabited V] (hdma : ∀ i, env.dma i = true)
    (h : Coh base lo M) (T : ℕ → Option Frame) (b : ℕ) :
    ∃ f s', (M.withTable T).newBucket env b = .done (f, s') ∧
      s'.bucketTable = eraseBucket T (M.bucketIds f) ∧
      Refill M f b Bucket.zero (s'.withTable
        (update (eraseBucket M.bucketTable (M.bucketIds f)) b (some f))) ∧
      s'.newBucketConstructed = M.newBucketConstructed := by
  obtain ⟨f, s1, htgt, ht⟩ := targetFrame_taken hdma h T
  unfold newBucket
  rw [htgt]
  simp only [done_bind, pure_eq]
  refine ⟨f, _, rfl, ?_, ?_, ht.constructed⟩
  · show eraseBucket s1.bucketTable (s1.bucketIds f) = _
    rw [ht.bucketTable, ht.bucketIds]
    rfl
  · exact ht.refill h b rfl rfl rfl rfl rfl rfl rfl rfl

end Librdpma.LevelKv.Dpu
