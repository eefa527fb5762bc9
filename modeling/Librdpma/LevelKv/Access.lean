import Librdpma.LevelKv.Fetch

/-!
# Accesses to the cache

A handler issues its fetches first and enters the buckets into `bucket_table_`
when it gets the futures. In between its state is `M.hide pend`: a coherent
state `M` without the entries of the pending buckets. A fetch takes `M` to the
state with one more entry, whatever is hidden.

`Served n s s'` says that `s'` comes from `s` by at most `n` accesses: it is
coherent, has the same logical table, and every bucket among the most recently
used ones is still in its frame (`Stays`). `recency` is the list of cached
buckets in the order of their use.
-/

namespace Librdpma.LevelKv.Dpu

open Lib Function List

variable {K V : Type} {env : Env K} {base lo n : ℕ} {s s' M M' : Dpu K V}
  {f g : Frame} {b b' : ℕ} {x : Bucket K V}

/-! ## Buckets that are not entered yet -/

/-- The state before the buckets in `pend` are entered into `bucket_table_`. -/
def hide (M : Dpu K V) (pend : List ℕ) : Dpu K V :=
  M.withTable fun b => if b ∈ pend then none else M.bucketTable b

lemma hide_nil (M : Dpu K V) : M.hide [] = M := by
  unfold hide
  simp only [not_mem_nil, if_false]
  exact M.withTable_self

lemma hide_settle {pend : List ℕ} (hb : M.bucketTable b = some f) (hp : b ∉ pend) :
    (M.hide (b :: pend)).mapBucket b f = M.hide pend := by
  refine congrArg M.withTable (funext fun c => ?_)
  by_cases hc : c = b
  · subst hc
    rw [update_self, if_neg hp, hb]
  · rw [update_of_ne hc]
    simp only [hide, withTable, mem_cons, hc, false_or]

/-! ## Accesses -/

/-- Bucket `b` is in frame `f` and stays there during the next `j` accesses. -/
def Stays (j : ℕ) (s : Dpu K V) (b : ℕ) (f : Frame) : Prop :=
  s.bucketTable b = some f ∧ f ∈ s.replacer.frames.take (128 - j)

lemma Stays.mono {j k : ℕ} (h : Stays k s b f) (hjk : j ≤ k) : Stays j s b f :=
  ⟨h.1, take_subset_take_left _ (by omega) h.2⟩

structure Served (base lo n : ℕ) (s s' : Dpu K V) : Prop where
  coh : Coh base lo s'
  control : s'.toControl = s.toControl
  logical : ∀ c, lo ≤ c → s'.logical c = s.logical c
  stays : ∀ {j b f}, Stays (j + n) s b f → Stays j s' b f

namespace Served

lemma refl (h : Coh base lo s) : Served base lo 0 s s := ⟨h, rfl, fun _ _ => rfl, fun hs => hs⟩

lemma trans {m : ℕ} {t : Dpu K V} (h1 : Served base lo n s s')
    (h2 : Served base lo m s' t) : Served base lo (n + m) s t := by
  refine ⟨h2.coh, h2.control.trans h1.control, ?_, ?_⟩
  · intro c hc
    rw [h2.logical c hc, h1.logical c hc]
  · intro j b f hs
    apply h2.stays
    apply h1.stays
    rwa [add_assoc, add_comm m n]

lemma mono {m : ℕ} (h : Served base lo n s s') (hnm : n ≤ m) : Served base lo m s s' :=
  ⟨h.coh, h.control, h.logical, fun hs => h.stays (hs.mono (by omega))⟩

end Served

/-- Only the order of the replacer has changed, by `n` accesses. -/
structure Touched (n : ℕ) (s s' : Dpu K V) : Prop where
  eq : s' = { s with replacer := s'.replacer }
  wf : s'.replacer.WF
  perm : s'.replacer.frames.Perm s.replacer.frames
  recent : ∀ {m f}, f ∈ s.replacer.frames.take m → f ∈ s'.replacer.frames.take (m + n)

namespace Touched

lemma refl (h : Coh base lo s) : Touched 0 s s := ⟨rfl, h.wf, Perm.refl _, fun hf => hf⟩

lemma trans {m : ℕ} {t : Dpu K V} (h1 : Touched n s s') (h2 : Touched m s' t) :
    Touched (n + m) s t := by
  refine ⟨?_, h2.wf, h2.perm.trans h1.perm, fun hf => ?_⟩
  · rw [h2.eq, h1.eq]
  · rw [← add_assoc]
    exact h2.recent (h1.recent hf)

section

variable (h : Touched n s s')

include h

lemma mono {m : ℕ} (hnm : n ≤ m) : Touched m s s' :=
  ⟨h.eq, h.wf, h.perm, fun hf =>
    take_subset_take_left _ (by omega) (h.recent hf)⟩

lemma bucketTable : s'.bucketTable = s.bucketTable := by
  rw [h.eq]

lemma cache : s'.cache = s.cache := by
  rw [h.eq]

lemma dirtyFlag : s'.dirtyFlag = s.dirtyFlag := by
  rw [h.eq]

lemma coh (hc : Coh base lo s) : Coh base lo s' := by
  have hwf := h.wf
  have hperm := h.perm
  rw [h.eq] at hwf hperm ⊢
  exact ⟨hc.geometry, hwf, (hperm.append_right _).trans hc.partition, hc.free, hc.held,
    hc.table, hc.bound, hc.dirty, hc.clean, hc.low, hc.base_le⟩

lemma served (hc : Coh base lo s) : Served base lo n s s' := by
  refine ⟨h.coh hc, ?_, ?_, ?_⟩
  · rw [h.eq]
  · intro c _
    rw [h.eq]
    rfl
  · intro j b f hs
    refine ⟨by rw [h.bucketTable]; exact hs.1, ?_⟩
    have hlen : 0 < 128 - (j + n) := by
      by_contra hz
      have := hs.2
      rw [Nat.eq_zero_of_not_pos hz, take_zero] at this
      cases this
    have hrec := h.recent hs.2
    rwa [show 128 - (j + n) + n = 128 - j by omega] at hrec

end

end Touched

lemma recordAccess_touched (h : Coh base lo s) (hb : s.bucketTable b = some f) :
    Touched 1 s (s.recordAccess f) ∧ Stays 127 (s.recordAccess f) b f := by
  have hfrs : (s.recordAccess f).replacer.frames = f :: s.replacer.frames.erase f :=
    h.wf.frames_recordAccess f
  have hmem : f ∈ s.replacer.frames := h.mem_frames_iff.mpr (h.not_free hb)
  refine ⟨⟨rfl, h.wf.recordAccess f, ?_, ?_⟩, hb, ?_⟩
  · rw [hfrs]
    exact (perm_cons_erase hmem).symm
  · intro m g hg
    rw [hfrs]
    exact mem_take_use hg
  · rw [hfrs]
    exact mem_cons_self

/-- A refill is one access; the frame it takes is none of those that stay. -/
lemma Refill.served (h : Coh base lo s) (hr : Refill s f b x s')
    (hun : s.bucketTable b = none) (hlo : s.blStartBucketId ≤ b) (hhi : b < s.hi)
    (hx : x = s.host b) : Served base lo 1 s s' := by
  refine ⟨hr.coh h hun hlo hhi hx, hr.control, fun c hc => hr.logical_eq h hun hlo hx hc, ?_⟩
  rintro j c g ⟨hc, hg⟩
  have hcb : c ≠ b := by
    rintro rfl
    rw [hun] at hc
    cases hc
  have hlen : 128 - j = 128 - (j + 1) + 1 := by
    by_contra hz
    rw [show 128 - (j + 1) = 0 by omega, take_zero] at hg
    cases hg
  obtain ⟨rest, ht, hfrs⟩ := hr.takesFrame
  obtain ⟨hgf, hrs⟩ := ht.recent h.partition (by omega) hg
  refine ⟨hr.table_of_ne h hc hcb hgf, ?_⟩
  rw [hfrs, hlen, take_succ_cons]
  exact mem_cons_of_mem _ hrs

lemma Refill.stays_self (hr : Refill s f b x s') : Stays 127 s' b f := by
  refine ⟨hr.table_self, ?_⟩
  obtain ⟨rest, -, hfrs⟩ := hr.takesFrame
  rw [hfrs]
  exact mem_cons_self

/-! ## Recency -/

/-- The cached buckets, most recently used first. -/
def recency (s : Dpu K V) : List ℕ :=
  s.replacer.frames.map fun f => (s.bucketIds f).getD 0

lemma mem_recency_iff (h : Coh base lo s) : b ∈ s.recency ↔ s.bucketTable b ≠ none := by
  constructor
  · intro hb
    obtain ⟨f, hf, hfb⟩ := mem_map.mp hb
    obtain ⟨c, hc, hct⟩ := h.held f (h.mem_frames_iff.mp hf)
    rw [hc] at hfb
    rw [← show c = b from hfb, hct]
    simp
  · intro hb
    obtain ⟨f, hf⟩ := Option.ne_none_iff_exists'.mp hb
    refine mem_map.mpr ⟨f, h.mem_frames_iff.mpr (h.not_free hf), ?_⟩
    rw [h.table b f hf]
    rfl

lemma length_recency (h : Coh base lo s) : s.recency.length + s.freeList.length = 128 := by
  have hlen := h.partition.length_eq
  unfold recency
  rwa [length_map, ← length_append, ← length_finRange (n := 128)]

lemma recordAccess_recency (h : Coh base lo s) (hb : s.bucketTable b = some f) :
    (s.recordAccess f).recency = use 128 b s.recency := by
  have hmem : b ∈ s.recency := by
    rw [mem_recency_iff h, hb]
    simp
  have hlen := length_recency h
  have hids : (s.bucketIds f).getD 0 = b := by
    rw [h.table b f hb]
    rfl
  have hinj : ∀ g ∈ s.replacer.frames, (s.bucketIds g).getD 0 = (s.bucketIds f).getD 0 → g = f := by
    intro g hg heq
    obtain ⟨c, hc, hct⟩ := h.held g (h.mem_frames_iff.mp hg)
    rw [hc, hids] at heq
    rw [show c = b from heq, hb] at hct
    exact (Option.some.inj hct).symm
  calc (s.recordAccess f).recency
      = (f :: s.replacer.frames.erase f).map fun g => (s.bucketIds g).getD 0 := by
        unfold recency
        rw [show (s.recordAccess f).replacer.frames = f :: s.replacer.frames.erase f from
          h.wf.frames_recordAccess f]
        rfl
    _ = b :: s.recency.erase b := by
        rw [map_cons, map_erase_of_inj hinj, hids]
        rfl
    _ = use 128 b s.recency := (use_of_mem hmem (by omega)).symm

lemma Refill.recency (h : Coh base lo s) (hr : Refill s f b x s')
    (hun : s.bucketTable b = none) : s'.recency = use 128 b s.recency := by
  have hnot : b ∉ s.recency := by
    rw [mem_recency_iff h, hun]
    simp
  have hlen := length_recency h
  -- the frames that stay keep their ids
  have hoth : ∀ l : List Frame, f ∉ l →
      l.map (fun g => (s'.bucketIds g).getD 0) = l.map fun g => (s.bucketIds g).getD 0 := by
    intro l hl
    refine map_congr_left fun g hg => ?_
    have hgf : g ≠ f := fun hgf => hl (hgf ▸ hg)
    rw [hr.bucketIds, update_of_ne hgf]
  have hsf : (s'.bucketIds f).getD 0 = b := by
    rw [hr.bucketIds, update_self]
    rfl
  unfold Dpu.recency at *
  obtain ⟨rest, ht, hfrs⟩ := hr.takesFrame
  rw [hfrs, map_cons, hsf, hoth _ (ht.not_mem h.partition).1]
  rcases ht with ⟨hfr, rfl⟩ | ⟨hfr, -, hspl⟩
  · rw [hfr, length_cons] at hlen
    rw [use_of_lt hnot (by omega)]
  · rw [hspl, map_append] at hnot hlen
    rw [hfr, length_append, length_map] at hlen
    rw [hspl, map_append, map_singleton, use_of_full hnot (by rw [length_map]; simpa using hlen)]

/-! ## Entering a bucket -/

/-- Bucket `b` has been entered, in frame `f`. -/
structure Enters (base lo : ℕ) (s : Dpu K V) (b : ℕ) (f : Frame) (s' : Dpu K V) :
    Prop where
  served : Served base lo 1 s s'
  stays : Stays 127 s' b f
  kept : ∀ c g, c ≠ b → s'.bucketTable c = some g → s.bucketTable c = some g
  constructed : s'.newBucketConstructed = s.newBucketConstructed
  recency : s'.recency = use 128 b s.recency

lemma unmapped_of_kept {c : ℕ} (h : ∀ g, s'.bucketTable c = some g → s.bucketTable c = some g)
    (hc : s.bucketTable c = none) : s'.bucketTable c = none := by
  cases hc' : s'.bucketTable c with
  | none => rfl
  | some g =>
    rw [h g hc'] at hc
    cases hc

lemma Refill.enters (h : Coh base lo s) (hr : Refill s f b x s')
    (hun : s.bucketTable b = none) (hlo : s.blStartBucketId ≤ b) (hhi : b < s.hi)
    (hx : x = s.host b) (hcn : s'.newBucketConstructed = s.newBucketConstructed) :
    Enters base lo s b f s' := by
  refine ⟨hr.served h hun hlo hhi hx, hr.stays_self, ?_, hcn, hr.recency h hun⟩
  intro c g hc hg
  rcases hr.table_cases h hg with ⟨hcb, -⟩ | ⟨-, -, hold⟩
  · exact absurd hcb hc
  · exact hold

/-- The entries that a fetch leaves, seen from the state with the new entry. -/
lemma hide_of_erase {pend : List ℕ} {old : Option ℕ} (hun : M.bucketTable b = none)
    (htab : s.bucketTable = eraseBucket (fun c => if c ∈ pend then none else M.bucketTable c) old) :
    s = (s.withTable (update (eraseBucket M.bucketTable old) b (some f))).hide (b :: pend) := by
  refine (s.withTable_self).symm.trans (congrArg s.withTable (funext fun c => ?_))
  show s.bucketTable c = if c ∈ b :: pend then none else
    update (eraseBucket M.bucketTable old) b (some f) c
  rw [htab]
  by_cases hc : c = b
  · subst hc
    rw [if_pos mem_cons_self, eraseBucket_none]
    split
    · rfl
    · exact hun
  · simp only [mem_cons, hc, false_or, update_of_ne hc]
    exact eraseBucket_hide ..

/-- **`FetchBucket`** while other buckets are pending: one more is. -/
lemma fetchBucket_enters (hdma : ∀ i, env.dma i = true) (h : Coh base lo M) (pend : List ℕ)
    (hb : M.blStartBucketId ≤ b) (hhi : b < M.hi) (hun : M.bucketTable b = none) :
    ∃ f M', (M.hide pend).fetchBucket env b = .done ((true, f), M'.hide (b :: pend)) ∧
      Enters base lo M b f M' := by
  obtain ⟨f, s', hfch, htab, hr, hcn⟩ := fetchBucket_refill hdma h
    (fun c => if c ∈ pend then none else M.bucketTable c) hb hhi hun
  refine ⟨f, _, ?_, hr.enters h hun hb hhi rfl hcn⟩
  exact hfch.trans (congrArg (fun t => Outcome.done ((true, f), t)) (hide_of_erase hun htab))

/-- **`NewBucket`**, entered at once, for a bucket that is zero in host memory. -/
lemma newBucket_enters [Inhabited K] [Inhabited V] (hdma : ∀ i, env.dma i = true)
    (h : Coh base lo M) {pend : List ℕ} (hp : b ∉ pend) (hb : M.blStartBucketId ≤ b)
    (hhi : b < M.hi) (hun : M.bucketTable b = none) (hz : M.host b = Bucket.zero) :
    ∃ f s' M', (M.hide pend).newBucket env b = .done (f, s') ∧
      s'.mapBucket b f = M'.hide pend ∧ Enters base lo M b f M' := by
  obtain ⟨f, s', hnew, htab, hr, hcn⟩ := newBucket_refill hdma h
    (fun c => if c ∈ pend then none else M.bucketTable c) b
  have he := hr.enters h hun hb hhi hz.symm hcn
  refine ⟨f, s', _, hnew, ?_, he⟩
  refine Eq.trans ?_ (hide_settle he.stays.1 hp)
  exact congrArg (fun t => t.mapBucket b f) (hide_of_erase hun htab)

/-- Bucket `b` is in frame `f`, found there or entered. -/
structure Loads (base lo : ℕ) (s : Dpu K V) (b : ℕ) (f : Frame) (s' : Dpu K V) :
    Prop where
  served : Served base lo 1 s s'
  table : s'.bucketTable b = some f
  kept : ∀ c g, c ≠ b → s'.bucketTable c = some g → s.bucketTable c = some g
  constructed : s'.newBucketConstructed = s.newBucketConstructed
  recency : s'.recency = if b ∈ s.recency then s.recency else use 128 b s.recency

/-- **`load`** finds the bucket or enters it. -/
lemma load_spec (hdma : ∀ i, env.dma i = true) (h : Coh base lo s)
    (hb : s.blStartBucketId ≤ b) (hhi : b < s.hi) :
    ∃ f s', s.load env b = .done (f, s') ∧ Loads base lo s b f s' := by
  unfold load
  cases hb' : s.bucketTable b with
  | some f =>
    refine ⟨f, s, rfl, (Served.refl h).mono (Nat.zero_le 1), hb', fun _ _ _ hc => hc, rfl, ?_⟩
    rw [if_pos ((mem_recency_iff h).mpr (by rw [hb']; simp))]
  | none =>
    obtain ⟨f, M', hfch, he⟩ := fetchBucket_enters hdma h [] hb hhi hb'
    rw [hide_nil] at hfch
    refine ⟨f, M', ?_, he.served, he.stays.1, he.kept, he.constructed, ?_⟩
    · simp only [hfch, Outcome.done_bind, Outcome.pure_eq]
      rw [hide_settle he.stays.1 not_mem_nil, hide_nil]
    · rw [if_neg fun hmem => (mem_recency_iff h).mp hmem hb', he.recency]

/-! ## Writing a frame -/

lemma Coh.write (h : Coh base lo s) (hb : s.bucketTable b = some f) (hlo : lo ≤ b)
    (x : Bucket K V) : Coh base lo (s.write f x true) := by
  refine ⟨h.geometry, h.wf, h.partition, h.free, h.held, h.table, h.bound, ?_, ?_, h.low, h.base_le⟩
  · intro c g hc hd
    by_cases hgf : g = f
    · subst hgf
      rw [h.table_inj hc hb]
      exact hlo
    · refine h.dirty c g hc ?_
      rwa [show (s.write f x true).dirtyFlag g = s.dirtyFlag g from update_of_ne hgf ..] at hd
  · intro c g hc hd hlc
    have hgf : g ≠ f := by
      rintro rfl
      rw [show (s.write g x true).dirtyFlag g = true from update_self ..] at hd
      cases hd
    rw [show (s.write f x true).cache g = s.cache g from update_of_ne hgf ..]
    refine h.clean c g hc ?_ hlc
    rwa [show (s.write f x true).dirtyFlag g = s.dirtyFlag g from update_of_ne hgf ..] at hd

lemma logical_write (h : Coh base lo s) (hb : s.bucketTable b = some f)
    (x : Bucket K V) (d : Bool) :
    (s.write f x d).logical = update s.logical b x := by
  funext c
  by_cases hc : c = b
  · subst hc
    rw [update_self, logical_of_table (s := s.write f x d) hb]
    exact update_self ..
  rw [update_of_ne hc]
  cases hct : s.bucketTable c with
  | none =>
    rw [logical_of_none (s := s.write f x d) hct, logical_of_none hct]
    rfl
  | some g =>
    have hgf : g ≠ f := by
      rintro rfl
      exact hc (h.table_inj hct hb)
    rw [logical_of_table (s := s.write f x d) hct, logical_of_table hct]
    exact update_of_ne hgf ..

lemma write_same (s : Dpu K V) (f : Frame) : s.write f (s.cache f) (s.dirtyFlag f) = s := by
  unfold write
  rw [update_eq_self, update_eq_self]

end Librdpma.LevelKv.Dpu
