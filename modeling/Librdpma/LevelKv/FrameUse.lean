import Librdpma.LevelKv.FrameTrace
import Librdpma.LevelKv.Requests

/-!
# Frames in use are not given away

The handlers keep frame numbers across later fetches and pin nothing. What saves
them is the order of the replacer: a frame that a request has obtained for one of
its buckets is among the most recent ones, one request uses at most 40 frames, and
`Evict` takes the last of 128.

No assumption is made on the DMA. So `bucket_ids_` may name buckets that the table
does not have, and only the half of the cache's invariant that frames need is left
(`Framed`). `Tracked` follows one call.
-/

namespace Librdpma.LevelKv.Dpu

open Lib Function List Outcome Traced

variable {K V : Type} {env : Env K} {s s' : Dpu K V} {c : Control} {f g : Frame} {b : ℕ}

/-- Every frame is in one of the two lists, a used one with the address of a bucket. -/
structure Framed (s : Dpu K V) : Prop where
  geometry : ∃ q, Geometry s.toControl q
  wf : s.replacer.WF
  partition : (s.replacer.frames ++ s.freeList).Perm (finRange 128)
  free : ∀ f ∈ s.freeList, s.bucketIds f = none
  held : ∀ f, f ∉ s.freeList → ∃ b, s.bucketIds f = some b ∧ s.Addressable b
  table : ∀ b f, s.bucketTable b = some f → s.bucketIds f = some b

namespace Framed

lemma not_free (h : Framed s) (hb : s.bucketTable b = some f) : f ∉ s.freeList := by
  intro hf
  have hids := h.table b f hb
  rw [h.free f hf] at hids
  cases hids

lemma addressable (h : Framed s) (hb : s.blStartBucketId ≤ b ∧ b < s.nextStartBucketId) :
    s.Addressable b := by
  obtain ⟨q, hq⟩ := h.geometry
  exact ⟨hb.1, hq.client_lt hb.1 (lt_of_lt_of_le hb.2 hq.nextStart_le_hi)⟩

lemma congr (h : Framed s) (hctl : s'.toControl = s.toControl)
    (hrep : s'.replacer = s.replacer) (hfr : s'.freeList = s.freeList)
    (htab : s'.bucketTable = s.bucketTable) (hids : s'.bucketIds = s.bucketIds) :
    Framed s' := by
  refine ⟨by rw [hctl]; exact h.geometry, by rw [hrep]; exact h.wf,
    by rw [hrep, hfr]; exact h.partition, by rw [hfr, hids]; exact h.free, ?_,
    by rw [htab, hids]; exact h.table⟩
  unfold Addressable
  rw [hfr, hids, hctl]
  exact h.held

lemma recordAccess (h : Framed s) (hb : s.bucketTable b = some f) : Framed (s.recordAccess f) := by
  have hmem : f ∈ s.replacer.frames := (mem_used_iff h.partition).mpr (h.not_free hb)
  refine ⟨h.geometry, h.wf.recordAccess f, ?_, h.free, h.held, h.table⟩
  show ((s.replacer.recordAccess f).frames ++ s.freeList).Perm _
  rw [h.wf.frames_recordAccess f]
  exact ((perm_cons_erase hmem).symm.append_right _).trans h.partition

lemma mapBucket (h : Framed s) (hids : s.bucketIds f = some b) : Framed (s.mapBucket b f) := by
  refine ⟨h.geometry, h.wf, h.partition, h.free, h.held, ?_⟩
  intro c g hg
  by_cases hc : c = b
  · subst hc
    rw [show (s.mapBucket c f).bucketTable c = some f from update_self ..] at hg
    rw [← Option.some.inj hg]
    exact hids
  · exact h.table c g ((update_of_ne hc ..).symm.trans hg)

end Framed

/-! ## One fetch -/

/-- The frame has left the free list, or the end of the replacer. -/
structure Popped (s : Dpu K V) (f : Frame) (s' : Dpu K V) : Prop where
  control : s'.toControl = s.toControl
  bucketTable : s'.bucketTable = s.bucketTable
  bucketIds : s'.bucketIds = s.bucketIds
  wf : s'.replacer.WF
  lists : (s.freeList = f :: s'.freeList ∧ s'.replacer.frames = s.replacer.frames) ∨
    (s.freeList = [] ∧ s'.freeList = [] ∧ s.replacer.frames = s'.replacer.frames ++ [f])

/-- The frame is first in the replacer, and its old bucket is in the table no more. -/
structure Given (s : Dpu K V) (f : Frame) (b : ℕ) (s' : Dpu K V) : Prop where
  control : s'.toControl = s.toControl
  bucketTable : s'.bucketTable = eraseBucket s.bucketTable (s.bucketIds f)
  bucketIds : s'.bucketIds = update s.bucketIds f (some b)
  wf : s'.replacer.WF
  lists : (s.freeList = f :: s'.freeList ∧ s'.replacer.frames = f :: s.replacer.frames) ∨
    (s.freeList = [] ∧ s'.freeList = [] ∧
      ∃ rest, s.replacer.frames = rest ++ [f] ∧ s'.replacer.frames = f :: rest)

/-- `Evict` is not called on an empty list, and the flush has an address, whether it
succeeds or not. -/
lemma targetFrame_popped (env : Env K) (h : Framed s) :
    ∃ f s', s.targetFrame env = .done (f, s') ∧ Popped s f s' := by
  cases hfr : s.freeList with
  | cons f rest =>
    unfold targetFrame
    rw [hfr]
    exact ⟨f, _, rfl, ⟨rfl, rfl, rfl, h.wf, .inl ⟨hfr, rfl⟩⟩⟩
  | nil =>
    cases hev : s.replacer.evict with
    | none =>
      have hlen := length_used h.partition hfr
      rw [Replacer.evict_none_iff.mp hev] at hlen
      cases hlen
    | some p =>
      obtain ⟨f, r⟩ := p
      obtain ⟨hspl, hwf⟩ := h.wf.evict_some hev
      obtain ⟨old, hids, had⟩ := h.held f (by rw [hfr]; exact not_mem_nil)
      rw [targetFrame_evict hfr hev]
      by_cases hd : s.dirtyFlag f = true
      · unfold flushBucket
        rw [if_pos hd, hids]
        dsimp only
        rw [if_pos (show ({ s with replacer := r } : Dpu K V).Addressable old from had)]
        exact ⟨f, _, rfl, ⟨rfl, rfl, rfl, hwf, .inr ⟨hfr, hfr, hspl⟩⟩⟩
      · rw [if_neg hd]
        exact ⟨f, _, rfl, ⟨rfl, rfl, rfl, hwf, .inr ⟨hfr, hfr, hspl⟩⟩⟩

lemma Popped.takesFrame (hp : Popped s f s') :
    TakesFrame f s.replacer.frames s.freeList s'.replacer.frames s'.freeList :=
  hp.lists

/-- **`FetchBucket`** returns, whatever the DMA does. -/
lemma fetchBucket_given (env : Env K) (h : Framed s) (hb : s.Addressable b) :
    ∃ r f s', s.fetchBucket env b
        = (⟨[.give f b, .obtain b f], .done ((r, f), s')⟩ : Traced Event _) ∧
      Given s f b s' := by
  obtain ⟨f, s1, htgt, hp⟩ := targetFrame_popped env h
  have had : (s1.retarget f b).Addressable b := by
    unfold Addressable at hb ⊢
    rw [show (s1.retarget f b).toControl = s.toControl from hp.control]
    exact hb
  have hfrs : (s1.retarget f b).replacer.frames = f :: s1.replacer.frames :=
    (hp.wf.frames_recordAccess f).trans
      (congrArg (f :: ·) (erase_of_not_mem (hp.takesFrame.not_mem h.partition).1))
  unfold fetchBucket readBucket
  rw [htgt]
  simp only [lift_done_bind]
  rw [if_pos had]
  refine ⟨_, f, _, rfl, ⟨hp.control, ?_, ?_, hp.wf.recordAccess f, ?_⟩⟩
  · show eraseBucket s1.bucketTable (s1.bucketIds f) = _
    rw [hp.bucketTable, hp.bucketIds]
  · show update s1.bucketIds f (some b) = _
    rw [hp.bucketIds]
  · exact exists_takesFrame_iff.mp ⟨_, hp.takesFrame, hfrs⟩

namespace Given

lemma ids_self (hg : Given s f b s') : s'.bucketIds f = some b := by
  rw [hg.bucketIds, update_self]

lemma table_of_some {d : ℕ} (h : Framed s) (hg : Given s f b s')
    (hd : s'.bucketTable d = some g) : s.bucketTable d = some g ∧ g ≠ f := by
  rw [hg.bucketTable, eraseBucket_eq_some] at hd
  refine ⟨hd.1, ?_⟩
  rintro rfl
  exact hd.2 (h.table d g hd.1)

lemma takesFrame (hg : Given s f b s') :
    ∃ rest, TakesFrame f s.replacer.frames s.freeList rest s'.freeList ∧
      s'.replacer.frames = f :: rest :=
  exists_takesFrame_iff.mpr hg.lists

lemma mem_frames_self (hg : Given s f b s') : f ∈ s'.replacer.frames.take 1 := by
  obtain ⟨rest, -, hfrs⟩ := hg.takesFrame
  rw [hfrs]
  exact mem_cons_self

lemma framed (h : Framed s) (hg : Given s f b s') (hb : s.Addressable b) : Framed s' := by
  have hids : ∀ g, g ≠ f → s'.bucketIds g = s.bucketIds g := by
    intro g hgf
    rw [hg.bucketIds, update_of_ne hgf]
  have had : ∀ d, s.Addressable d → s'.Addressable d := by
    intro d hd
    unfold Addressable at hd ⊢
    rw [hg.control]
    exact hd
  obtain ⟨rest, ht, hfrs⟩ := hg.takesFrame
  refine ⟨by rw [hg.control]; exact h.geometry, hg.wf,
    by rw [hfrs]; exact ht.partition h.partition, ?_, ?_, ?_⟩
  · intro g hgf
    obtain ⟨hfr, hne⟩ := (ht.mem_free_iff h.partition).mp hgf
    rw [hids g hne]
    exact h.free g hfr
  · intro g hgf
    by_cases hne : g = f
    · subst hne
      exact ⟨b, hg.ids_self, had b hb⟩
    · obtain ⟨d, hd, hdr⟩ := h.held g fun hfr => hgf ((ht.mem_free_iff h.partition).mpr ⟨hfr, hne⟩)
      exact ⟨d, (hids g hne).trans hd, had d hdr⟩
  · intro d g hd
    obtain ⟨hold, hne⟩ := hg.table_of_some h hd
    exact (hids g hne).trans (h.table d g hold)

/-- The first 127 frames of the replacer are not given, and move back by one place. -/
lemma recent {k : ℕ} (h : Framed s) (hg : Given s f b s') (hk : k ≤ 127)
    (hmem : g ∈ s.replacer.frames.take k) :
    g ≠ f ∧ g ∈ s'.replacer.frames.take (k + 1) := by
  obtain ⟨rest, ht, hfrs⟩ := hg.takesFrame
  obtain ⟨hne, hrs⟩ := ht.recent h.partition hk hmem
  rw [hfrs, take_succ_cons]
  exact ⟨hne, mem_cons_of_mem _ hrs⟩

end Given

/-! ## One call -/

/-- A frame that was obtained for one of the buckets `bs` is not given away later. -/
def KeepsFrames (bs : List ℕ) (log : List Event) : Prop :=
  log.Pairwise fun e later =>
    ∀ b ∈ bs, ∀ f d, e = .obtain b f → later ≠ .give f d

/-- Inside a call for the buckets `bs`, after at most `k` accesses: the frames that it
has obtained are among the `k` most recent ones and hold their buckets. The buckets in
`T` have been looked up, so that the table has no other frames for them. -/
structure Tracked (bs T : List ℕ) (c : Control) (k : ℕ) (log : List Event)
    (s : Dpu K V) : Prop where
  framed : Framed s
  control : s.toControl = c
  keeps : KeepsFrames bs log
  recent : ∀ b ∈ bs, ∀ f, .obtain b f ∈ log → f ∈ s.replacer.frames.take k
  ids : ∀ b ∈ bs, ∀ f, .obtain b f ∈ log → s.bucketIds f = some b
  looked : ∀ b ∈ T, ∀ f, s.bucketTable b = some f → .obtain b f ∈ log

variable {bs T : List ℕ} {k : ℕ} {log : List Event}

lemma KeepsFrames.obtain (h : KeepsFrames bs log) : KeepsFrames bs (log ++ [.obtain b f]) := by
  refine pairwise_append.mpr ⟨h, pairwise_singleton .., ?_⟩
  rintro e - later hlat d - g x -
  rw [mem_singleton.mp hlat]
  exact nofun

lemma KeepsFrames.give (h : KeepsFrames bs log) (hnot : ∀ b ∈ bs, .obtain b f ∉ log) :
    KeepsFrames bs (log ++ [.give f b]) := by
  refine pairwise_append.mpr ⟨h, pairwise_singleton .., ?_⟩
  rintro e he later hlat d hd g x rfl heq
  rw [mem_singleton.mp hlat] at heq
  cases heq
  exact hnot d hd he

lemma Framed.tracked (h : Framed s) (bs : List ℕ) : Tracked bs [] s.toControl 0 [] s :=
  ⟨h, rfl, Pairwise.nil, fun _ _ _ hmem => absurd hmem not_mem_nil,
    fun _ _ _ hmem => absurd hmem not_mem_nil,
    fun _ hmem => absurd hmem not_mem_nil⟩

namespace Tracked

section

variable (h : Tracked bs T c k log s)

include h

lemma mono {k' : ℕ} (hk : k ≤ k') : Tracked bs T c k' log s :=
  ⟨h.framed, h.control, h.keeps,
    fun b hb f hf => take_subset_take_left _ hk (h.recent b hb f hf), h.ids, h.looked⟩

lemma congr (hctl : s'.toControl = s.toControl)
    (hrep : s'.replacer = s.replacer) (hfr : s'.freeList = s.freeList)
    (htab : s'.bucketTable = s.bucketTable) (hids : s'.bucketIds = s.bucketIds) :
    Tracked bs T c k log s' :=
  ⟨h.framed.congr hctl hrep hfr htab hids, hctl.trans h.control, h.keeps,
    by rw [hrep]; exact h.recent, by rw [hids]; exact h.ids, by rw [htab]; exact h.looked⟩

lemma write (x : Bucket K V) (d : Bool) : Tracked bs T c k log (s.write f x d) :=
  h.congr rfl rfl rfl rfl rfl

lemma clearToken (slot : Fin 4) : Tracked bs T c k log (s.clearToken f slot) :=
  h.congr rfl rfl rfl rfl rfl

lemma look (hb : ∀ f, s.bucketTable b = some f → .obtain b f ∈ log) :
    Tracked bs (b :: T) c k log s := by
  refine ⟨h.framed, h.control, h.keeps, h.recent, h.ids, ?_⟩
  intro d hd
  rcases mem_cons.mp hd with rfl | hd
  · exact hb
  · exact h.looked d hd

lemma obtain (hids : s.bucketIds f = some b) (hrec : b ∈ bs → f ∈ s.replacer.frames.take k) :
    Tracked bs T c k (log ++ [.obtain b f]) s := by
  have hcs : ∀ d g, .obtain d g ∈ log ++ [Event.obtain b f] →
      .obtain d g ∈ log ∨ (d = b ∧ g = f) := by
    intro d g hmem
    rcases mem_append.mp hmem with hmem | hmem
    · exact .inl hmem
    · cases mem_singleton.mp hmem
      exact .inr ⟨rfl, rfl⟩
  refine ⟨h.framed, h.control, h.keeps.obtain, ?_, ?_,
    fun d hd g hg => mem_append_left _ (h.looked d hd g hg)⟩
  · intro d hd g hg
    rcases hcs d g hg with hg | ⟨rfl, rfl⟩
    · exact h.recent d hd g hg
    · exact hrec hd
  · intro d hd g hg
    rcases hcs d g hg with hg | ⟨rfl, rfl⟩
    · exact h.ids d hd g hg
    · exact hids

lemma recordAccess (hb : s.bucketTable b = some f) :
    Tracked bs T c (k + 1) log (s.recordAccess f) := by
  refine ⟨h.framed.recordAccess hb, h.control, h.keeps, ?_, h.ids, h.looked⟩
  intro d hd g hg
  show g ∈ (s.replacer.recordAccess f).frames.take (k + 1)
  rw [h.framed.wf.frames_recordAccess f]
  exact mem_take_use (h.recent d hd g hg)

lemma hit (hb : s.bucketTable b = some f) :
    Tracked bs T c (k + 1) (log ++ [.obtain b f]) (s.recordAccess f) := by
  refine (h.recordAccess hb).obtain (h.framed.table b f hb) fun _ => ?_
  show f ∈ (s.replacer.recordAccess f).frames.take (k + 1)
  rw [h.framed.wf.frames_recordAccess f, take_succ_cons]
  exact mem_cons_self

lemma mapBucket (hids : s.bucketIds f = some b)
    (hlog : .obtain b f ∈ log) : Tracked bs T c k log (s.mapBucket b f) := by
  refine ⟨h.framed.mapBucket hids, h.control, h.keeps, h.recent, h.ids, ?_⟩
  intro d hd g hg
  by_cases hdb : d = b
  · subst hdb
    rw [show (s.mapBucket d f).bucketTable d = some f from update_self ..] at hg
    rw [← Option.some.inj hg]
    exact hlog
  · exact h.looked d hd g ((update_of_ne hdb ..).symm.trans hg)

/-- A fetch gives away none of the frames that the call has obtained. -/
lemma give (hk : k ≤ 127) (hb : s.Addressable b) (hg : Given s f b s') :
    Tracked bs T c (k + 1) (log ++ [.give f b]) s' := by
  have hlog : ∀ d g, .obtain d g ∈ log ++ [Event.give f b] → .obtain d g ∈ log := by
    intro d g hmem
    simpa using hmem
  have hold : ∀ d ∈ bs, ∀ g, .obtain d g ∈ log →
      g ≠ f ∧ g ∈ s'.replacer.frames.take (k + 1) := fun d hd g hmem =>
    hg.recent h.framed hk (h.recent d hd g hmem)
  refine ⟨hg.framed h.framed hb, hg.control.trans h.control,
    h.keeps.give fun d hd hmem => (hold d hd f hmem).1 rfl,
    fun d hd g hmem => (hold d hd g (hlog d g hmem)).2, ?_, ?_⟩
  · intro d hd g hmem
    rw [hg.bucketIds, update_of_ne (hold d hd g (hlog d g hmem)).1]
    exact h.ids d hd g (hlog d g hmem)
  · intro d hd g hmem
    exact mem_append_left _ (h.looked d hd g (hg.table_of_some h.framed hmem).1)

lemma fetch (hk : k ≤ 127) (hb : s.Addressable b) (hg : Given s f b s') :
    Tracked bs T c (k + 1) (log ++ [.give f b, .obtain b f]) s' := by
  have h' := (h.give hk hb hg).obtain hg.ids_self fun _ =>
    take_subset_take_left _ (Nat.le_add_left 1 k) hg.mem_frames_self
  rwa [append_assoc] at h'

end

end Tracked

/-! ## The handlers -/

variable {α β : Type}

lemma fetchBucket_sat (h : Tracked bs T c k log s) (hk : k ≤ 127)
    (hb : c.blStartBucketId ≤ b ∧ b < c.nextStartBucketId) :
    Sat (KeepsFrames bs) log (s.fetchBucket env b) fun log x =>
      Tracked bs T c (k + 1) log x.2 ∧ .obtain b x.1.2 ∈ log ∧
        x.2.bucketIds x.1.2 = some b ∧ (s.bucketTable b = none → x.2.bucketTable b = none) := by
  have had : s.Addressable b := h.framed.addressable (by rw [h.control]; exact hb)
  obtain ⟨r, f, s', hrun, hg⟩ := fetchBucket_given env h.framed had
  have h' := h.fetch hk had hg
  rw [hrun]
  refine ⟨h'.keeps, h', by simp, hg.ids_self, ?_⟩
  intro hno
  rw [hg.bucketTable]
  exact eraseBucket_none hno _

lemma scan_sat (act : Access K V α) {l : List ℕ} (h : Tracked bs T c k log s) :
    Sat (KeepsFrames bs) log (s.scan act l) fun log x =>
      Tracked bs T c (k + l.length) log x.2.2 ∧ x.2.1.Sublist l := by
  induction l generalizing k log s with
  | nil => exact Sat.pure h.keeps ⟨h, Sublist.refl _⟩
  | cons b l ih =>
    unfold scan
    have hlen : k + 1 + l.length = k + (b :: l).length := by
      rw [length_cons]
      omega
    cases hb : s.bucketTable b with
    | none =>
      refine (ih h).bind fun log x hx => ?_
      exact Sat.pure hx.1.keeps ⟨hx.1.mono (by omega), hx.2.cons_cons b⟩
    | some f =>
      have h' := h.hit hb
      refine Sat.note_bind h'.keeps ?_
      dsimp only
      cases act ((s.recordAccess f).cache f) ((s.recordAccess f).dirtyFlag f) with
      | none =>
        refine (ih h').mono fun log x hx => ?_
        rw [hlen] at hx
        exact ⟨hx.1, hx.2.cons b⟩
      | some x =>
        refine Sat.pure h'.keeps ⟨(h'.write _ _).mono (by omega), ?_⟩
        exact nil_sublist _

/-- The fetches of at most four buckets; each future is for a frame that the call has
obtained. -/
lemma fetchAll_sat {l : List ℕ} (h : Tracked bs T c k log s) (hk : k + l.length ≤ 128)
    (hl : ∀ b ∈ l, c.blStartBucketId ≤ b ∧ b < c.nextStartBucketId) :
    Sat (KeepsFrames bs) log (s.fetchAll env l) fun log x =>
      Tracked bs T c (k + l.length) log x.2 ∧ ∀ y ∈ x.1, y.1 ∈ l ∧ .obtain y.1 y.2.2 ∈ log := by
  induction l generalizing k log s with
  | nil => exact Sat.pure h.keeps ⟨h, fun _ hy => absurd hy not_mem_nil⟩
  | cons b l ih =>
    rw [length_cons] at hk ⊢
    refine (fetchBucket_sat h (by omega) (hl b mem_cons_self)).bind ?_
    rintro log1 ⟨⟨r, f⟩, s1⟩ ⟨h1, hobt, -⟩
    refine (ih h1 (by omega) fun d hd => hl d (mem_cons_of_mem _ hd)).grows.bind ?_
    rintro log2 ⟨futures, s2⟩ ⟨hgr, h2, hfut⟩
    refine Sat.pure h2.keeps ⟨h2.mono (by omega), ?_⟩
    intro y hy
    rcases mem_cons.mp hy with rfl | hy
    · exact ⟨mem_cons_self, hgr.subset hobt⟩
    · exact ⟨mem_cons_of_mem _ (hfut y hy).1, (hfut y hy).2⟩

lemma consume_tracked (act : Access K V α) {futures : List (ℕ × Bool × Frame)}
    (h : Tracked bs T c k log s) (hfut : ∀ y ∈ futures, y.1 ∈ bs ∧ .obtain y.1 y.2.2 ∈ log) :
    Tracked bs T c k log (s.consume act futures).2 := by
  induction futures generalizing s with
  | nil => exact h
  | cons y futures ih =>
    obtain ⟨b, success, f⟩ := y
    obtain ⟨hb, hobt⟩ := hfut _ mem_cons_self
    have hrs := fun y hy => hfut y (mem_cons_of_mem _ hy)
    unfold consume
    cases success with
    | false => exact ih h hrs
    | true =>
      have h' := h.mapBucket (h.ids b hb f hobt) hobt
      dsimp only
      rw [if_pos rfl]
      cases act ((s.mapBucket b f).cache f) ((s.mapBucket b f).dirtyFlag f) with
      | none => exact ih h' hrs
      | some x => exact h'.write _ _

lemma consumeSearch_tracked [DecidableEq K] (key : K) {searched : Option V}
    {futures : List (ℕ × Bool × Frame)} (h : Tracked bs T c k log s)
    (hfut : ∀ y ∈ futures, y.1 ∈ bs ∧ .obtain y.1 y.2.2 ∈ log) :
    Tracked bs T c k log (s.consumeSearch key searched futures).2 := by
  induction futures generalizing s searched with
  | nil => exact h
  | cons y futures ih =>
    obtain ⟨b, success, f⟩ := y
    obtain ⟨hb, hobt⟩ := hfut _ mem_cons_self
    have hrs := fun y hy => hfut y (mem_cons_of_mem _ hy)
    cases success with
    | false => exact ih h hrs
    | true => exact ih (h.mapBucket (h.ids b hb f hobt) hobt) hrs

lemma Framed.buckets_range (env : Env K) (h : Framed s) (key : K) :
    ∀ b ∈ s.buckets env key, s.blStartBucketId ≤ b ∧ b < s.nextStartBucketId := by
  obtain ⟨q, hq⟩ := h.geometry
  exact (hq.get4Buckets_spec _ _).2

lemma fetchLeft_sat (h : Framed s) (key : K) {s1 : Dpu K V} {toFetch : List ℕ}
    (h1 : Tracked (s.buckets env key) [] s.toControl 4 log s1)
    (hsub : toFetch.Sublist (s.buckets env key)) :
    Sat (KeepsFrames (s.buckets env key)) log (s1.fetchAll env toFetch) fun log x =>
      Tracked (s.buckets env key) [] s.toControl 8 log x.2 ∧
        ∀ y ∈ x.1, y.1 ∈ s.buckets env key ∧ .obtain y.1 y.2.2 ∈ log := by
  have hlen : toFetch.length ≤ 4 := hsub.length_le
  refine (fetchAll_sat h1 (by omega) fun b hb =>
    Framed.buckets_range env h key b (hsub.subset hb)).mono fun log2 x hx => ?_
  exact ⟨hx.1.mono (by omega), fun y hy => ⟨hsub.subset (hx.2 y hy).1, (hx.2 y hy).2⟩⟩

lemma processSearch_sat [DecidableEq K] (env : Env K) (h : Framed s) (key : K) :
    Sat (KeepsFrames (s.buckets env key)) [] (s.processSearch env key) fun _ x => Framed x.2 := by
  refine (scan_sat (searchAccess key) (h.tracked _)).bind ?_
  rintro log1 ⟨hit, toFetch, s1⟩ ⟨h1, hsub⟩
  cases hit with
  | some v => exact Sat.pure h1.keeps h1.framed
  | none =>
    refine (fetchLeft_sat h key h1 hsub).bind ?_
    rintro log2 ⟨futures, s2⟩ ⟨h2, hfut⟩
    exact Sat.pure h2.keeps (consumeSearch_tracked key h2 hfut).framed

lemma processWith_sat (env : Env K) (act : Access K V Unit) (h : Framed s) (key : K) :
    Sat (KeepsFrames (s.buckets env key)) [] (s.processWith act env key)
      fun _ x => Framed x.2 := by
  refine (scan_sat act (h.tracked _)).bind ?_
  rintro log1 ⟨hit, toFetch, s1⟩ ⟨h1, hsub⟩
  cases hit with
  | some _ => exact Sat.pure h1.keeps h1.framed
  | none =>
    refine (fetchLeft_sat h key h1 hsub).bind ?_
    rintro log2 ⟨futures, s2⟩ ⟨h2, hfut⟩
    exact Sat.pure h2.keeps (consume_tracked act h2 hfut).framed

/-! ### `INSERT` -/

section

variable (h : Tracked bs T c k log s)

include h

lemma lookupOrFetch_sat (hk : k ≤ 127) (hb : c.blStartBucketId ≤ b ∧ b < c.nextStartBucketId) :
    Sat (KeepsFrames bs) log (s.lookupOrFetch env b) fun log x =>
      Tracked bs (b :: T) c (k + 1) log x.2 ∧ .obtain b x.1.2 ∈ log := by
  unfold lookupOrFetch
  cases hbt : s.bucketTable b with
  | some f =>
    have h' := h.hit hbt
    have hobt : .obtain b f ∈ log ++ [Event.obtain b f] := by simp
    refine Sat.note_bind h'.keeps (Sat.pure h'.keeps ⟨h'.look fun g hg => ?_, hobt⟩)
    rw [← Option.some.inj (hbt.symm.trans hg)]
    exact hobt
  | none =>
    refine (fetchBucket_sat h hk hb).bind ?_
    rintro log1 ⟨⟨r, f⟩, s1⟩ ⟨h1, hobt, -, hno⟩
    refine Sat.pure h1.keeps ⟨h1.look fun g hg => ?_, hobt⟩
    rw [hno hbt] at hg
    cases hg

lemma settleFetched_tracked {x : Option Bool × Frame}
    (hb : b ∈ bs) (hobt : .obtain b x.2 ∈ log) (hx : s.settleFetched b x = some s') :
    Tracked bs T c k log s' := by
  obtain ⟨success, f⟩ := x
  match success, hx with
  | none, hx =>
    cases hx
    exact h
  | some true, hx =>
    cases hx
    exact h.mapBucket (h.ids b hb f hobt) hobt

lemma tryInsertInto2Buckets_sat {b0 b1 : ℕ} (hk : k ≤ 126)
    (hbs : ∀ b ∈ bs, c.blStartBucketId ≤ b ∧ b < c.nextStartBucketId)
    (hb0 : b0 ∈ bs) (hb1 : b1 ∈ bs) (x : K × V) :
    Sat (KeepsFrames bs) log (s.tryInsertInto2Buckets env b0 b1 x) fun log y =>
      Tracked bs (b1 :: b0 :: T) c (k + 2) log y.2 := by
  refine (lookupOrFetch_sat h (by omega) (hbs b0 hb0)).bind ?_
  rintro log1 ⟨x0, s1⟩ ⟨h1, hobt0⟩
  refine (lookupOrFetch_sat h1 (by omega) (hbs b1 hb1)).grows.bind ?_
  rintro log2 ⟨x1, s2⟩ ⟨hgr, h2, hobt1⟩
  -- nothing is fetched from here on
  dsimp only
  cases hs3 : s2.settleFetched b0 x0 with
  | none => exact Sat.pure h2.keeps h2
  | some s3 =>
    have h3 := settleFetched_tracked h2 hb0 (hgr.subset hobt0) hs3
    dsimp only
    cases hs4 : s3.settleFetched b1 x1 with
    | none => exact Sat.pure h3.keeps h3
    | some s4 =>
      have h4 := settleFetched_tracked h3 hb1 hobt1 hs4
      dsimp only
      cases (s4.cache (s4.lessLoaded x0.2 x1.2)).insertSlot x.1 x.2 with
      | none => exact Sat.pure h4.keeps h4
      | some y => exact Sat.pure h4.keeps (h4.write _ _)

end

lemma untilTrue_sat {m : ℕ} {body : Dpu K V → β → Traced Event (Bool × Dpu K V)} {l : List β}
    (hbd : ∀ a ∈ l, ∀ k log s, k + m ≤ 128 → Tracked bs T c k log s →
      Sat (KeepsFrames bs) log (body s a) fun log x => Tracked bs T c (k + m) log x.2)
    (hk : k + l.length * m ≤ 128) (h : Tracked bs T c k log s) :
    Sat (KeepsFrames bs) log (s.untilTrue body l) fun log x =>
      Tracked bs T c (k + l.length * m) log x.2 := by
  induction l generalizing k log s with
  | nil => exact Sat.pure h.keeps (h.mono (Nat.le_add_right ..))
  | cons a l ih =>
    have hlen : (a :: l).length * m = m + l.length * m := by
      rw [length_cons, Nat.succ_mul, add_comm]
    rw [hlen] at hk ⊢
    refine (hbd a mem_cons_self k log s (by omega) h).bind ?_
    rintro log1 ⟨done, s1⟩ h1
    cases done with
    | true => exact Sat.pure h1.keeps (h1.mono (by omega))
    | false =>
      refine (ih (fun d hd => hbd d (mem_cons_of_mem _ hd)) (by omega) h1).mono ?_
      intro log2 x hx
      exact hx.mono (by omega)

section

variable (h : Tracked bs T c k log s)

include h

/-- A bucket of the request has been looked up before, so its frame is a recent one
although no access is recorded here. -/
lemma load_sat (hk : k ≤ 127) (hT : b ∈ bs → b ∈ T)
    (hb : c.blStartBucketId ≤ b ∧ b < c.nextStartBucketId) :
    Sat (KeepsFrames bs) log (s.load env b) fun log x =>
      Tracked bs T c (k + 1) log x.2 := by
  unfold load
  cases hbt : s.bucketTable b with
  | some f =>
    have h' := h.obtain (h.framed.table b f hbt) fun hmem =>
      h.recent b hmem f (h.looked b (hT hmem) f hbt)
    exact Sat.note_bind h'.keeps (Sat.pure h'.keeps (h'.mono (Nat.le_succ k)))
  | none =>
    refine (fetchBucket_sat h hk hb).bind ?_
    rintro log1 ⟨⟨r, f⟩, s1⟩ ⟨h1, hobt, hids, -⟩
    exact Sat.pure h1.keeps (h1.mapBucket hids hobt)

lemma moveTo_sat {src d : ℕ} {slot : Fin 4} (hk : k + 1 ≤ 128) (hT : bs ⊆ T)
    (hd : c.blStartBucketId ≤ d ∧ d < c.nextStartBucketId) :
    Sat (KeepsFrames bs) log (moveTo env src f slot s d) fun log x =>
      Tracked bs T c (k + 1) log x.2 := by
  unfold moveTo
  split
  · exact Sat.pure h.keeps (h.mono (Nat.le_succ k))
  · refine (load_sat h (by omega) (fun hmem => hT hmem) hd).bind ?_
    rintro log1 ⟨g, s1⟩ h1
    dsimp only
    cases (s1.cache g).insertSlot ((s1.cache f).slots slot).1 ((s1.cache f).slots slot).2 with
    | none => exact Sat.pure h1.keeps h1
    | some y => exact Sat.pure h1.keeps ((h1.write y true).clearToken slot)

lemma moveSlot_sat {src : ℕ} {slot : Fin 4} (hk : k + 2 ≤ 128) (hT : bs ⊆ T) :
    Sat (KeepsFrames bs) log (moveSlot env src f s slot) fun log x =>
      Tracked bs T c (k + 2) log x.2 := by
  refine untilTrue_sat (m := 1) ?_ hk h
  intro d hd k log t hk ht
  refine moveTo_sat ht hk hT ?_
  have hrng := Framed.buckets_range env h.framed ((s.cache f).slots slot).1 d (mem_of_mem_take hd)
  rwa [h.control] at hrng

lemma moveFrom_sat (hk : k + 9 ≤ 128) (hT : bs ⊆ T)
    (hbs : ∀ b ∈ bs, c.blStartBucketId ≤ b ∧ b < c.nextStartBucketId) (hb : b ∈ bs) (x : K × V) :
    Sat (KeepsFrames bs) log (moveFrom env x s b) fun log y =>
      Tracked bs T c (k + 9) log y.2 := by
  refine (load_sat h (by omega) (fun hmem => hT hmem) (hbs b hb)).bind ?_
  rintro log1 ⟨f, s1⟩ h1
  refine (Sat.lift (Q := fun log _ => Tracked bs T c (k + 1) log s1) h1.keeps ?_).bind ?_
  · unfold ensureThat
    split
    · exact trivial
    · exact h1
  rintro log2 _ h2
  refine (untilTrue_sat (m := 2) (fun slot _ k log t hk ht => moveSlot_sat ht hk hT)
    (show k + 1 + 4 * 2 ≤ 128 by omega) h2).bind ?_
  rintro log3 ⟨moved, s3⟩ h3
  cases moved with
  | false => exact Sat.pure h3.keeps h3
  | true =>
    refine (Sat.lift (Q := fun log t => Tracked bs T c (k + 9) log t) h3.keeps ?_).bind
      fun log t ht => Sat.pure ht.keeps ht
    unfold ensureInsert
    split
    · cases (s3.cache f).insertSlot x.1 x.2 with
      | none => exact trivial
      | some y => exact h3.write y true
    · exact h3

end

/-- Four accesses in the first two stages, and nine for each bucket in the third. -/
lemma insertNoExpand_sat (env : Env K) (h : Framed s) (x : K × V) :
    Sat (KeepsFrames (s.buckets env x.1)) [] (s.insertNoExpand env x) fun _ y => Framed y.2 := by
  have hbs := Framed.buckets_range env h x.1
  refine (tryInsertInto2Buckets_sat (h.tracked (s.buckets env x.1)) (by omega) hbs
    (by simp [buckets, Control.get4Buckets]) (by simp [buckets, Control.get4Buckets]) x).bind ?_
  rintro log1 ⟨done, s1⟩ h1
  cases done with
  | true => exact Sat.pure h1.keeps h1.framed
  | false =>
    refine (tryInsertInto2Buckets_sat h1 (by omega) hbs (by simp [buckets, Control.get4Buckets])
      (by simp [buckets, Control.get4Buckets]) x).bind ?_
    rintro log2 ⟨done, s2⟩ h2
    cases done with
    | true => exact Sat.pure h2.keeps h2.framed
    | false =>
      refine (untilTrue_sat (m := 9) (fun b hb k log t hk ht => moveFrom_sat ht hk ?_ hbs hb x)
        (show 0 + 2 + 2 + 4 * 9 ≤ 128 by omega) h2).mono fun _ _ ht => ht.framed
      intro b hb
      simp only [buckets, Control.get4Buckets, mem_cons, not_mem_nil, or_false] at hb
      simp only [Control.get4Buckets, getD_cons_zero, getD_cons_succ,
        mem_cons, not_mem_nil, or_false]
      tauto

/-! ## Runs -/

section Runs

variable [DecidableEq K] [Inhabited K] [Inhabited V]

omit [DecidableEq K] in
lemma init_framed {level : ℕ} (h : 3 ≤ level) : Framed (init level : Dpu K V) := by
  have hcoh := init_coh (K := K) (V := V) h
  refine ⟨hcoh.geometry, hcoh.wf, hcoh.partition, hcoh.free, ?_, hcoh.table⟩
  intro f hf
  exact absurd (mem_finRange f) hf

/-- One request; no assumption is made on the DMA and on `ENSURE`. -/
lemma Framed.handle {r : Request K V} {a : Option (Option V)} (h : Framed s)
    (hexp : NoExpand env s r) (hrun : s.handle env r = .done (a, s')) : Framed s' := by
  cases r with
  | search key =>
    obtain ⟨y, hpr, heq⟩ := bind_eq_done.mp hrun
    have hsat := (processSearch_sat env h key).2
    rw [outcome_processSearch, hpr] at hsat
    cases heq
    exact hsat
  | delete key =>
    obtain ⟨y, hpr, heq⟩ := bind_eq_done.mp hrun
    have hsat := (processWith_sat env (deleteAccess key) h key).2
    rw [outcome_processWith, show s.processWith (deleteAccess key) env key = .done y from hpr]
      at hsat
    cases heq
    exact hsat
  | insert key value =>
    obtain ⟨⟨result, t⟩, hpr, heq⟩ := bind_eq_done.mp hrun
    have hsat := (insertNoExpand_sat env h (key, value)).2
    rw [outcome_insertNoExpand, ← processInsert_of_not_overloaded hexp, hpr] at hsat
    have ht : Framed t := hsat
    obtain ⟨q, hq⟩ := ht.geometry
    cases heq
    cases result with
    | false => exact ht
    | true =>
      exact ⟨⟨q, hq.pos, hq.blCapacity, hq.addrCapacity, hq.blStart, hq.tlStart,
        hq.nextStart, hq.clients⟩, ht.wf, ht.partition, ht.free, ht.held, ht.table⟩
  | update key value | start =>
    cases hrun
    exact h

/-- `t` is the call `x` with its trace: the call returns or ends the process, and no
frame that it obtains for one of the buckets `bs` is given away after that. -/
structure FramesKept (bs : List ℕ) (x : Outcome α) (t : Traced Event α) : Prop where
  outcome : t.outcome = x
  kept : KeepsFrames bs t.events
  returns : (∃ a, x = .done a) ∨ x = .exit

omit [DecidableEq K] [Inhabited K] [Inhabited V] in
lemma FramesKept.of_sat {x : Outcome α} {t : Traced Event α} {Q : List Event → α → Prop}
    (hx : t.outcome = x) (h : Sat (KeepsFrames bs) [] t Q) : FramesKept bs x t := by
  refine ⟨hx, h.1, ?_⟩
  have hsat := h.2
  rw [hx] at hsat
  cases x with
  | done a => exact .inl ⟨a, rfl⟩
  | exit => exact .inr rfl
  | undefined | loop => exact absurd hsat id

/-- **Frames in use are never stolen.** At every request boundary of every run without
an expansion, the free list and the replacer hold each frame once. The next `SEARCH`,
`DELETE` or `INSERT` gives away no frame that it has obtained for one of its four
buckets, and `Evict` finds a frame whenever it asks for one. -/
theorem frames_not_stolen (env : Env K) (level : ℕ) (hlevel : 3 ≤ level) (s : Dpu K V)
    (hs : Reaches env (NoExpand env) (init level) s) :
    (s.replacer.frames ++ s.freeList).Perm (finRange 128) ∧
      (∀ key, FramesKept (s.buckets env key) (s.processSearch env key) (s.processSearch env key)) ∧
      (∀ key, FramesKept (s.buckets env key) (s.processDelete env key) (s.processDelete env key)) ∧
      ∀ x, s.overloaded env = false → FramesKept (s.buckets env x.1)
        (s.processInsert env x) (s.insertNoExpand env x) := by
  have h : Framed s := hs.invariant (I := Framed) (init_framed hlevel)
    fun s r a s' h hexp hrun => h.handle hexp hrun
  refine ⟨h.partition, ?_, ?_, ?_⟩
  · intro key
    exact .of_sat (outcome_processSearch key) (processSearch_sat env h key)
  · intro key
    exact .of_sat (outcome_processWith _ key) (processWith_sat env (deleteAccess key) h key)
  · intro x hld
    rw [processInsert_of_not_overloaded hld]
    exact .of_sat (outcome_insertNoExpand x) (insertNoExpand_sat env h x)

end Runs

/-- A search in a table that has had one insertion, and an insertion of the same key. -/
theorem frames_not_stolen_insert : ∃ s : Dpu FixedKey FixedValue,
      Reaches (byteEnv true) (NoExpand (byteEnv true)) (init 3) s ∧
        (s.replacer.frames ++ s.freeList).Perm (finRange 128) ∧
        FramesKept (s.buckets (byteEnv true) (byteKey 1))
          (s.processSearch (byteEnv true) (byteKey 1))
          (s.processSearch (byteEnv true) (byteKey 1)) ∧
        FramesKept (s.buckets (byteEnv true) (byteKey 1))
          (s.processInsert (byteEnv true) (byteKey 1, byteValue 2))
          (s.insertNoExpand (byteEnv true) (byteKey 1, byteValue 2)) := by
  obtain ⟨⟨as, s⟩, hdn, hld⟩ : ∃ x, (init 3 : Dpu FixedKey FixedValue).runAll (byteEnv true)
      [.insert (byteKey 1) (byteValue 1)] = .done x ∧ x.2.overloaded (byteEnv true) = false := by
    decide +kernel
  obtain ⟨⟨a, t⟩, hhdl, hrs⟩ := bind_eq_done.mp hdn
  cases hrs
  have hexp : NoExpand (byteEnv true) (init 3 : Dpu FixedKey FixedValue)
      (.insert (byteKey 1) (byteValue 1)) := by
    show Dpu.overloaded _ _ = false
    decide
  have hrch : Reaches (byteEnv true) (NoExpand (byteEnv true)) (init 3) s := .step .init hexp hhdl
  obtain ⟨hperm, hsr, -, hins⟩ := frames_not_stolen (byteEnv true) 3 (le_refl 3) s hrch
  exact ⟨s, hrch, hperm, hsr _, hins (byteKey 1, byteValue 2) hld⟩

end Librdpma.LevelKv.Dpu
