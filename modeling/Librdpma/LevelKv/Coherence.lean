import Librdpma.Lib.Recency
import Librdpma.LevelKv.Dpu

/-!
# Coherence of the cache

`Coh base lo s` says that the frames are shared out between the free list and
the replacer, that `bucket_table_` and `bucket_ids_` are inverse to each other
on the used frames, and that a clean frame of a bucket from `lo` on equals
host memory. All buckets in the cache have ids from `base` on.

Giving a frame to another bucket (`Refill`) keeps this, and keeps the logical
table: for every bucket the cached frame if there is one, else host memory.
-/

namespace Librdpma.LevelKv

open Lib Function List Option

/-! ## Bucket numbers -/

/-- The parameters of a table whose bottom level has `4 * q` buckets, outside
an expansion with 8 clients and inside one with 12. -/
structure Geometry (c : Control) (q : ℕ) : Prop where
  pos : 1 ≤ q
  blCapacity : c.blCapacity = 4 * q
  addrCapacity : c.addrCapacity = 8 * q
  blStart : c.blStartBucketId + 4 = 4 * q
  tlStart : c.tlStartBucketId + 4 = 8 * q
  nextStart : c.nextStartBucketId + 4 = 16 * q
  clients : c.clients = 8 ∨ c.clients = 12

/-- The end of the ids that have an address. -/
def Control.hi (c : Control) : ℕ :=
  if c.clients = 12 then c.nextStartBucketId + 2 * c.addrCapacity
  else c.nextStartBucketId

namespace Geometry

variable {c : Control} {q : ℕ}

lemma doubled {c' : Control} (h : Geometry c q) (hcap : c'.blCapacity = c.blCapacity * 2)
    (hadd : c'.addrCapacity = c.addrCapacity * 2) (hbl : c'.blStartBucketId = c.tlStartBucketId)
    (htl : c'.tlStartBucketId = c.nextStartBucketId)
    (hnx : c'.nextStartBucketId = c.nextStartBucketId + c.addrCapacity * 2)
    (hcl : c'.clients = 8 ∨ c'.clients = 12) : Geometry c' (2 * q) := by
  obtain ⟨hpos, hcap0, hadd0, -, htl0, hnx0, -⟩ := h
  exact ⟨by omega, by omega, by omega, by omega, by omega, by omega, hcl⟩

lemma nextStart_le_hi (_ : Geometry c q) : c.nextStartBucketId ≤ c.hi := by
  unfold Control.hi
  split
  · omega
  · omega

lemma getClientBucket_eq (h : Geometry c q) (b : ℕ) :
    (b < c.tlStartBucketId ∧ c.getClientBucket b
        = ((b - c.blStartBucketId) / q, (b - c.blStartBucketId) % q * 128)) ∨
      (c.tlStartBucketId ≤ b ∧ b < c.nextStartBucketId ∧ c.getClientBucket b
        = ((b - c.tlStartBucketId) / (2 * q) + 4, (b - c.tlStartBucketId) % (2 * q) * 128)) ∨
      (c.nextStartBucketId ≤ b ∧ c.getClientBucket b
        = ((b - c.nextStartBucketId) / (4 * q) + 8,
          (b - c.nextStartBucketId) % (4 * q) * 128)) := by
  have ⟨_, hbl, hadd, _, htl, hnx, _⟩ := h
  have hg1 : c.blCapacity / 4 = q := by omega
  have hg2 : c.addrCapacity / 4 = 2 * q := by omega
  have hg3 : c.addrCapacity * 2 / 4 = 4 * q := by omega
  unfold Control.getClientBucket
  by_cases hbot : b < c.tlStartBucketId
  · rw [if_pos hbot, hg1]
    exact .inl ⟨hbot, rfl⟩
  rw [if_neg hbot]
  by_cases htop : b < c.tlStartBucketId + c.addrCapacity
  · rw [if_pos htop, hg2]
    exact .inr (.inl ⟨by omega, by omega, rfl⟩)
  · rw [if_neg htop, hg3]
    exact .inr (.inr ⟨by omega, rfl⟩)

lemma div_lt_four {k g : ℕ} (h : k < 4 * g) : k / g < 4 := by
  have hg : 0 < g := by omega
  exact (Nat.div_lt_iff_lt_mul hg).mpr h

lemma client_lt (h : Geometry c q) {b : ℕ} (hb : c.blStartBucketId ≤ b)
    (hhi : b < c.hi) : (c.getClientBucket b).1 < c.clients := by
  have ⟨_, _, hadd, hbl, htl, hnx, hcl⟩ := h
  rcases h.getClientBucket_eq b with ⟨hlt, heq⟩ | ⟨hge, hlt, heq⟩ | ⟨hge, heq⟩
  · have hk : (b - c.blStartBucketId) / q < 4 := div_lt_four (by omega)
    rw [heq]
    exact lt_of_lt_of_le hk (by omega)
  · have hk : (b - c.tlStartBucketId) / (2 * q) < 4 := div_lt_four (by omega)
    rw [heq]
    exact Nat.lt_of_lt_of_le (Nat.add_lt_add_right hk 4) (by omega)
  · have h12 : c.clients = 12 := by
      by_contra hne
      unfold Control.hi at hhi
      rw [if_neg hne] at hhi
      omega
    have hk : (b - c.nextStartBucketId) / (4 * q) < 4 := by
      unfold Control.hi at hhi
      rw [if_pos h12] at hhi
      exact div_lt_four (by omega)
    rw [heq, h12]
    exact Nat.add_lt_add_right hk 8

lemma eq_of_div_mod {k k' g : ℕ} (hdiv : k / g = k' / g)
    (hmod : k % g * 128 = k' % g * 128) : k = k' := by
  have hm : k % g = k' % g := by omega
  have h1 := Nat.div_add_mod k g
  have h₂ := Nat.div_add_mod k' g
  rw [hdiv, hm] at h1
  omega

lemma client_level (h : Geometry c q) {b : ℕ} (hb : c.blStartBucketId ≤ b) :
    (b < c.tlStartBucketId ∧ (c.getClientBucket b).1 < 4) ∨
      (c.tlStartBucketId ≤ b ∧ b < c.nextStartBucketId ∧
        4 ≤ (c.getClientBucket b).1 ∧ (c.getClientBucket b).1 < 8) ∨
      (c.nextStartBucketId ≤ b ∧ 8 ≤ (c.getClientBucket b).1) := by
  have ⟨_, _, _, hbl, htl, hnx, _⟩ := h
  rcases h.getClientBucket_eq b with ⟨hlt, heq⟩ | ⟨hge, hlt, heq⟩ | ⟨hge, heq⟩
  · rw [heq]
    exact .inl ⟨hlt, div_lt_four (by omega)⟩
  · have hk : (b - c.tlStartBucketId) / (2 * q) < 4 := div_lt_four (by omega)
    rw [heq]
    exact .inr (.inl ⟨hge, hlt, Nat.le_add_left .., by dsimp only; omega⟩)
  · rw [heq]
    exact .inr (.inr ⟨hge, Nat.le_add_left ..⟩)

/-- **Addresses are exact**: different ids of the table have different places. -/
lemma getClientBucket_inj (h : Geometry c q) {b b' : ℕ}
    (hb : c.blStartBucketId ≤ b) (hb' : c.blStartBucketId ≤ b')
    (heq : c.getClientBucket b = c.getClientBucket b') : b = b' := by
  have htl := h.tlStart
  have hnx := h.nextStart
  have hl := h.client_level hb
  have hl' := h.client_level hb'
  rw [heq] at hl
  rcases h.getClientBucket_eq b with ⟨hlt, e⟩ | ⟨hge, hlt, e⟩ | ⟨hge, e⟩ <;>
    rcases h.getClientBucket_eq b' with ⟨hlt', e'⟩ | ⟨hge', hlt', e'⟩ | ⟨hge', e'⟩
  case inl.inl =>
    rw [e, e', Prod.mk.injEq] at heq
    have := eq_of_div_mod heq.1 heq.2
    omega
  case inr.inl.inr.inl =>
    rw [e, e', Prod.mk.injEq] at heq
    have := eq_of_div_mod (add_right_cancel heq.1) heq.2
    omega
  case inr.inr.inr.inr =>
    rw [e, e', Prod.mk.injEq] at heq
    have := eq_of_div_mod (add_right_cancel heq.1) heq.2
    omega
  all_goals omega

lemma get4Buckets_spec (h : Geometry c q) (h1 h₂ : ℕ) : (c.get4Buckets h1 h₂).Nodup ∧
      ∀ b ∈ c.get4Buckets h1 h₂, c.blStartBucketId ≤ b ∧ b < c.nextStartBucketId := by
  have ⟨hpos, hcap, hadd, hbl, _, hnx, _⟩ := h
  have h4 : c.addrCapacity / 2 = 4 * q := by omega
  have h2 : c.addrCapacity / 4 = 2 * q := by omega
  have m1 := Nat.mod_lt h1 (show 0 < 4 * q by omega)
  have m2 := Nat.mod_lt h₂ (show 0 < 4 * q by omega)
  have m3 := Nat.mod_lt h1 (show 0 < 2 * q by omega)
  have m4 := Nat.mod_lt h₂ (show 0 < 2 * q by omega)
  unfold Control.get4Buckets
  rw [h4, h2]
  constructor
  · simp only [nodup_cons, mem_cons, not_mem_nil, or_false, not_or,
      not_false_eq_true, nodup_nil, and_true]
    omega
  · intro b hb
    simp only [mem_cons, not_mem_nil, or_false] at hb
    omega

lemma getExpandBucketIds_spec (h : Geometry c q) (h1 h₂ : ℕ) :
    c.nextStartBucketId ≤ (c.getExpandBucketIds h1 h₂).1 ∧
      (c.getExpandBucketIds h1 h₂).1 < (c.getExpandBucketIds h1 h₂).2 ∧
      (c.getExpandBucketIds h1 h₂).2 < c.nextStartBucketId + 2 * c.addrCapacity := by
  have ⟨hpos, _, hadd, _, htl, hnx, _⟩ := h
  have m1 := Nat.mod_lt h1 (show 0 < c.addrCapacity by omega)
  have m2 := Nat.mod_lt h₂ (show 0 < c.addrCapacity by omega)
  unfold Control.getExpandBucketIds
  omega

end Geometry

namespace Dpu

variable {K V : Type}

lemma init_geometry [Inhabited K] [Inhabited V] {level : ℕ} (h : 3 ≤ level) :
    Geometry (init level : Dpu K V).toControl (2 ^ (level - 3)) := by
  obtain ⟨k, rfl⟩ := Nat.exists_eq_add_of_le h
  have hpos : 1 ≤ 2 ^ k := Nat.one_le_two_pow
  have h₂ : 2 ^ (3 + k - 1) = 4 * 2 ^ k := by
    rw [show 3 + k - 1 = 2 + k by omega, Nat.pow_add]
  have h3 : 2 ^ (3 + k) = 8 * 2 ^ k := Nat.pow_add 2 3 k
  rw [Nat.add_sub_cancel_left]
  refine ⟨hpos, h₂, h3, ?_, ?_, ?_, Or.inl rfl⟩
  · show 2 ^ (3 + k - 1) - 4 + 4 = _
    omega
  · show 2 ^ (3 + k) - 4 + 4 = _
    omega
  · show 2 ^ (3 + k + 1) - 4 + 4 = _
    omega

/-- The bucket as the table has it: in the cache if it is there, else in host
memory. -/
def logical (s : Dpu K V) (b : ℕ) : Bucket K V :=
  match s.bucketTable b with
  | some f => s.cache f
  | none => s.host b

structure Coh (base lo : ℕ) (s : Dpu K V) : Prop where
  geometry : ∃ q, Geometry s.toControl q
  wf : s.replacer.WF
  partition : (s.replacer.frames ++ s.freeList).Perm (finRange 128)
  free : ∀ f ∈ s.freeList, s.bucketIds f = none
  held : ∀ f, f ∉ s.freeList → ∃ b, s.bucketIds f = some b ∧ s.bucketTable b = some f
  table : ∀ b f, s.bucketTable b = some f → s.bucketIds f = some b
  bound : ∀ b f, s.bucketTable b = some f → base ≤ b ∧ b < s.hi
  dirty : ∀ b f, s.bucketTable b = some f → s.dirtyFlag f = true → lo ≤ b
  clean : ∀ b f, s.bucketTable b = some f → s.dirtyFlag f = false → lo ≤ b → s.cache f = s.host b
  low : s.blStartBucketId ≤ lo
  base_le : base ≤ s.blStartBucketId

variable {base lo : ℕ} {s s' : Dpu K V} {f g : Frame} {b b' : ℕ} {x : Bucket K V}

lemma logical_of_table (h : s.bucketTable b = some f) : s.logical b = s.cache f := by
  unfold logical
  rw [h]

lemma logical_of_none (h : s.bucketTable b = none) : s.logical b = s.host b := by
  unfold logical
  rw [h]

/-! ## The free list and the replacer share out the frames -/

section Partition

variable {used free : List Frame}

lemma mem_used_iff (h : (used ++ free).Perm (finRange 128)) : f ∈ used ↔ f ∉ free := by
  have hnd : (used ++ free).Nodup := h.nodup_iff.mpr (nodup_finRange 128)
  constructor
  · intro hf hfr
    exact (nodup_append.mp hnd).2.2 f hf f hfr rfl
  · intro hfr
    rcases mem_append.mp (h.mem_iff.mpr (mem_finRange f)) with hf | hf
    · exact hf
    · exact absurd hf hfr

lemma length_used (h : (used ++ free).Perm (finRange 128)) (hfr : free = []) :
    used.length = 128 := by
  have hlen := h.length_eq
  rwa [hfr, append_nil, length_finRange] at hlen

/-- Frame `f` is taken from the free list, or it is the last one in use. -/
def TakesFrame (f : Frame) (used free used' free' : List Frame) : Prop :=
  (free = f :: free' ∧ used' = used) ∨ (free = [] ∧ free' = [] ∧ used = used' ++ [f])

variable {used' free' : List Frame}

lemma exists_takesFrame_iff : (∃ rest, TakesFrame f used free rest free' ∧ used' = f :: rest) ↔
    (free = f :: free' ∧ used' = f :: used) ∨
      (free = [] ∧ free' = [] ∧ ∃ rest, used = rest ++ [f] ∧ used' = f :: rest) := by
  constructor
  · rintro ⟨rest, ⟨hfr, rfl⟩ | ⟨hfr, hfr', hspl⟩, hus⟩
    · exact .inl ⟨hfr, hus⟩
    · exact .inr ⟨hfr, hfr', rest, hspl, hus⟩
  · rintro (⟨hfr, hus⟩ | ⟨hfr, hfr', rest, hspl, hus⟩)
    · exact ⟨used, .inl ⟨hfr, rfl⟩, hus⟩
    · exact ⟨rest, .inr ⟨hfr, hfr', hspl⟩, hus⟩

namespace TakesFrame

lemma partition (ht : TakesFrame f used free used' free')
    (h : (used ++ free).Perm (finRange 128)) : (f :: used' ++ free').Perm (finRange 128) := by
  refine Perm.trans ?_ h
  rcases ht with ⟨rfl, rfl⟩ | ⟨rfl, rfl, rfl⟩
  · exact perm_middle.symm
  · rw [append_nil, append_nil]
    exact (perm_append_singleton f used').symm

lemma not_mem (ht : TakesFrame f used free used' free')
    (h : (used ++ free).Perm (finRange 128)) : f ∉ used' ∧ f ∉ free' := by
  have hnd := (ht.partition h).nodup_iff.mpr (nodup_finRange 128)
  exact not_or.mp (mt mem_append.mpr (nodup_cons.mp hnd).1)

lemma mem_free_iff (ht : TakesFrame f used free used' free')
    (h : (used ++ free).Perm (finRange 128)) : g ∈ free' ↔ g ∈ free ∧ g ≠ f := by
  have hne : g ∈ free' → g ≠ f := by
    rintro hmem rfl
    exact (ht.not_mem h).2 hmem
  rcases ht with ⟨rfl, -⟩ | ⟨rfl, rfl, -⟩
  · rw [mem_cons]
    exact ⟨fun hmem => ⟨.inr hmem, hne hmem⟩, fun ⟨hmem, hgf⟩ => hmem.resolve_left hgf⟩
  · simp

lemma recent {k : ℕ} (ht : TakesFrame f used free used' free')
    (h : (used ++ free).Perm (finRange 128)) (hk : k ≤ 127) (hmem : g ∈ used.take k) :
    g ≠ f ∧ g ∈ used'.take k := by
  have hmem' : g ∈ used'.take k := by
    rcases ht with ⟨-, rfl⟩ | ⟨rfl, -, rfl⟩
    · exact hmem
    · have hlen := length_used h rfl
      rw [length_append, length_singleton] at hlen
      exact mem_take_of_append_singleton hmem (by omega)
  refine ⟨?_, hmem'⟩
  rintro rfl
  exact (ht.not_mem h).1 (mem_of_mem_take hmem')

end TakesFrame

end Partition

namespace Coh

lemma table_inj (h : Coh base lo s) (hb : s.bucketTable b = some f)
    (hb' : s.bucketTable b' = some f) : b = b' := by
  have h1 := h.table b f hb
  have h₂ := h.table b' f hb'
  rw [h1] at h₂
  exact some.inj h₂

lemma not_free (h : Coh base lo s) (hb : s.bucketTable b = some f) : f ∉ s.freeList := by
  intro hf
  have hids := h.table b f hb
  rw [h.free f hf] at hids
  cases hids

lemma mem_frames_iff (h : Coh base lo s) : f ∈ s.replacer.frames ↔ f ∉ s.freeList :=
  mem_used_iff h.partition

lemma table_of_ids (h : Coh base lo s) (hids : s.bucketIds f = some b) :
    s.bucketTable b = some f := by
  have hnot : f ∉ s.freeList := by
    intro hfr
    rw [h.free f hfr] at hids
    cases hids
  obtain ⟨c, hc, hct⟩ := h.held f hnot
  rw [hids] at hc
  rw [some.inj hc]
  exact hct

end Coh

lemma eraseBucket_eq_some {T : ℕ → Option Frame} {old : Option ℕ} :
    eraseBucket T old b = some f ↔ T b = some f ∧ old ≠ some b := by
  cases old with
  | none => exact (and_iff_left nofun).symm
  | some c =>
    by_cases hc : b = c
    · subst hc
      simp [eraseBucket]
    · simp [eraseBucket, update_of_ne hc, Ne.symm hc]

/-! ## Giving a frame to another bucket -/

/-- Frame `f` is taken from the free list or from its bucket, which is flushed
if it is dirty, and given to bucket `b` with contents `x`. -/
structure Refill (s : Dpu K V) (f : Frame) (b : ℕ) (x : Bucket K V)
    (s' : Dpu K V) : Prop where
  control : s'.toControl = s.toControl
  cache : s'.cache = update s.cache f x
  dirtyFlag : s'.dirtyFlag = update s.dirtyFlag f false
  bucketTable : s'.bucketTable = update (eraseBucket s.bucketTable (s.bucketIds f)) b (some f)
  bucketIds : s'.bucketIds = update s.bucketIds f (some b)
  wf : s'.replacer.WF
  lists : (s.freeList = f :: s'.freeList ∧ s'.replacer.frames = f :: s.replacer.frames) ∨
    (s.freeList = [] ∧ s'.freeList = [] ∧
      ∃ rest, s.replacer.frames = rest ++ [f] ∧ s'.replacer.frames = f :: rest)
  host : ∀ b', s.blStartBucketId ≤ b' → s'.host b'
    = if s.bucketIds f = some b' ∧ s.dirtyFlag f = true then s.cache f else s.host b'

namespace Refill

/-- The old bucket of the frame, if it had one, is in the table no more. -/
lemma table_cases (h : Coh base lo s) (hr : Refill s f b x s') (hb' : s'.bucketTable b' = some g) :
    (b' = b ∧ g = f) ∨ (b' ≠ b ∧ g ≠ f ∧ s.bucketTable b' = some g) := by
  rw [hr.bucketTable] at hb'
  by_cases hbb : b' = b
  · subst hbb
    rw [update_self] at hb'
    exact .inl ⟨rfl, (some.inj hb').symm⟩
  rw [update_of_ne hbb, eraseBucket_eq_some] at hb'
  refine .inr ⟨hbb, ?_, hb'.1⟩
  rintro rfl
  exact hb'.2 (h.table b' g hb'.1)

lemma table_of_ne (h : Coh base lo s) (hr : Refill s f b x s')
    (hb' : s.bucketTable b' = some g) (hbb : b' ≠ b) (hg : g ≠ f) :
    s'.bucketTable b' = some g := by
  rw [hr.bucketTable, update_of_ne hbb, eraseBucket_eq_some]
  exact ⟨hb', fun hids => hg (some.inj (hb'.symm.trans (h.table_of_ids hids)))⟩

lemma table_self (hr : Refill s f b x s') : s'.bucketTable b = some f := by
  rw [hr.bucketTable, update_self]

/-- A bucket that was not in the cache is not the one that was flushed. -/
lemma host_of_unmapped (h : Coh base lo s) (hr : Refill s f b x s')
    (hb' : s.blStartBucketId ≤ b') (hun : s.bucketTable b' = none) :
    s'.host b' = s.host b' := by
  rw [hr.host b' hb', if_neg]
  rintro ⟨hids, -⟩
  rw [h.table_of_ids hids] at hun
  cases hun

lemma takesFrame (hr : Refill s f b x s') :
    ∃ rest, TakesFrame f s.replacer.frames s.freeList rest s'.freeList ∧
      s'.replacer.frames = f :: rest :=
  exists_takesFrame_iff.mpr hr.lists

lemma coh (h : Coh base lo s) (hr : Refill s f b x s') (hun : s.bucketTable b = none)
    (hlo : s.blStartBucketId ≤ b) (hhi : b < s.hi) (hx : x = s.host b) :
    Coh base lo s' := by
  obtain ⟨q, hq⟩ := h.geometry
  obtain ⟨rest, ht, hfrs⟩ := hr.takesFrame
  refine ⟨⟨q, by rw [hr.control]; exact hq⟩, hr.wf,
    by rw [hfrs]; exact ht.partition h.partition, ?_, ?_, ?_, ?_, ?_, ?_,
    by rw [hr.control]; exact h.low, by rw [hr.control]; exact h.base_le⟩
  · intro g hg
    obtain ⟨hfr, hne⟩ := (ht.mem_free_iff h.partition).mp hg
    rw [hr.bucketIds, update_of_ne hne]
    exact h.free g hfr
  · intro g hg
    by_cases hgf : g = f
    · subst hgf
      exact ⟨b, by rw [hr.bucketIds, update_self], hr.table_self⟩
    · obtain ⟨c, hc, hct⟩ := h.held g fun hfr => hg ((ht.mem_free_iff h.partition).mpr ⟨hfr, hgf⟩)
      have hcb : c ≠ b := by
        rintro rfl
        rw [hun] at hct
        cases hct
      exact ⟨c, by rw [hr.bucketIds, update_of_ne hgf]; exact hc, hr.table_of_ne h hct hcb hgf⟩
  · intro c g hc
    rw [hr.bucketIds]
    rcases hr.table_cases h hc with ⟨rfl, rfl⟩ | ⟨-, hgf, hold⟩
    · exact update_self ..
    · rw [update_of_ne hgf]
      exact h.table c g hold
  · intro c g hc
    rw [hr.control]
    rcases hr.table_cases h hc with ⟨rfl, rfl⟩ | ⟨-, -, hold⟩
    · exact ⟨le_trans h.base_le hlo, hhi⟩
    · exact h.bound c g hold
  · intro c g hc hd
    rw [hr.dirtyFlag] at hd
    rcases hr.table_cases h hc with ⟨rfl, rfl⟩ | ⟨-, hgf, hold⟩
    · rw [update_self] at hd
      cases hd
    · rw [update_of_ne hgf] at hd
      exact h.dirty c g hold hd
  · intro c g hc hd hlc
    rw [hr.cache]
    rcases hr.table_cases h hc with ⟨rfl, rfl⟩ | ⟨-, hgf, hold⟩
    · rw [update_self, hr.host_of_unmapped h hlo hun]
      exact hx
    · rw [hr.dirtyFlag, update_of_ne hgf] at hd
      rw [update_of_ne hgf, h.clean c g hold hd hlc, hr.host c (le_trans h.low hlc), if_neg]
      rintro ⟨hids, -⟩
      exact hgf (some.inj (hold.symm.trans (h.table_of_ids hids)))

/-- **and leaves the logical table as it was.** -/
lemma logical_eq (h : Coh base lo s) (hr : Refill s f b x s')
    (hun : s.bucketTable b = none) (hlo : s.blStartBucketId ≤ b) (hx : x = s.host b)
    {c : ℕ} (hc : lo ≤ c) : s'.logical c = s.logical c := by
  have hcl : s.blStartBucketId ≤ c := le_trans h.low hc
  by_cases hcb : c = b
  · subst hcb
    rw [logical_of_table hr.table_self, hr.cache, update_self, logical_of_none hun, hx]
  cases hct : s.bucketTable c with
  | none =>
    have hno : s'.bucketTable c = none := by
      cases hc' : s'.bucketTable c with
      | none => rfl
      | some g =>
        rcases hr.table_cases h hc' with ⟨rfl, -⟩ | ⟨-, -, hold⟩
        · exact absurd rfl hcb
        · rw [hct] at hold
          cases hold
    rw [logical_of_none hno, logical_of_none hct, hr.host_of_unmapped h hcl hct]
  | some g =>
    by_cases hgf : g = f
    · -- the bucket that lost its frame is now read from host memory
      subst hgf
      have hids := h.table c g hct
      have hno : s'.bucketTable c = none := by
        cases hc' : s'.bucketTable c with
        | none => rfl
        | some g' =>
          rcases hr.table_cases h hc' with ⟨rfl, -⟩ | ⟨-, hne, hold⟩
          · exact absurd rfl hcb
          · rw [hct] at hold
            exact absurd (some.inj hold).symm hne
      rw [logical_of_none hno, logical_of_table hct, hr.host c hcl]
      cases hd : s.dirtyFlag g with
      | true => rw [if_pos ⟨hids, rfl⟩]
      | false =>
        rw [if_neg (by simp)]
        exact (h.clean c g hct hd hc).symm
    · rw [logical_of_table (hr.table_of_ne h hct hcb hgf), logical_of_table hct,
        hr.cache, update_of_ne hgf]

end Refill

end Dpu

end Librdpma.LevelKv
