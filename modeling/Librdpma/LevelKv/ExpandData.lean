import Librdpma.LevelKv.Expansion

/-!
# The stored data across an expansion

With an `ENSURE` that evaluates its argument, `Expand` copies every bottom pair
to the new level. The data survives if every bottom bucket is still cached when
its split ends. Otherwise the frame has been given to a bucket of the new level
in the meantime, and the dirty flag that is cleared at the end of the split is
that of the new bucket: its pairs are dropped when the frame is taken next.
-/

namespace Librdpma.LevelKv.Dpu

open Lib List

section General

variable {K V : Type} [Inhabited K] [Inhabited V]

/-- **`Expand` keeps the stored data** if its splits keep their frames: when no
check fails it returns with the same pairs, every clean frame of a live bucket
equals host memory, and a frame that was dirty is dirty still or was flushed. -/
theorem expand_keeps_data (env : Env K) (hens : env.ensure = true) (hdma : ∀ i, env.dma i = true)
    (s : Dpu K V) (h : Coh 0 s.blStartBucketId s) (h8 : s.clients = 8)
    (hkeep : SplitsKeep env s s.recency s.bottomIds) (hcheck : s.expand env ≠ .exit) :
    ∃ s', s.expand env = .done s' ∧ s'.pairs = s.pairs ∧
      (∀ b f, s'.blStartBucketId ≤ b → s'.bucketTable b = some f →
        s'.dirtyFlag f = false → s'.cache f = s'.host b) ∧
      ∀ b f, s'.blStartBucketId ≤ b → s.bucketTable b = some f → s.dirtyFlag f = true →
        (∃ g, s'.bucketTable b = some g ∧ s'.dirtyFlag g = true) ∨ s'.host b = s.cache f := by
  obtain ⟨q, hq⟩ := h.geometry
  obtain ⟨s', hrun, hs'⟩ := (expand_sat hdma h h8 hkeep).exists_done fun _ => hcheck
  rw [inserted, hens, if_pos rfl] at hs'
  refine ⟨s', hrun, hs'.pairs_eq hq, fun b f hlo hbt hd => hs'.coh.clean b f hbt hd hlo, ?_⟩
  intro b f hlo hbt _
  have hnx : b < s.nextStartBucketId := by
    have hhi := (h.bound b f hbt).2
    unfold Control.hi at hhi
    rwa [if_neg (by rw [h8]; decide)] at hhi
  have hlog : s'.logical b = s.cache f := by
    rw [hs'.top b (by rw [← hs'.blStart]; exact hlo) hnx, logical_of_table hbt]
  cases hbt' : s'.bucketTable b with
  | none =>
    rw [logical_of_none hbt'] at hlog
    exact .inr hlog
  | some g =>
    rw [logical_of_table hbt'] at hlog
    cases hd : s'.dirtyFlag g with
    | true => exact .inl ⟨g, rfl, hd⟩
    | false => exact .inr ((hs'.coh.clean b g hbt' hd hlo).symm.trans hlog)

end General

/-! ## A pair that is copied and a pair that is lost -/

/-- The bucket with the one pair of keys 0 and value 1. -/
def onePair : Bucket FixedKey FixedValue :=
  Bucket.zero.setSlot 0 (byteKey 0, byteValue 1)

/-- A table of level 3 with a pair in its first bottom bucket, in host memory. -/
def pairInHost : Dpu FixedKey FixedValue :=
  { (init 3 : Dpu FixedKey FixedValue) with
    dmaClient := fun client offset =>
      if client = 0 ∧ offset = 0 then onePair else Bucket.zero }

theorem expand_keeps_pairInHost :
    ∃ s', pairInHost.expand (byteEnv true) = .done s' ∧ s'.pairs = pairInHost.pairs := by
  have h := init_coh (K := FixedKey) (V := FixedValue) (show 3 ≤ 3 by decide)
  have hcoh : Coh 0 pairInHost.blStartBucketId pairInHost :=
    ⟨h.geometry, h.wf, h.partition, h.free, h.held, h.table,
      fun b f hb => ⟨Nat.zero_le b, (h.bound b f hb).2⟩, h.dirty,
      fun b f hb => absurd hb (by simp [pairInHost, init]), le_refl _, Nat.zero_le _⟩
  obtain ⟨t, hdn, -⟩ : ∃ t, pairInHost.expand (byteEnv true) = .done t ∧ True := by
    decide +kernel
  obtain ⟨s', hrun, hprs, -⟩ := expand_keeps_data (byteEnv true) rfl (fun _ => rfl)
    pairInHost hcoh rfl
    ⟨by decide +kernel, by decide +kernel, by decide +kernel, by decide +kernel, trivial⟩
    (fun hex => by cases hdn.symm.trans hex)
  exact ⟨s', hrun, hprs⟩

/-- A table of level 8 with a full cache: bucket 124 of the bottom level, which
holds the only pair, is in the frame that was not used for the longest time,
and 127 empty top buckets are in the others. -/
def pairInLastFrame : Dpu FixedKey FixedValue :=
  { (init 8 : Dpu FixedKey FixedValue) with
    cache := fun frame => if frame = 127 then onePair else Bucket.zero
    dirtyFlag := fun frame => decide (frame = 127)
    bucketTable := fun b =>
      if b = 124 then some 127
      else if 252 ≤ b ∧ b < 379 then some (Fin.ofNat 128 (b - 252))
      else none
    bucketIds := fun frame => if frame = 127 then some 124 else some (252 + frame.val)
    replacer :=
      ⟨(finRange 128).map fun frame => (frame.val, frame), fun frame => some frame.val, 128⟩
    freeList := [] }

lemma pairInLastFrame_table {b : ℕ} {f : Frame} (h : pairInLastFrame.bucketTable b = some f) :
    (b = 124 ∧ f = 127) ∨ (252 ≤ b ∧ b < 379 ∧ f.val = b - 252 ∧ f ≠ 127) := by
  change (if b = 124 then some (127 : Frame)
    else if 252 ≤ b ∧ b < 379 then some (Fin.ofNat 128 (b - 252)) else none) = some f at h
  split at h
  · exact .inl ⟨‹_›, (Option.some.inj h).symm⟩
  · split at h
    · have hval : f.val = b - 252 := by
        rw [← Option.some.inj h]
        exact Nat.mod_eq_of_lt (by omega)
      refine .inr ⟨by omega, by omega, hval, ?_⟩
      rintro rfl
      omega
    · cases h

lemma pairInLastFrame_ids {f : Frame} (hf : f ≠ 127) :
    pairInLastFrame.bucketIds f = some (252 + f.val) := if_neg hf

lemma pairInLastFrame_frames : pairInLastFrame.replacer.frames = finRange 128 := by
  show ((finRange 128).map fun frame : Frame => (frame.val, frame)).map Prod.snd = _
  rw [map_map]
  exact map_id _

lemma pairInLastFrame_wf : pairInLastFrame.replacer.WF := by
  constructor
  · rw [pairInLastFrame_frames]
    exact nodup_finRange 128
  · show (((finRange 128).map fun frame : Frame => (frame.val, frame)).map Prod.fst).Nodup
    rw [map_map]
    exact (nodup_finRange 128).map Fin.val_injective
  · intro f node
    show some f.val = some node ↔
      (node, f) ∈ (finRange 128).map fun frame : Frame => (frame.val, frame)
    constructor
    · intro h
      exact mem_map.mpr ⟨f, mem_finRange f, by rw [Option.some.inj h]⟩
    · intro h
      obtain ⟨g, -, hg⟩ := mem_map.mp h
      obtain ⟨hval, rfl⟩ := Prod.mk.inj hg
      rw [hval]
  · intro x hx
    obtain ⟨g, -, rfl⟩ := mem_map.mp hx
    exact g.isLt

lemma pairInLastFrame_coh : Coh 0 124 pairInLastFrame := by
  refine ⟨⟨_, init_geometry (K := FixedKey) (V := FixedValue) (show 3 ≤ 8 by decide)⟩,
    pairInLastFrame_wf, ?_, fun f hf => absurd hf not_mem_nil, ?_, ?_, ?_, ?_, ?_,
    by decide, Nat.zero_le _⟩
  · rw [pairInLastFrame_frames]
    exact Perm.of_eq (append_nil _)
  · intro f _
    by_cases hf : f = 127
    · subst hf
      exact ⟨124, rfl, rfl⟩
    · refine ⟨252 + f.val, pairInLastFrame_ids hf, ?_⟩
      have hlt : f.val < 127 := by
        have hne : f.val ≠ 127 := fun h => hf (Fin.ext h)
        omega
      show (if 252 + f.val = 124 then some (127 : Frame)
        else if 252 ≤ 252 + f.val ∧ 252 + f.val < 379 then
          some (Fin.ofNat 128 (252 + f.val - 252)) else none) = some f
      rw [if_neg (by omega), if_pos (by omega), Nat.add_sub_cancel_left]
      exact congrArg some (Fin.ext (Nat.mod_eq_of_lt f.isLt))
  · intro b f hb
    rcases pairInLastFrame_table hb with ⟨rfl, rfl⟩ | ⟨hlo, hhi, hval, hne⟩
    · rfl
    · rw [pairInLastFrame_ids hne, hval]
      exact congrArg some (by omega)
  · intro b f hb
    have hhi : pairInLastFrame.hi = 508 := by decide
    rw [hhi]
    rcases pairInLastFrame_table hb with ⟨rfl, rfl⟩ | ⟨hlo, hlt, -, -⟩
    · omega
    · omega
  · intro b f hb _
    rcases pairInLastFrame_table hb with ⟨rfl, -⟩ | ⟨hlo, -⟩
    · exact le_refl _
    · omega
  · intro b f hb hd _
    rcases pairInLastFrame_table hb with ⟨rfl, rfl⟩ | ⟨-, -, -, hne⟩
    · cases hd
    · exact if_neg hne

/-- The split of bucket 124 gives its own frame to bucket 508 of the new level
and inserts the pair there; the dirty flag is cleared at the end of the split.
The 127 other bottom buckets are fetched, the last of them into that frame. -/
theorem expand_loses_pair :
    Coh 0 124 pairInLastFrame ∧ ∃ s', pairInLastFrame.expand (byteEnv true) = .done s' ∧
      pairInLastFrame.pairs ≠ 0 ∧ s'.pairs = 0 := by
  have hnil : ∀ x : Bucket FixedKey FixedValue, x.count = 0 → x.contents = 0 := by
    intro x hx
    rw [← Multiset.card_eq_zero, Bucket.card_contents]
    exact hx
  -- neither a frame nor host memory holds a pair of the new table
  obtain ⟨s', hdn, hca, hhs⟩ : ∃ s', pairInLastFrame.expand (byteEnv true) = .done s' ∧
      (∀ f ∈ finRange 128, (s'.cache f).count = 0) ∧
      ∀ b ∈ range' s'.blStartBucketId (s'.nextStartBucketId - s'.blStartBucketId),
        (s'.host b).count = 0 := by
    decide +kernel
  refine ⟨pairInLastFrame_coh, s', hdn, ?_, ?_⟩
  · refine pairs_ne_zero (b := 124) (x := (byteKey 0, byteValue 1)) (by decide) (by decide) ?_
    rw [logical_of_table (s := pairInLastFrame) (b := 124) (f := 127) rfl]
    exact Bucket.contents_setSlot (b := Bucket.zero) rfl _
  · unfold pairs Bucket.pairsOn
    refine Finset.sum_eq_zero fun b hb => ?_
    have hr := Finset.mem_Ico.mp hb
    cases hbt : s'.bucketTable b with
    | some f =>
      rw [logical_of_table hbt]
      exact hnil _ (hca f (mem_finRange f))
    | none =>
      rw [logical_of_none hbt]
      exact hnil _ (hhs b (mem_range'_1.mpr (by omega)))

end Librdpma.LevelKv.Dpu
