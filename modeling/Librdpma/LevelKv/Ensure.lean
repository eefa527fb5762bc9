import Librdpma.LevelKv.Displacement

/-!
# `ENSURE` with and without its argument

`ENSURE(cond, msg)` is defined as nothing; the definition beside it, commented
out, evaluates `cond`. Two of the conditions are calls of `InsertSlot`: the
insertion after a move in `ProcessInsert`, and the one in `splitBucket`. On a
coherent state the two definitions leave the same memory exactly if neither is
reached: an insertion moves no occupant, and an expansion finds no bottom pair.
-/

namespace Librdpma.LevelKv.Dpu

open Lib List Outcome Function

variable {K V : Type} {env : Env K} {base : ℕ} {s t : Dpu K V} {x : K × V}

/-- Cache contents, dirty flags, bucket table and host memory are the same. -/
structure SameMemory (s t : Dpu K V) : Prop where
  cache : s.cache = t.cache
  dirtyFlag : s.dirtyFlag = t.dirtyFlag
  bucketTable : s.bucketTable = t.bucketTable
  host : s.dmaClient = t.dmaClient

lemma SameMemory.refl (s : Dpu K V) : SameMemory s s := ⟨rfl, rfl, rfl, rfl⟩

lemma SameMemory.logical (h : SameMemory s t) (hctl : s.toControl = t.toControl) :
    s.logical = t.logical := by
  ext1 b
  unfold Dpu.logical Dpu.host
  rw [h.bucketTable, h.cache, h.host, hctl]

/-! ## An insertion below the load limit -/

section Expand

variable [Inhabited K] [Inhabited V]

omit [Inhabited K] [Inhabited V] in
lemma SplitsKeep.withEnsure {r bs : List ℕ} (h : SplitsKeep env s r bs) (e : Bool) :
    SplitsKeep (env.withEnsure e) s r bs := by
  induction bs generalizing r with
  | nil => trivial
  | cons b bs ih => exact ⟨h.1, ih h.2⟩

omit [Inhabited K] [Inhabited V] in
/-- After a move the four buckets of the new key are full again. -/
lemma DisplacedFor.full {frame : ℕ → Frame} {b c : ℕ} {t : Bool → Dpu K V}
    (h0 : Coh base s.blStartBucketId s)
    (hfu : ∀ c ∈ s.buckets env x.1, (s.logical c).freeSlot = none)
    (hb : b ∈ s.buckets env x.1) (h : DisplacedFor env base s frame x b t)
    (hc : c ∈ s.buckets env x.1) :
    (t true).toControl = s.toControl ∧ ((t true).logical c).freeSlot = none := by
  obtain ⟨t0, z, hdisp, hz, rfl⟩ := h
  obtain ⟨slot, hca⟩ := hdisp.cache_eq hb (buckets_range h0 x.1 hb).1
  rw [hca] at hz
  obtain @⟨s1, sl, d, g, y, hpr, -, -, hg, hy⟩ := hdisp
  refine ⟨hpr.control, ?_⟩
  have hct := (hpr.stays c hc).1
  simp only [if_true]
  rw [logical_of_table (s := ((s1.write g y true).clearToken (frame b) sl).write (frame b) z true)
    hct]
  by_cases hcb : c = b
  · subst hcb
    have hz' := congrArg Multiset.card (Bucket.contents_insertSlot hz)
    have hcl := congrArg Multiset.card
      (Bucket.contents_clearToken (Bucket.freeSlot_none (hfu c hc) slot))
    rw [Multiset.card_cons, Bucket.card_contents] at hz' hcl
    rw [← hcl, Bucket.freeSlot_eq_none_iff.mp (hfu c hc)] at hz'
    simp only [Bucket.freeSlot_eq_none_iff, write, update_self]
    exact hz'
  · have hfb : frame c ≠ frame b := fun heq =>
      hcb (hpr.coh.table_inj (heq ▸ hct) (hpr.stays b hb).1)
    have hfg : frame c ≠ g := by
      rintro rfl
      rw [hpr.coh.table_inj hg hct, Bucket.insertSlot_none.mpr (hfu c hc)] at hy
      cases hy
    rw [← hfu c hc, ← hpr.cache_eq hc (buckets_range h0 x.1 hc).1]
    exact congrArg Bucket.freeSlot ((update_of_ne hfb ..).trans
      ((update_of_ne hfb ..).trans (update_of_ne hfg ..)))

end Expand

end Librdpma.LevelKv.Dpu
