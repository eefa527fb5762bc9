import Librdpma.LevelKv.LoadCount
import Librdpma.LevelKv.Service

/-!
# `ProcessInsert` with its moves

With `ENSURE` evaluating its argument, an insertion that moves an occupant is
three writes: the occupant is inserted into another of its top buckets, its old
slot is cleared, and the new pair takes a free slot of that bucket. Each write
keeps the cache coherent and every pair in a candidate bucket of its key.
-/

namespace Librdpma.LevelKv.Dpu

open Lib Function

variable {K V : Type} {env : Env K} {base : ℕ} {s s' : Dpu K V} {f : Frame} {b : ℕ}

/-- A coherent state in which every stored key is in one of its `Get4Buckets`
buckets. -/
structure Tabled (env : Env K) (base : ℕ) (s : Dpu K V) : Prop where
  coh : Coh base s.blStartBucketId s
  placed : AtCandidates (fun key (p : ℕ × Fin 4) => p.1 ∈ s.buckets env key) s.items

/-! ## Writes -/

lemma Becomes.atCandidates {table : ℕ → Bucket K V} {n : ℕ} (h : Becomes base s table n s')
    (hat : AtCandidates (fun key (p : ℕ × Fin 4) => p.1 ∈ s.buckets env key) s'.items) :
    Tabled env base s' := by
  refine ⟨h.coherent, ⟨fun hp => ?_⟩⟩
  rw [h.buckets]
  exact hat.placed hp

lemma Tabled.same (h : Tabled env base s) (hbec : Becomes base s s.logical 0 s') :
    Tabled env base s' ∧ s'.pairs = s.pairs := by
  refine ⟨hbec.atCandidates ?_, hbec.pairs⟩
  rw [hbec.items_same]
  exact h.placed

lemma Tabled.insert {x : K × V} {y : Bucket K V} (h : Tabled env base s)
    (hmem : b ∈ s.buckets env x.1) (hb : s.bucketTable b = some f)
    (hy : (s.logical b).insertSlot x.1 x.2 = some y) :
    Tabled env base (s.write f y true) ∧ (s.write f y true).pairs = x ::ₘ s.pairs := by
  have hr := buckets_range h.coh x.1 hmem
  have hbec := Becomes.write (Served.refl h.coh) hb hr.1 y
  obtain ⟨i, -, rfl⟩ := Bucket.insertSlot_some hy
  constructor
  · refine hbec.atCandidates ?_
    rw [hbec.items_update ⟨hr.1, hr.2.1⟩ (Bucket.item_setSlot ..)]
    exact h.placed.update hmem
  · rw [hbec.pairs]
    exact Bucket.pairsOn_update (Finset.mem_Ico.mpr ⟨hr.1, hr.2.1⟩) (Bucket.contents_insertSlot hy)

lemma Tabled.erase {i : Fin 4} (h : Tabled env base s)
    (hr : s.blStartBucketId ≤ b ∧ b < s.nextStartBucketId) (hb : s.bucketTable b = some f)
    (hi : (s.logical b).token i = true) :
    Tabled env base (s.write f ((s.logical b).clearToken i) true) ∧
      s.pairs = (s.logical b).slots i ::ₘ (s.write f ((s.logical b).clearToken i) true).pairs := by
  have hbec := Becomes.write (Served.refl h.coh) hb hr.1 ((s.logical b).clearToken i)
  constructor
  · refine hbec.atCandidates ?_
    rw [hbec.items_update hr (Bucket.item_clearToken ..)]
    exact h.placed.erase _
  · rw [hbec.pairs]
    exact Bucket.pairsOn_update_erase (Finset.mem_Ico.mpr hr) (Bucket.contents_clearToken hi)

/-! ## A displaced pair -/

/-- After a displacement the new pair is inserted into the source bucket. -/
lemma DisplacedFor.tabled {s0 : Dpu K V} {t : Bool → Dpu K V} {frame : ℕ → Frame} {x : K × V}
    (h0 : Tabled env base s0) (hb : b ∈ s0.buckets env x.1) (hfu : (s0.logical b).freeSlot = none)
    (h : DisplacedFor env base s0 frame x b t) :
    Tabled env base (t true) ∧ (t true).pairs = x ::ₘ s0.pairs := by
  obtain ⟨-, z, @⟨s, slot, d, g, y, hpr, hmem, hne, hg, hy⟩, hz, rfl⟩ := h
  have hbec := hpr.becomes
  obtain ⟨hs, hprs⟩ := h0.same hbec
  have hr := buckets_range h0.coh x.1 hb
  have hrd := buckets_range h0.coh _ (List.mem_of_mem_take hmem)
  have hbt := (hpr.stays b hb).1
  have hfg : frame b ≠ g := by
    rintro rfl
    exact hne (hpr.coh.table_inj hg hbt)
  -- the occupant goes to its other bucket
  obtain ⟨h1, hprs1⟩ := hs.insert (x := (s0.logical b).slots slot)
    (by rw [hbec.buckets]; exact List.mem_of_mem_take hmem) hg
    (by rw [hpr.logical d hrd.1]; exact hy)
  have hlog1 : (s.write g y true).logical b = s0.logical b := by
    rw [logical_write hpr.coh hg, update_of_ne hne.symm, hpr.logical b hr.1]
  -- its old slot is cleared
  obtain ⟨h2, hprs2⟩ := h1.erase (i := slot) (f := frame b)
    (by
      show s.blStartBucketId ≤ b ∧ b < s.nextStartBucketId
      rw [hpr.control]
      exact ⟨hr.1, hr.2.1⟩)
    hbt (by rw [hlog1]; exact Bucket.freeSlot_none hfu slot)
  rw [hlog1] at h2 hprs2
  -- and the new pair is inserted there
  have hlog2 : ((s.write g y true).write (frame b) ((s0.logical b).clearToken slot) true).logical b
      = (s0.logical b).clearToken slot := by
    rw [logical_write h1.coh hbt, update_self]
  have hca : ((s.write g y true).clearToken (frame b) slot).cache (frame b)
      = (s0.logical b).clearToken slot := by
    rw [← hpr.cache_eq hb hr.1]
    exact (update_self ..).trans (congrArg (Bucket.clearToken · slot) (update_of_ne hfg ..))
  rw [hca] at hz
  obtain ⟨h3, hprs3⟩ := h2.insert (x := x) (y := z)
    (by
      rw [show Dpu.buckets env ((s.write g y true).write (frame b)
        ((s0.logical b).clearToken slot) true) x.1 = s.buckets env x.1 from rfl, hbec.buckets]
      exact hb)
    hbt (by rw [hlog2]; exact hz)
  have hfin : ((s.write g y true).clearToken (frame b) slot).write (frame b) z true
      = ((s.write g y true).write (frame b)
        ((s0.logical b).clearToken slot) true).write (frame b) z true := by
    unfold write Dpu.clearToken
    simp only [update_idem]
  simp only [if_true, hfin]
  refine ⟨h3, ?_⟩
  rw [hprs3, ← hprs, Multiset.cons_inj_right]
  rw [hprs1] at hprs2
  exact ((Multiset.cons_inj_right _).mp hprs2).symm

/-! ## `ProcessInsert` -/

lemma Tabled.insertNoExpand (hens : env.ensure = true) (hdma : ∀ i, env.dma i = true)
    (h : Tabled env base s) (x : K × V) :
    ∃ r s', s.insertNoExpand env x = .done (r, s') ∧ Tabled env base s' ∧
      s'.pairs = if r then x ::ₘ s.pairs else s.pairs := by
  rcases insertNoExpand_cases hdma h.coh x with
    ⟨M, hM, b, hb, f, y, hbt, hins, hrun⟩ |
    ⟨hfu, frame, ⟨b, hb, t, hdisp, hrun⟩ | ⟨t, hpr, -, hrun⟩⟩
  · have hbec := Becomes.of_served hM
    obtain ⟨hM', hprs⟩ := h.same hbec
    obtain ⟨hs', hprs'⟩ := hM'.insert (by rw [hbec.buckets]; exact hb) hbt
      (by rw [hM.logical b (buckets_range h.coh x.1 hb).1]; exact hins)
    exact ⟨true, _, hrun env.ensure, hs', by rw [hprs', hprs]; rfl⟩
  · refine ⟨true, t env.ensure, hrun env.ensure, ?_⟩
    rw [hens]
    exact hdisp.tabled h hb (hfu b hb)
  · exact ⟨false, t, hrun env.ensure, h.same hpr.becomes⟩

/-- **`ProcessInsert` is correct** below the load limit, when `ENSURE` evaluates its
argument and every DMA succeeds: it returns; `true` means that the stored pairs have
gained the new one, `false` that they are the same; the cache is coherent and every
stored key in one of its four buckets. -/
theorem processInsert_correct [Inhabited K] [Inhabited V] (env : Env K)
    (hens : env.ensure = true) (hdma : ∀ i, env.dma i = true) (base : ℕ) (s : Dpu K V)
    (h : Tabled env base s) (hload : s.overloaded env = false) (x : K × V) :
    ∃ r s', s.processInsert env x = .done (r, s') ∧ Tabled env base s' ∧
      s'.pairs = if r then x ::ₘ s.pairs else s.pairs := by
  rw [processInsert_of_not_overloaded hload]
  exact h.insertNoExpand hens hdma x

/-- Inserts the pairs of a list one after the other, below the load limit. -/
def insertAll [DecidableEq K] [Inhabited K] [Inhabited V] (env : Env K) (s : Dpu K V)
    (l : List (K × V)) : Outcome (Dpu K V) :=
  l.foldlM (fun s x => if s.overloaded env then .exit
    else s.handle env (.insert x.1 x.2) >>= fun r => .done r.2) s

lemma Tabled.size (h : Tabled env base s) (n : ℕ) :
    Tabled env base { s with size := s.size + n } :=
  ⟨((Becomes.of_served (Served.refl h.coh)).size (n := n)).coherent, h.placed⟩

lemma Tabled.insertAll [DecidableEq K] [Inhabited K] [Inhabited V] (hens : env.ensure = true)
    (hdma : ∀ i, env.dma i = true) {l : List (K × V)} (h : Tabled env base s)
    (hrun : s.insertAll env l = .done s') : Tabled env base s' := by
  induction l generalizing s with
  | nil =>
    cases hrun
    exact h
  | cons x l ih =>
    unfold Dpu.insertAll at hrun
    rw [List.foldlM_cons] at hrun
    obtain ⟨t, ht, hrun⟩ := Outcome.bind_eq_done.mp hrun
    split at ht
    · cases ht
    rename_i hov
    obtain ⟨r, s1, hins, hs1, -⟩ := h.insertNoExpand hens hdma x
    rw [handle, processInsert_of_not_overloaded (Bool.eq_false_iff.mpr hov), hins] at ht
    refine ih ?_ hrun
    cases r with
    | false =>
      cases ht
      exact hs1
    | true =>
      cases ht
      exact hs1.size 1

lemma init_tabled [DecidableEq K] [Inhabited K] [Inhabited V] (env : Env K) {level : ℕ}
    (hlev : 3 ≤ level) : Tabled env (2 ^ (level - 1) - 4) (init level : Dpu K V) :=
  ⟨init_coh hlev, ⟨(init_represents env level).placed⟩⟩

/-- A key with the given first two bytes. -/
def twoByteKey (i j : ℕ) : FixedKey := memcpy 16 [UInt8.ofNat i, UInt8.ofNat j]

/-- Pairs with one key. -/
def repeated (n i j : ℕ) : List (FixedKey × FixedValue) :=
  (List.range n).map fun v => (twoByteKey i j, byteValue v)

/-- As `byteEnv`, with the second byte of the key as its second hash. -/
def twoByteEnv : Env FixedKey :=
  { byteEnv true with hash2 := fun key => (key.get 1).toNat }

/-- The four buckets of the key are full, and a pair of bucket 4 moves to bucket 11. -/
theorem processInsert_correct_moves : ∃ s s' : Dpu FixedKey FixedValue,
    (∀ b ∈ s.buckets twoByteEnv (twoByteKey 0 0), (s.logical b).count = 4) ∧
      s.processInsert twoByteEnv (twoByteKey 0 0, byteValue 8) = .done (true, s') ∧
      Tabled twoByteEnv 0 s' ∧ s'.pairs = (twoByteKey 0 0, byteValue 8) ::ₘ s.pairs := by
  obtain ⟨s, hdn, hov, hfu, t, ht, hfst⟩ : ∃ s, (init 3 : Dpu FixedKey FixedValue).insertAll
      twoByteEnv (repeated 7 0 3 ++ repeated 8 3 0 ++ repeated 8 0 0) = .done s ∧
        s.overloaded twoByteEnv = false ∧
        (∀ b ∈ s.buckets twoByteEnv (twoByteKey 0 0), (s.logical b).count = 4) ∧
        ∃ t, s.processInsert twoByteEnv (twoByteKey 0 0, byteValue 8) = .done t ∧
          t.1 = true := by
    decide +kernel
  have hs : Tabled twoByteEnv 0 s := (init_tabled twoByteEnv (le_refl 3)).insertAll rfl
    (fun _ => rfl) hdn
  obtain ⟨r, s', hr, hs', hprs⟩ := processInsert_correct twoByteEnv rfl (fun _ => rfl) 0 s hs hov
    (twoByteKey 0 0, byteValue 8)
  cases hr.symm.trans ht
  subst hfst
  exact ⟨s, s', hfu, hr, hs', hprs⟩

end Librdpma.LevelKv.Dpu
