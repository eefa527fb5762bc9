import Librdpma.LevelKv.Agreement

/-!
# Where the DMA of a bucket goes

The clients of the DPU have imported the parts of the host's arrays in order, so
the client and the offset of a bucket are those of the bucket of the same number
in the array of its level. This holds from the constructor on. Both `Expand`
functions end in statements that rename the levels one variable after the other;
neither side uses an address there, and these statements are taken as executed.
-/

namespace Librdpma.LevelKv.Handshake

open Lib

variable {p : Setup} {k : ℕ}

/-! ## The two tables -/

/-- The number of levels: while buckets are split there is the new one. -/
def DpuSide.levels (d : DpuSide) : ℕ := if d.pc = .split then 3 else 2

/-- The DPU's table, with the statements after the splits taken as executed. -/
def DpuSide.table (d : DpuSide) : DpuVars :=
  match d.pc with
  | .finish rest => finished rest d.vars
  | _ => d.vars

/-- The DPU has left the splits behind and waits for the host. -/
def DpuSide.leftSplits (d : DpuSide) : Bool :=
  match d.pc with
  | .finish _ => true
  | .await => true
  | _ => false

/-- The host's table. An expansion counts from when the host has left its loop or
the DPU has left the splits (`left`). -/
def HostSide.table (h : HostSide) (left : Bool) : HostVars :=
  match h.expands with
  | [] => h.vars
  | (e, .settle rest) :: _ => settled rest e h.vars
  | (e, _) :: _ => if left || !h.vars.inRehash then settled afterRehash e h.vars else h.vars

/-- The host's array for a level of the DPU. -/
def Sys.levelArray (s : Sys) : ℕ → Option ℕ
  | 0 => some (s.host.table s.dpu.leftSplits).buckets1
  | 1 => some (s.host.table s.dpu.leftSplits).buckets0
  | _ => s.host.expands.head?.map (fun e => e.1.newMem)

/-- The bucket ids in use. -/
def DpuSide.Live (d : DpuSide) (bucket : ℕ) : Prop :=
  ∃ i x, i < d.levels ∧ x < d.table.levelCapacity i ∧ bucket = d.table.levelStart i + x

/-- The two sides after `k` expansions. -/
structure Located (p : Setup) (k : ℕ) (s : Sys) : Prop where
  at_k : DpuAt p k s.dpu.table
  clients : Fronted p k s.dpu.levels s.dpu.table
  serves : ∀ i < s.dpu.levels, ∀ r ∈ p.parts (k + i), s.host.Serves r
  arrays : ∀ i < s.dpu.levels, s.levelArray i = some (k + i)

/-! ## The phases -/

section Hosts

variable {h : HostSide} {d : DpuSide} {toHost toDpu : List ComchMsg}

lemma HostIdle.located (hid : HostIdle p k h) (hat : DpuAt p k d.table)
    (hfrt : Fronted p k 2 d.table) (hpc : d.pc ≠ .split) :
    Located p k ⟨h, d, toHost, toDpu⟩ := by
  have hlev : d.levels = 2 := if_neg hpc
  have htab : HostAt p k (k + 2) (h.table d.leftSplits) := by
    cases hid with
    | run hv | settling hv => exact hv
    | leaving hre hv =>
      unfold HostSide.table
      rw [hre, Bool.not_false, Bool.or_true]
      exact hv
  refine ⟨hat, hlev ▸ hfrt, ?_, ?_⟩
  · intro i hi r hr
    change i < d.levels at hi
    exact hid.serves (by omega) hr
  · intro i hi
    change i < d.levels at hi
    obtain rfl | rfl : i = 0 ∨ i = 1 := by omega
    · exact congrArg some htab.bottom
    · exact congrArg some htab.top

variable {unsent : List Region}

/-- During an expansion of the host the DPU has the old levels, the old and the new
one, or already the new ones. -/
lemma HostExports.located (hexp : HostExports p k unsent h) (hov : d.leftSplits = false)
    (hat : DpuAt p k d.table) (hfrt : Fronted p k d.levels d.table) :
    Located p k ⟨h, d, toHost, toDpu⟩ := by
  have hlev : d.levels ≤ 3 := by
    unfold DpuSide.levels
    split <;> omega
  have htab : HostAt p k (k + 3) (h.table d.leftSplits) ∧
      h.expands.head?.map (fun e => e.1.newMem) = some (k + 2) := by
    cases hexp with
    | sending hre hv | rehashing hre hv =>
      unfold HostSide.table
      rw [hre, hov, Bool.not_true, Bool.or_false]
      exact ⟨hv, rfl⟩
  refine ⟨hat, hfrt, ?_, ?_⟩
  · intro i hi r hr
    change i < d.levels at hi
    exact hexp.serves (by omega) hr
  · intro i hi
    change i < d.levels at hi
    obtain rfl | rfl | rfl : i = 0 ∨ i = 1 ∨ i = 2 := by omega
    · exact congrArg some htab.1.bottom
    · exact congrArg some htab.1.top
    · exact htab.2

lemma HostExports.located_over (hexp : HostExports p k unsent h) (hov : d.leftSplits = true)
    (hpc : d.pc ≠ .split) (hrdy : DpuReady p (k + 1) d.table) :
    Located p (k + 1) ⟨h, d, toHost, toDpu⟩ := by
  have hlev : d.levels = 2 := if_neg hpc
  have htab : HostAt p (k + 1) (k + 1 + 2) { h.table d.leftSplits with inRehash := false } := by
    cases hexp with
    | sending hre hv | rehashing hre hv =>
      unfold HostSide.table
      rw [hov, Bool.true_or]
      exact hv.settled
  refine ⟨hrdy.at_k, hlev ▸ hrdy.mapped.fronted, ?_, ?_⟩
  · intro i hi r hr
    change i < d.levels at hi
    exact hexp.serves (by omega) hr
  · intro i hi
    change i < d.levels at hi
    obtain rfl | rfl : i = 0 ∨ i = 1 := by omega
    · exact congrArg some htab.bottom
    · exact congrArg some htab.top

end Hosts

variable {d : DpuSide} {s : Sys}

lemma DpuFinishes.table (hd : DpuFinishes p k d) :
    d.leftSplits = true ∧ d.pc ≠ .split ∧ DpuReady p (k + 1) d.table := by
  cases hd with
  | finishing hv | awaiting hv => exact ⟨rfl, by simp, hv⟩

/-- While the new clients are made and their regions are received, the clients of
the two levels stand in front. -/
lemma DpuImports.table {recd : List Region} (hd : DpuImports p k recd d) :
    d.leftSplits = false ∧ d.pc ≠ .split ∧ DpuAt p k d.table ∧ Fronted p k 2 d.table := by
  cases hd with
  | emplacing hat _ _ _ _ hcls => exact ⟨rfl, by simp, hat, _, hcls⟩
  | importing hat _ _ himp =>
    have hcls := himp.dmaClient
    rw [List.map_append, List.append_assoc] at hcls
    exact ⟨rfl, by simp, hat, _, hcls⟩

lemma DpuRuns.table (hd : DpuRuns p k d) : d.pc ≠ .split ∧ DpuReady p k d.table := by
  cases hd with
  | run hv | stopped hv | announce hv _ _ => exact ⟨by simp, hv⟩

lemma Phase.located (hs : Phase p s) (hpc : s.dpu.pc ≠ .construct) : ∃ k, Located p k s := by
  cases hs with
  | fresh | seeding | constructing => exact absurd rfl hpc
  | running hid hd _ =>
    obtain ⟨hspl, hv⟩ := hd.table
    exact ⟨_, hid.located hv.at_k hv.mapped.fronted hspl⟩
  | announced hid hd =>
    obtain ⟨-, hspl, hat, hfrt⟩ := hd.table
    exact ⟨_, hid.located hat hfrt hspl⟩
  | importing hexp hd _ =>
    obtain ⟨hov, hspl, hat, hfrt⟩ := hd.table
    have hlev : DpuSide.levels _ = 2 := if_neg hspl
    exact ⟨_, hexp.located hov hat (hlev ▸ hfrt)⟩
  | splitting hexp hat hmap _ => exact ⟨_, hexp.located rfl hat hmap.fronted⟩
  | finishing hexp hd _ =>
    obtain ⟨hov, hspl, hv⟩ := hd.table
    exact ⟨_, hexp.located_over hov hspl hv⟩
  | answered hid hd _ =>
    obtain ⟨-, hspl, hv⟩ := hd.table
    exact ⟨_, hid.located hv.at_k hv.mapped.fronted hspl⟩
  | finished hid hv _ =>
    exact ⟨_, hid.located (d := ⟨_, .await⟩) hv.at_k hv.mapped.fronted (by simp)⟩

/-! ## Addresses -/

/-- Bucket `x` of level `i` is at bucket `x` of the array of the level. -/
lemma Located.target {i x : ℕ} (h : Located p k s) (hi : i < s.dpu.levels)
    (hx : x < s.dpu.table.levelCapacity i) :
    ∃ r offset, s.dpu.table.target (s.dpu.table.levelStart i + x) = some (r, offset) ∧
      offset + 128 ≤ r.len ∧ s.host.Serves r ∧ s.levelArray i = some r.array ∧
      r.array = k + i ∧ r.offset + offset = x * 128 := by
  have hlev : s.dpu.levels ≤ 3 := by
    unfold DpuSide.levels
    split <;> omega
  obtain ⟨r, offset, ht, hr, hlen, had⟩ := h.at_k.locate h.clients hi hlev hx
  have harr := array_of_mem_parts hr
  exact ⟨r, offset, ht, hlen, h.serves i hi r hr, by rw [h.arrays i hi, harr], harr, had⟩

lemma Located.getClientBucket_inj {b1 b2 : ℕ} (h : Located p k s) (h1 : s.dpu.Live b1)
    (h2 : s.dpu.Live b2) (heq : s.dpu.table.getClientBucket b1 = s.dpu.table.getClientBucket b2) :
      b1 = b2 := by
  obtain ⟨i, x, hi, hx, rfl⟩ := h1
  obtain ⟨j, y, hj, hy, rfl⟩ := h2
  obtain ⟨r, offset, hr, -, -, -, harr, had⟩ := h.target hi hx
  obtain ⟨r', offset', hr', -, -, -, harr', had'⟩ := h.target hj hy
  have hsm : some (r, offset) = some (r', offset') := by
    rw [← hr, ← hr']
    unfold DpuVars.target
    rw [heq]
  obtain ⟨rfl, rfl⟩ := Prod.mk.inj (Option.some.inj hsm)
  have hij : i = j := by omega
  have hxy : x = y := by omega
  rw [hij, hxy]

/-- **DMA addressing is exact.** After the constructors, in every interleaving and
at every moment, different buckets in use have different clients or offsets, and
the client and the offset of bucket `x` of a level are inside the client's region
and are those of bucket `x` of the host's array for the level. -/
theorem dma_addressing_exact (level fSeed sSeed : ℕ) (own : ℕ × ℕ) (hlevel : 3 ≤ level)
    (acts : List Act) :
    ∃ s, acts.foldlM Sys.step (Sys.init level fSeed sSeed own) = .done s ∧
      (s.dpu.pc ≠ .construct →
        (∀ b1 b2, s.dpu.Live b1 → s.dpu.Live b2 → b1 ≠ b2 →
          s.dpu.table.getClientBucket b1 ≠ s.dpu.table.getClientBucket b2) ∧
        ∀ i x, i < s.dpu.levels → x < s.dpu.table.levelCapacity i →
          ∃ r offset, s.dpu.table.target (s.dpu.table.levelStart i + x) = some (r, offset) ∧
            offset + 128 ≤ r.len ∧ s.host.Serves r ∧ s.levelArray i = some r.array ∧
            r.offset + offset = x * 128) := by
  obtain ⟨s, hdn, hs⟩ := run_phase hlevel fSeed sSeed own acts
  refine ⟨s, hdn, fun hpc => ?_⟩
  obtain ⟨k, hk⟩ := hs.located hpc
  refine ⟨fun b1 b2 h1 h2 hne heq => hne (hk.getClientBucket_inj h1 h2 heq), ?_⟩
  intro i x hi hx
  obtain ⟨r, offset, ht, hlen, hsrv, harr, -, had⟩ := hk.target hi hx
  exact ⟨r, offset, ht, hlen, hsrv, harr, had⟩

/-- While the DPU splits buckets, bucket 12 of a table of level 3 is the first one of
the host's new array. -/
theorem dma_addressing_exact_split :
    ∃ s, (oneExpansion.take 38).foldlM Sys.step (Sys.init 3 5 7 (0, 0)) = .done s ∧
      s.dpu.pc = .split ∧ ∃ r offset, s.dpu.table.target 12 = some (r, offset) ∧
        s.levelArray 2 = some r.array ∧ r.offset + offset = 0 := by
  obtain ⟨s, hrun, hpc, hst, hcap⟩ :
      ∃ s, (oneExpansion.take 38).foldlM Sys.step (Sys.init 3 5 7 (0, 0)) = .done s ∧
        s.dpu.pc = .split ∧ s.dpu.table.levelStart 2 = 12 ∧
        0 < s.dpu.table.levelCapacity 2 := by
    decide +kernel
  obtain ⟨s', hrun', hex⟩ := dma_addressing_exact 3 5 7 (0, 0) (by decide) (oneExpansion.take 38)
  cases hrun.symm.trans hrun'
  have hlev : s.dpu.levels = 3 := if_pos hpc
  obtain ⟨r, offset, ht, -, -, harr, had⟩ := (hex (by rw [hpc]; simp)).2 2 0 (by omega) hcap
  rw [hst, add_zero] at ht
  exact ⟨s, hrun, hpc, r, offset, ht, harr, had⟩

end Librdpma.LevelKv.Handshake
