import Librdpma.LevelKv.Requests
import Librdpma.LevelKv.Split

/-!
# `Expand`

The expansion maps four regions of zeroed memory, splits every bottom bucket
into the new level and then takes the old top level for the bottom one. If
every bottom bucket is still in the cache when its split is over, the new level
holds the bottom pairs, or nothing if the insertions in `ENSURE` are not
evaluated. Which buckets are still in the cache is a matter of the order of use
alone: `SplitsKeep` replays the accesses on the list of cached buckets.
-/

namespace Librdpma.LevelKv.Dpu

open Lib List Finset

variable {K V : Type} [Inhabited K] [Inhabited V] {env : Env K} {lo n : ℕ}
  {s s' s0 : Dpu K V} {b : ℕ}

/-- The pairs of the logical table, over the bottom and the top level. -/
def pairs (s : Dpu K V) : Multiset (K × V) :=
  Bucket.pairsOn s.logical (Finset.Ico s.blStartBucketId s.nextStartBucketId)

omit [Inhabited K] [Inhabited V] in
lemma pairs_ne_zero {x : K × V} (hlo : s.blStartBucketId ≤ b)
    (hb : b < s.nextStartBucketId) (hx : (s.logical b).contents = {x}) : s.pairs ≠ 0 := by
  intro hz
  have hmem : x ∈ s.pairs :=
    Multiset.mem_sum.mpr ⟨b, mem_Ico.mpr ⟨hlo, hb⟩, by
      rw [hx]
      exact Multiset.mem_singleton_self x⟩
  rw [hz] at hmem
  exact absurd hmem (Multiset.notMem_zero x)

/-- Replayed on the list `r` of cached buckets, each split of a bucket in `bs`
ends with that bucket in the cache. -/
def SplitsKeep (env : Env K) (s : Dpu K V) : List ℕ → List ℕ → Prop
  | _, [] => True
  | r, b :: bs => b ∈ splitRecency env s b r ∧ SplitsKeep env s (splitRecency env s b r) bs

/-- The buckets of the bottom level, in the order of the loop. -/
def bottomIds (s : Dpu K V) : List ℕ :=
  range' s.blStartBucketId (s.tlStartBucketId - s.blStartBucketId)

/-- No bottom bucket holds a pair. -/
def BottomEmpty (s : Dpu K V) : Prop :=
  ∀ b ∈ s.bottomIds, ∀ i, (s.logical b).token i = false

instance decidableBottomEmpty (s : Dpu K V) : Decidable (BottomEmpty s) := by
  unfold BottomEmpty
  infer_instance

/-- The pairs of the bottom level. -/
def bottomPairs (s : Dpu K V) : Multiset (K × V) :=
  Bucket.pairsOn s.logical (Finset.Ico s.blStartBucketId s.tlStartBucketId)

omit [Inhabited K] [Inhabited V] in
lemma mem_bottomIds (h : Geometry s.toControl n) :
    b ∈ s.bottomIds ↔ s.blStartBucketId ≤ b ∧ b < s.tlStartBucketId := by
  have hbl := h.blStart
  have htl := h.tlStart
  unfold bottomIds
  rw [mem_range'_1]
  omega

omit [Inhabited K] [Inhabited V] in
lemma bottomPairs_eq_zero_iff (h : Geometry s.toControl n) : s.bottomPairs = 0 ↔ BottomEmpty s := by
  unfold bottomPairs Bucket.pairsOn BottomEmpty
  rw [Finset.sum_eq_zero_iff]
  simp only [mem_Ico, ← mem_bottomIds h, Bucket.contents_eq_zero_iff]

/-! ## Beginning -/

lemma beginExpand_host (h : Coh 0 lo s) (h8 : s.clients = 8)
    (hb : s.blStartBucketId ≤ b) (hnx : b < s.nextStartBucketId) :
    s.beginExpand.host b = s.host b := by
  obtain ⟨q, hq⟩ := h.geometry
  have hcl := hq.client_lt hb (lt_of_lt_of_le hnx hq.nextStart_le_hi)
  exact if_neg (show ¬ s.clients ≤ (s.getClientBucket b).1 by omega)

lemma beginExpand_logical (h : Coh 0 lo s) (h8 : s.clients = 8)
    (hb : s.blStartBucketId ≤ b) (hnx : b < s.nextStartBucketId) :
    s.beginExpand.logical b = s.logical b := by
  cases hbt : s.bucketTable b with
  | some f =>
    rw [logical_of_table (s := s.beginExpand) hbt, logical_of_table hbt]
    rfl
  | none =>
    rw [logical_of_none (s := s.beginExpand) hbt, logical_of_none hbt, beginExpand_host h h8 hb hnx]

lemma beginExpand_expanding (h : Coh 0 s.blStartBucketId s) (h8 : s.clients = 8) :
    Expanding s s.blStartBucketId s.beginExpand := by
  obtain ⟨q, hq⟩ := h.geometry
  have hq' : Geometry s.beginExpand.toControl q :=
    ⟨hq.pos, hq.blCapacity, hq.addrCapacity, hq.blStart, hq.tlStart, hq.nextStart,
      Or.inr (by show s.clients + 4 = 12; rw [h8])⟩
  have hbd : ∀ b f, s.bucketTable b = some f → b < s.nextStartBucketId := by
    intro b f hbt
    have hhi := (h.bound b f hbt).2
    unfold Control.hi at hhi
    rwa [if_neg (by rw [h8]; decide)] at hhi
  refine ⟨⟨⟨q, hq'⟩, h.wf, h.partition, h.free, h.held, h.table, ?_, h.dirty, ?_, h.low,
    h.base_le⟩, h8, rfl, ?_, fun c hc hnx => beginExpand_logical h h8 hc hnx⟩
  · intro b f hbt
    exact ⟨Nat.zero_le b, lt_of_lt_of_le (hbd b f hbt) hq'.nextStart_le_hi⟩
  · intro b f hbt hd hlo
    exact (h.clean b f hbt hd hlo).trans (beginExpand_host h h8 hlo (hbd b f hbt)).symm
  · intro b hb _
    have hun : s.bucketTable b = none := by
      cases hbt : s.bucketTable b with
      | none => rfl
      | some f => exact absurd (hbd b f hbt) (not_lt.mpr hb)
    refine ⟨hun, ?_⟩
    rw [logical_of_none (s := s.beginExpand) hun]
    have hbl : s.blStartBucketId ≤ b := by
      have hbl := hq.blStart
      have hnx := hq.nextStart
      have hle : s.nextStartBucketId ≤ b := hb
      omega
    rcases hq'.client_level (b := b) hbl with ⟨hlt, -⟩ | ⟨-, hlt, -⟩ | ⟨-, hge⟩
    · have htl := hq.tlStart
      have hnx := hq.nextStart
      have hle : s.nextStartBucketId ≤ b := hb
      exact absurd hlt (by show ¬ b < s.tlStartBucketId; omega)
    · exact absurd hlt (not_lt.mpr hb)
    · exact if_pos (by rw [h8]; exact hge)

/-! ## The loop over the bottom level -/

/-- The bottom buckets in `bs` are still to be split. -/
structure Copied (env : Env K) (s0 : Dpu K V) (bs : List ℕ) (s : Dpu K V) : Prop where
  rest : ∃ b, bs = range' b (s0.tlStartBucketId - b) ∧
    s0.blStartBucketId ≤ b ∧ b ≤ s0.tlStartBucketId ∧ Expanding s0 b s ∧
    Bucket.pairsOn s.logical s0.newIds
      = inserted env (Bucket.pairsOn s0.logical (Finset.Ico s0.blStartBucketId b))
  keep : SplitsKeep env s0 s.recency bs

lemma splitBottom_copied (hdma : ∀ i, env.dma i = true) (h0 : Geometry s0.toControl n)
    {bs : List ℕ} (h : Copied env s0 (b :: bs) s) :
    (s.splitBottom env b).Sat (env.ensure = true ∧ ¬ BottomEmpty s0) (Copied env s0 bs) := by
  obtain ⟨⟨c, hbs, hlo, -, hexp, hprs⟩, hkp, hrs⟩ := h
  have ⟨_, _, _, hbl, htl, hnx, _⟩ := h0
  have hlt : c < s0.tlStartBucketId := by
    by_contra hge
    rw [show s0.tlStartBucketId - c = 0 by omega] at hbs
    cases hbs
  rw [show s0.tlStartBucketId - c = s0.tlStartBucketId - (c + 1) + 1 by omega, range'_succ] at hbs
  obtain ⟨rfl, rfl⟩ := cons.inj hbs
  have hmem : b ∈ s0.bottomIds := (mem_bottomIds h0).mpr ⟨hlo, hlt⟩
  have hsat := splitBottom_sat (e := env.ensure = true ∧ ¬ BottomEmpty s0) hdma
    (fun i hi hens => ⟨hens, fun hnil => by
      rw [hnil b hmem i] at hi
      exact Bool.noConfusion hi⟩) hlo (by omega) hexp hkp
  refine hsat.mono fun s' hs' => ?_
  obtain ⟨hexp', hprs', hrec⟩ := hs'
  refine ⟨⟨b + 1, rfl, by omega, by omega, hexp', ?_⟩, by rw [hrec]; exact hrs⟩
  rw [hprs', hprs, ← inserted_add]
  exact congrArg (inserted env) (sum_Ico_succ_top hlo fun c => (s0.logical c).contents).symm

/-! ## End -/

section

omit [Inhabited K] [Inhabited V]

/-- The addresses of the buckets that stay are those of the shifted clients. -/
lemma finishExpand_getClientBucket (h : Geometry s.toControl n) (hb : s.tlStartBucketId ≤ b)
    (hhi : b < s.nextStartBucketId + 2 * s.addrCapacity) :
    s.getClientBucket b = ((s.finishExpand.getClientBucket b).1 + 4,
      (s.finishExpand.getClientBucket b).2) := by
  have ⟨hpos, hcap, hadd, _, htl, hnx, _⟩ := h
  have hst : s.finishExpand.tlStartBucketId = s.nextStartBucketId := rfl
  have hst' : s.finishExpand.blStartBucketId = s.tlStartBucketId := rfl
  have hadd' : s.finishExpand.addrCapacity = s.addrCapacity * 2 := rfl
  have hcap' : s.finishExpand.blCapacity = s.blCapacity * 2 := rfl
  unfold Control.getClientBucket
  rw [if_neg (by omega)]
  by_cases htop : b < s.nextStartBucketId
  · rw [if_pos (by omega), if_pos (by omega), hst', hcap',
      show s.blCapacity * 2 / 4 = s.addrCapacity / 4 by omega]
  · rw [if_neg (by omega), if_neg (by omega), if_pos (by omega), hst, hadd']

lemma finishExpand_host (h : Geometry s.toControl n) (hb : s.tlStartBucketId ≤ b)
    (hhi : b < s.nextStartBucketId + 2 * s.addrCapacity) :
    s.finishExpand.host b = s.host b := by
  unfold host
  rw [finishExpand_getClientBucket h hb hhi]
  rfl

lemma finishExpand_logical (h : Geometry s.toControl n) (hb : s.tlStartBucketId ≤ b)
    (hhi : b < s.nextStartBucketId + 2 * s.addrCapacity) :
    s.finishExpand.logical b = s.logical b := by
  cases hbt : s.bucketTable b with
  | some f =>
    rw [logical_of_table (s := s.finishExpand) hbt, logical_of_table hbt]
    rfl
  | none =>
    rw [logical_of_none (s := s.finishExpand) hbt, logical_of_none hbt, finishExpand_host h hb hhi]

end

/-- What an expansion has come to that put the pairs `copied` into the new level. -/
structure Expanded (copied : Multiset (K × V)) (s s' : Dpu K V) : Prop where
  coh : Coh 0 s'.blStartBucketId s'
  control : s'.toControl = s.beginExpand.finishExpand.toControl
  eight : s'.clients = 8
  top : ∀ b, s.tlStartBucketId ≤ b → b < s.nextStartBucketId → s'.logical b = s.logical b
  newTop : Bucket.pairsOn s'.logical (Finset.Ico s'.tlStartBucketId s'.nextStartBucketId) = copied

lemma Expanding.finishExpand_hi (h : Expanding s0 lo s) : s.finishExpand.hi = s.hi := by
  have h12 := h.twelve
  unfold Control.hi
  rw [if_pos h12, if_neg (by show ¬ s.clients - 4 = 12; omega)]
  show s.nextStartBucketId + s.addrCapacity * 2 = _
  omega

lemma finishExpand_coh (h : Expanding s0 s0.tlStartBucketId s) :
    Coh 0 s.finishExpand.blStartBucketId s.finishExpand := by
  obtain ⟨q, hq⟩ := h.coh.geometry
  have hc := h.coh
  have h12 := h.twelve
  have htl := h.tl_eq
  have hnx := h.next_eq
  have hadd := h.addr_eq
  have hhi := h.hi_eq
  refine ⟨⟨2 * q, hq.doubled rfl rfl rfl rfl rfl
    (.inl (by show s.clients - 4 = 8; omega))⟩, hc.wf, hc.partition, hc.free, hc.held,
    hc.table, ?_, ?_, ?_, le_refl _, Nat.zero_le _⟩
  · intro b f hbt
    rw [h.finishExpand_hi]
    exact hc.bound b f hbt
  · intro b f hbt hd
    show s.tlStartBucketId ≤ b
    rw [htl]
    exact hc.dirty b f hbt hd
  · intro b f hbt hd hlo
    have hlo' : s0.tlStartBucketId ≤ b := htl ▸ hlo
    have hlt := (hc.bound b f hbt).2
    rw [finishExpand_host hq (by omega) (by omega)]
    exact hc.clean b f hbt hd hlo'

lemma finishExpand_expanded (h : Expanding s0 s0.tlStartBucketId s) :
    Expanded (Bucket.pairsOn s.logical s0.newIds) s0 s.finishExpand := by
  obtain ⟨q, hq⟩ := h.coh.geometry
  have h12 := h.twelve
  have htl := h.tl_eq
  have hnx := h.next_eq
  have hadd := h.addr_eq
  have hlv : ∀ c, s0.tlStartBucketId ≤ c → c < s0.nextStartBucketId + 2 * s0.addrCapacity →
      s.finishExpand.logical c = s.logical c := fun c hc hlt =>
    finishExpand_logical hq (by omega) (by omega)
  refine ⟨finishExpand_coh h, ?_, by show s.clients - 4 = 8; omega, ?_, ?_⟩
  · unfold finishExpand
    simp only [h.control]
  · intro b hb hlt
    rw [hlv b hb (by omega), h.old b hb hlt]
  · have hids : Finset.Ico s.finishExpand.tlStartBucketId s.finishExpand.nextStartBucketId
        = s0.newIds := by
      show Finset.Ico s.nextStartBucketId (s.nextStartBucketId + s.addrCapacity * 2) = _
      rw [hnx, hadd, mul_comm]
      rfl
    rw [hids]
    refine Bucket.pairsOn_congr fun c hc' => hlv c ?_ (mem_Ico.mp hc').2
    have hge := (mem_Ico.mp hc').1
    have h4 := hq.tlStart
    have h5 := hq.nextStart
    omega

/-- **An expansion whose splits keep their frames** returns with the bottom pairs
in the new level, or without them if `ENSURE` is empty; or a check on the
insertions fails. -/
lemma expand_sat (hdma : ∀ i, env.dma i = true) (h : Coh 0 s.blStartBucketId s)
    (h8 : s.clients = 8) (hkp : SplitsKeep env s s.recency s.bottomIds) :
    (s.expand env).Sat (env.ensure = true ∧ ¬ BottomEmpty s)
      (Expanded (inserted env s.bottomPairs) s) := by
  obtain ⟨q, hq⟩ := h.geometry
  have hbl := hq.blStart
  have htl := hq.tlStart
  have hexp := beginExpand_expanding h h8
  have hz : Bucket.pairsOn s.beginExpand.logical s.newIds = 0 := by
    refine Finset.sum_eq_zero fun c hc => ?_
    rw [(hexp.fresh c (Finset.mem_Ico.mp hc).1 rfl).2, Bucket.contents_zero]
  have hst : Copied env s s.bottomIds s.beginExpand := by
    refine ⟨⟨s.blStartBucketId, rfl, le_refl _, by omega, hexp, ?_⟩, hkp⟩
    rw [hz, Finset.Ico_self]
    exact (inserted_zero env).symm
  unfold expand
  refine Outcome.Sat.bind (Outcome.Sat.foldlM (I := Copied env s)
    (fun b bs t ht => splitBottom_copied hdma hq ht) hst) fun s2 h2 => ?_
  obtain ⟨b, hnil, -, hle, hexp2, hprs⟩ := h2.rest
  have hb : b = s.tlStartBucketId := by
    by_contra hne
    rw [show s.tlStartBucketId - b = s.tlStartBucketId - (b + 1) + 1 by omega, range'_succ] at hnil
    cases hnil
  subst hb
  have hdn := finishExpand_expanded hexp2
  rwa [hprs] at hdn

namespace Expanded

variable {copied : Multiset (K × V)}

section

variable (h : Expanded copied s s')

include h

lemma blStart : s'.blStartBucketId = s.tlStartBucketId := by
  rw [h.control]
  rfl

lemma tlStart : s'.tlStartBucketId = s.nextStartBucketId := by
  rw [h.control]
  rfl

lemma nextStart : s'.nextStartBucketId = s.nextStartBucketId + s.addrCapacity * 2 := by
  rw [h.control]
  rfl

lemma size_eq : s'.size = s.size := by
  rw [h.control]
  rfl

end

lemma pairs_add (h : Expanded copied s s') (hq : Geometry s.toControl n) :
    s'.pairs + s.bottomPairs = s.pairs + copied := by
  have ⟨_, _, _, hbl, htl, hnx, _⟩ := hq
  have htop : Bucket.pairsOn s'.logical (Finset.Ico s.tlStartBucketId s.nextStartBucketId)
      = Bucket.pairsOn s.logical (Finset.Ico s.tlStartBucketId s.nextStartBucketId) :=
    Bucket.pairsOn_congr fun b hb =>
      h.top b (mem_Ico.mp hb).1 (mem_Ico.mp hb).2
  have hnew := h.newTop
  rw [h.tlStart] at hnew
  have hspl' := sum_Ico_consecutive (fun b => (s'.logical b).contents)
    (show s'.blStartBucketId ≤ s.nextStartBucketId by rw [h.blStart]; omega)
    (show s.nextStartBucketId ≤ s'.nextStartBucketId by rw [h.nextStart]; omega)
  have hspl := sum_Ico_consecutive (fun b => (s.logical b).contents)
    (show s.blStartBucketId ≤ s.tlStartBucketId by omega)
    (show s.tlStartBucketId ≤ s.nextStartBucketId by omega)
  unfold Bucket.pairsOn at htop hnew
  unfold pairs bottomPairs Bucket.pairsOn
  rw [← hspl', ← hspl, hnew, h.blStart, htop, add_comm, ← add_assoc]

lemma pairs_eq (h : Expanded s.bottomPairs s s') (hq : Geometry s.toControl n) :
    s'.pairs = s.pairs :=
  add_right_cancel (h.pairs_add hq)

end Expanded

end Librdpma.LevelKv.Dpu
