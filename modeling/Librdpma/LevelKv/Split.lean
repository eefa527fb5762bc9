import Librdpma.LevelKv.Insertion

/-!
# Splitting one bottom bucket

While the table expands, the pairs of a bottom bucket are copied into the new
level, two of whose buckets are fetched for each pair. A bucket of the new
level that has not been used yet is not fetched but made in the cache; it is
`Fresh`, that is, in no frame and zero in host memory.

`splitBucket` works on a copy of its frame and does not record an access to it.
If the frame still holds the bucket when the loop is over, clearing its dirty
flag is harmless (`splitBottom_sat`).
-/

namespace Librdpma.LevelKv.Dpu

open Lib Function List Outcome

variable {K V : Type} [Inhabited K] [Inhabited V] {env : Env K} {base lo n : ℕ}
  {s s' M : Dpu K V} {f : Frame} {b : ℕ}

/-- The buckets of the new level that have not been made yet. -/
def Fresh (s : Dpu K V) : Prop :=
  ∀ b, s.nextStartBucketId ≤ b → s.newBucketConstructed (b - s.nextStartBucketId) = false →
    s.bucketTable b = none ∧ s.logical b = Bucket.zero

/-- An access to a bucket that is not fresh leaves the fresh ones alone. -/
lemma Fresh.served (h : Fresh s) (hs : Served base lo n s s') (hlo : lo ≤ s.nextStartBucketId)
    (hkp : ∀ c g, s.nextStartBucketId ≤ c →
      s.newBucketConstructed (c - s.nextStartBucketId) = false →
      s'.bucketTable c = some g → s.bucketTable c = some g)
    (hcn : s'.newBucketConstructed = s.newBucketConstructed) : Fresh s' := by
  intro c hc hfr
  rw [hs.control] at hc hfr
  rw [hcn] at hfr
  obtain ⟨hun, hz⟩ := h c hc hfr
  exact ⟨unmapped_of_kept (fun g => hkp c g hc hfr) hun, (hs.logical c (le_trans hlo hc)).trans hz⟩

/-! ## `FetchNBuckets` -/

/-- Bucket `b` of the new level has a frame, possibly with a future. -/
structure Acquires (base lo : ℕ) (M : Dpu K V) (b : ℕ) (x : Option Bool × Frame)
    (M' : Dpu K V) : Prop where
  served : Served base lo 1 M M'
  obtains : Obtains M' b x
  stays : Stays 127 M' b x.2
  kept : ∀ c g, c ≠ b → M'.bucketTable c = some g → M.bucketTable c = some g
  fresh : Fresh M'
  recency : M'.recency = use 128 b M.recency

omit [Inhabited K] in
lemma ensureThat_true {cond : Bool} (h : cond = true) : ensureThat env cond = .done () := by
  unfold ensureThat
  rw [h, Bool.not_true, Bool.and_false]
  rfl

/-- `new_bucket_constructed_[bucket - next_start_bucket_id_] = true` -/
def construct (s : Dpu K V) (bucket : ℕ) : Dpu K V :=
  { s with
    newBucketConstructed := update s.newBucketConstructed (bucket - s.nextStartBucketId) true }

omit [Inhabited K] [Inhabited V] in
lemma Served.construct (h : Served base lo n s s') (b : ℕ) :
    Served base lo n s (s'.construct b) := by
  have hc := h.coh
  exact ⟨⟨hc.geometry, hc.wf, hc.partition, hc.free, hc.held, hc.table, hc.bound, hc.dirty,
    hc.clean, hc.low, hc.base_le⟩, h.control, h.logical, h.stays⟩

/-- A bucket of the new level that is made is no longer fresh, the others stay so. -/
lemma Fresh.construct (h : Fresh s) (hs : Served base lo n s s')
    (hlo : lo ≤ s.nextStartBucketId) (hb : s.nextStartBucketId ≤ b)
    (hkp : ∀ c g, c ≠ b → s'.bucketTable c = some g → s.bucketTable c = some g)
    (hcn : s'.newBucketConstructed = s.newBucketConstructed) : Fresh (s'.construct b) := by
  have hnx : s'.nextStartBucketId = s.nextStartBucketId := by rw [hs.control]
  intro c hc hfr
  change s'.nextStartBucketId ≤ c at hc
  change update s'.newBucketConstructed (b - s'.nextStartBucketId) true
    (c - s'.nextStartBucketId) = false at hfr
  rw [hnx] at hc
  rw [hnx, hcn] at hfr
  have hcb : c ≠ b := by
    rintro rfl
    rw [update_self] at hfr
    cases hfr
  rw [update_of_ne (by omega)] at hfr
  obtain ⟨hun, hz⟩ := h c hc hfr
  exact ⟨unmapped_of_kept (fun g => hkp c g hcb) hun, (hs.logical c (le_trans hlo hc)).trans hz⟩

lemma acquire_fresh (hdma : ∀ i, env.dma i = true) (h : Coh base lo M) (hfr : Fresh M)
    (hre : M.inRehash = true) (hcl : M.clients = 12) {pend : List ℕ} (hp : b ∉ pend)
    (hlo : lo ≤ M.nextStartBucketId) (hb : M.nextStartBucketId ≤ b) (hhi : b < M.hi)
    (hc : M.newBucketConstructed (b - M.nextStartBucketId) = false) :
    ∃ x M', (M.hide pend).acquire env b = .done (x, M'.hide (waiting b x ++ pend)) ∧
      Acquires base lo M b x M' := by
  have hbl : M.blStartBucketId ≤ b := le_trans h.low (le_trans hlo hb)
  obtain ⟨hun, hz⟩ := hfr b hb hc
  rw [logical_of_none hun] at hz
  obtain ⟨f, s', M', hnew, hmap, he⟩ := newBucket_enters hdma h hp hbl hhi hun hz
  refine ⟨(none, f), M'.construct b, ?_, he.served.construct b,
    ⟨.inl rfl, he.stays.1⟩, he.stays, he.kept,
    hfr.construct he.served hlo hb he.kept he.constructed, he.recency⟩
  unfold acquire
  rw [if_pos ⟨hb, hc⟩, ensureThat_true (show (M.hide pend).inRehash = true from hre),
    ensureThat_true (show ((M.hide pend).clients == 12) = true by
      rw [show (M.hide pend).clients = 12 from hcl]; rfl)]
  simp only [done_bind, hnew, pure_eq]
  rw [hmap]
  rfl

lemma acquire_spec (hdma : ∀ i, env.dma i = true) (h : Coh base lo M) (hfr : Fresh M)
    (hre : M.inRehash = true) (hcl : M.clients = 12) {pend : List ℕ} (hp : b ∉ pend)
    (hlo : lo ≤ M.nextStartBucketId) (hb : M.nextStartBucketId ≤ b) (hhi : b < M.hi) :
    ∃ x M', (M.hide pend).acquire env b = .done (x, M'.hide (waiting b x ++ pend)) ∧
      Acquires base lo M b x M' := by
  cases hc : M.newBucketConstructed (b - M.nextStartBucketId) with
  | false => exact acquire_fresh hdma h hfr hre hcl hp hlo hb hhi hc
  | true =>
    have hne : ∀ c, M.newBucketConstructed (c - M.nextStartBucketId) = false → c ≠ b := by
      rintro c hcf rfl
      rw [hc] at hcf
      cases hcf
    unfold acquire
    rw [if_neg (show ¬ ((M.hide pend).nextStartBucketId ≤ b ∧
      (M.hide pend).newBucketConstructed (b - (M.hide pend).nextStartBucketId) = false) by
        rintro ⟨-, hc'⟩
        exact Bool.noConfusion (hc.symm.trans hc')),
      show (M.hide pend).bucketTable b = M.bucketTable b from if_neg hp]
    cases hbt : M.bucketTable b with
    | some f =>
      have ht := recordAccess_touched h hbt
      have hs := ht.1.served h
      exact ⟨(none, f), M.recordAccess f, rfl, hs, ⟨.inl rfl, hbt⟩, ht.2,
        fun _ _ _ hg => hg, hfr.served hs hlo (fun _ _ _ _ hg => hg) rfl,
        recordAccess_recency h hbt⟩
    | none =>
      obtain ⟨f, M', hfch, he⟩ := fetchBucket_enters hdma h pend
        (le_trans h.low (le_trans hlo hb)) hhi hbt
      refine ⟨(some true, f), M', ?_, he.served, ⟨.inr rfl, he.stays.1⟩, he.stays,
        he.kept, hfr.served he.served hlo
          (fun c g _ hcf => he.kept c g (hne c hcf)) he.constructed, he.recency⟩
      simp only [hfch, done_bind, pure_eq]
      rfl

omit [Inhabited K] [Inhabited V] in
lemma settle_spec {x : Option Bool × Frame} {pend : List ℕ} (hx : Obtains M b x)
    (hp : b ∉ pend) : (M.hide (waiting b x ++ pend)).settle env b x = .done (M.hide pend) := by
  obtain ⟨fut, f⟩ := x
  rcases hx.success with hno | hsome
  · subst hno
    rfl
  · subst hsome
    show (do ensureThat env true
             return (M.hide (b :: pend)).mapBucket b f) = done (M.hide pend)
    rw [ensureThat_true rfl]
    exact congrArg done (hide_settle hx.table hp)

/-- Two buckets of the new level are in the cache. -/
structure FetchedPair (base lo : ℕ) (s : Dpu K V) (b0 b1 : ℕ) (f0 f1 : Frame)
    (s' : Dpu K V) : Prop where
  served : Served base lo 2 s s'
  table0 : s'.bucketTable b0 = some f0
  table1 : s'.bucketTable b1 = some f1
  kept : ∀ c g, c ≠ b0 → c ≠ b1 → s'.bucketTable c = some g → s.bucketTable c = some g
  fresh : Fresh s'
  recency : s'.recency = use 128 b1 (use 128 b0 s.recency)

lemma fetchNBuckets_spec (hdma : ∀ i, env.dma i = true) (h : Coh base lo s) (hfr : Fresh s)
    (hre : s.inRehash = true) (hcl : s.clients = 12) (hlo : lo ≤ s.nextStartBucketId) {b0 b1 : ℕ}
    (hne : b0 ≠ b1) (hb0 : s.nextStartBucketId ≤ b0 ∧ b0 < s.hi)
    (hb1 : s.nextStartBucketId ≤ b1 ∧ b1 < s.hi) :
    ∃ f0 f1 M, s.fetchNBuckets env b0 b1 = .done ((f0, f1), M) ∧
      FetchedPair base lo s b0 b1 f0 f1 M := by
  obtain ⟨x0, M0, hrun0, ha0⟩ := acquire_spec hdma h hfr hre hcl
    (show b0 ∉ [] from not_mem_nil) hlo hb0.1 hb0.2
  have hp1 : b1 ∉ waiting b0 x0 := fun hmem => hne (mem_waiting hmem).symm
  have hctl := ha0.served.control
  obtain ⟨x1, M, hrun1, ha1⟩ := acquire_spec hdma ha0.served.coh ha0.fresh
    (by rw [hctl]; exact hre) (by rw [hctl]; exact hcl) hp1 (by rw [hctl]; exact hlo)
    (by rw [hctl]; exact hb1.1) (by rw [hctl]; exact hb1.2)
  have hp0 : b0 ∉ waiting b1 x1 := fun hmem => hne (mem_waiting hmem)
  have htab0 : M.bucketTable b0 = some x0.2 := (ha1.served.stays (j := 126) ha0.stays).1
  refine ⟨x0.2, x1.2, M, ?_, ha0.served.trans ha1.served, htab0, ha1.stays.1, ?_, ha1.fresh,
    by rw [ha1.recency, ha0.recency]⟩
  · rw [hide_nil, append_nil] at hrun0
    unfold fetchNBuckets
    simp only [hrun0, done_bind, hrun1]
    rw [hide_congr (q := waiting b0 x0 ++ waiting b1 x1)
        fun c => by rw [mem_append, mem_append, or_comm],
      settle_spec ⟨ha0.obtains.success, htab0⟩ hp0, done_bind,
      ← append_nil (waiting b1 x1), settle_spec ha1.obtains not_mem_nil, hide_nil]
    rfl
  · intro c g hc0 hc1 hg
    exact ha0.kept c g hc0 (ha1.kept c g hc1 hg)

/-! ## The loop over the slots -/

/-- The loop over the bottom buckets has come to bucket `lo`: the buckets of the
two levels from there on are as in the state `s0` before the expansion. -/
structure Expanding (s0 : Dpu K V) (lo : ℕ) (s : Dpu K V) : Prop where
  coh : Coh 0 lo s
  eight : s0.clients = 8
  control : s.toControl = s0.beginExpand.toControl
  fresh : Fresh s
  old : ∀ c, lo ≤ c → c < s0.nextStartBucketId → s.logical c = s0.logical c

/-- The ids of the new level. -/
def newIds (s : Dpu K V) : Finset ℕ :=
  Finset.Ico s.nextStartBucketId (s.nextStartBucketId + 2 * s.addrCapacity)

/-- The buckets of the new level that are accessed for a slot. -/
def slotAccesses (env : Env K) (s : Dpu K V) (x : Bucket K V) (slot : Fin 4) : List ℕ :=
  if x.token slot then
    let nbs := s.getExpandBucketIds (env.hash1 (x.slots slot).1) (env.hash2 (x.slots slot).1)
    [nbs.1, nbs.2]
  else []

/-- A list of cached buckets after the accesses in `l`. -/
def useAll (l r : List ℕ) : List ℕ := l.foldl (fun r c => use 128 c r) r

/-- The pair of a slot. -/
def piece (x : Bucket K V) (slot : Fin 4) : Multiset (K × V) :=
  if x.token slot then {x.slots slot} else 0

/-- Of the pairs to be copied, those that are inserted: none if the insertion in
`ENSURE` is not evaluated. -/
def inserted (env : Env K) (pairs : Multiset (K × V)) : Multiset (K × V) :=
  if env.ensure then pairs else 0

variable {s0 : Dpu K V} {x : Bucket K V}

section

omit [Inhabited K] [Inhabited V]

lemma Served.newPairs (hs : Served base lo n s s') (hlo : lo ≤ s0.nextStartBucketId) :
    Bucket.pairsOn s'.logical s0.newIds = Bucket.pairsOn s.logical s0.newIds := by
  refine Bucket.pairsOn_congr fun c hc => hs.logical c ?_
  exact le_trans hlo (Finset.mem_Ico.mp hc).1

lemma inserted_add (env : Env K) (p q : Multiset (K × V)) :
    inserted env (p + q) = inserted env p + inserted env q := by
  unfold inserted
  split
  · rfl
  · rfl

@[simp] lemma inserted_zero (env : Env K) : inserted env (0 : Multiset (K × V)) = 0 := ite_self _

end

namespace Expanding

section

variable (h : Expanding s0 lo s)

include h

lemma bl_eq : s.blStartBucketId = s0.blStartBucketId := by
  rw [h.control]
  rfl

lemma tl_eq : s.tlStartBucketId = s0.tlStartBucketId := by
  rw [h.control]
  rfl

lemma next_eq : s.nextStartBucketId = s0.nextStartBucketId := by
  rw [h.control]
  rfl

lemma addr_eq : s.addrCapacity = s0.addrCapacity := by
  rw [h.control]
  rfl

lemma twelve : s.clients = 12 := by
  rw [h.control]
  show s0.clients + 4 = 12
  rw [h.eight]

lemma hi_eq : s.hi = s0.nextStartBucketId + 2 * s0.addrCapacity := by
  unfold Control.hi
  rw [if_pos h.twelve, h.next_eq, h.addr_eq]

lemma served (hs : Served 0 lo n s s') (hf : Fresh s') : Expanding s0 lo s' := by
  refine ⟨hs.coh, h.eight, hs.control.trans h.control, hf, ?_⟩
  intro c hc hnx
  rw [hs.logical c hc, h.old c hc hnx]

lemma write (hlo : lo ≤ s0.nextStartBucketId) {c : ℕ}
    (hc : s0.nextStartBucketId ≤ c) (hct : s.bucketTable c = some f) (y : Bucket K V) :
    Expanding s0 lo (s.write f y true) := by
  have hlog := logical_write h.coh hct y true
  refine ⟨h.coh.write hct (le_trans hlo hc) y, h.eight, h.control, ?_, ?_⟩
  · intro d hd hdf
    obtain ⟨hun, hz⟩ := h.fresh d hd hdf
    refine ⟨hun, ?_⟩
    have hdc : d ≠ c := by
      rintro rfl
      rw [hct] at hun
      cases hun
    rw [hlog, update_of_ne hdc]
    exact hz
  · intro d hd hnx
    rw [hlog, update_of_ne (by omega), h.old d hd hnx]

end

end Expanding

/-- The slots in `l` are still to be copied; `pairs` and `recency` are what the
new level and the cache will have come to after them. -/
structure Splitting (env : Env K) (s0 : Dpu K V) (b : ℕ) (f : Frame) (x : Bucket K V)
    (pairs : Multiset (K × V)) (recency : List ℕ) (l : List (Fin 4)) (s : Dpu K V) :
    Prop where
  exp : Expanding s0 b s
  frame : ∀ g, s.bucketTable b = some g → g = f
  pairs : Bucket.pairsOn s.logical s0.newIds + inserted env (l.map (piece x)).sum = pairs
  recency : useAll (l.flatMap (slotAccesses env s0 x)) s.recency = recency

omit [Inhabited K] [Inhabited V] in
lemma ensureInsert_sat {e : Prop} (he : env.ensure = true → e) {z : K × V}
    {P : Dpu K V → Prop} (hnil : env.ensure = false → P s)
    (h : env.ensure = true → ∀ y, (s.cache f).insertSlot z.1 z.2 = some y → P (s.write f y true)) :
    (s.ensureInsert env f z).Sat e P := by
  unfold ensureInsert
  cases hens : env.ensure with
  | false => exact hnil hens
  | true =>
    rw [if_pos rfl]
    cases hins : (s.cache f).insertSlot z.1 z.2 with
    | none => exact he hens
    | some y => exact h hens y hins

lemma Expanding.fetch (hdma : ∀ i, env.dma i = true) (h : Expanding s0 b s)
    (hb : b < s0.nextStartBucketId) {h1 h2 n0 n1 : ℕ}
    (hids : s0.getExpandBucketIds h1 h2 = (n0, n1)) :
    s.getExpandBucketIds h1 h2 = (n0, n1) ∧ n0 ∈ s0.newIds ∧ n1 ∈ s0.newIds ∧
      ∃ f0 f1 M, s.fetchNBuckets env n0 n1 = .done ((f0, f1), M) ∧
        FetchedPair 0 b s n0 n1 f0 f1 M ∧ Expanding s0 b M := by
  obtain ⟨q, hq⟩ := h.coh.geometry
  have hnx := h.next_eq
  have hhi := h.hi_eq
  have hids' : s.getExpandBucketIds h1 h2 = (n0, n1) := by
    rw [← hids, h.control]
    rfl
  have hspec := hq.getExpandBucketIds_spec h1 h2
  rw [hids', hnx, h.addr_eq] at hspec
  obtain ⟨f0, f1, M, hrun, hM⟩ := fetchNBuckets_spec hdma h.coh h.fresh
    (by rw [h.control]; rfl) h.twelve (by omega) (show n0 ≠ n1 by omega) (by omega) (by omega)
  exact ⟨hids', Finset.mem_Ico.mpr (by omega), Finset.mem_Ico.mpr (by omega),
    f0, f1, M, hrun, hM, h.served hM.served hM.fresh⟩

/-- The insertion goes to one of the two buckets that were fetched. -/
lemma FetchedPair.lessLoaded {b0 b1 : ℕ} {f0 f1 : Frame}
    (h : FetchedPair base lo s b0 b1 f0 f1 s') :
    ∃ c, (c = b0 ∨ c = b1) ∧ s'.bucketTable c = some (s'.lessLoaded f0 f1) := by
  rcases s'.lessLoaded_cases f0 f1 with hl | hl
  · exact ⟨b0, .inl rfl, by rw [hl]; exact h.table0⟩
  · exact ⟨b1, .inr rfl, by rw [hl]; exact h.table1⟩

lemma splitSlot_sat (hdma : ∀ i, env.dma i = true) {e : Prop}
    (hens : ∀ i, x.token i = true → env.ensure = true → e) {pairs : Multiset (K × V)}
    {recency : List ℕ} {slot : Fin 4} {l : List (Fin 4)} (hb : b < s0.nextStartBucketId)
    (h : Splitting env s0 b f x pairs recency (slot :: l) s) :
    (splitSlot env x s slot).Sat e (Splitting env s0 b f x pairs recency l) := by
  have hprs := h.pairs
  have hrec := h.recency
  rw [map_cons, sum_cons, inserted_add] at hprs
  rw [flatMap_cons] at hrec
  unfold splitSlot
  cases htok : x.token slot with
  | false =>
    rw [if_neg Bool.false_ne_true]
    refine ⟨h.exp, h.frame, ?_, ?_⟩
    · rw [← hprs, piece, htok, if_neg Bool.false_ne_true, inserted_zero, zero_add]
    · rw [← hrec, slotAccesses, htok, if_neg Bool.false_ne_true, nil_append]
  | true =>
    rw [slotAccesses, htok, if_pos rfl] at hrec
    rw [piece, htok, if_pos rfl] at hprs
    rw [if_pos rfl]
    cases hnbs : s0.getExpandBucketIds (env.hash1 (x.slots slot).1)
        (env.hash2 (x.slots slot).1) with
    | mk n0 n1 =>
      obtain ⟨hids, hn0, hn1, f0, f1, M, hrun, hM, hexp⟩ := h.exp.fetch hdma hb hnbs
      have hlt : b < n0 ∧ b < n1 :=
        ⟨lt_of_lt_of_le hb (Finset.mem_Ico.mp hn0).1, lt_of_lt_of_le hb (Finset.mem_Ico.mp hn1).1⟩
      rw [hnbs] at hrec
      dsimp only at hrec ⊢
      rw [hids]
      rw [hrun]
      have hfrm : ∀ g, M.bucketTable b = some g → g = f := fun g hg =>
        h.frame g (hM.kept b g (by omega) (by omega) hg)
      have hrec' : useAll (l.flatMap (slotAccesses env s0 x)) M.recency = recency := by
        rw [← hrec, hM.recency]
        rfl
      have hold := hM.served.newPairs (le_of_lt hb)
      refine ensureInsert_sat (hens slot htok) (fun hnil => ?_) fun hens' y hy => ?_
      · refine ⟨hexp, hfrm, ?_, hrec'⟩
        rw [hold, ← hprs, inserted, inserted, hnil]
        rfl
      · obtain ⟨c, hc, hct⟩ := hM.lessLoaded
        have hcnew : c ∈ s0.newIds := by
          rcases hc with rfl | rfl
          · exact hn0
          · exact hn1
        refine ⟨hexp.write (le_of_lt hb) (Finset.mem_Ico.mp hcnew).1 hct y, hfrm, ?_, hrec'⟩
        rw [logical_write hM.served.coh hct, ← hprs, ← hold, inserted, inserted, hens',
          if_pos rfl, if_pos rfl, Bucket.pairsOn_update hcnew (x := x.slots slot)]
        · rw [Multiset.cons_add, Multiset.singleton_add, Multiset.add_cons]
        · rw [logical_of_table hct]
          exact Bucket.contents_insertSlot hy

/-! ## One bottom bucket -/

lemma Expanding.clear (h : Expanding s0 b s) (hbt : s.bucketTable b = some f) :
    Expanding s0 (b + 1) { s with dirtyFlag := update s.dirtyFlag f false } := by
  have hc := h.coh
  have hne : ∀ {c g}, s.bucketTable c = some g → c ≠ b → g ≠ f := by
    rintro c g hcg hcb rfl
    exact hcb (hc.table_inj hcg hbt)
  refine ⟨⟨hc.geometry, hc.wf, hc.partition, hc.free, hc.held, hc.table, hc.bound, ?_, ?_,
    le_trans hc.low (Nat.le_succ b), hc.base_le⟩, h.eight, h.control, h.fresh,
    fun c hlo => h.old c (le_trans (Nat.le_succ b) hlo)⟩
  · intro c g hcg hd
    change update s.dirtyFlag f false g = true at hd
    have hgf : g ≠ f := by
      rintro rfl
      rw [update_self] at hd
      cases hd
    rw [update_of_ne hgf] at hd
    have hlo := hc.dirty c g hcg hd
    have hcb : c ≠ b := by
      rintro rfl
      rw [hbt] at hcg
      exact hgf (Option.some.inj hcg).symm
    omega
  · intro c g hcg hd hlo
    have hgf := hne hcg (by omega)
    change update s.dirtyFlag f false g = false at hd
    rw [update_of_ne hgf] at hd
    exact hc.clean c g hcg hd (by omega)

/-- The bucket that is split is loaded as it was before the expansion. -/
lemma Expanding.load (hdma : ∀ i, env.dma i = true) (hlo : s0.blStartBucketId ≤ b)
    (hb : b < s0.nextStartBucketId) (h : Expanding s0 b s) :
    ∃ f s1, s.load env b = .done (f, s1) ∧ Loads 0 b s b f s1 ∧ Expanding s0 b s1 ∧
      s1.cache f = s0.logical b := by
  obtain ⟨f, s1, hld, hl⟩ := load_spec hdma h.coh (b := b) (by rw [h.bl_eq]; exact hlo)
    (by rw [h.hi_eq]; omega)
  have hfr : Fresh s1 := by
    have hnx := h.next_eq
    exact h.fresh.served hl.served (by omega)
      (fun c g hc _ hg => hl.kept c g (by omega) hg) hl.constructed
  have hexp := h.served hl.served hfr
  refine ⟨f, s1, hld, hl, hexp, ?_⟩
  rw [← hexp.old b (le_refl b) hb, logical_of_table hl.table]

/-- The cached buckets after the split of bucket `b`, from those before it. -/
def splitRecency (env : Env K) (s : Dpu K V) (b : ℕ) (r : List ℕ) : List ℕ :=
  useAll ((finRange 4).flatMap (slotAccesses env s (s.logical b)))
    (if b ∈ r then r else use 128 b r)

/-- **The split of a bottom bucket** that is still in its frame at the end copies
its pairs to the new level, if the insertions in `ENSURE` are evaluated. -/
lemma splitBottom_sat (hdma : ∀ i, env.dma i = true) {e : Prop}
    (hens : ∀ i, (s0.logical b).token i = true → env.ensure = true → e)
    (hlo : s0.blStartBucketId ≤ b) (hb : b < s0.nextStartBucketId)
    (h : Expanding s0 b s) (hkp : b ∈ splitRecency env s0 b s.recency) :
    (s.splitBottom env b).Sat e fun s' => Expanding s0 (b + 1) s' ∧
      Bucket.pairsOn s'.logical s0.newIds
        = Bucket.pairsOn s.logical s0.newIds + inserted env (s0.logical b).contents ∧
      s'.recency = splitRecency env s0 b s.recency := by
  obtain ⟨f, s1, hld, hl, hexp, hca⟩ := h.load hdma hlo hb
  have hspl : Splitting env s0 b f (s1.cache f)
      (Bucket.pairsOn s.logical s0.newIds + inserted env (s0.logical b).contents)
      (splitRecency env s0 b s.recency) (finRange 4) s1 := by
    refine ⟨hexp, ?_, ?_, ?_⟩
    · intro g hg
      rw [hl.table] at hg
      exact (Option.some.inj hg).symm
    · rw [hl.served.newPairs (le_of_lt hb), hca, ← Fin.sum_univ_def]
      rfl
    · rw [hl.recency, hca]
      rfl
  unfold splitBottom
  rw [hld, done_bind]
  refine Sat.bind (Sat.foldlM (I := Splitting env s0 b f (s1.cache f)
    (Bucket.pairsOn s.logical s0.newIds + inserted env (s0.logical b).contents)
    (splitRecency env s0 b s.recency)) (fun slot l t ht => ?_) hspl) fun s2 h2 => ?_
  · exact splitSlot_sat hdma (by rw [hca]; exact hens) hb ht
  · have hrec : s2.recency = splitRecency env s0 b s.recency := h2.recency
    have hbt : s2.bucketTable b = some f := by
      have hmem : s2.bucketTable b ≠ none := by
        rw [← mem_recency_iff h2.exp.coh, hrec]
        exact hkp
      obtain ⟨g, hg⟩ := Option.ne_none_iff_exists'.mp hmem
      rw [hg, h2.frame g hg]
    refine ⟨h2.exp.clear hbt, ?_, hrec⟩
    rw [← h2.pairs, map_nil, sum_nil, inserted_zero, add_zero]
    rfl

end Librdpma.LevelKv.Dpu
