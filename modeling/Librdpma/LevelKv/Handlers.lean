import Librdpma.LevelKv.Access

/-!
# What the request handlers do

`ProcessSearch`, `ProcessDelete` and `ProcessUpdate` try the cached candidate
buckets, fetch the others and try them in turn. On a coherent state they
always return. A hit among the fetched buckets makes `ProcessDelete` and
`ProcessUpdate` return early, with the buckets behind it still hidden.
-/

namespace Librdpma.LevelKv.Dpu

open Lib List Outcome

variable {K V α : Type} {env : Env K} {base lo n : ℕ} {s s' M M' : Dpu K V}
  {f g : Frame} {b b' : ℕ} {x y : Bucket K V} {act : Access K V α}

/-! ## The three loops -/

/-- Either every cached bucket misses, and the others are left to fetch, or
one of them hits. -/
lemma scan_cases (act : Access K V α) (h : Coh base lo s) (bs : List ℕ) :
    ∃ s1, Touched bs.length s s1 ∧
      ((s.scan act bs = .done (none, bs.filter fun b => (s.bucketTable b).isNone, s1) ∧
          ∀ b ∈ bs, ∀ f, s.bucketTable b = some f → act (s.cache f) (s.dirtyFlag f) = none) ∨
        ∃ b ∈ bs, ∃ f a x d toFetch, s.bucketTable b = some f ∧
          act (s.cache f) (s.dirtyFlag f) = some (a, x, d) ∧
          s.scan act bs = .done (some a, toFetch, s1.write f x d)) := by
  induction bs generalizing s with
  | nil =>
    refine ⟨s, Touched.refl h, .inl ⟨rfl, ?_⟩⟩
    intro b hb
    cases hb
  | cons b bs ih =>
    unfold scan
    cases hb : s.bucketTable b with
    | some f =>
      have ht := (recordAccess_touched h hb).1
      cases hact : act (s.cache f) (s.dirtyFlag f) with
      | some r =>
        obtain ⟨a, x, d⟩ := r
        refine ⟨s.recordAccess f, ht.mono (by simp), .inr
          ⟨b, mem_cons_self, f, a, x, d, [], hb, hact, ?_⟩⟩
        dsimp only
        rw [show act ((s.recordAccess f).cache f) ((s.recordAccess f).dirtyFlag f)
          = some (a, x, d) from hact]
        rfl
      | none =>
        obtain ⟨s1, ht1, hcs⟩ := ih (ht.coh h)
        dsimp only
        rw [show act ((s.recordAccess f).cache f) ((s.recordAccess f).dirtyFlag f) = none from hact]
        refine ⟨s1, (ht.trans ht1).mono (by rw [length_cons]; omega), ?_⟩
        rcases hcs with ⟨hsc, hms⟩ | ⟨c, hc, g, a, x, d, l, hg, hhit, hsc⟩
        · refine .inl ⟨?_, ?_⟩
          · rw [filter_cons_of_neg (by simp [hb])]
            exact hsc
          · intro c hc g hg
            rcases mem_cons.mp hc with rfl | hc
            · rw [hb] at hg
              rw [← Option.some.inj hg]
              exact hact
            · exact hms c hc g hg
        · exact .inr ⟨c, mem_cons_of_mem _ hc, g, a, x, d, l, hg, hhit, hsc⟩
    | none =>
      obtain ⟨s1, ht1, hcs⟩ := ih h
      refine ⟨s1, ht1.mono (by simp), ?_⟩
      rcases hcs with ⟨hsc, hms⟩ | ⟨c, hc, g, a, x, d, l, hg, hhit, hsc⟩
      · refine .inl ⟨?_, ?_⟩
        · rw [filter_cons_of_pos (by simp [hb])]
          simp only [hsc, done_bind, pure_eq]
        · intro c hc g hg
          rcases mem_cons.mp hc with rfl | hc
          · rw [hb] at hg
            cases hg
          · exact hms c hc g hg
      · refine .inr ⟨c, mem_cons_of_mem _ hc, g, a, x, d, b :: l, hg, hhit, ?_⟩
        simp only [hsc, done_bind, pure_eq]

/-- The futures of fetches that succeeded, for buckets that `M` has entered. -/
def Futures (M : Dpu K V) (futures : List (ℕ × Bool × Frame)) : Prop :=
  ∀ x ∈ futures, x.2.1 = true ∧ M.bucketTable x.1 = some x.2.2

lemma hide_congr {p q : List ℕ} (h : ∀ b, b ∈ p ↔ b ∈ q) : M.hide p = M.hide q := by
  unfold hide
  simp only [h]

lemma fetchAll_spec (hdma : ∀ i, env.dma i = true) (h : Coh base lo M) {bs : List ℕ}
    (pend : List ℕ) (hnd : bs.Nodup) (hlen : bs.length ≤ 128)
    (hrng : ∀ b ∈ bs, M.blStartBucketId ≤ b ∧ b < M.hi) (hun : ∀ b ∈ bs, M.bucketTable b = none) :
    ∃ futures M', (M.hide pend).fetchAll env bs = .done (futures, M'.hide (bs ++ pend)) ∧
      Served base lo bs.length M M' ∧ futures.map Prod.fst = bs ∧ Futures M' futures := by
  induction bs generalizing M pend with
  | nil =>
    refine ⟨[], M, rfl, Served.refl h, rfl, ?_⟩
    intro x hx
    cases hx
  | cons b bs ih =>
    obtain ⟨hbs, hnd'⟩ := nodup_cons.mp hnd
    have hb := hrng b mem_cons_self
    rw [length_cons] at hlen
    obtain ⟨f, M1, hfch, he⟩ := fetchBucket_enters hdma h pend hb.1 hb.2 (hun b mem_cons_self)
    have hctl := he.served.control
    obtain ⟨futures, M', hall, hsrv, hmap, hfut⟩ := ih he.served.coh (b :: pend) hnd' (by omega)
      (fun c hc => by rw [hctl]; exact hrng c (mem_cons_of_mem _ hc))
      (fun c hc => unmapped_of_kept (fun g => he.kept c g fun hcb => hbs (hcb ▸ hc))
        (hun c (mem_cons_of_mem _ hc)))
    refine ⟨(b, true, f) :: futures, M', ?_, ?_, by rw [map_cons, hmap], ?_⟩
    · unfold fetchAll
      simp only [hfch, done_bind, hall, pure_eq]
      rw [hide_congr (q := b :: bs ++ pend)]
      intro c
      simp only [mem_append, mem_cons, or_left_comm, or_assoc]
    · rw [length_cons, add_comm]
      exact he.served.trans hsrv
    · intro y hy
      rcases mem_cons.mp hy with rfl | hy
      · -- the later fetches leave the first frame alone
        have hst := he.stays.mono (show 127 - bs.length + bs.length ≤ 127 by omega)
        exact ⟨rfl, (hsrv.stays hst).1⟩
      · exact hfut y hy

variable {futures : List (ℕ × Bool × Frame)}

lemma consume_cases (act : Access K V α) (hnd : (futures.map Prod.fst).Nodup)
    (hfut : Futures M futures) :
    ((M.hide (futures.map Prod.fst)).consume act futures = (none, M) ∧
        ∀ y ∈ futures, act (M.cache y.2.2) (M.dirtyFlag y.2.2) = none) ∨
      ∃ pre b f post a x d, futures = pre ++ (b, true, f) :: post ∧
        M.bucketTable b = some f ∧ act (M.cache f) (M.dirtyFlag f) = some (a, x, d) ∧
        (M.hide (futures.map Prod.fst)).consume act futures
          = (some a, (M.write f x d).hide (post.map Prod.fst)) := by
  induction futures with
  | nil =>
    refine .inl ⟨?_, ?_⟩
    · rw [map_nil, hide_nil]
      rfl
    · intro y hy
      cases hy
  | cons y futures ih =>
    obtain ⟨b, success, f⟩ := y
    obtain ⟨hsc, hb⟩ := hfut _ mem_cons_self
    rw [map_cons, nodup_cons] at hnd
    subst hsc
    have hvw : act ((M.hide (futures.map Prod.fst)).cache f)
        ((M.hide (futures.map Prod.fst)).dirtyFlag f) = act (M.cache f) (M.dirtyFlag f) := rfl
    rw [map_cons, consume, if_pos rfl, hide_settle hb hnd.1]
    dsimp only
    rw [hvw]
    cases hact : act (M.cache f) (M.dirtyFlag f) with
    | some r =>
      obtain ⟨a, x, d⟩ := r
      exact .inr ⟨[], b, f, futures, a, x, d, rfl, hb, hact, rfl⟩
    | none =>
      rcases ih hnd.2 fun y hy => hfut y (mem_cons_of_mem _ hy) with
        ⟨hcn, hms⟩ | ⟨pre, c, g, post, a, x, d, heq, hc, hhit, hcn⟩
      · refine .inl ⟨hcn, ?_⟩
        intro y hy
        rcases mem_cons.mp hy with rfl | hy
        · exact hact
        · exact hms y hy
      · exact .inr ⟨(b, true, f) :: pre, c, g, post, a, x, d,
          by rw [heq, cons_append], hc, hhit, hcn⟩

lemma consumeSearch_eq [DecidableEq K] (key : K) (hnd : (futures.map Prod.fst).Nodup)
    (hfut : Futures M futures) (r : Option V) :
    (M.hide (futures.map Prod.fst)).consumeSearch key r futures
      = (r.or (futures.findSome? fun y => (M.cache y.2.2).searchSlot key), M) := by
  induction futures generalizing r with
  | nil =>
    rw [map_nil, hide_nil, findSome?_nil, Option.or_none]
    rfl
  | cons y futures ih =>
    obtain ⟨b, success, f⟩ := y
    obtain ⟨hsc, hb⟩ := hfut _ mem_cons_self
    rw [map_cons, nodup_cons] at hnd
    subst hsc
    rw [map_cons]
    conv_lhs => unfold consumeSearch
    rw [if_pos rfl, hide_settle hb hnd.1]
    refine (ih hnd.2 (fun y hy => hfut y (mem_cons_of_mem _ hy)) _).trans ?_
    rw [findSome?_cons, Option.or_assoc]
    show (r.or (((M.cache f).searchSlot key).or _), M) = _
    cases (M.cache f).searchSlot key with
    | none => rfl
    | some v => rfl

/-! ## `ProcessSearch`, `ProcessDelete` and `ProcessUpdate` -/

/-- The candidate buckets of a key. -/
def buckets (env : Env K) (s : Dpu K V) (key : K) : List ℕ :=
  s.get4Buckets (env.hash1 key) (env.hash2 key)

lemma buckets_range (h : Coh base lo s) (key : K) (hb : b ∈ s.buckets env key) :
    s.blStartBucketId ≤ b ∧ b < s.nextStartBucketId ∧ b < s.hi := by
  obtain ⟨q, hq⟩ := h.geometry
  obtain ⟨hlo, hnx⟩ := (hq.get4Buckets_spec _ _).2 b hb
  exact ⟨hlo, hnx, lt_of_lt_of_le hnx hq.nextStart_le_hi⟩

lemma buckets_nodup (h : Coh base lo s) (key : K) : (s.buckets env key).Nodup := by
  obtain ⟨q, hq⟩ := h.geometry
  exact (hq.get4Buckets_spec _ _).1

/-- The candidate buckets that are not in the cache, in the order of the loop. -/
def uncached (env : Env K) (s : Dpu K V) (key : K) : List ℕ :=
  (s.buckets env key).filter fun b => (s.bucketTable b).isNone

lemma Served.cache_eq (h : Served base lo n s s') (hb : s'.bucketTable b = some f)
    (hlo : lo ≤ b) : s'.cache f = s.logical b := by
  rw [← h.logical b hlo, logical_of_table hb]

lemma fetch_uncached (hdma : ∀ i, env.dma i = true) (h : Coh base s.blStartBucketId s)
    (key : K) {s1 : Dpu K V} (ht : Touched 4 s s1) :
    ∃ futures M, s1.fetchAll env (s.uncached env key)
        = .done (futures, M.hide (futures.map Prod.fst)) ∧
      Served base s.blStartBucketId 8 s M ∧
      futures.map Prod.fst = s.uncached env key ∧ (futures.map Prod.fst).Nodup ∧
      Futures M futures ∧
      ∀ y ∈ futures, M.cache y.2.2 = s.logical y.1 ∧ y.1 ∈ s.buckets env key := by
  have hsub : (s.uncached env key).Sublist (s.buckets env key) := filter_sublist
  have hlen : (s.uncached env key).length ≤ 4 := hsub.length_le
  have hnd := (buckets_nodup h key).sublist hsub
  have hsrv := ht.served h
  obtain ⟨futures, M, hall, hM, hmap, hfut⟩ := fetchAll_spec hdma hsrv.coh [] hnd (by omega)
    (fun b hb => by
      have hr := buckets_range h key (hsub.subset hb)
      rw [hsrv.control]
      exact ⟨hr.1, hr.2.2⟩)
    (fun b hb => by
      rw [ht.bucketTable]
      exact Option.isNone_iff_eq_none.mp (mem_filter.mp hb).2)
  rw [hide_nil, append_nil] at hall
  have hM' := (hsrv.trans hM).mono (show _ ≤ 8 by omega)
  refine ⟨futures, M, ?_, hM', hmap, by rw [hmap]; exact hnd, hfut, ?_⟩
  · rw [hmap]
    exact hall
  · intro y hy
    have hmem : y.1 ∈ s.uncached env key := hmap ▸ mem_map_of_mem hy
    have hbs := hsub.subset hmem
    exact ⟨hM'.cache_eq (hfut y hy).2 (buckets_range h key hbs).1, hbs⟩

lemma exists_future {key : K} (hmap : futures.map Prod.fst = s.uncached env key)
    (hb : b ∈ s.buckets env key) (hun : s.bucketTable b = none) : ∃ y ∈ futures, y.1 = b := by
  have hmem : b ∈ futures.map Prod.fst := by
    rw [hmap]
    exact mem_filter.mpr ⟨hb, by rw [hun]; rfl⟩
  exact mem_map.mp hmem

/-- **`ProcessSearch`** returns what the candidate buckets hold for the key. -/
lemma processSearch_spec [DecidableEq K] (hdma : ∀ i, env.dma i = true)
    (h : Coh base s.blStartBucketId s) (key : K) :
    ∃ r s', s.processSearch env key = .done (r, s') ∧ Served base s.blStartBucketId 8 s s' ∧
      ((r = none ∧ ∀ b ∈ s.buckets env key, (s.logical b).searchSlot key = none) ∨
        ∃ b ∈ s.buckets env key, ∃ v, (s.logical b).searchSlot key = some v ∧ r = some v) := by
  have hacc : ∀ (x : Bucket K V) (d : Bool), searchAccess key x d = none ↔
      x.searchSlot key = none := fun x d => Option.map_eq_none_iff
  obtain ⟨s1, ht, hcs⟩ := scan_cases (searchAccess key) h (s.buckets env key)
  rcases hcs with ⟨hsc, hms⟩ | ⟨b, hb, f, v, x, d, l, hbt, hhit, hsc⟩
  · obtain ⟨futures, M, hall, hM, hmap, hnd, hfut, hlog⟩ := fetch_uncached hdma h key ht
    change s.scan _ _ = .done (none, s.uncached env key, s1) at hsc
    refine ⟨futures.findSome? fun y => (M.cache y.2.2).searchSlot key, M, ?_, hM, ?_⟩
    · unfold processSearch
      rw [show s.scan _ (s.get4Buckets _ _) = _ from hsc]
      simp only [hall, done_bind, pure_eq]
      rw [consumeSearch_eq key hnd hfut, Option.none_or]
    · cases hr : futures.findSome? fun y => (M.cache y.2.2).searchSlot key with
      | none =>
        refine .inl ⟨rfl, fun b hb => ?_⟩
        cases hbt : s.bucketTable b with
        | some f =>
          rw [logical_of_table hbt]
          exact (hacc _ _).mp (hms b hb f hbt)
        | none =>
          obtain ⟨y, hy, rfl⟩ := exists_future hmap hb hbt
          rw [← (hlog y hy).1]
          exact findSome?_eq_none_iff.mp hr y hy
      | some v =>
        obtain ⟨y, hy, hv⟩ := exists_of_findSome?_eq_some hr
        refine .inr ⟨y.1, (hlog y hy).2, v, ?_, rfl⟩
        rw [← (hlog y hy).1]
        exact hv
  · obtain ⟨v', hv, heq⟩ := Option.map_eq_some_iff.mp hhit
    cases heq
    refine ⟨some v, s1, ?_, (ht.served h).mono (show 4 ≤ 8 by decide), .inr ⟨b, hb, v, ?_, rfl⟩⟩
    · unfold processSearch
      rw [show s.scan _ (s.get4Buckets _ _) = _ from hsc]
      simp only [done_bind, pure_eq]
      rw [← ht.cache, ← ht.dirtyFlag, write_same]
    · rw [logical_of_table hbt]
      exact hv

/-- **`ProcessDelete` and `ProcessUpdate`**: all candidates miss; or a cached one
hits; or a fetched one hits, and the fetched buckets behind it stay hidden. -/
lemma processWith_cases (act : Access K V Unit) (hdma : ∀ i, env.dma i = true)
    (h : Coh base s.blStartBucketId s) (key : K) :
    ∃ M, Served base s.blStartBucketId 8 s M ∧
      ((s.processWith act env key = .done (false, M) ∧
          ∀ b ∈ s.buckets env key, ∃ d, act (s.logical b) d = none) ∨
        ∃ b ∈ s.buckets env key, ∃ f x d pend, M.bucketTable b = some f ∧
          act (s.logical b) (M.dirtyFlag f) = some ((), x, d) ∧
          s.processWith act env key = .done (true, (M.write f x d).hide pend) ∧
          (pend = [] ∨ (∃ pre, s.uncached env key = pre ++ b :: pend) ∧
            ∀ b ∈ s.buckets env key, s.bucketTable b ≠ none →
              ∃ d, act (s.logical b) d = none)) := by
  obtain ⟨s1, ht, hcs⟩ := scan_cases act h (s.buckets env key)
  rcases hcs with ⟨hsc, hms⟩ | ⟨b, hb, f, a, x, d, l, hbt, hhit, hsc⟩
  · have hca : ∀ b ∈ s.buckets env key, s.bucketTable b ≠ none →
        ∃ d, act (s.logical b) d = none := by
      intro b hb hne
      obtain ⟨f, hf⟩ := Option.ne_none_iff_exists'.mp hne
      rw [logical_of_table hf]
      exact ⟨_, hms b hb f hf⟩
    obtain ⟨futures, M, hall, hM, hmap, hnd, hfut, hlog⟩ := fetch_uncached hdma h key ht
    change s.scan _ _ = .done (none, s.uncached env key, s1) at hsc
    have hrun : s.processWith act env key
        = .done (((M.hide (futures.map Prod.fst)).consume act futures).1.isSome,
          ((M.hide (futures.map Prod.fst)).consume act futures).2) := by
      unfold processWith
      rw [show s.scan _ (s.get4Buckets _ _) = _ from hsc]
      simp only [hall, done_bind, pure_eq]
    refine ⟨M, hM, ?_⟩
    rcases consume_cases act hnd hfut with
      ⟨hcn, hno⟩ | ⟨pre, b, f, post, a, x, d, heq, hbt, hhit, hcn⟩
    · refine .inl ⟨by rw [hrun, hcn]; rfl, fun b hb => ?_⟩
      by_cases hbt : s.bucketTable b = none
      · obtain ⟨y, hy, rfl⟩ := exists_future hmap hb hbt
        rw [← (hlog y hy).1]
        exact ⟨_, hno y hy⟩
      · exact hca b hb hbt
    · have hmem : (b, true, f) ∈ futures := by
        rw [heq]
        exact mem_append_right _ mem_cons_self
      have hb := hlog _ hmem
      refine .inr ⟨b, hb.2, f, x, d, post.map Prod.fst, hbt, ?_, ?_, .inr ⟨?_, hca⟩⟩
      · rw [← hb.1]
        exact hhit
      · rw [hrun, hcn]
        rfl
      · refine ⟨pre.map Prod.fst, ?_⟩
        rw [← hmap, heq, map_append, map_cons]
  · refine ⟨s1, (ht.served h).mono (show 4 ≤ 8 by decide), .inr
      ⟨b, hb, f, x, d, [], by rw [ht.bucketTable]; exact hbt, ?_, ?_, .inl rfl⟩⟩
    · rw [logical_of_table hbt, ht.dirtyFlag]
      exact hhit
    · unfold processWith
      rw [show s.scan _ (s.get4Buckets _ _) = _ from hsc, hide_nil]
      rfl

end Librdpma.LevelKv.Dpu
