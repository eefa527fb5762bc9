import Librdpma.LevelKv.Expansion

/-!
# The number of pairs and `size_`

The dispatch loop adds one to `size_` when `ProcessInsert` returns `true`, and
nothing takes one away. So the counter is right as long as a `DELETE` finds
nothing, an `INSERT` moves no occupant (the new pair is then not inserted,
since `ENSURE` does not evaluate its argument), and an expansion has no bottom
pair to copy (for the same reason it would not copy it).
-/

namespace Librdpma.LevelKv.Dpu

open Lib List Finset

variable {K V : Type} {env : Env K} {s s' : Dpu K V}

/-- `size_` is the number of pairs in the logical table. -/
structure Accounted (s : Dpu K V) : Prop where
  coh : Coh 0 s.blStartBucketId s
  eight : s.clients = 8
  size : s.size = s.pairs.card

lemma Becomes.pairs {base n : ℕ} {table : ℕ → Bucket K V} (h : Becomes base s table n s') :
    s'.pairs = Bucket.pairsOn table (Finset.Ico s.blStartBucketId s.nextStartBucketId) := by
  unfold Dpu.pairs
  rw [h.control]
  exact Bucket.pairsOn_congr fun b hb => h.logical b (mem_Ico.mp hb).1

/-- A state that a request leaves is accounted if its table has grown by what
was added to the counter. -/
lemma Accounted.becomes {n : ℕ} {table : ℕ → Bucket K V} (h : Accounted s)
    (hbec : Becomes 0 s table n s')
    (hcard : (Bucket.pairsOn table
      (Finset.Ico s.blStartBucketId s.nextStartBucketId)).card = s.pairs.card + n) :
    Accounted s' := by
  refine ⟨hbec.coherent, by rw [hbec.control]; exact h.eight, ?_⟩
  rw [hbec.pairs, hcard, hbec.control, ← h.size]

section Step

variable [DecidableEq K]

lemma Accounted.effect {r : Request K V} {a : Option (Option V)} {table : ℕ → Bucket K V} {n : ℕ}
    (h : Accounted s) (heff : Effect env s r a table n) (hbec : Becomes 0 s table n s')
    (hdel : ∀ key, r = .delete key →
      ∀ b ∈ s.buckets env key, (s.logical b).slotOf key = none) : Accounted s' := by
  cases heff with
  | @inserted key value b y hb hy =>
    have hr := buckets_range h.coh key hb
    refine h.becomes hbec ?_
    rw [Bucket.pairsOn_update (mem_Ico.mpr ⟨hr.1, hr.2.1⟩)
      (Bucket.contents_insertSlot hy), Multiset.card_cons]
    rfl
  | @deleted key b y hb hy =>
    have hno : (s.logical b).deleteSlot key = none := Option.map_eq_none_iff.mpr (hdel key rfl b hb)
    rw [hno] at hy
    cases hy
  | hit hb hv | miss h' | dropped h' | absent h' | ignored | started => exact h.becomes hbec rfl

/-- The request leaves the counter right. -/
def Counted (env : Env K) (s : Dpu K V) : Request K V → Prop
  | .delete key => ∀ b ∈ s.buckets env key, (s.logical b).slotOf key = none
  | .insert key _ => (s.overloaded env = true → BottomEmpty s) ∧
      (s.overloaded env = false → InsertSettles env s key)
  | _ => True

end Step

/-! ## An expansion without bottom pairs -/

lemma splitRecency_of_empty {b : ℕ} (hb : ∀ i, (s.logical b).token i = false)
    (r : List ℕ) : b ∈ splitRecency env s b r := by
  have hnil : (finRange 4).flatMap (slotAccesses env s (s.logical b)) = [] := by
    rw [flatMap_eq_nil_iff]
    intro i _
    unfold slotAccesses
    rw [hb i, if_neg Bool.false_ne_true]
  unfold splitRecency
  rw [hnil]
  show b ∈ if b ∈ r then r else use 128 b r
  split
  · assumption
  · exact mem_use (by decide)

lemma SplitsKeep.of_empty {bs : List ℕ}
    (h : ∀ b ∈ bs, ∀ i, (s.logical b).token i = false) (r : List ℕ) :
    SplitsKeep env s r bs := by
  induction bs generalizing r with
  | nil => trivial
  | cons b bs ih =>
    exact ⟨splitRecency_of_empty (h b mem_cons_self) r,
      ih (fun c hc => h c (mem_cons_of_mem _ hc)) _⟩

variable [Inhabited K] [Inhabited V]

lemma Expanded.accounted (h : Expanded 0 s s') (hs : Accounted s) (hnil : BottomEmpty s) :
    Accounted s' := by
  obtain ⟨q, hq⟩ := hs.coh.geometry
  rw [← (bottomPairs_eq_zero_iff hq).mpr hnil] at h
  exact ⟨h.coh, h.eight, by rw [h.size_eq, hs.size, h.pairs_eq hq]⟩

/-- After an expansion that copies nothing the new top level is empty. -/
lemma Expanded.exists_empty (env : Env K) (h : Expanded 0 s s') (key : K) :
    ∃ b ∈ s'.buckets env key, ∀ i, (s'.logical b).token i = false := by
  obtain ⟨q', hq'⟩ := h.coh.geometry
  have hmem : s'.addrCapacity - 4 + env.hash1 key % (s'.addrCapacity / 2)
      ∈ s'.buckets env key := mem_cons_self
  have hnil := h.newTop
  unfold Bucket.pairsOn at hnil
  rw [Finset.sum_eq_zero_iff] at hnil
  refine ⟨_, hmem, Bucket.contents_eq_zero_iff.mp (hnil _ ?_)⟩
  refine mem_Ico.mpr ⟨?_, (buckets_range h.coh key hmem).2.1⟩
  have h1 := hq'.tlStart
  have h2 := hq'.addrCapacity
  omega

lemma Expanded.insertSettles (h : Expanded 0 s s') (key : K) : InsertSettles env s' key := by
  obtain ⟨b, hb, hnil⟩ := h.exists_empty env key
  refine .inl ⟨b, hb, fun hfu => ?_⟩
  cases (Bucket.freeSlot_none hfu 0).symm.trans (hnil 0)

lemma expand_of_bottomEmpty (hdma : ∀ i, env.dma i = true) (h : Coh 0 s.blStartBucketId s)
    (h8 : s.clients = 8) (hnil : BottomEmpty s) :
    ∃ s', s.expand env = .done s' ∧ Expanded 0 s s' := by
  obtain ⟨q, hq⟩ := h.geometry
  obtain ⟨s', hrun, hs'⟩ := (expand_sat hdma h h8
    (SplitsKeep.of_empty hnil s.recency)).exists_done fun hne => absurd hnil hne.2
  rw [(bottomPairs_eq_zero_iff hq).mpr hnil, inserted_zero] at hs'
  exact ⟨s', hrun, hs'⟩

/-! ## Runs -/

variable [DecidableEq K]

lemma insert_expand_accounted (hdma : ∀ i, env.dma i = true) (h : Accounted s)
    {x : K × V} (hov : s.overloaded env = true) (hnil : BottomEmpty s) :
    ∃ a s', s.handle env (.insert x.1 x.2) = .done (a, s') ∧ Accounted s' := by
  obtain ⟨s1, hexp, hs1⟩ := expand_of_bottomEmpty hdma h.coh h.eight hnil
  have h1 := hs1.accounted h hnil
  obtain ⟨r, s', table, hrun, heff, hbec⟩ := insert_effect (x := x) hdma h1.coh
    (hs1.insertSettles x.1)
  have hpr : s.processInsert env x = .done (r, s') := by
    unfold processInsert
    rw [hov, if_pos rfl, hexp]
    exact hrun
  refine ⟨none, _, ?_, h1.effect heff hbec.size fun key hr => by cases hr⟩
  rw [handle, hpr]
  cases r with
  | true => rfl
  | false => rfl

lemma handle_accounted (hdma : ∀ i, env.dma i = true) (h : Accounted s)
    (r : Request K V) (hr : Counted env s r) :
    ∃ a s', s.handle env r = .done (a, s') ∧ Accounted s' := by
  by_cases hexp : NoExpand env s r
  · have hset : Settles env s r := by
      cases r with
      | insert key value => exact hr.2 hexp
      | delete key =>
        refine .inr fun b hb => hr b ?_
        exact (mem_filter.mp (mem_of_mem_dropLast hb)).1
      | search key => trivial
      | update key value => trivial
      | start => trivial
    obtain ⟨a, s', table, n, hrun, heff, hbec⟩ := handle_effect hdma h.coh r hexp hset
    exact ⟨a, s', hrun, h.effect heff hbec fun key hkey => by subst hkey; exact hr⟩
  · cases r with
    | insert key value =>
      have hov : s.overloaded env = true := by
        by_contra hne
        exact hexp (Bool.eq_false_iff.mpr hne)
      exact insert_expand_accounted (x := (key, value)) hdma h hov (hr.1 hov)
    | delete key | search key | update key value | start => exact absurd trivial hexp

omit [DecidableEq K] in
lemma init_accounted {level : ℕ} (h : 3 ≤ level) : Accounted (init level : Dpu K V) := by
  have hc := init_coh (K := K) (V := V) h
  refine ⟨⟨hc.geometry, hc.wf, hc.partition, hc.free, hc.held, hc.table,
    fun b f hb => ⟨Nat.zero_le b, (hc.bound b f hb).2⟩, hc.dirty, hc.clean, hc.low,
    Nat.zero_le _⟩, rfl, ?_⟩
  have hz : (init level : Dpu K V).pairs = 0 := by
    unfold pairs Bucket.pairsOn
    refine Finset.sum_eq_zero fun b _ => ?_
    rw [logical_of_none (s := (init level : Dpu K V)) rfl]
    exact Bucket.contents_zero
  rw [hz]
  rfl

/-- **The counter over whole runs.** In every run from the constructor's state
whose requests all leave the counter right, `size_` is the number of stored
pairs at every request boundary, and the next such request returns. -/
theorem counted_runs_size (env : Env K) (hdma : ∀ i, env.dma i = true) (level : ℕ)
    (hlevel : 3 ≤ level) (s : Dpu K V) (hs : Reaches env (Counted env) (init level) s) :
    s.size = s.pairs.card ∧ ∀ r, Counted env s r → ∃ a s', s.handle env r = .done (a, s') := by
  have hacc : Accounted s := by
    refine hs.invariant (init_accounted hlevel) ?_
    intro s r a s' hI hok hrun
    obtain ⟨a', t, hrun', ht⟩ := handle_accounted hdma hI r hok
    rw [hrun] at hrun'
    cases hrun'
    exact ht
  refine ⟨hacc.size, fun r hr => ?_⟩
  obtain ⟨a, s', hrun, -⟩ := handle_accounted hdma hacc r hr
  exact ⟨a, s', hrun⟩

/-- An insertion into the empty table. -/
theorem insert_size : ∃ s : Dpu FixedKey FixedValue,
      Reaches (byteEnv false) (Counted (byteEnv false)) (init 3) s ∧ s.size = s.pairs.card := by
  have hok : Counted (byteEnv false) (init 3 : Dpu FixedKey FixedValue)
      (.insert (byteKey 1) (byteValue 1)) := by
    refine ⟨fun hov => ?_, fun _ => .inl ⟨_, mem_cons_self, by decide⟩⟩
    cases hov
  obtain ⟨a, s, hrun, -⟩ := handle_accounted (fun _ => rfl) (init_accounted (by decide)) _ hok
  have hrch : Reaches (byteEnv false) (Counted (byteEnv false)) (init 3) s := .step .init hok hrun
  exact ⟨s, hrch, (counted_runs_size _ (fun _ => rfl) 3 (by decide) s hrch).1⟩

/-- A key is inserted and deleted again: the table is empty and `size_` is 1. -/
theorem delete_keeps_size : ∃ s : Dpu FixedKey FixedValue,
      Reaches (byteEnv false) (fun _ _ => True) (init 3) s ∧ s.size = 1 ∧ s.pairs = 0 := by
  obtain ⟨⟨as, s⟩, hdn, hsz, hall⟩ : ∃ r, (init 3 : Dpu FixedKey FixedValue).runAll
      (byteEnv false) [.insert (byteKey 1) (byteValue 7), .delete (byteKey 1)] = .done r ∧
        r.2.size = 1 ∧
        ∀ b ∈ range' r.2.blStartBucketId (r.2.nextStartBucketId - r.2.blStartBucketId),
          (r.2.logical b).count = 0 := by
    decide +kernel
  dsimp only at hall
  refine ⟨s, Reaches.init.runAll (fun _ _ _ => trivial) hdn, hsz, ?_⟩
  unfold pairs Bucket.pairsOn
  refine Finset.sum_eq_zero fun b hb => ?_
  have hr := Finset.mem_Ico.mp hb
  rw [← Multiset.card_eq_zero, Bucket.card_contents]
  exact hall b (mem_range'_1.mpr (by omega))

end Librdpma.LevelKv.Dpu
