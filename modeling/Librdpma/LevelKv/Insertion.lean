import Librdpma.LevelKv.Handlers

/-!
# `ProcessInsert` on a coherent cache

The two top buckets are tried, then the two bottom ones. Only when all four
candidates are full does the code try to move an occupant of one of them to a
top bucket of its own. `insertNoExpand_cases` says which of this happens;
`move_none` covers the case that no occupant can be moved.
-/

namespace Librdpma.LevelKv.Dpu

open Lib List Outcome

variable {K V : Type} {env : Env K} {base lo n : ℕ} {s s' M : Dpu K V} {f : Frame} {b b0 b1 : ℕ}

lemma processInsert_of_not_overloaded [Inhabited K] [Inhabited V]
    (hld : s.overloaded env = false) (x : K × V) :
    s.processInsert env x = s.insertNoExpand env x := by
  unfold processInsert
  rw [hld]
  rfl

/-! ## Two buckets at a time -/

/-- The bucket is pending if it has a future. -/
def waiting (b : ℕ) (x : Option Bool × Frame) : List ℕ :=
  if x.1.isSome then [b] else []

/-- A frame for bucket `b` in `M`, with a future that will succeed if there is one. -/
structure Obtains (M : Dpu K V) (b : ℕ) (x : Option Bool × Frame) : Prop where
  success : x.1 = none ∨ x.1 = some true
  table : M.bucketTable b = some x.2

lemma mem_waiting {c : ℕ} {x : Option Bool × Frame} (h : c ∈ waiting b x) : c = b := by
  unfold waiting at h
  split at h
  · exact mem_singleton.mp h
  · cases h

lemma lookupOrFetch_spec (hdma : ∀ i, env.dma i = true) (h : Coh base lo M)
    {pend : List ℕ} (hp : b ∉ pend) (hb : M.blStartBucketId ≤ b) (hhi : b < M.hi) :
    ∃ x M', (M.hide pend).lookupOrFetch env b = .done (x, M'.hide (waiting b x ++ pend)) ∧
      Served base lo 1 M M' ∧ Obtains M' b x ∧ Stays 127 M' b x.2 := by
  have htab : (M.hide pend).bucketTable b = M.bucketTable b := if_neg hp
  unfold lookupOrFetch
  rw [htab]
  cases hbt : M.bucketTable b with
  | some f =>
    have ht := recordAccess_touched h hbt
    exact ⟨(none, f), M.recordAccess f, rfl, ht.1.served h, ⟨.inl rfl, hbt⟩, ht.2⟩
  | none =>
    obtain ⟨f, M', hfch, he⟩ := fetchBucket_enters hdma h pend hb hhi hbt
    refine ⟨(some true, f), M', ?_, he.served, ⟨.inr rfl, he.stays.1⟩, he.stays⟩
    simp only [hfch, done_bind, pure_eq]
    rfl

lemma settleFetched_spec {x : Option Bool × Frame} {pend : List ℕ}
    (hx : Obtains M b x) (hp : b ∉ pend) :
    (M.hide (waiting b x ++ pend)).settleFetched b x = some (M.hide pend) := by
  obtain ⟨fut, f⟩ := x
  rcases hx.success with hno | hsome
  · subst hno
    rfl
  · subst hsome
    exact congrArg some (hide_settle hx.table hp)

lemma lessLoaded_full {f0 f1 : Frame} (h : (s.cache (s.lessLoaded f0 f1)).freeSlot = none) :
    (s.cache f0).freeSlot = none ∧ (s.cache f1).freeSlot = none := by
  have h0 := (s.cache f0).count_le
  have h1 := (s.cache f1).count_le
  rw [Bucket.freeSlot_eq_none_iff] at h ⊢
  rw [Bucket.freeSlot_eq_none_iff]
  unfold lessLoaded at h
  split at h <;> omega

lemma lessLoaded_cases (s : Dpu K V) (f0 f1 : Frame) :
    s.lessLoaded f0 f1 = f0 ∨ s.lessLoaded f0 f1 = f1 := by
  unfold lessLoaded
  split
  · exact .inr rfl
  · exact .inl rfl

/-- **`tryInsertInto2Buckets`** inserts unless both buckets are full. -/
lemma tryInsertInto2Buckets_cases (hdma : ∀ i, env.dma i = true) (h : Coh base lo s)
    (hne : b0 ≠ b1) (hb0 : lo ≤ b0 ∧ b0 < s.hi) (hb1 : lo ≤ b1 ∧ b1 < s.hi) (x : K × V) :
    ∃ M f0 f1, Served base lo 2 s M ∧ Stays 126 M b0 f0 ∧ Stays 126 M b1 f1 ∧
      ((s.tryInsertInto2Buckets env b0 b1 x = .done (false, M) ∧
          (s.logical b0).freeSlot = none ∧ (s.logical b1).freeSlot = none) ∨
        ∃ b f y, (b = b0 ∨ b = b1) ∧ M.bucketTable b = some f ∧
          (s.logical b).insertSlot x.1 x.2 = some y ∧
          s.tryInsertInto2Buckets env b0 b1 x = .done (true, M.write f y true)) := by
  have hlow := h.low
  obtain ⟨x0, M0, hrun0, hM0, ho0, hs0⟩ := lookupOrFetch_spec hdma h
    (show b0 ∉ [] from not_mem_nil) (le_trans hlow hb0.1) hb0.2
  have hp1 : b1 ∉ waiting b0 x0 := fun hmem => hne (mem_waiting hmem).symm
  obtain ⟨x1, M, hrun1, hM1, ho1, hs1⟩ := lookupOrFetch_spec hdma hM0.coh hp1
    (by rw [hM0.control]; exact le_trans hlow hb1.1) (by rw [hM0.control]; exact hb1.2)
  have hp0 : b0 ∉ waiting b1 x1 := fun hmem => hne (mem_waiting hmem)
  have hM := hM0.trans hM1
  have hs0' : Stays 126 M b0 x0.2 := hM1.stays hs0
  have hc0 : M.cache x0.2 = s.logical b0 := hM.cache_eq hs0'.1 hb0.1
  have hc1 : M.cache x1.2 = s.logical b1 := hM.cache_eq hs1.1 hb1.1
  have hrun : s.tryInsertInto2Buckets env b0 b1 x
      = ((M.cache (M.lessLoaded x0.2 x1.2)).insertSlot x.1 x.2).elim (.done (false, M))
        fun y => .done (true, M.write (M.lessLoaded x0.2 x1.2) y true) := by
    rw [hide_nil] at hrun0
    rw [append_nil] at hrun0
    unfold tryInsertInto2Buckets
    simp only [hrun0, done_bind, hrun1]
    rw [hide_congr (q := waiting b0 x0 ++ waiting b1 x1)
        fun c => by rw [mem_append, mem_append, or_comm],
      settleFetched_spec ⟨ho0.success, hs0'.1⟩ hp0]
    dsimp only
    rw [← append_nil (waiting b1 x1), settleFetched_spec ho1 not_mem_nil]
    rw [hide_nil]
    dsimp only
    cases (M.cache (M.lessLoaded x0.2 x1.2)).insertSlot x.1 x.2 <;> rfl
  refine ⟨M, x0.2, x1.2, hM, hs0', hs1.mono (by decide), ?_⟩
  rw [hrun]
  cases hins : (M.cache (M.lessLoaded x0.2 x1.2)).insertSlot x.1 x.2 with
  | none =>
    have hfu := lessLoaded_full (Bucket.insertSlot_none.mp hins)
    rw [hc0, hc1] at hfu
    exact .inl ⟨rfl, hfu⟩
  | some y =>
    right
    rcases M.lessLoaded_cases x0.2 x1.2 with hls | hls
    · rw [hls] at hins ⊢
      rw [hc0] at hins
      exact ⟨b0, x0.2, y, .inl rfl, hs0'.1, hins, rfl⟩
    · rw [hls] at hins ⊢
      rw [hc1] at hins
      exact ⟨b1, x1.2, y, .inr rfl, hs1.1, hins, rfl⟩

variable {x : K × V}

lemma insertNoExpand_eq {a b c d : ℕ} (hbs : s.buckets env x.1 = [a, b, c, d]) (e : Bool) :
    s.insertNoExpand (env.withEnsure e) x = s.tryInsertInto2Buckets env a b x >>= fun p =>
      if p.1 then .done (true, p.2)
      else p.2.tryInsertInto2Buckets env c d x >>= fun q =>
        if q.1 then .done (true, q.2)
        else q.2.untilTrue (moveFrom (env.withEnsure e) x) [a, b, c, d] := by
  unfold insertNoExpand
  rw [show s.get4Buckets ((env.withEnsure e).hash1 x.1) ((env.withEnsure e).hash2 x.1)
    = [a, b, c, d] from hbs]
  rfl

/-- The pair goes into a candidate with a free slot, or all four are full and the
code goes on to move an occupant. -/
lemma insertNoExpand_tries (hdma : ∀ i, env.dma i = true)
    (h : Coh base s.blStartBucketId s) (x : K × V) :
    ∃ M, Served base s.blStartBucketId 4 s M ∧
      ((∃ b ∈ s.buckets env x.1, ∃ f y, M.bucketTable b = some f ∧
          (s.logical b).insertSlot x.1 x.2 = some y ∧
          ∀ e, s.insertNoExpand (env.withEnsure e) x = .done (true, M.write f y true)) ∨
        ((∀ b ∈ s.buckets env x.1, (s.logical b).freeSlot = none) ∧
          (∀ b ∈ s.buckets env x.1, ∃ f, Stays 124 M b f) ∧
          ∀ e, s.insertNoExpand (env.withEnsure e) x
            = M.untilTrue (moveFrom (env.withEnsure e) x) (s.buckets env x.1))) := by
  have hnd : (s.buckets env x.1).Nodup := buckets_nodup h x.1
  have hrng := fun b (hb : b ∈ s.buckets env x.1) => buckets_range h x.1 hb
  obtain ⟨a, b, c, d, hbs⟩ : ∃ a b c d, s.buckets env x.1 = [a, b, c, d] := ⟨_, _, _, _, rfl⟩
  rw [hbs] at hnd hrng ⊢
  simp only [nodup_cons, mem_cons, not_mem_nil, or_false, not_or] at hnd
  have ha := hrng a (by simp)
  have hb := hrng b (by simp)
  have hc := hrng c (by simp)
  have hd := hrng d (by simp)
  obtain ⟨M1, fa, fb, hM1, hsa, hsb, htry1⟩ := tryInsertInto2Buckets_cases hdma h
    hnd.1.1 ⟨ha.1, ha.2.2⟩ ⟨hb.1, hb.2.2⟩ x
  have hrun := insertNoExpand_eq hbs
  rcases htry1 with ⟨htry1, hfa, hfb⟩ | ⟨e, f, y, he, hf, hins, htry1⟩
  · simp only [htry1, done_bind, Bool.false_eq_true, if_false] at hrun
    have hcd := hM1.control
    obtain ⟨M2, fc, fd, hM2, hsc, hsd, htry2⟩ := tryInsertInto2Buckets_cases hdma hM1.coh
      hnd.2.2.1 (by rw [hcd]; exact ⟨hc.1, hc.2.2⟩) (by rw [hcd]; exact ⟨hd.1, hd.2.2⟩) x
    rw [hM1.logical c hc.1, hM1.logical d hd.1] at htry2
    refine ⟨M2, hM1.trans hM2, ?_⟩
    rcases htry2 with ⟨htry2, hfc, hfd⟩ | ⟨e, f, y, he, hf, hins, htry2⟩
    · right
      refine ⟨?_, ?_, ?_⟩
      · intro e he
        simp only [mem_cons, not_mem_nil, or_false] at he
        rcases he with rfl | rfl | rfl | rfl <;> assumption
      · intro e he
        simp only [mem_cons, not_mem_nil, or_false] at he
        rcases he with rfl | rfl | rfl | rfl
        · exact ⟨fa, hM2.stays hsa⟩
        · exact ⟨fb, hM2.stays hsb⟩
        · exact ⟨fc, hsc.mono (by decide)⟩
        · exact ⟨fd, hsd.mono (by decide)⟩
      · intro e
        simp only [hrun, htry2, done_bind, Bool.false_eq_true, if_false]
    · left
      refine ⟨e, ?_, f, y, hf, ?_, ?_⟩
      · rcases he with rfl | rfl <;> simp
      · rcases he with rfl | rfl
        · rw [← hM1.logical e hc.1]
          exact hins
        · rw [← hM1.logical e hd.1]
          exact hins
      · intro e
        simp only [hrun, htry2, done_bind, if_true]
  · refine ⟨M1, hM1.mono (by decide), .inl ⟨e, ?_, f, y, hf, hins, ?_⟩⟩
    · rcases he with rfl | rfl <;> simp
    · intro e
      simp only [hrun, htry1, done_bind, if_true]

/-! ## Moving an occupant -/

lemma load_of_table (h : s.bucketTable b = some f) : s.load env b = .done (f, s) := by
  unfold load
  rw [h]
  rfl

/-- A loop run under several definitions `E`: it ends with `Q` at the first success.
`k` is what one round takes from the budget `I` counts down, and `R` is what every
round without success has seen. -/
lemma untilTrue_cases {E β : Type} {F : E → Dpu K V → β → Outcome (Bool × Dpu K V)}
    {I : ℕ → Dpu K V → Prop} {Q : (E → Dpu K V) → Prop} {R : β → Prop} {k : ℕ} {l : List β}
    (hbd : ∀ a ∈ l, ∀ j s, I (j + k) s →
      (∃ t, (∀ e, F e s a = .done (true, t e)) ∧ Q t) ∨
        ∃ t, (∀ e, F e s a = .done (false, t)) ∧ I j t ∧ R a)
    {j : ℕ} (hs : I (j + l.length * k) s) :
    (∃ t, (∀ e, s.untilTrue (F e) l = .done (true, t e)) ∧ Q t) ∨
      ∃ t, (∀ e, s.untilTrue (F e) l = .done (false, t)) ∧ I j t ∧ ∀ a ∈ l, R a := by
  induction l generalizing s with
  | nil =>
    refine .inr ⟨s, fun _ => rfl, ?_, fun a ha => absurd ha not_mem_nil⟩
    rwa [length_nil, zero_mul, add_zero] at hs
  | cons a l ih =>
    rw [length_cons, Nat.succ_mul, ← add_assoc] at hs
    unfold untilTrue
    rcases hbd a mem_cons_self _ s hs with ⟨t, hrun, ht⟩ | ⟨t, hrun, ht, hR⟩
    · refine .inl ⟨t, fun e => ?_, ht⟩
      simp only [hrun, done_bind, if_true, pure_eq]
    · simp only [hrun, done_bind, Bool.false_eq_true, if_false, forall_mem_cons]
      refine (ih (fun b hb => hbd b (mem_cons_of_mem _ hb)) ht).imp_right ?_
      rintro ⟨t, hrun', ht', hR'⟩
      exact ⟨t, hrun', ht', hR, hR'⟩

/-- The state of the search for an occupant to move: nothing has changed since
`s0` but the cache, in which the four candidates keep their frames for `j`
more accesses. -/
structure Parked (base lo : ℕ) (s0 : Dpu K V) (bs : List ℕ) (frame : ℕ → Frame) (j : ℕ)
    (s : Dpu K V) : Prop where
  coh : Coh base lo s
  control : s.toControl = s0.toControl
  logical : ∀ c, lo ≤ c → s.logical c = s0.logical c
  stays : ∀ b ∈ bs, Stays j s b (frame b)

variable {s0 : Dpu K V} {bs : List ℕ} {frame : ℕ → Frame} {j : ℕ}

lemma Parked.served (h : Parked base lo s0 bs frame (j + n) s)
    (hs : Served base lo n s s') : Parked base lo s0 bs frame j s' := by
  refine ⟨hs.coh, hs.control.trans h.control, ?_, fun b hb => hs.stays (h.stays b hb)⟩
  intro c hc
  rw [hs.logical c hc, h.logical c hc]

lemma Parked.mono {i : ℕ} (h : Parked base lo s0 bs frame j s) (hij : i ≤ j) :
    Parked base lo s0 bs frame i s :=
  ⟨h.coh, h.control, h.logical, fun b hb => (h.stays b hb).mono hij⟩

lemma Parked.cache_eq (h : Parked base lo s0 bs frame j s) (hb : b ∈ bs) (hlo : lo ≤ b) :
    s.cache (frame b) = s0.logical b := by
  rw [← h.logical b hlo, logical_of_table (h.stays b hb).1]

/-- No occupant of bucket `b` has room in another top bucket. -/
def NoMoveFrom (env : Env K) (s : Dpu K V) (b : ℕ) : Prop :=
  ∀ slot, ∀ d ∈ (s.buckets env ((s.logical b).slots slot).1).take 2,
    d ≠ b → (s.logical d).freeSlot = none

instance decidableNoMoveFrom (env : Env K) (s : Dpu K V) (b : ℕ) :
    Decidable (NoMoveFrom env s b) := by
  unfold NoMoveFrom
  infer_instance

/-- No occupant of a candidate of `key` has room in another top bucket. -/
def NoMove (env : Env K) (s : Dpu K V) (key : K) : Prop :=
  ∀ b ∈ s.buckets env key, NoMoveFrom env s b

instance decidableNoMove (env : Env K) (s : Dpu K V) (key : K) : Decidable (NoMove env s key) := by
  unfold NoMove
  infer_instance

/-- The pair in a slot of bucket `b` has been copied to another of its top buckets
and its token is cleared. -/
inductive Displaced (env : Env K) (base lo : ℕ) (s0 : Dpu K V) (bs : List ℕ)
    (frame : ℕ → Frame) (b : ℕ) : Dpu K V → Prop where
  | mk {s : Dpu K V} {slot : Fin 4} {d : ℕ} {g : Frame} {y : Bucket K V}
      (parked : Parked base lo s0 bs frame 0 s)
      (mem : d ∈ (s0.buckets env ((s0.logical b).slots slot).1).take 2) (ne : d ≠ b)
      (table : s.bucketTable d = some g)
      (insert : (s0.logical d).insertSlot ((s0.logical b).slots slot).1
        ((s0.logical b).slots slot).2 = some y) :
      Displaced env base lo s0 bs frame b ((s.write g y true).clearToken (frame b) slot)

lemma moveTo_cases (hdma : ∀ i, env.dma i = true) (hb : b ∈ bs) (hlo : lo ≤ b)
    {slot : Fin 4} {d : ℕ} (hmem : d ∈ (s0.buckets env ((s0.logical b).slots slot).1).take 2)
    (hd : lo ≤ d ∧ d < s0.hi) (h : Parked base lo s0 bs frame (j + 1) s) :
    (∃ t, moveTo env b (frame b) slot s d = .done (true, t) ∧
        Displaced env base lo s0 bs frame b t) ∨
      ∃ t, moveTo env b (frame b) slot s d = .done (false, t) ∧ Parked base lo s0 bs frame j t ∧
        (d ≠ b → (s0.logical d).freeSlot = none) := by
  unfold moveTo
  by_cases hdb : d = b
  · rw [if_pos hdb]
    exact .inr ⟨s, rfl, h.served ((Served.refl h.coh).mono (Nat.zero_le 1)),
      fun hne => absurd hdb hne⟩
  rw [if_neg hdb]
  obtain ⟨f, s', hld, hs'⟩ := load_spec hdma h.coh
    (b := d) (le_trans h.coh.low hd.1) (by rw [h.control]; exact hd.2)
  have h' := h.served hs'.served
  have hca : s'.cache f = s0.logical d := by
    rw [← h'.logical d hd.1, logical_of_table hs'.table]
  simp only [hld, done_bind, hca, h'.cache_eq hb hlo]
  cases hins : (s0.logical d).insertSlot ((s0.logical b).slots slot).1
      ((s0.logical b).slots slot).2 with
  | none => exact .inr ⟨s', rfl, h', fun _ => Bucket.insertSlot_none.mp hins⟩
  | some y =>
    exact .inl ⟨_, rfl, .mk (h'.mono (Nat.zero_le j)) hmem hdb hs'.table hins⟩

lemma Displaced.cache_eq {t : Dpu K V} (h : Displaced env base lo s0 bs frame b t)
    (hb : b ∈ bs) (hlo : lo ≤ b) :
    ∃ slot, t.cache (frame b) = (s0.logical b).clearToken slot := by
  obtain @⟨s, slot, d, g, y, hpr, -, hne, hg, -⟩ := h
  have hfg : frame b ≠ g := by
    rintro rfl
    exact hne (hpr.coh.table_inj hg (hpr.stays b hb).1)
  refine ⟨slot, (Function.update_self ..).trans (congrArg (Bucket.clearToken · slot) ?_)⟩
  exact (Function.update_of_ne hfg ..).trans (hpr.cache_eq hb hlo)

/-- The insertion in `ENSURE` finds the slot that the displaced pair has left. -/
lemma Displaced.ensureInsert {t : Dpu K V} (h : Displaced env base lo s0 bs frame b t)
    (hb : b ∈ bs) (hlo : lo ≤ b) (x : K × V) :
    ∃ z, (t.cache (frame b)).insertSlot x.1 x.2 = some z ∧
      ∀ e, t.ensureInsert (env.withEnsure e) (frame b) x
        = .done (if e then t.write (frame b) z true else t) := by
  obtain ⟨slot, hca⟩ := h.cache_eq hb hlo
  obtain ⟨z, hz⟩ := (s0.logical b).insertSlot_clearToken slot x.1 x.2
  rw [← hca] at hz
  refine ⟨z, hz, fun e => ?_⟩
  unfold Dpu.ensureInsert
  rw [hz]
  cases e with
  | true => rfl
  | false => rfl

/-- A pair of bucket `b` is displaced for `x`, which is inserted if `ENSURE` evaluates
its argument. -/
def DisplacedFor (env : Env K) (base : ℕ) (s0 : Dpu K V) (frame : ℕ → Frame) (x : K × V)
    (b : ℕ) (t : Bool → Dpu K V) : Prop :=
  ∃ t0 z, Displaced env base s0.blStartBucketId s0 (s0.buckets env x.1) frame b t0 ∧
    (t0.cache (frame b)).insertSlot x.1 x.2 = some z ∧
    t = fun e => if e then t0.write (frame b) z true else t0

/-- `moveFrom` on a full candidate: a pair is displaced for the new one, or nothing
has changed and no pair of it has another place. -/
lemma moveFrom_cases (hdma : ∀ i, env.dma i = true)
    (h0 : Coh base s0.blStartBucketId s0) (hb : b ∈ s0.buckets env x.1)
    (hcnt : (s0.logical b).freeSlot = none)
    (h : Parked base s0.blStartBucketId s0 (s0.buckets env x.1) frame (j + 8) s) :
    (∃ t, (∀ e, moveFrom (env.withEnsure e) x s b = .done (true, t e)) ∧
        DisplacedFor env base s0 frame x b t) ∨
      ∃ t, (∀ e, moveFrom (env.withEnsure e) x s b = .done (false, t)) ∧
        Parked base s0.blStartBucketId s0 (s0.buckets env x.1) frame j t ∧
        NoMoveFrom env s0 b := by
  have hlo := (buckets_range h0 x.1 hb).1
  have hens : ∀ e, ensureThat (env.withEnsure e) ((s.cache (frame b)).count == 4) = .done () := by
    intro e
    unfold ensureThat
    rw [h.cache_eq hb hlo, Bucket.freeSlot_eq_none_iff.mp hcnt]
    simp
  have hrun : ∀ e, moveFrom (env.withEnsure e) x s b
      = s.untilTrue (moveSlot env b (frame b)) (finRange 4) >>= fun p =>
        if p.1 then p.2.ensureInsert (env.withEnsure e) (frame b) x >>= fun t => .done (true, t)
        else .done (false, p.2) := by
    intro e
    unfold moveFrom
    simp only [load_of_table (h.stays b hb).1, done_bind, hens]
    rfl
  -- the eight accesses: two destinations for each of the four slots
  have hsls := untilTrue_cases (E := Unit) (k := 2) (l := finRange 4)
    (F := fun _ => moveSlot env b (frame b))
    (I := Parked base s0.blStartBucketId s0 (s0.buckets env x.1) frame)
    (Q := fun t => Displaced env base s0.blStartBucketId s0 (s0.buckets env x.1) frame b (t ()))
    (R := fun slot => ∀ d ∈ (s0.buckets env ((s0.logical b).slots slot).1).take 2,
      d ≠ b → (s0.logical d).freeSlot = none) ?_ h
  · rcases hsls with ⟨t, ht, hdisp⟩ | ⟨t, ht, hpr, hno⟩
    · obtain ⟨z, hz, hins⟩ := hdisp.ensureInsert hb hlo x
      refine .inl ⟨_, fun e => ?_, t (), z, hdisp, hz, rfl⟩
      simp only [hrun, ht (), done_bind, if_true, hins]
    · refine .inr ⟨t, fun e => ?_, hpr, fun slot => hno slot (mem_finRange slot)⟩
      simp only [hrun, ht (), done_bind, Bool.false_eq_true, if_false]
  · intro slot _ i t ht
    unfold moveSlot
    dsimp only
    rw [ht.cache_eq hb hlo, show t.get4Buckets _ _
      = s0.buckets env ((s0.logical b).slots slot).1 by rw [ht.control]; rfl]
    refine untilTrue_cases (E := Unit) (k := 1) ?_ ht
    intro d hd i t ht
    have hr := buckets_range h0 _ (mem_of_mem_take hd)
    refine (moveTo_cases hdma hb hlo hd ⟨hr.1, hr.2.2⟩ ht).imp ?_ ?_
    · rintro ⟨t, hmv, ht⟩
      exact ⟨fun _ => t, fun _ => hmv, ht⟩
    · rintro ⟨t, hmv, ht⟩
      exact ⟨t, fun _ => hmv, ht⟩

/-- **`ProcessInsert` after the load test**: the pair goes into a candidate with a free
slot; or all four are full, and a pair of one of them is displaced for the new one; or
nothing has changed and there was none to displace. The definition of `ENSURE` is of
consequence in the second case only. -/
lemma insertNoExpand_cases (hdma : ∀ i, env.dma i = true)
    (h : Coh base s.blStartBucketId s) (x : K × V) :
    (∃ M, Served base s.blStartBucketId 4 s M ∧
        ∃ b ∈ s.buckets env x.1, ∃ f y, M.bucketTable b = some f ∧
          (s.logical b).insertSlot x.1 x.2 = some y ∧
          ∀ e, s.insertNoExpand (env.withEnsure e) x = .done (true, M.write f y true)) ∨
      (∀ b ∈ s.buckets env x.1, (s.logical b).freeSlot = none) ∧ ∃ frame,
        ((∃ b ∈ s.buckets env x.1, ∃ t, DisplacedFor env base s frame x b t ∧
            ∀ e, s.insertNoExpand (env.withEnsure e) x = .done (true, t e)) ∨
          ∃ t, Parked base s.blStartBucketId s (s.buckets env x.1) frame 92 t ∧
            NoMove env s x.1 ∧
            ∀ e, s.insertNoExpand (env.withEnsure e) x = .done (false, t)) := by
  obtain ⟨M, hM, hcs⟩ := insertNoExpand_tries hdma h x
  refine hcs.imp (fun hfree => ⟨M, hM, hfree⟩) ?_
  rintro ⟨hfu, hst, hrun⟩
  obtain ⟨frame, hpr⟩ : ∃ frame, Parked base s.blStartBucketId s (s.buckets env x.1) frame
      (92 + (s.buckets env x.1).length * 8) M := by
    refine ⟨fun b => (M.bucketTable b).getD 0, hM.coh, hM.control, hM.logical, fun b hb => ?_⟩
    obtain ⟨f, hf⟩ := hst b hb
    rw [hf.1]
    exact hf
  refine ⟨hfu, frame, (untilTrue_cases (k := 8) (E := Bool)
    (F := fun e => moveFrom (env.withEnsure e) x)
    (Q := fun t => ∃ b ∈ s.buckets env x.1, DisplacedFor env base s frame x b t)
    (R := NoMoveFrom env s) (fun b hb j t ht => ?_) hpr).imp ?_ ?_⟩
  · refine (moveFrom_cases hdma h hb (hfu b hb) ht).imp_left ?_
    rintro ⟨t, hmv, ht⟩
    exact ⟨t, hmv, b, hb, ht⟩
  · rintro ⟨t, hmv, b, hb, ht⟩
    exact ⟨b, hb, t, ht, fun e => (hrun e).trans (hmv e)⟩
  · rintro ⟨t, hmv, ht, hno⟩
    exact ⟨t, ht, hno, fun e => (hrun e).trans (hmv e)⟩

lemma DisplacedFor.not_noMove {t : Bool → Dpu K V} (h : DisplacedFor env base s frame x b t)
    (hb : b ∈ s.buckets env x.1) : ¬ NoMove env s x.1 := by
  obtain ⟨t0, z, ⟨-, hmem, hne, -, hins⟩, -⟩ := h
  intro hno
  rw [Bucket.insertSlot_none.mpr (hno b hb _ _ hmem hne)] at hins
  cases hins

end Librdpma.LevelKv.Dpu
