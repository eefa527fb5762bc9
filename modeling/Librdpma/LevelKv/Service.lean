import Librdpma.Lib.Placement
import Librdpma.LevelKv.Requests

/-!
# The service as a sequential map

The requests of a queue are compared with a map from keys to values. The
pairs of the logical table represent the map (`Represents`): each stands in a
candidate bucket of its key, and no key stands twice.

The answers agree with the map as long as an `UPDATE`, which the dispatch loop
drops, would not change it, an `INSERT` finds a candidate with a free slot, and
a `DELETE` settles its fetches.
-/

namespace Librdpma.LevelKv.Dpu

open Lib Function

variable {K V : Type} {env : Env K} {base : ℕ} {s s' : Dpu K V}

/-! ## The pairs of the table -/

/-- The pair in a slot of a bucket of the two levels. -/
def items (s : Dpu K V) (p : ℕ × Fin 4) : Option (K × V) :=
  if s.blStartBucketId ≤ p.1 ∧ p.1 < s.nextStartBucketId then (s.logical p.1).item p.2
  else none

def Represents (env : Env K) (s : Dpu K V) (m : K → Option V) : Prop :=
  Placed (fun key (p : ℕ × Fin 4) => p.1 ∈ s.buckets env key) s.items m

lemma items_of_mem (h : Coh base s.blStartBucketId s) {key : K} {b : ℕ}
    (hb : b ∈ s.buckets env key) (i : Fin 4) : s.items (b, i) = (s.logical b).item i := by
  have hr := buckets_range h key hb
  exact if_pos ⟨hr.1, hr.2.1⟩

variable {table : ℕ → Bucket K V} {n : ℕ} {m : K → Option V} {r : Request K V}

lemma Becomes.items (h : Becomes base s table n s') (p : ℕ × Fin 4) : s'.items p
      = if s.blStartBucketId ≤ p.1 ∧ p.1 < s.nextStartBucketId then (table p.1).item p.2
        else none := by
  unfold Dpu.items
  rw [h.control]
  split_ifs with hp
  · rw [h.logical p.1 hp.1]
  · rfl

lemma Becomes.items_same (h : Becomes base s s.logical n s') : s'.items = s.items := by
  ext1 p
  exact h.items p

lemma Becomes.items_update {b : ℕ} {i : Fin 4} {y : Bucket K V} {o : Option (K × V)}
    (h : Becomes base s (update s.logical b y) n s')
    (hb : s.blStartBucketId ≤ b ∧ b < s.nextStartBucketId)
    (hy : y.item = update (s.logical b).item i o) :
    s'.items = update s.items (b, i) o := by
  ext1 p
  obtain ⟨c, j⟩ := p
  rw [h.items]
  by_cases hc : c = b
  · subst hc
    rw [if_pos hb, update_self, hy]
    by_cases hj : j = i
    · subst hj
      rw [update_self, update_self]
    · rw [update_of_ne hj, update_of_ne (by simp [hj])]
      exact (if_pos hb).symm
  · have hne : (c, j) ≠ (b, i) := by simp [hc]
    rw [update_of_ne hne]
    simp only [update_of_ne hc]
    rfl

lemma Becomes.buckets (h : Becomes base s table n s') (key : K) :
    s'.buckets env key = s.buckets env key := by
  unfold Dpu.buckets
  rw [h.control]
  rfl

/-! ## The map -/

variable [DecidableEq K]

/-- A request on the map: the answer and the map after it. -/
def mapStep (m : K → Option V) : Request K V → Option (Option V) × (K → Option V)
  | .search key => (some (m key), m)
  | .insert key value => (none, update m key (some value))
  | .update key value => (none, if m key = none then m else update m key (some value))
  | .delete key => (none, update m key none)
  | .start => (none, m)

def mapAnswers (m : K → Option V) : List (Request K V) → List (Option (Option V))
  | [] => []
  | r :: rs => (mapStep m r).1 :: mapAnswers (mapStep m r).2 rs

/-- What the queue is assumed to be: keys are inserted when they are absent, and
no insertion expands the table. -/
def Sequential (env : Env K) (s : Dpu K V) (m : K → Option V) : Request K V → Prop
  | .insert key _ => m key = none ∧ s.overloaded env = false
  | _ => True

/-- The request is not one that the service loses. -/
def Kept (env : Env K) (s : Dpu K V) (m : K → Option V) : Request K V → Prop
  | .insert key _ => ∃ b ∈ s.buckets env key, (s.logical b).freeSlot ≠ none
  | .update key value => m key = none ∨ m key = some value
  | .delete key => DeleteSettles env s key
  | _ => True

/-- Every request of the queue meets `ok` in the state and the map it finds. -/
def Queue [Inhabited K] [Inhabited V] (env : Env K)
    (ok : Dpu K V → (K → Option V) → Request K V → Prop) :
    Dpu K V → (K → Option V) → List (Request K V) → Prop
  | _, _, [] => True
  | s, m, r :: rs => ok s m r ∧
      ∀ a s', s.handle env r = .done (a, s') → Queue env ok s' (mapStep m r).2 rs

/-! ## Simulation -/

lemma Represents.none_of_slotOf {key : K} (hm : Represents env s m)
    (h : Coh base s.blStartBucketId s)
    (hno : ∀ b ∈ s.buckets env key, (s.logical b).slotOf key = none) : m key = none := by
  refine hm.lookup_none fun p hp v hv => ?_
  obtain ⟨b, i⟩ := p
  rw [items_of_mem h hp] at hv
  exact Bucket.item_ne_of_slotOf_none (hno b hp) i v hv

omit [DecidableEq K] in
/-- The candidate buckets are the same, so that only the items matter. -/
lemma Becomes.represents (h : Becomes base s table n s')
    (hm : Placed (fun key (p : ℕ × Fin 4) => p.1 ∈ s.buckets env key) s'.items m) :
    Represents env s' m := by
  unfold Represents
  simp only [h.buckets]
  exact hm

omit [DecidableEq K] in
lemma Represents.same (hm : Represents env s m) (h : Becomes base s s.logical n s') :
    Represents env s' m :=
  h.represents (h.items_same ▸ hm)

lemma Effect.represents {a : Option (Option V)} (heff : Effect env s r a table n)
    (h : Coh base s.blStartBucketId s) (hbec : Becomes base s table n s') (hm : Represents env s m)
    (hseq : Sequential env s m r) (hkp : Kept env s m r) :
    a = (mapStep m r).1 ∧ Represents env s' (mapStep m r).2 := by
  cases heff with
  | @hit key b v hb hv =>
    obtain ⟨i, hi⟩ := Bucket.searchSlot_some hv
    have hval : m key = some v := hm.lookup_some ((items_of_mem h hb i).trans hi)
    exact ⟨by rw [mapStep, hval], hm.same hbec⟩
  | @miss key hms =>
    have hno : m key = none := hm.none_of_slotOf h fun b hb => Option.map_eq_none_iff.mp (hms b hb)
    exact ⟨by rw [mapStep, hno], hm.same hbec⟩
  | @inserted key value b y hb hy =>
    obtain ⟨i, htok, rfl⟩ := Bucket.insertSlot_some hy
    have hr := buckets_range h key hb
    refine ⟨rfl, hbec.represents ?_⟩
    rw [hbec.items_update ⟨hr.1, hr.2.1⟩ (Bucket.item_setSlot _ i _)]
    refine hm.insert ?_ hseq.1 hb value
    rw [items_of_mem h hb]
    exact Bucket.item_eq_none.mpr htok
  | @dropped key value hfu =>
    obtain ⟨b, hb, hfr⟩ := hkp
    exact absurd (hfu b hb) hfr
  | @deleted key b y hb hy =>
    obtain ⟨i, htok, hkey, rfl⟩ := Bucket.deleteSlot_some hy
    have hr := buckets_range h key hb
    refine ⟨rfl, hbec.represents ?_⟩
    rw [hbec.items_update ⟨hr.1, hr.2.1⟩ (Bucket.item_clearToken _ i)]
    refine hm.delete (v := ((s.logical b).slots i).2) ?_
    rw [items_of_mem h hb, Bucket.item_eq_some]
    exact ⟨htok, by rw [← hkey]⟩
  | @absent key hno =>
    refine ⟨rfl, ?_⟩
    have hm' : update m key none = m := by
      rw [← hm.none_of_slotOf h hno]
      exact update_eq_self key m
    rw [mapStep, hm']
    exact hm.same hbec
  | @ignored key value =>
    refine ⟨rfl, ?_⟩
    have hm' : (mapStep m (.update key value)).2 = m := by
      show (if m key = none then m else update m key (some value)) = m
      rcases hkp with hno | hval
      · rw [if_pos hno]
      · rw [if_neg (by rw [hval]; simp), ← hval]
        exact update_eq_self key m
    rw [hm']
    exact hm.same hbec
  | started => exact ⟨rfl, hm.same hbec⟩

lemma Kept.settles (h : Kept env s m r) : Settles env s r := by
  cases r with
  | insert key value => exact .inl h
  | delete key => exact h
  | search key => trivial
  | update key value => trivial
  | start => trivial

omit [DecidableEq K] in
lemma Sequential.noExpand (h : Sequential env s m r) : NoExpand env s r := by
  cases r with
  | insert key value => exact h.2
  | delete key => trivial
  | search key => trivial
  | update key value => trivial
  | start => trivial

variable [Inhabited K] [Inhabited V]

lemma runAll_answers (hdma : ∀ i, env.dma i = true) {rs : List (Request K V)}
    (h : Coh base s.blStartBucketId s) (hm : Represents env s m)
    (hq : Queue env (fun s m r => Sequential env s m r ∧ Kept env s m r) s m rs) :
    ∃ s', s.runAll env rs = .done (mapAnswers m rs, s') := by
  induction rs generalizing s m with
  | nil => exact ⟨s, rfl⟩
  | cons r rs ih =>
    obtain ⟨⟨hseq, hkp⟩, hrs⟩ := hq
    obtain ⟨a, s1, table, n, hrun, heff, hbec⟩ := handle_effect hdma h r hseq.noExpand hkp.settles
    obtain ⟨ha, hm1⟩ := heff.represents h hbec hm hseq hkp
    obtain ⟨s', hrun'⟩ := ih hbec.coherent hm1 (hrs a s1 hrun)
    refine ⟨s', ?_⟩
    unfold runAll
    simp only [hrun, Outcome.done_bind, hrun', Outcome.pure_eq, mapAnswers, ha]

omit [DecidableEq K] in
lemma init_represents (env : Env K) (level : ℕ) :
    Represents env (init level : Dpu K V) (fun _ => none) := by
  have hits : (init level : Dpu K V).items = fun _ => none := by
    ext1 p
    unfold items
    split
    · rfl
    · rfl
  unfold Represents
  rw [hits]
  exact Placed.empty _

/-- **The service is a sequential map** on every queue whose requests it keeps:
the run returns, and each `SEARCH` is answered as the map answers it. -/
theorem kept_queue_answers (env : Env K) (hdma : ∀ i, env.dma i = true) (level : ℕ)
    (hlevel : 3 ≤ level) (rs : List (Request K V))
    (hq : Queue env (fun s m r => Sequential env s m r ∧ Kept env s m r)
      (init level) (fun _ => none) rs) :
    ∃ s', (init level : Dpu K V).runAll env rs = .done (mapAnswers (fun _ => none) rs, s') :=
  runAll_answers hdma (init_coh hlevel) (init_represents env level) hq

/-- A key that was inserted is found. -/
theorem insert_search_answers : ∃ s', (init 3 : Dpu FixedKey FixedValue).runAll (byteEnv false)
        [.insert (byteKey 1) (byteValue 7), .search (byteKey 1)]
      = .done ([none, some (some (byteValue 7))], s') := by
  refine kept_queue_answers (byteEnv false) (fun _ => rfl) 3 (by decide)
    [.insert (byteKey 1) (byteValue 7), .search (byteKey 1)] ⟨⟨⟨rfl, by decide⟩, ?_⟩, ?_⟩
  · exact ⟨_, List.mem_cons_self, by decide⟩
  · intro a s' _
    exact ⟨⟨trivial, trivial⟩, fun _ _ _ => trivial⟩

/-- The value 7 of key 1 is updated to 8, and the search still finds 7. -/
theorem update_is_lost :
    Queue (byteEnv false) (Sequential (byteEnv false)) (init 3 : Dpu FixedKey FixedValue)
        (fun _ => none) [.insert (byteKey 1) (byteValue 7), .update (byteKey 1) (byteValue 8),
          .search (byteKey 1)] ∧
      mapAnswers (fun _ => none) [.insert (byteKey 1) (byteValue 7),
          .update (byteKey 1) (byteValue 8), .search (byteKey 1)]
        = [none, none, some (some (byteValue 8))] ∧
      ∃ s', (init 3 : Dpu FixedKey FixedValue).runAll (byteEnv false)
          [.insert (byteKey 1) (byteValue 7), .update (byteKey 1) (byteValue 8),
            .search (byteKey 1)]
        = .done ([none, none, some (some (byteValue 7))], s') := by
  refine ⟨⟨⟨rfl, by decide⟩, ?_⟩, by decide, ?_⟩
  · intro _ _ _
    exact ⟨trivial, fun _ _ _ => ⟨trivial, fun _ _ _ => trivial⟩⟩
  · obtain ⟨⟨as, s'⟩, hdn, rfl⟩ : ∃ r, (init 3 : Dpu FixedKey FixedValue).runAll (byteEnv false)
        [.insert (byteKey 1) (byteValue 7), .update (byteKey 1) (byteValue 8),
          .search (byteKey 1)] = .done r ∧ r.1 = [none, none, some (some (byteValue 7))] := by
      decide +kernel
    exact ⟨s', hdn⟩

end Librdpma.LevelKv.Dpu
