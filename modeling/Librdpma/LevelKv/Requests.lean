import Librdpma.LevelKv.Types
import Librdpma.LevelKv.Insertion

/-!
# Requests as changes of the logical table

`Effect` lists what one request can do to the logical table. `handle_effect`
says that a request on a coherent state returns with one of these effects and
leaves a coherent state, when it does not expand the table and does not take
one of the two branches that spoil the cache:

* a `DELETE` that returns with fetched buckets not yet entered;
* an `INSERT` that moves an occupant.
-/

namespace Librdpma.LevelKv.Dpu

open Lib Function List

variable {K V : Type} [DecidableEq K] {env : Env K} {base : ℕ} {s s' : Dpu K V}

/-- The effect of a request: its answer, the new logical table, and what it adds
to `size_`. -/
inductive Effect (env : Env K) (s : Dpu K V) :
    Request K V → Option (Option V) → (ℕ → Bucket K V) → ℕ → Prop where
  | hit {key : K} {b : ℕ} {v : V} (hb : b ∈ s.buckets env key)
      (hv : (s.logical b).searchSlot key = some v) :
      Effect env s (.search key) (some (some v)) s.logical 0
  | miss {key : K} (h : ∀ b ∈ s.buckets env key, (s.logical b).searchSlot key = none) :
      Effect env s (.search key) (some none) s.logical 0
  | inserted {key : K} {value : V} {b : ℕ} {y : Bucket K V}
      (hb : b ∈ s.buckets env key) (hy : (s.logical b).insertSlot key value = some y) :
      Effect env s (.insert key value) none (update s.logical b y) 1
  | dropped {key : K} {value : V} (h : ∀ b ∈ s.buckets env key, (s.logical b).freeSlot = none) :
      Effect env s (.insert key value) none s.logical 0
  | deleted {key : K} {b : ℕ} {y : Bucket K V} (hb : b ∈ s.buckets env key)
      (hy : (s.logical b).deleteSlot key = some y) :
      Effect env s (.delete key) none (update s.logical b y) 0
  | absent {key : K} (h : ∀ b ∈ s.buckets env key, (s.logical b).slotOf key = none) :
      Effect env s (.delete key) none s.logical 0
  | ignored {key : K} {value : V} : Effect env s (.update key value) none s.logical 0
  | started : Effect env s .start none s.logical 0

/-- A coherent state with the given logical table and `n` more in `size_`. -/
structure Becomes (base : ℕ) (s : Dpu K V) (table : ℕ → Bucket K V) (n : ℕ)
    (s' : Dpu K V) : Prop where
  coh : Coh base s.blStartBucketId s'
  control : s'.toControl = { s.toControl with size := s.size + n }
  logical : ∀ c, s.blStartBucketId ≤ c → s'.logical c = table c

section

omit [DecidableEq K]

variable {table : ℕ → Bucket K V} {n : ℕ}

lemma Becomes.of_served (h : Served base s.blStartBucketId n s s') :
    Becomes base s s.logical 0 s' :=
  ⟨h.coh, h.control, h.logical⟩

lemma Parked.becomes {bs : List ℕ} {frame : ℕ → Frame}
    (h : Parked base s.blStartBucketId s bs frame n s') : Becomes base s s.logical 0 s' :=
  ⟨h.coh, h.control, h.logical⟩

lemma Becomes.coherent (h : Becomes base s table n s') : Coh base s'.blStartBucketId s' := by
  rw [h.control]
  exact h.coh

lemma Becomes.write {M : Dpu K V} {b : ℕ} {f : Frame}
    (h : Served base s.blStartBucketId n s M) (hb : M.bucketTable b = some f)
    (hlo : s.blStartBucketId ≤ b) (y : Bucket K V) :
    Becomes base s (update s.logical b y) 0 (M.write f y true) := by
  refine ⟨h.coh.write hb hlo y, h.control, ?_⟩
  intro c hc
  rw [logical_write h.coh hb]
  by_cases hcb : c = b
  · subst hcb
    rw [update_self, update_self]
  · rw [update_of_ne hcb, update_of_ne hcb, h.logical c hc]

lemma Becomes.size (h : Becomes base s table 0 s') :
    Becomes base s table n { s' with size := s'.size + n } := by
  refine ⟨?_, ?_, h.logical⟩
  · exact ⟨h.coh.geometry.imp fun _ hq => ⟨hq.pos, hq.blCapacity, hq.addrCapacity,
      hq.blStart, hq.tlStart, hq.nextStart, hq.clients⟩, h.coh.wf, h.coh.partition,
      h.coh.free, h.coh.held, h.coh.table, h.coh.bound, h.coh.dirty, h.coh.clean,
      h.coh.low, h.coh.base_le⟩
  · show { s'.toControl with size := s'.size + n } = _
    rw [h.control]
    rfl

end

/-! ## The branches that spoil the cache -/

/-- The key is in a cached candidate, or in none of the candidates that are
fetched before the last one. -/
def DeleteSettles (env : Env K) (s : Dpu K V) (key : K) : Prop :=
  (∃ b ∈ s.buckets env key, s.bucketTable b ≠ none ∧ (s.logical b).slotOf key ≠ none) ∨
    ∀ b ∈ (s.uncached env key).dropLast, (s.logical b).slotOf key = none

/-- A candidate has a free slot, or no occupant of a candidate can move. -/
def InsertSettles (env : Env K) (s : Dpu K V) (key : K) : Prop :=
  (∃ b ∈ s.buckets env key, (s.logical b).freeSlot ≠ none) ∨ NoMove env s key

def Settles (env : Env K) (s : Dpu K V) : Request K V → Prop
  | .delete key => DeleteSettles env s key
  | .insert key _ => InsertSettles env s key
  | _ => True

/-- The request does not expand the table. -/
def NoExpand (env : Env K) (s : Dpu K V) : Request K V → Prop
  | .insert _ _ => s.overloaded env = false
  | _ => True

/-! ## One request -/

/-- `processWith` when no fetched bucket is left out. -/
lemma processWith_settled (act : Access K V Unit) {key : K}
    (hacc : ∀ x d, act x d = none ↔ x.slotOf key = none) (hdma : ∀ i, env.dma i = true)
    (h : Coh base s.blStartBucketId s) (hs : DeleteSettles env s key) :
    ∃ M, Served base s.blStartBucketId 8 s M ∧
      ((s.processWith act env key = .done (false, M) ∧
          ∀ b ∈ s.buckets env key, (s.logical b).slotOf key = none) ∨
        ∃ b ∈ s.buckets env key, ∃ f x d, M.bucketTable b = some f ∧
          act (s.logical b) (M.dirtyFlag f) = some ((), x, d) ∧
          s.processWith act env key = .done (true, M.write f x d)) := by
  obtain ⟨M, hM, hcs⟩ := processWith_cases act hdma h key
  refine ⟨M, hM, ?_⟩
  rcases hcs with ⟨hrun, hms⟩ | ⟨b, hb, f, x, d, pend, hbt, hhit, hrun, hpn⟩
  · exact .inl ⟨hrun, fun b hb => (hms b hb).elim fun _ => (hacc _ _).mp⟩
  · have hnil : pend = [] := by
      rcases hpn with hnil | ⟨⟨pre, hpre⟩, hca⟩
      · exact hnil
      rcases hs with ⟨c, hc, hct, hkey⟩ | hla
      · obtain ⟨d, hd⟩ := hca c hc hct
        exact absurd ((hacc _ _).mp hd) hkey
      · -- a hit before the last fetched bucket is what the condition excludes
        by_contra hne
        have hmem : b ∈ (s.uncached env key).dropLast := by
          rw [hpre, dropLast_append_of_ne_nil (cons_ne_nil _ _), dropLast_cons_of_ne_nil hne]
          exact mem_append_right _ mem_cons_self
        rw [(hacc _ _).mpr (hla b hmem)] at hhit
        cases hhit
    rw [hnil, hide_nil] at hrun
    exact .inr ⟨b, hb, f, x, d, hbt, hhit, hrun⟩

lemma delete_effect (hdma : ∀ i, env.dma i = true) (h : Coh base s.blStartBucketId s)
    {key : K} (hs : DeleteSettles env s key) :
    ∃ r s' table, s.processDelete env key = .done (r, s') ∧
      Effect env s (.delete key) none table 0 ∧ Becomes base s table 0 s' := by
  obtain ⟨M, hM, ⟨hrun, hms⟩ | ⟨b, hb, f, x, d, hbt, hhit, hrun⟩⟩ :=
    processWith_settled (deleteAccess key)
      (fun _ _ => Option.map_eq_none_iff.trans Option.map_eq_none_iff) hdma h hs
  · exact ⟨false, M, _, hrun, .absent hms, .of_served hM⟩
  · obtain ⟨y, hy, heq⟩ := Option.map_eq_some_iff.mp hhit
    cases heq
    exact ⟨true, _, _, hrun, .deleted hb hy, .write hM hbt (buckets_range h key hb).1 x⟩

lemma insert_effect [Inhabited K] [Inhabited V] (hdma : ∀ i, env.dma i = true)
    (h : Coh base s.blStartBucketId s) {x : K × V} (hs : InsertSettles env s x.1) :
    ∃ r s' table, s.insertNoExpand env x = .done (r, s') ∧
      Effect env s (.insert x.1 x.2) none table (if r then 1 else 0) ∧
      Becomes base s table 0 s' := by
  rcases insertNoExpand_cases hdma h x with
    ⟨M, hM, b, hb, f, y, hbt, hins, hrun⟩ | ⟨hfu, frame, ⟨b, hb, t, hdisp, -⟩ | ⟨t, hpr, -, hrun⟩⟩
  · exact ⟨true, _, _, hrun env.ensure, .inserted hb hins,
      .write hM hbt (buckets_range h x.1 hb).1 y⟩
  · rcases hs with ⟨c, hc, hfr⟩ | hno
    · exact absurd (hfu c hc) hfr
    · exact absurd hno (hdisp.not_noMove hb)
  · exact ⟨false, t, _, hrun env.ensure, .dropped hfu, hpr.becomes⟩

/-- **One request** of a coherent DPU returns, has one of the listed effects and
leaves the DPU coherent. -/
lemma handle_effect [Inhabited K] [Inhabited V] (hdma : ∀ i, env.dma i = true)
    (h : Coh base s.blStartBucketId s) (r : Request K V) (hexp : NoExpand env s r)
    (hs : Settles env s r) :
    ∃ a s' table n, s.handle env r = .done (a, s') ∧ Effect env s r a table n ∧
      Becomes base s table n s' := by
  cases r with
  | search key =>
    obtain ⟨r, s', hrun, hs', hcs⟩ := processSearch_spec hdma h key
    refine ⟨some r, s', s.logical, 0, ?_, ?_, .of_served hs'⟩
    · rw [handle, hrun]
      rfl
    · rcases hcs with ⟨rfl, hms⟩ | ⟨b, hb, v, hv, rfl⟩
      · exact .miss hms
      · exact .hit hb hv
  | delete key =>
    obtain ⟨r, s', table, hrun, heff, hbec⟩ := delete_effect hdma h hs
    refine ⟨none, s', table, 0, ?_, heff, hbec⟩
    rw [handle, hrun]
    rfl
  | insert key value =>
    obtain ⟨r, s', table, hrun, heff, hbec⟩ := insert_effect (x := (key, value)) hdma h hs
    have hpr : s.processInsert env (key, value) = .done (r, s') :=
      (processInsert_of_not_overloaded hexp _).trans hrun
    refine ⟨none, _, table, _, ?_, heff, hbec.size⟩
    rw [handle, hpr]
    cases r with
    | true => rfl
    | false => rfl
  | update key value => exact ⟨none, s, s.logical, 0, rfl, .ignored, .of_served (.refl h)⟩
  | start => exact ⟨none, s, s.logical, 0, rfl, .started, .of_served (.refl h)⟩

/-! ## Runs -/

/-- The states at request boundaries of the runs from `s0` whose requests all
meet `ok`. -/
inductive Reaches [Inhabited K] [Inhabited V] (env : Env K)
    (ok : Dpu K V → Request K V → Prop) (s0 : Dpu K V) : Dpu K V → Prop where
  | init : Reaches env ok s0 s0
  | step {s s' : Dpu K V} {r : Request K V} {a : Option (Option V)} :
      Reaches env ok s0 s → ok s r → s.handle env r = .done (a, s') →
      Reaches env ok s0 s'

lemma Reaches.invariant [Inhabited K] [Inhabited V] {ok : Dpu K V → Request K V → Prop}
    {s0 : Dpu K V} {I : Dpu K V → Prop} (hin : I s0)
    (hst : ∀ s r a s', I s → ok s r → s.handle env r = .done (a, s') → I s')
    (h : Reaches env ok s0 s) : I s := by
  induction h with
  | init => exact hin
  | step _ hok hrun ih => exact hst _ _ _ _ ih hok hrun

omit [DecidableEq K] in
lemma init_coh [Inhabited K] [Inhabited V] {level : ℕ} (h : 3 ≤ level) :
    Coh (2 ^ (level - 1) - 4) (2 ^ (level - 1) - 4) (init level : Dpu K V) := by
  refine ⟨⟨_, init_geometry h⟩, Replacer.wf_empty, ?_, fun _ _ => rfl, ?_, ?_, ?_, ?_, ?_,
    le_refl _, le_refl _⟩
  · exact Perm.refl _
  · intro f hf
    exact absurd (mem_finRange f) hf
  all_goals
    intro b f hb
    exact absurd hb (by simp [init])

lemma Reaches.runAll [Inhabited K] [Inhabited V] {ok : Dpu K V → Request K V → Prop}
    {s0 : Dpu K V} (h : Reaches env ok s0 s) {rs : List (Request K V)}
    (hok : ∀ r ∈ rs, ∀ t, ok t r) {as : List (Option (Option V))}
    (hrun : s.runAll env rs = .done (as, s')) : Reaches env ok s0 s' := by
  induction rs generalizing s as with
  | nil =>
    cases hrun
    exact h
  | cons r rs ih =>
    obtain ⟨⟨a, t⟩, hhdl, hrs⟩ := Outcome.bind_eq_done.mp hrun
    obtain ⟨⟨as', t'⟩, hrs', heq⟩ := Outcome.bind_eq_done.mp hrs
    cases heq
    exact ih (h.step (hok r mem_cons_self s) hhdl)
      (fun r' hr' => hok r' (mem_cons_of_mem _ hr')) hrs'

/-! ## A concrete service -/

/-- A key of one byte. -/
def byteKey (i : ℕ) : FixedKey := memcpy 16 [UInt8.ofNat i]

def byteValue (i : ℕ) : FixedValue := memcpy 15 [UInt8.ofNat i]

/-- Both hash functions take the first byte of the key; every DMA succeeds. -/
def byteEnv (ensure : Bool) : Env FixedKey where
  hash1 := fun key => key.head.toNat
  hash2 := fun key => key.head.toNat
  loadTest := fun size slots => decide (95 * slots ≤ 100 * size)
  dma := fun _ => true
  ensure := ensure

/-- **`ProcessUpdate`** keeps the cache coherent. It gives the value to one
candidate bucket with the key; without one it changes no bucket. -/
theorem processUpdate_effect [DecidableEq V] (hdma : ∀ i, env.dma i = true)
    (h : Coh base s.blStartBucketId s) {key : K} (hs : DeleteSettles env s key) (value : V) :
    ∃ r s', s.processUpdate env key value = .done (r, s') ∧
      (r = false ∧ (∀ b ∈ s.buckets env key, (s.logical b).slotOf key = none) ∧
          Becomes base s s.logical 0 s' ∨
        r = true ∧ ∃ b ∈ s.buckets env key, ∃ y, (s.logical b).updateSlot key value = some y ∧
          Becomes base s (update s.logical b y.1) 0 s') := by
  obtain ⟨M, hM, ⟨hrun, hms⟩ | ⟨b, hb, f, x, d, hbt, hhit, hrun⟩⟩ :=
    processWith_settled (updateAccess key value)
      (fun _ _ => Option.map_eq_none_iff.trans Option.map_eq_none_iff) hdma h hs
  · exact ⟨false, M, hrun, .inl ⟨rfl, hms, .of_served hM⟩⟩
  obtain ⟨⟨y, changed⟩, hy, heq⟩ := Option.map_eq_some_iff.mp hhit
  cases heq
  refine ⟨true, _, hrun, .inr ⟨rfl, b, hb, _, hy, ?_⟩⟩
  have hlo := (buckets_range h key hb).1
  cases changed with
  | true =>
    rw [Bool.or_true]
    exact .write hM hbt hlo x
  | false =>
    -- the value was there: the bucket and its flag stay
    have hx : x = s.logical b := by
      obtain ⟨i, _, hi⟩ := Option.map_eq_some_iff.mp hy
      split at hi
      · exact (congrArg Prod.fst hi).symm
      · cases hi
    rw [Bool.or_false, hx, update_eq_self, ← hM.cache_eq hbt hlo, write_same]
    exact .of_served hM

/-- A pair is inserted, and its value is replaced in the cache. -/
theorem processUpdate_effect_inserted : ∃ s s' : Dpu FixedKey FixedValue,
    (init 3).processInsert (byteEnv true) (byteKey 1, byteValue 1) = .done (true, s) ∧
      s.processUpdate (byteEnv true) (byteKey 1) (byteValue 2) = .done (true, s') ∧
      Coh 0 s.blStartBucketId s' := by
  obtain ⟨⟨r, s⟩, hins, rfl, hb, htab, hkey⟩ :
      ∃ x, (init 3).processInsert (byteEnv true) (byteKey 1, byteValue 1) = .done x ∧
        x.1 = true ∧ 5 ∈ x.2.buckets (byteEnv true) (byteKey 1) ∧ x.2.bucketTable 5 ≠ none ∧
        (x.2.logical 5).slotOf (byteKey 1) ≠ none := by
    decide +kernel
  have hdma : ∀ i, (byteEnv true).dma i = true := fun _ => rfl
  have hcoh : Coh 0 0 (init 3 : Dpu FixedKey FixedValue) := init_coh (le_refl 3)
  obtain ⟨r, t, table, hrun, -, hbec⟩ := insert_effect (s := init 3)
    (x := (byteKey 1, byteValue 1)) hdma hcoh (.inl ⟨5, by decide, by decide⟩)
  rw [processInsert_of_not_overloaded (by decide), hrun] at hins
  cases hins
  obtain ⟨r, s', hupd, ⟨-, hms, -⟩ | ⟨rfl, b, -, y, -, hbec'⟩⟩ :=
    processUpdate_effect hdma hbec.coherent (.inl ⟨5, hb, htab, hkey⟩) (byteValue 2)
  · exact absurd (hms 5 hb) hkey
  · refine ⟨s, s', ?_, hupd, hbec'.coh⟩
    rw [processInsert_of_not_overloaded (by decide), hrun]

end Librdpma.LevelKv.Dpu
