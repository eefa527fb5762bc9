import Librdpma.LevelKv.Requests

/-!
# The metadata of the cache over whole runs

At a request boundary `bucket_table_` and `bucket_ids_` should be inverse to
each other on the used frames, and a clean frame should equal host memory. The
two branches excluded by `Settles` break this: a `DELETE` that hits a fetched
bucket returns before the buckets fetched behind it are entered, and an
`INSERT` that moves an occupant clears its token without marking the frame
dirty. Every run without them keeps the invariant.
-/

namespace Librdpma.LevelKv.Dpu

open Lib List

variable {K V : Type} {base : ℕ} {s : Dpu K V}

/-- `bucket_table_` maps `b` to a used frame `f` iff `bucket_ids_[f]` is `b`, and
clean used frames equal host memory. -/
structure CacheInvariant (s : Dpu K V) : Prop where
  inverse : ∀ b f, f ∉ s.freeList → (s.bucketTable b = some f ↔ s.bucketIds f = some b)
  clean : ∀ b f, f ∉ s.freeList → s.bucketIds f = some b → s.dirtyFlag f = false →
    s.cache f = s.host b

lemma Coh.cacheInvariant (h : Coh s.blStartBucketId s.blStartBucketId s) : CacheInvariant s := by
  refine ⟨fun b f _ => ⟨h.table b f, h.table_of_ids⟩, ?_⟩
  intro b f _ hids hd
  have hb := h.table_of_ids hids
  exact h.clean b f hb hd (h.bound b f hb).1

variable [DecidableEq K] [Inhabited K] [Inhabited V]

/-- **The cache over whole runs.** In every run from the constructor's state in
which no request expands the table or takes one of the two branches, the
invariant holds at every request boundary, and the next such request returns. -/
theorem settled_runs_keep_cacheInvariant (env : Env K) (hdma : ∀ i, env.dma i = true)
    (level : ℕ) (hlevel : 3 ≤ level) (s : Dpu K V)
    (hs : Reaches env (fun s r => NoExpand env s r ∧ Settles env s r) (init level) s) :
    CacheInvariant s ∧
      ∀ r, NoExpand env s r → Settles env s r → ∃ a s', s.handle env r = .done (a, s') := by
  have hcoh : Coh s.blStartBucketId s.blStartBucketId s := by
    refine hs.invariant (I := fun s => Coh s.blStartBucketId s.blStartBucketId s)
      (init_coh hlevel) ?_
    intro s r a s' hI hok hrun
    obtain ⟨a', t, table, n, hrun', -, hbec⟩ := handle_effect hdma hI r hok.1 hok.2
    rw [hrun] at hrun'
    cases hrun'
    have hcoh := hbec.coherent
    rwa [show s'.blStartBucketId = s.blStartBucketId by rw [hbec.control]] at hcoh ⊢
  refine ⟨hcoh.cacheInvariant, fun r hexp hset => ?_⟩
  obtain ⟨a, s', -, -, hrun, -⟩ := handle_effect hdma hcoh r hexp hset
  exact ⟨a, s', hrun⟩

/-- An insertion into the empty table, followed by any search. -/
theorem insert_search_cacheInvariant : ∃ s : Dpu FixedKey FixedValue, Reaches (byteEnv false)
        (fun s r => NoExpand (byteEnv false) s r ∧ Settles (byteEnv false) s r)
        (init 3) s ∧ CacheInvariant s := by
  have hok : NoExpand (byteEnv false) (init 3 : Dpu FixedKey FixedValue)
        (.insert (byteKey 1) (byteValue 1)) ∧
      Settles (byteEnv false) (init 3 : Dpu FixedKey FixedValue)
        (.insert (byteKey 1) (byteValue 1)) := by
    refine ⟨?_, .inl ⟨_, mem_cons_self, ?_⟩⟩
    · show Dpu.overloaded _ _ = false
      decide
    · decide
  obtain ⟨a1, s1, table, n, hrun1, heff, hbec⟩ :=
    handle_effect (fun _ => rfl) (init_coh (by decide)) _ hok.1 hok.2
  obtain ⟨a2, s2, -, -, hrun2, -, hbec2⟩ := handle_effect
    (show ∀ i, (byteEnv false).dma i = true from fun _ => rfl) hbec.coherent
      (.search (byteKey 2)) trivial trivial
  have hrch : Reaches (byteEnv false)
      (fun s r => NoExpand (byteEnv false) s r ∧ Settles (byteEnv false) s r) (init 3) s2 :=
    .step (r := .search (byteKey 2)) (.step .init hok hrun1) ⟨trivial, trivial⟩ hrun2
  exact ⟨s2, hrch, (settled_runs_keep_cacheInvariant _ (fun _ => rfl) 3 (by decide) s2 hrch).1⟩

/-- The bucket is in a used frame, but `bucket_table_` does not have it. -/
def unentered (b : ℕ) (s : Dpu K V) : Bool :=
  (s.bucketTable b).isNone &&
    (finRange 128).any fun f => decide (s.bucketIds f = some b) && !s.freeList.contains f

omit [DecidableEq K] [Inhabited K] [Inhabited V] in
lemma CacheInvariant.not_unentered (h : CacheInvariant s) (b : ℕ) : unentered b s = false := by
  unfold unentered
  by_contra hne
  simp only [Bool.not_eq_false, Bool.and_eq_true, any_eq_true, decide_eq_true_eq,
    Bool.not_eq_true', contains_eq_mem, decide_eq_false_iff_not,
    Option.isNone_iff_eq_none] at hne
  obtain ⟨hno, f, -, hids, hfr⟩ := hne
  rw [(h.inverse b f hfr).mpr hids] at hno
  cases hno

/-- Key 0 is inserted into bucket 124; 32 searches fetch 128 other buckets. The
deletion of key 0 has to fetch its top buckets 124 and 188, finds the key in
the first and returns: bucket 188 is in a frame, but not in the table. -/
theorem delete_leaves_unentered_frame : ∃ s : Dpu FixedKey FixedValue,
      Reaches (byteEnv false) (NoExpand (byteEnv false)) (init 7) s ∧ ¬ CacheInvariant s := by
  obtain ⟨⟨as, s⟩, hdn, hrun⟩ : ∃ r, (init 7 : Dpu FixedKey FixedValue).runAll (byteEnv false)
      (.insert (byteKey 0) (byteValue 1) ::
        ((range' 1 32).map fun i => .search (byteKey i)) ++ [.delete (byteKey 0)]) = .done r ∧
        unentered 188 r.2 := by
    decide +kernel
  obtain ⟨⟨a, s1⟩, hins, hrs⟩ := Outcome.bind_eq_done.mp hdn
  obtain ⟨⟨as', s'⟩, hrs, heq⟩ := Outcome.bind_eq_done.mp hrs
  cases heq
  refine ⟨s, ?_, fun h => ?_⟩
  · refine (Reaches.step .init ?_ hins).runAll ?_ hrs
    · show Dpu.overloaded _ _ = false
      decide
    · intro r hr t
      rcases mem_append.mp hr with hr | hr
      · obtain ⟨i, -, rfl⟩ := mem_map.mp hr
        trivial
      · rw [mem_singleton.mp hr]
        trivial
  · rw [h.not_unentered 188] at hrun
    cases hrun

end Librdpma.LevelKv.Dpu
