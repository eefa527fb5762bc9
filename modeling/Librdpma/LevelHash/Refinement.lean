import Librdpma.LevelHash.Operations

/-!
# The level hash refines a finite map

The expansion is a sequence of moves to free candidates. `Run` collects the
tables that a run of calls leads to, with the map that the calls describe.
-/

namespace Librdpma.LevelHash

open Lib Function List

variable {H : Hashes} {level level' : Level} {m : List UInt8 → Option (Bytes 15)}
  {bs : Buckets} {idx : ℕ} {j : Fin 4} {e : Entry} {key : List UInt8} {i : Fin 2}

/-! ## Expansion -/

/-- The arrays in the middle of an expansion: the new level stands above the
two old ones. -/
def expanding (level : Level) (r : Level.Rehash) : ℕ → Buckets :=
  update (update (arrays level) (level.levelSize + 1) r.newBuckets)
    (level.levelSize - 1) r.oldBuckets

/-- What the rehashing loop preserves: so far it has only moved items. -/
structure RehashInv (H : Hashes) (level : Level) (r : Level.Rehash) : Prop where
  newClean : Clean r.newBuckets
  oldClean : Clean r.oldBuckets
  shifts : Shifts (Within H (level.levelSize + 1)) (view (arrays level)) (view (expanding level r))

lemma expanding_new (level : Level) (r : Level.Rehash) :
    expanding level r (level.levelSize + 1) = r.newBuckets := by
  unfold expanding
  rw [update_of_ne (by omega), update_self]

lemma expanding_old (level : Level) (r : Level.Rehash) :
    expanding level r (level.levelSize - 1) = r.oldBuckets := by
  unfold expanding
  rw [update_self]

/-- A rehashed item moves from the old bottom level to the new level. -/
lemma expanding_move (r : Level.Rehash) (c : UInt64) {jdx : ℕ} {slot : Fin 4} :
    view (expanding level ⟨putSlot r.newBuckets jdx j e, clearSlot r.oldBuckets idx slot, c⟩)
      = update (update (view (expanding level r)) (level.levelSize - 1, idx, slot) none)
          (level.levelSize + 1, jdx, j) (some e.item) := by
  have hs : level.levelSize - 1 ≠ level.levelSize + 1 := by omega
  have hne : (level.levelSize - 1, idx, slot) ≠ (level.levelSize + 1, jdx, j) :=
    fun h => hs (Prod.mk.inj h).1
  unfold expanding
  rw [view_clearSlot, update_comm hs.symm, view_putSlot, update_comm hs, update_comm hne.symm]

/-- One slot: the invariant is kept, the slot ends up without an item, and no
item appears in the old level. -/
lemma rehashSlot_inv {r r' : Level.Rehash} {p : ℕ × Fin 4} (h : RehashInv H level r)
    (hst : Level.rehashSlot H (2 ^ (level.levelSize + 1)) r p = .done r') :
    RehashInv H level r' ∧ itemAt r'.oldBuckets p.1 p.2 = none ∧
      ∀ q : ℕ × Fin 4, itemAt r.oldBuckets q.1 q.2 = none →
        itemAt r'.oldBuckets q.1 q.2 = none := by
  obtain ⟨idx, slot⟩ := p
  unfold Level.rehashSlot at hst
  dsimp only at hst
  by_cases htok : (r.oldBuckets idx).token slot = 1
  · rw [if_pos htok] at hst
    have hne : (r.oldBuckets idx).token slot ≠ 0 := by
      rw [htok]
      decide
    rw [h.oldClean.cstr_keyMemory hne] at hst
    cases hnil : emptySlot r.newBuckets
        (fIdx (H.fHash ((r.oldBuckets idx).slot slot).item.1) (2 ^ (level.levelSize + 1)))
        (sIdx (H.sHash ((r.oldBuckets idx).slot slot).item.1) (2 ^ (level.levelSize + 1))) with
    | none =>
      rw [hnil] at hst
      cases hst
    | some q =>
      obtain ⟨jdx, j⟩ := q
      rw [hnil] at hst
      cases hst
      obtain ⟨hjdx, hfr⟩ := emptySlot_some hnil
      have htr := h.oldClean.terminated hne
      refine ⟨⟨h.newClean.putSlot htr jdx j, h.oldClean.clearSlot idx slot, ?_⟩, ?_, ?_⟩
      · rw [expanding_move]
        refine h.shifts.move ?_ ?_ ?_
        · show itemAt (expanding level r (level.levelSize - 1)) idx slot = _
          rw [expanding_old]
          exact h.oldClean.itemAt_of_token_ne hne
        · show itemAt (expanding level r (level.levelSize + 1)) jdx j = none
          rw [expanding_new]
          exact itemAt_of_token_zero hfr
        · exact ⟨mem_bucketsOf.mpr hjdx, Nat.le_add_left 1 _, le_rfl⟩
      · rw [itemAt_clearSlot, if_pos rfl]
      · intro q hq
        rw [itemAt_clearSlot, hq]
        split <;> rfl
  · rw [if_neg htok] at hst
    cases hst
    refine ⟨h, ?_, fun _ hq => hq⟩
    unfold itemAt
    rw [if_neg htok]

lemma rehash_inv {slots : List (ℕ × Fin 4)} {r r' : Level.Rehash} (h : RehashInv H level r)
    (hlp : slots.foldlM (Level.rehashSlot H (2 ^ (level.levelSize + 1))) r = .done r') :
    RehashInv H level r' ∧ (∀ p ∈ slots, itemAt r'.oldBuckets p.1 p.2 = none) ∧
      ∀ q : ℕ × Fin 4, itemAt r.oldBuckets q.1 q.2 = none →
        itemAt r'.oldBuckets q.1 q.2 = none := by
  induction slots generalizing r with
  | nil =>
    cases hlp
    exact ⟨h, by simp, fun _ hq => hq⟩
  | cons p slots ih =>
    rw [foldlM_cons] at hlp
    obtain ⟨r1, hst, hrs⟩ := Outcome.bind_eq_done.mp hlp
    obtain ⟨h1, hp, hkp⟩ := rehashSlot_inv h hst
    obtain ⟨h2, hsls, hkp'⟩ := ih h1 hrs
    refine ⟨h2, ?_, fun q hq => hkp' q (hkp q hq)⟩
    intro q hq
    rcases mem_cons.mp hq with rfl | hq
    · exact hkp' q hp
    · exact hsls q hq

lemma mem_slotsBelow {count : ℕ} (h : idx < count) (j : Fin 4) :
    (idx, j) ∈ Level.slotsBelow count := by
  unfold Level.slotsBelow
  rw [mem_flatMap]
  exact ⟨idx, mem_range.mpr h, mem_map.mpr ⟨j, mem_finRange j, rfl⟩⟩

lemma expanding_init (hwf : WellFormed level) :
    expanding level ⟨zeroed, level.buckets 1, 0⟩ = arrays level := by
  have hnew : arrays level (level.levelSize + 1) = zeroed := by
    unfold arrays
    rw [if_neg (by omega), if_neg (by omega)]
  have hold : arrays level (level.levelSize - 1) = level.buckets 1 := arrays_level hwf 1
  unfold expanding
  rw [← hnew, ← hold, update_eq_self, update_eq_self]

/-- After the loop the old bottom level is empty and may be forgotten. -/
lemma view_adopt (hwf : WellFormed level) {r : Level.Rehash}
    (hold : ∀ idx j, itemAt r.oldBuckets idx j = none) :
    view (arrays (level.adopt r)) = view (expanding level r) := by
  have hsz := hwf.size
  funext ⟨s, idx, j⟩
  show itemAt (arrays (level.adopt r) s) idx j = itemAt (expanding level r s) idx j
  by_cases hs : s = level.levelSize - 1
  · subst hs
    rw [expanding_old, hold]
    unfold arrays
    rw [if_neg (by simp only [Level.adopt]; omega),
      if_neg (by simp only [Level.adopt]; omega), itemAt_zeroed]
  · have hexp : expanding level r s
        = update (arrays level) (level.levelSize + 1) r.newBuckets s := by
      unfold expanding
      rw [update_of_ne hs]
    rw [hexp]
    congr 1
    by_cases hs' : s = level.levelSize + 1
    · subst hs'
      rw [update_self]
      exact if_pos rfl
    · rw [update_of_ne hs']
      have hbot : (level.adopt r).buckets 1 = level.buckets 0 := rfl
      have hup : (level.adopt r).levelSize = level.levelSize + 1 := rfl
      unfold arrays
      rw [hbot, hup, if_neg hs']
      by_cases htop : s = level.levelSize
      · rw [if_pos (by omega), if_pos htop]
      · rw [if_neg (by omega), if_neg htop, if_neg (by omega)]

/-- **An expansion** that returns has moved items to the new level. -/
lemma levelExpand_moves (hwf : WellFormed level)
    (hat : AtCandidates (Candidate H) (view (arrays level)))
    (h : level.levelExpand H (fun _ => zeroed) = .done level') :
    Moves H (level.levelSize + 1) level level' ∧ level'.levelSize = level.levelSize + 1 := by
  have hsz := hwf.size
  unfold Level.levelExpand at h
  dsimp only at h
  split at h
  case isFalse => cases h
  obtain ⟨r, hlp, hdn⟩ := Outcome.bind_eq_done.mp h
  cases hdn
  have hin : RehashInv H level ⟨zeroed, level.buckets 1, 0⟩ := by
    refine ⟨clean_zeroed, hwf.clean 1, ?_⟩
    rw [expanding_init hwf]
    exact .refl
  obtain ⟨hinv, hsls, -⟩ := rehash_inv hin hlp
  have hold : ∀ idx j, itemAt r.oldBuckets idx j = none := by
    intro idx j
    by_cases hlt : idx < 2 ^ (level.levelSize - 1)
    · exact hsls (idx, j) (mem_slotsBelow hlt j)
    · cases hitem : itemAt r.oldBuckets idx j with
      | none => rfl
      | some it =>
        -- an item behind the end of the array would be at no candidate
        have hvw : view (expanding level r) (level.levelSize - 1, idx, j) = some (it.1, it.2) := by
          show itemAt (expanding level r (level.levelSize - 1)) idx j = _
          rw [expanding_old, hitem]
        have hcn : Candidate H it.1 (level.levelSize - 1, idx, j) :=
          ((hinv.shifts.mono fun _ _ hc => hc.candidate).atCandidates hat).placed hvw
        have htwo : 2 ≤ 2 ^ (level.levelSize - 1) := Nat.le_self_pow (by omega) 2
        exact absurd (lt_of_mem_bucketsOf htwo hcn) hlt
  refine ⟨⟨⟨by simp only [Level.adopt]; omega, rfl, ?_⟩, ?_⟩, rfl⟩
  · intro i
    simp only [Level.adopt]
    split
    · exact hinv.newClean
    · exact hwf.clean 0
  · rw [view_adopt hwf hold]
    exact hinv.shifts

lemma levelExpand_represents (hwf : WellFormed level) (hm : Represents H level m)
    (h : level.levelExpand H (fun _ => zeroed) = .done level') :
    WellFormed level' ∧ Represents H level' m := by
  obtain ⟨hmv, -⟩ := levelExpand_moves hwf ⟨hm.placed⟩ h
  exact ⟨hmv.wf, (hmv.shifts.mono fun _ _ hc => hc.candidate).placed hm⟩

/-! ## Runs -/

/-- One round of `level_insert` that finds a place for the key. -/
lemma IsKey.insertOnce_puts {value : List UInt8} (hkey : IsKey key) (hwf : WellFormed level)
    (h : level.insertOnce H (cstr key) ⟨memcpy 16 key, memcpy 15 value⟩ = some level') :
    Puts H level (cstr key, memcpy 15 value) level' := by
  obtain ⟨htr, hcp⟩ := hkey.memcpy_eq
  have hitem : Entry.item ⟨memcpy 16 key, memcpy 15 value⟩ = (cstr key, memcpy 15 value) := by
    unfold Entry.item
    rw [hcp]
  rw [← hitem]
  exact LevelHash.insertOnce_puts hwf htr (by rw [hitem]; exact h)

/-- **`level_insert`** of a new key, by induction on its expansions. -/
lemma levelInsert_inserted {fuel : ℕ} {key value : List UInt8} {ret : UInt8}
    (hwf : WellFormed level) (hm : Represents H level m) (hkey : IsKey key)
    (hnew : m (cstr key) = none)
    (h : level.levelInsert H (fun _ => zeroed) fuel key value = .done (ret, level')) :
    ret = 0 ∧ Inserted H m (cstr key, memcpy 15 value) level' := by
  induction fuel generalizing level with
  | zero => exact absurd h (by simp [Level.levelInsert])
  | succ fuel ih =>
    rw [Level.levelInsert] at h
    cases hon : level.insertOnce H (cstr key) ⟨memcpy 16 key, memcpy 15 value⟩ with
    | some inserted =>
      rw [hon] at h
      cases h
      exact ⟨rfl, (hkey.insertOnce_puts hwf hon).inserted hm hnew⟩
    | none =>
      rw [hon] at h
      obtain ⟨expanded, hexp, hrs⟩ := Outcome.bind_eq_done.mp h
      obtain ⟨hwf', hm'⟩ := levelExpand_represents hwf hm hexp
      exact ih hwf' hm' hrs

/-- The tables that a run from `level_init(n)` over zero-filled memory reaches,
with the map its calls describe. An insertion that returns was given enough
fuel; queries change nothing. -/
inductive Run (H : Hashes) (n : ℕ) :
    Level → (List UInt8 → Option (Bytes 15)) → Prop where
  | init {level : Level} : Level.levelInit (fun _ => zeroed) n = .done level →
      Run H n level (fun _ => none)
  | insert {level level' : Level} {m : List UInt8 → Option (Bytes 15)}
      {key value : List UInt8} {fuel : ℕ} {ret : UInt8} :
      Run H n level m → IsKey key → m (cstr key) = none →
      level.levelInsert H (fun _ => zeroed) fuel key value = .done (ret, level') →
      Run H n level' (update m (cstr key) (some (memcpy 15 value)))
  | update {level : Level} {m : List UInt8 → Option (Bytes 15)} {key value : List UInt8} :
      Run H n level m → IsKey key →
      Run H n (level.levelUpdate H key value).2
        (if (m (cstr key)).isSome then
          update m (cstr key) (some (memcpy 15 value)) else m)
  | delete {level : Level} {m : List UInt8 → Option (Bytes 15)} {key : List UInt8} :
      Run H n level m → IsKey key →
      Run H n (level.levelDelete H key).2 (update m (cstr key) none)

lemma view_levelInit {n : ℕ} (h : Level.levelInit (fun _ => zeroed) n = .done level) :
    view (arrays level) = fun _ => none := by
  unfold Level.levelInit at h
  split at h
  case isFalse => cases h
  cases h
  funext p
  unfold view arrays
  simp [itemAt_zeroed]

lemma levelInit_represents (H : Hashes) {n : ℕ} (hn : 2 ≤ n)
    (h : Level.levelInit (fun _ => zeroed) n = .done level) :
    WellFormed level ∧ Represents H level (fun _ => none) := by
  have hvw := view_levelInit h
  unfold Level.levelInit at h
  split at h
  case isFalse => cases h
  cases h
  refine ⟨⟨hn, rfl, ?_⟩, ?_⟩
  · intro i
    dsimp only
    split
    · exact clean_zeroed
    · exact clean_zeroed
  · unfold Represents
    rw [hvw]
    exact Placed.empty _

/-- **A whole run** keeps the invariant. -/
lemma Run.represents {n : ℕ} (hn : 2 ≤ n) (h : Run H n level m) :
    WellFormed level ∧ Represents H level m := by
  induction h with
  | init hin => exact levelInit_represents H hn hin
  | insert _ hkey hnew hins ih =>
    obtain ⟨hwf, hm⟩ := ih
    exact (levelInsert_inserted hwf hm hkey hnew hins).2
  | @update level m key value _ _ ih =>
    obtain ⟨hwf, hm⟩ := ih
    rcases levelUpdate_cases hwf hm key value with
      ⟨hno, heq⟩ | ⟨hsome, -, hwf', hm'⟩
    · rw [heq, hno]
      exact ⟨hwf, hm⟩
    · rw [if_pos hsome]
      exact ⟨hwf', hm'⟩
  | @delete level m key _ _ ih =>
    obtain ⟨hwf, hm⟩ := ih
    rcases levelDelete_cases hwf hm key with
      ⟨hno, heq⟩ | ⟨-, -, hwf', hm'⟩
    · rw [heq, ← hno, update_eq_self]
      exact ⟨hwf, hm⟩
    · exact ⟨hwf', hm'⟩

/-- What a caller sees of a table that stands for `m`. -/
structure RefinesMap (H : Hashes) (level : Level)
    (m : List UInt8 → Option (Bytes 15)) : Prop where
  staticQuery : ∀ key, IsKey key → level.levelStaticQuery H key = m (cstr key)
  dynamicQuery : ∀ key, IsKey key → level.levelDynamicQuery H key = m (cstr key)
  updateOk : ∀ key value, IsKey key →
    ((level.levelUpdate H key value).1 = 0 ↔ (m (cstr key)).isSome)
  deleteOk : ∀ key, IsKey key → ((level.levelDelete H key).1 = 0 ↔ (m (cstr key)).isSome)

/-- **The C level hash refines a finite map**, along every run from
`level_init(n)` that is not ended by `exit()`. -/
theorem level_run_refines (H : Hashes) (n : ℕ) (hn : 2 ≤ n) (level : Level)
    (m : List UInt8 → Option (Bytes 15)) (h : Run H n level m) :
    RefinesMap H level m := by
  obtain ⟨hwf, hm⟩ := h.represents hn
  refine ⟨fun key _ => levelStaticQuery_eq hwf hm key,
    fun key _ => levelDynamicQuery_eq hwf hm key, ?_, ?_⟩
  · intro key value _
    rcases levelUpdate_cases hwf hm key value with ⟨hno, heq⟩ | ⟨hsome, hret, -⟩
    · rw [heq, hno]
      exact iff_of_false (show ¬ (1 : UInt8) = 0 by decide) (by decide)
    · rw [hret]
      exact iff_of_true rfl hsome
  · intro key _
    rcases levelDelete_cases hwf hm key with ⟨hno, heq⟩ | ⟨hsome, hret, -⟩
    · rw [heq, hno]
      exact iff_of_false (show ¬ (1 : UInt8) = 0 by decide) (by decide)
    · rw [hret]
      exact iff_of_true rfl hsome

/-- Every key hashes to the same buckets. -/
def constHashes : Hashes := ⟨fun _ => 0, fun _ => 0⟩

theorem level_run_refines_insert :
    ∃ level m, m [97] = some (memcpy 15 [98]) ∧ Run constHashes 2 level m ∧
      RefinesMap constHashes level m := by
  obtain ⟨level, hin⟩ : ∃ level, Level.levelInit (fun _ => zeroed) 2 = .done level := ⟨_, rfl⟩
  have hkey : IsKey [97, 0] := ⟨by decide, by decide⟩
  obtain ⟨level', hins⟩ : ∃ level', level.levelInsert constHashes
      (fun _ => zeroed) 1 [97, 0] [98] = .done (0, level') := by
    cases hin
    exact ⟨_, rfl⟩
  have hrun := Run.insert (H := constHashes) (.init hin) hkey rfl hins
  exact ⟨level', _, rfl, hrun, level_run_refines constHashes 2 (by decide) _ _ hrun⟩

end Librdpma.LevelHash
