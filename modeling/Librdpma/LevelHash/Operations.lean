import Librdpma.LevelHash.Invariant

/-!
# The operations of the level hash

A lookup reads the map that the table represents. Every write is one of the
rules for placed items: an insertion at a free candidate, a deletion, an
overwriting, or a move to a free candidate.
-/

namespace Librdpma.LevelHash

open Lib Function List Option

variable {H : Hashes} {level level' : Level} {m : List UInt8 → Option (Bytes 15)}
  {bs : Buckets} {idx : ℕ} {j : Fin 4} {e : Entry} {key : List UInt8} {i : Fin 2}

/-! ## Lookups -/

lemma findSlot_some (hbs : Clean bs) (h : findSlot (bs idx) key = some j) :
    itemAt bs idx j = some (key, ((bs idx).slot j).value) := by
  have hj := find?_some h
  simp only [decide_eq_true_eq] at hj
  obtain ⟨htok, hkey⟩ := hj
  have hne : (bs idx).token j ≠ 0 := by
    rw [htok]
    decide
  rw [hbs.itemAt_of_token_ne hne, ← hkey, hbs.cstr_keyMemory hne]
  rfl

lemma findSlot_none (hbs : Clean bs) (h : findSlot (bs idx) key = none)
    (j : Fin 4) (v : Bytes 15) : itemAt bs idx j ≠ some (key, v) := by
  intro hitem
  unfold findSlot at h
  rw [find?_eq_none] at h
  refine h j (mem_finRange j) ?_
  have hne : (bs idx).token j ≠ 0 := by
    intro h0
    rw [itemAt_of_token_zero h0] at hitem
    cases hitem
  have hone : (bs idx).token j = 1 := by
    rcases hbs idx j with h0 | ⟨h1, -⟩
    · exact absurd h0 hne
    · exact h1
  rw [hbs.itemAt_of_token_ne hne] at hitem
  simp only [decide_eq_true_eq]
  refine ⟨hone, ?_⟩
  rw [hbs.cstr_keyMemory hne, some.inj hitem]

variable {levels : List (Fin 2)} {k : List UInt8} {slot : Fin 4}

section

variable (hwf : WellFormed level)

include hwf

lemma search_some {p : Fin 2 × ℕ × Fin 4} (h : level.search H levels key = some p) :
    itemAt (level.buckets p.1) p.2.1 p.2.2 = some (cstr key, level.valueAt p) := by
  obtain ⟨i, -, hi⟩ := exists_of_findSome?_eq_some h
  obtain ⟨idx, -, hidx⟩ := exists_of_findSome?_eq_some hi
  obtain ⟨j, hj, rfl⟩ := map_eq_some_iff.mp hidx
  exact findSlot_some (hwf.clean i) hj

omit hwf in
lemma search_token {p : Fin 2 × ℕ × Fin 4} (h : level.search H levels key = some p) :
    p.2.1 ∈ bucketsOf H (cstr key) (level.capacity p.1) ∧
      (level.buckets p.1 p.2.1).token p.2.2 = 1 := by
  obtain ⟨i, -, hi⟩ := exists_of_findSome?_eq_some h
  obtain ⟨idx, hmem, hidx⟩ := exists_of_findSome?_eq_some hi
  obtain ⟨j, hj, rfl⟩ := map_eq_some_iff.mp hidx
  have hsl := find?_some hj
  simp only [decide_eq_true_eq] at hsl
  exact ⟨hmem, hsl.1⟩

lemma search_none (hall : ∀ i, i ∈ levels) (h : level.search H levels key = none) (p : Pos)
    (hp : Candidate H (cstr key) p) (v : Bytes 15) :
    view (arrays level) p ≠ some (cstr key, v) := by
  have hlvl : ∀ i : Fin 2, p.1 = level.levelSize - i →
      view (arrays level) p ≠ some (cstr key, v) := by
    intro i hi
    unfold Level.search at h
    rw [findSome?_eq_none_iff] at h
    have hlev := h i (hall i)
    rw [findSome?_eq_none_iff] at hlev
    have hmem : p.2.1 ∈ bucketsOf H (cstr key) (level.capacity i) := by
      rw [capacity_level hwf i, ← hi]
      exact hp
    have hsl := map_eq_none_iff.mp (hlev p.2.1 hmem)
    rw [show p = (level.levelSize - i, p.2.1, p.2.2) from by rw [← hi], view_level hwf i]
    exact findSlot_none (hwf.clean i) hsl p.2.2 v
  have hsz := hwf.size
  by_cases h0 : p.1 = level.levelSize
  · exact hlvl 0 h0
  by_cases h1 : p.1 + 1 = level.levelSize
  · exact hlvl 1 (by simp only [Fin.val_one]; omega)
  unfold view arrays
  rw [if_neg h0, if_neg h1, itemAt_zeroed]
  simp

/-- **Queries.** A search over both levels reads the map. -/
lemma search_eq (hm : Represents H level m) (levels : List (Fin 2)) (hall : ∀ i, i ∈ levels)
    (key : List UInt8) :
    (level.search H levels key).map level.valueAt = m (cstr key) := by
  cases hsr : level.search H levels key with
  | none =>
    rw [map_none]
    exact (hm.lookup_none (search_none hwf hall hsr)).symm
  | some p =>
    have hitem := search_some hwf hsr
    rw [← view_level hwf p.1] at hitem
    rw [map_some]
    exact (hm.lookup_some hitem).symm

lemma levelStaticQuery_eq (hm : Represents H level m) (key : List UInt8) :
    level.levelStaticQuery H key = m (cstr key) :=
  search_eq hwf hm [0, 1] (by decide) key

lemma levelDynamicQuery_eq (hm : Represents H level m) (key : List UInt8) :
    level.levelDynamicQuery H key = m (cstr key) := by
  unfold Level.levelDynamicQuery
  split
  · exact search_eq hwf hm [0, 1] (by decide) key
  · exact search_eq hwf hm [1, 0] (by decide) key

/-! ## Writes to one level -/

/-- A table that differs in the array of level `i` only. -/
structure Writes (level : Level) (i : Fin 2) (bs : Buckets) (level' : Level) :
    Prop where
  size : level'.levelSize = level.levelSize
  capacity : level'.addrCapacity = level.addrCapacity
  buckets : level'.buckets = update level.buckets i bs

lemma Writes.wellFormed (h : Writes level i bs level') (hbs : Clean bs) : WellFormed level' := by
  refine ⟨by rw [h.size]; exact hwf.size, by rw [h.size, h.capacity]; exact hwf.capacity,
    fun i' => ?_⟩
  rw [h.buckets]
  by_cases hi : i' = i
  · subst hi
    rw [update_self]
    exact hbs
  · rw [update_of_ne hi]
    exact hwf.clean i'

lemma Writes.view_eq (h : Writes level i bs level') :
    view (arrays level') = view (update (arrays level) (level.levelSize - i) bs) := by
  rw [arrays_update hwf i bs h.size h.buckets]

lemma update_arrays_self (i : Fin 2) :
    update (arrays level) (level.levelSize - i) (level.buckets i) = arrays level := by
  rw [← arrays_level hwf i]
  exact update_eq_self ..

/-- The positions of level `i`. -/
def Level.pos (level : Level) (i : Fin 2) (idx : ℕ) (j : Fin 4) : Pos :=
  (level.levelSize - i, idx, j)

lemma within_pos (h : idx ∈ bucketsOf H k (level.capacity i)) (j : Fin 4) :
    Within H level.levelSize k (level.pos i idx j) := by
  have hsz := hwf.size
  have hi : (i : ℕ) < 2 := i.isLt
  rw [capacity_level hwf i] at h
  exact ⟨h, show 1 ≤ level.levelSize - i by omega, Nat.sub_le _ _⟩

lemma Writes.put (h : Writes level i (putSlot (level.buckets i) idx j e) level') :
    view (arrays level') = update (view (arrays level)) (level.pos i idx j) (some e.item) := by
  rw [h.view_eq hwf, view_putSlot, update_arrays_self hwf i]
  rfl

lemma Writes.clear (h : Writes level i (clearSlot (level.buckets i) idx j) level') :
    view (arrays level') = update (view (arrays level)) (level.pos i idx j) none := by
  rw [h.view_eq hwf, view_clearSlot, update_arrays_self hwf i]
  rfl

/-! ## Deletion and update -/

lemma levelDelete_cases (hm : Represents H level m) (key : List UInt8) :
    (m (cstr key) = none ∧ level.levelDelete H key = (1, level)) ∨
      ((m (cstr key)).isSome ∧ (level.levelDelete H key).1 = 0 ∧
        WellFormed (level.levelDelete H key).2 ∧
        Represents H (level.levelDelete H key).2 (update m (cstr key) none)) := by
  have hlku := search_eq hwf hm [0, 1] (by decide) key
  unfold Level.levelDelete
  cases hsr : level.search H [0, 1] key with
  | none =>
    rw [hsr] at hlku
    exact .inl ⟨hlku.symm, rfl⟩
  | some p =>
    obtain ⟨i, idx, j⟩ := p
    rw [hsr] at hlku
    have hitem := search_some hwf hsr
    rw [← view_level hwf i] at hitem
    refine .inr ⟨by rw [← hlku]; rfl, rfl, ?_⟩
    have hw : Writes level i (clearSlot (level.buckets i) idx j) { level with
        buckets := update level.buckets i (clearSlot (level.buckets i) idx j)
        levelItemNum := update level.levelItemNum i (level.levelItemNum i - 1) } := ⟨rfl, rfl, rfl⟩
    refine ⟨hw.wellFormed hwf ((hwf.clean i).clearSlot idx j), ?_⟩
    unfold Represents
    rw [hw.clear hwf]
    exact hm.delete hitem

omit hwf in
/-- Overwriting the value of an occupied slot puts the entry back with its new
value. -/
lemma update_value_eq_putSlot {v : Bytes 15} (h : (bs idx).token j = 1) :
    update bs idx { bs idx with
        slot := update (bs idx).slot j { (bs idx).slot j with value := v } }
      = putSlot bs idx j { (bs idx).slot j with value := v } := by
  unfold putSlot
  rw [← h, update_eq_self]

lemma levelUpdate_cases (hm : Represents H level m) (key newValue : List UInt8) :
    (m (cstr key) = none ∧ level.levelUpdate H key newValue = (1, level)) ∨
      ((m (cstr key)).isSome ∧ (level.levelUpdate H key newValue).1 = 0 ∧
        WellFormed (level.levelUpdate H key newValue).2 ∧
        Represents H (level.levelUpdate H key newValue).2
          (update m (cstr key) (some (memcpy 15 newValue)))) := by
  have hlku := search_eq hwf hm [0, 1] (by decide) key
  unfold Level.levelUpdate
  cases hsr : level.search H [0, 1] key with
  | none =>
    rw [hsr] at hlku
    exact .inl ⟨hlku.symm, rfl⟩
  | some p =>
    obtain ⟨i, idx, j⟩ := p
    rw [hsr] at hlku
    have hitem := search_some hwf hsr
    have htok : (level.buckets i idx).token j = 1 ∧
        0 ∈ ((level.buckets i idx).slot j).key.toList := by
      rcases hwf.clean i idx j with h0 | h1
      · rw [itemAt_of_token_zero h0] at hitem
        cases hitem
      · exact h1
    have hkey : ((level.buckets i idx).slot j).item.1 = cstr key := by
      unfold itemAt at hitem
      rw [if_pos htok.1] at hitem
      rw [some.inj hitem]
    refine .inr ⟨by rw [← hlku]; rfl, rfl, ?_⟩
    dsimp only
    rw [update_value_eq_putSlot htok.1]
    set e : Entry := { (level.buckets i idx).slot j with value := memcpy 15 newValue }
    have hw : Writes level i (putSlot (level.buckets i) idx j e) { level with
        buckets := update level.buckets i (putSlot (level.buckets i) idx j e) } := ⟨rfl, rfl, rfl⟩
    have htr : 0 ∈ e.key.toList := htok.2
    refine ⟨hw.wellFormed hwf ((hwf.clean i).putSlot htr idx j), ?_⟩
    rw [← view_level hwf i] at hitem
    have hput := hm.overwrite hitem (memcpy 15 newValue)
    unfold Represents
    rw [hw.put hwf, show e.item = (cstr key, memcpy 15 newValue) from by
      rw [← hkey]; rfl]
    exact hput

end

/-! ## Insertion -/

lemma emptySlot_some {f s : ℕ} (h : emptySlot bs f s = some (idx, j)) :
    (idx = f ∨ idx = s) ∧ (bs idx).token j = 0 := by
  obtain ⟨j', -, hj'⟩ := exists_of_findSome?_eq_some h
  by_cases hf : (bs f).token j' = 0
  · rw [if_pos hf] at hj'
    cases hj'
    exact ⟨.inl rfl, hf⟩
  rw [if_neg hf] at hj'
  by_cases hs : (bs s).token j' = 0
  · rw [if_pos hs] at hj'
    cases hj'
    exact ⟨.inr rfl, hs⟩
  · rw [if_neg hs] at hj'
    cases hj'

lemma emptySlot_none {f s : ℕ} (h : emptySlot bs f s = none) (j : Fin 4) :
    (bs f).token j ≠ 0 ∧ (bs s).token j ≠ 0 := by
  unfold emptySlot at h
  rw [findSome?_eq_none_iff] at h
  have hj := h j (mem_finRange j)
  by_cases hf : (bs f).token j = 0
  · rw [if_pos hf] at hj
    cases hj
  rw [if_neg hf] at hj
  by_cases hs : (bs s).token j = 0
  · rw [if_pos hs] at hj
    cases hj
  · exact ⟨hf, hs⟩

lemma mem_bucketsOf {capacity : ℕ} : idx ∈ bucketsOf H k capacity ↔
      idx = fIdx (H.fHash k) capacity ∨ idx = sIdx (H.sHash k) capacity := by
  simp [bucketsOf]

lemma lt_of_mem_bucketsOf {capacity : ℕ} (hcap : 2 ≤ capacity)
    (h : idx ∈ bucketsOf H k capacity) : idx < capacity := by
  have hhl : 0 < capacity / 2 := by omega
  rcases mem_bucketsOf.mp h with rfl | rfl
  · unfold fIdx
    have := Nat.mod_lt (H.fHash k) hhl
    omega
  · unfold sIdx
    have := Nat.mod_lt (H.sHash k) hhl
    omega

/-- The slots of the buckets of a key are all taken. -/
def Full (H : Hashes) (level : Level) (key : List UInt8) : Prop :=
  ∀ i, ∀ idx ∈ bucketsOf H key (level.capacity i), ∀ j, (level.buckets i idx).token j ≠ 0

lemma tryMovement_cases (h : level.tryMovement H idx i e = some level') :
    ∃ slot jdx j, jdx ∈ bucketsOf H (cstr ((level.buckets i idx).keyMemory slot))
        (level.capacity i) ∧ (level.buckets i jdx).token j = 0 ∧
      level' = { level with
        buckets := update level.buckets i (putSlot (clearSlot
          (putSlot (level.buckets i) jdx j ((level.buckets i idx).slot slot))
          idx slot) idx slot e)
        levelItemNum := update level.levelItemNum i (level.levelItemNum i + 1) } := by
  obtain ⟨slot, -, hsl⟩ := exists_of_findSome?_eq_some h
  obtain ⟨j, hj, rfl⟩ := map_eq_some_iff.mp hsl
  have htok := find?_some hj
  simp only [decide_eq_true_eq] at htok
  refine ⟨slot, _, j, ?_, htok, rfl⟩
  rw [mem_bucketsOf]
  split
  · exact .inr rfl
  · exact .inl rfl

lemma b2tMovement_cases (h : level.b2tMovement H idx = some (slot, level')) :
    ∃ jdx j, jdx ∈ bucketsOf H (cstr ((level.buckets 1 idx).keyMemory slot))
        (level.capacity 0) ∧ (level.buckets 0 jdx).token j = 0 ∧
      level' = { level with
        buckets := update (update level.buckets 0
            (putSlot (level.buckets 0) jdx j ((level.buckets 1 idx).slot slot)))
          1 (clearSlot (level.buckets 1) idx slot)
        levelItemNum := update (update level.levelItemNum 0 (level.levelItemNum 0 + 1))
          1 (level.levelItemNum 1 - 1) } := by
  obtain ⟨slot', -, hsl⟩ := exists_of_findSome?_eq_some h
  obtain ⟨⟨jdx, j⟩, hnil, heq⟩ := map_eq_some_iff.mp hsl
  cases heq
  obtain ⟨hjdx, htok⟩ := emptySlot_some hnil
  have hcap : level.capacity 0 = level.addrCapacity := by
    simp [Level.capacity]
  exact ⟨jdx, j, by rw [hcap, mem_bucketsOf]; exact hjdx, htok, rfl⟩

lemma full_of_free_none (h : (([0, 1] : List (Fin 2)).findSome? fun i =>
      (emptySlot (level.buckets i) (fIdx (H.fHash key) (level.capacity i))
        (sIdx (H.sHash key) (level.capacity i))).map fun (idx, j) =>
          level.insertAt i idx j e) = none) : Full H level key := by
  intro i idx hidx j
  rw [findSome?_eq_none_iff] at h
  have hmem : i ∈ ([0, 1] : List (Fin 2)) := by
    match i with
    | 0 | 1 => simp
  have hnil := map_eq_none_iff.mp (h i hmem)
  obtain ⟨hf, hs⟩ := emptySlot_none hnil j
  rcases mem_bucketsOf.mp hidx with rfl | rfl
  · exact hf
  · exact hs

lemma insertOnce_cases (h : level.insertOnce H key e = some level') :
    (∃ i idx j, idx ∈ bucketsOf H key (level.capacity i) ∧
        (level.buckets i idx).token j = 0 ∧ level' = level.insertAt i idx j e) ∨
      Full H level key ∧
        ((∃ i, ∃ idx ∈ bucketsOf H key (level.capacity i),
            level.tryMovement H idx i e = some level') ∨
          ∃ idx ∈ bucketsOf H key (level.capacity 1), ∃ slot lifted,
            level.b2tMovement H idx = some (slot, lifted) ∧
            level' = lifted.insertAt 1 idx slot e) := by
  rcases or_eq_some_iff.mp h with hfr | ⟨hno, h⟩
  · obtain ⟨i, -, hi⟩ := exists_of_findSome?_eq_some hfr
    obtain ⟨⟨idx, j⟩, hnil, rfl⟩ := map_eq_some_iff.mp hi
    obtain ⟨hidx, htok⟩ := emptySlot_some hnil
    exact .inl ⟨i, idx, j, mem_bucketsOf.mpr hidx, htok, rfl⟩
  refine .inr ⟨full_of_free_none hno, ?_⟩
  rcases or_eq_some_iff.mp h with hmove | ⟨-, hlf⟩
  · obtain ⟨i, -, hi⟩ := exists_of_findSome?_eq_some hmove
    obtain ⟨idx, hidx, hmv⟩ := exists_of_findSome?_eq_some hi
    exact .inl ⟨i, idx, hidx, hmv⟩
  · by_cases htime : level.levelExpandTime > 0
    · rw [if_pos htime] at hlf
      obtain ⟨idx, hidx, hmv⟩ := exists_of_findSome?_eq_some hlf
      obtain ⟨⟨slot, lifted⟩, hb2t, rfl⟩ := map_eq_some_iff.mp hmv
      exact .inr ⟨idx, hidx, slot, lifted, hb2t, rfl⟩
    · rw [if_neg htime] at hlf
      cases hlf

/-- The table has changed by moves of items to free candidates. -/
structure Moves (H : Hashes) (S : ℕ) (level level' : Level) : Prop where
  wf : WellFormed level'
  shifts : Shifts (Within H S) (view (arrays level)) (view (arrays level'))

/-- Items may have moved, and then one item was put at a free candidate. -/
structure Puts (H : Hashes) (level : Level) (it : Item) (level' : Level) : Prop where
  wf : WellFormed level'
  size : level'.levelSize = level.levelSize
  put : ∃ mid p, Shifts (Within H level.levelSize) (view (arrays level)) mid ∧
    mid p = none ∧ Within H level.levelSize it.1 p ∧
    view (arrays level') = update mid p (some it)

section

variable (hwf : WellFormed level)

include hwf

lemma view_free (htok : (level.buckets i idx).token j = 0) :
    view (arrays level) (level.pos i idx j) = none := by
  rw [Level.pos, view_level hwf i]
  exact itemAt_of_token_zero htok

lemma view_taken (htok : (level.buckets i idx).token j ≠ 0) :
    view (arrays level) (level.pos i idx j) = some ((level.buckets i idx).slot j).item := by
  rw [Level.pos, view_level hwf i]
  exact (hwf.clean i).itemAt_of_token_ne htok

lemma insertAt_puts (he : 0 ∈ e.key.toList) (hidx : idx ∈ bucketsOf H e.item.1 (level.capacity i))
    (htok : (level.buckets i idx).token j = 0) :
    Puts H level e.item (level.insertAt i idx j e) := by
  have hw : Writes level i (putSlot (level.buckets i) idx j e)
      (level.insertAt i idx j e) := ⟨rfl, rfl, rfl⟩
  exact ⟨hw.wellFormed hwf ((hwf.clean i).putSlot he idx j), rfl, _, _, .refl,
    view_free hwf htok, within_pos hwf hidx j, hw.put hwf⟩

/-- Moving an item aside to `(jdx, j)` and writing the new item in its slot. -/
lemma moved_puts (he : 0 ∈ e.key.toList) (hidx : idx ∈ bucketsOf H e.item.1 (level.capacity i))
    (hfu : (level.buckets i idx).token slot ≠ 0) {jdx : ℕ}
    (hjdx : jdx ∈ bucketsOf H ((level.buckets i idx).slot slot).item.1 (level.capacity i))
    (htok : (level.buckets i jdx).token j = 0)
    (hw : Writes level i
      (putSlot (clearSlot (putSlot (level.buckets i) jdx j ((level.buckets i idx).slot slot)) idx
        slot) idx slot e) level') :
    Puts H level e.item level' := by
  have hcl := hwf.clean i
  have htr := hcl.terminated hfu
  have hitem := view_taken hwf hfu
  have hfr := view_free hwf htok
  have hne : level.pos i jdx j ≠ level.pos i idx slot := by
    intro heq
    rw [heq, hitem] at hfr
    cases hfr
  refine ⟨hw.wellFormed hwf
    (((hcl.putSlot htr jdx j).clearSlot idx slot).putSlot he idx slot), hw.size,
    _, level.pos i idx slot, Shifts.refl.move hitem hfr (within_pos hwf hjdx j), ?_,
    within_pos hwf hidx slot, ?_⟩
  · rw [update_of_ne hne.symm, update_self]
  · -- the code clears the old slot after filling the new one
    rw [update_comm hne.symm, hw.view_eq hwf, view_putSlot, view_clearSlot,
      view_putSlot, update_arrays_self hwf i]
    rfl

lemma tryMovement_puts (he : 0 ∈ e.key.toList)
    (hidx : idx ∈ bucketsOf H e.item.1 (level.capacity i))
    (hfu : ∀ j, (level.buckets i idx).token j ≠ 0)
    (h : level.tryMovement H idx i e = some level') : Puts H level e.item level' := by
  obtain ⟨slot, jdx, j, hjdx, htok, rfl⟩ := tryMovement_cases h
  rw [(hwf.clean i).cstr_keyMemory (hfu slot)] at hjdx
  exact moved_puts hwf he hidx (hfu slot) hjdx htok ⟨rfl, rfl, rfl⟩

lemma b2tMovement_moves (hfu : ∀ j, (level.buckets 1 idx).token j ≠ 0)
    (h : level.b2tMovement H idx = some (slot, level')) :
    Moves H level.levelSize level level' ∧ level'.levelSize = level.levelSize ∧
      level'.capacity = level.capacity ∧ (level'.buckets 1 idx).token slot = 0 := by
  obtain ⟨jdx, j, hjdx, htok, rfl⟩ := b2tMovement_cases h
  rw [(hwf.clean 1).cstr_keyMemory (hfu slot)] at hjdx
  have htr := (hwf.clean 1).terminated (hfu slot)
  -- first the copy into the top level, then the token of the bottom slot
  set up := putSlot (level.buckets 0) jdx j ((level.buckets 1 idx).slot slot)
  set copied : Level := { level with
    buckets := update level.buckets 0 up }
  have hcp : Writes level 0 up copied := ⟨rfl, rfl, rfl⟩
  have hwf' := hcp.wellFormed hwf ((hwf.clean 0).putSlot htr jdx j)
  have hclr : Writes copied 1 (clearSlot (copied.buckets 1) idx slot)
      { level with
        buckets := update (update level.buckets 0 up) 1 (clearSlot (level.buckets 1) idx slot)
        levelItemNum := update (update level.levelItemNum 0 (level.levelItemNum 0 + 1))
          1 (level.levelItemNum 1 - 1) } := ⟨rfl, rfl, rfl⟩
  have hitem := view_taken hwf (hfu slot)
  have hfr := view_free hwf htok
  have hne : level.pos 0 jdx j ≠ level.pos 1 idx slot := by
    intro heq
    rw [heq, hitem] at hfr
    cases hfr
  refine ⟨⟨hclr.wellFormed hwf' ((hwf'.clean 1).clearSlot idx slot), ?_⟩, rfl, rfl, ?_⟩
  · have hmv := Shifts.refl.move hitem hfr (within_pos (H := H) hwf hjdx j)
    rw [hclr.clear hwf', hcp.put hwf]
    rw [update_comm hne.symm] at hmv
    exact hmv
  · show (update (update level.buckets 0 up) 1
      (clearSlot (level.buckets 1) idx slot) 1 idx).token slot = 0
    simp [clearSlot]

/-- **One round of an insertion** that finds a place. -/
lemma insertOnce_puts (he : 0 ∈ e.key.toList)
    (h : level.insertOnce H e.item.1 e = some level') : Puts H level e.item level' := by
  rcases insertOnce_cases h with ⟨i, idx, j, hidx, htok, rfl⟩ | ⟨hfu, hmove | hlf⟩
  · exact insertAt_puts hwf he hidx htok
  · obtain ⟨i, idx, hidx, hmv⟩ := hmove
    exact tryMovement_puts hwf he hidx (hfu i idx hidx) hmv
  · obtain ⟨idx, hidx, slot, lifted, hb2t, rfl⟩ := hlf
    obtain ⟨hmvs, hsz, hcap, htok⟩ := b2tMovement_moves hwf (hfu 1 idx hidx) hb2t
    rw [← hcap] at hidx
    obtain ⟨hwf', hsz', mid, p, hshf, hfr, hp, hvw⟩ := insertAt_puts hmvs.wf he hidx htok
    rw [hsz] at hshf hp
    exact ⟨hwf', hsz'.trans hsz, mid, p, hmvs.shifts.trans hshf, hfr, hp, hvw⟩

end

/-- The result of inserting the item `(k, v)`. -/
def Inserted (H : Hashes) (m : List UInt8 → Option (Bytes 15)) (it : Item)
    (level : Level) : Prop :=
  WellFormed level ∧ Represents H level (update m it.1 (some it.2))

lemma Puts.inserted {it : Item} (h : Puts H level it level') (hm : Represents H level m)
    (hnew : m it.1 = none) : Inserted H m it level' := by
  obtain ⟨mid, p, hshf, hfr, hp, hvw⟩ := h.put
  refine ⟨h.wf, ?_⟩
  unfold Represents
  rw [hvw]
  exact ((hshf.mono fun _ _ hc => hc.candidate).placed hm).insert hfr hnew hp.candidate it.2

end Librdpma.LevelHash
