import Librdpma.LevelHash.Crowding

/-!
# `level_shrink`

The items of the old top level are inserted again into the two levels below. The
loop reads its bound from the table, so if one of these insertions expands the
table, the loop goes on behind the end of the old top level. As long as each of
them finds a place by itself (`Fits`) the stored pairs are kept.
-/

namespace Librdpma.LevelHash

open Lib List Outcome

variable {H : Hashes} {level level' : Level} {bs interim : Buckets} {key value : List UInt8}
  {it : Item} {fuel : ℕ} {p : ℕ × Fin 4} {slots : List (ℕ × Fin 4)}

/-! ## Insertions without an expansion -/

/-- One item of the array `bs` is inserted if it finds a place without an expansion. -/
def refillSlot (H : Hashes) (bs : Buckets) (level : Level) (p : ℕ × Fin 4) : Option Level :=
  if (bs p.1).token p.2 = 1 then
    level.insertOnce H (cstr ((bs p.1).keyMemory p.2))
      ⟨memcpy 16 ((bs p.1).keyMemory p.2), memcpy 15 ((bs p.1).slot p.2).value.toList⟩
  else some level

/-- The items of the top level find places below it, one after the other. -/
def Fits (H : Hashes) (level : Level) : Prop :=
  ((Level.slotsBelow (2 ^ level.levelSize)).foldlM (refillSlot H (level.buckets 0))
    (level.lowered fun _ => zeroed)).isSome

/-- The items in the listed slots. -/
def itemsIn (bs : Buckets) (slots : List (ℕ × Fin 4)) : Multiset Item :=
  ↑(slots.filterMap fun p => itemAt bs p.1 p.2)

lemma itemsIn_cons_of_token (htok : (bs p.1).token p.2 = 1) :
    itemsIn bs (p :: slots) = ((bs p.1).slot p.2).item ::ₘ itemsIn bs slots := by
  have hitem : itemAt bs p.1 p.2 = some ((bs p.1).slot p.2).item := if_pos htok
  unfold itemsIn
  rw [filterMap_cons_some (f := fun p : ℕ × Fin 4 => itemAt bs p.1 p.2) hitem]
  rfl

lemma itemsIn_cons_of_not (htok : ¬ (bs p.1).token p.2 = 1) :
    itemsIn bs (p :: slots) = itemsIn bs slots := by
  have hitem : itemAt bs p.1 p.2 = none := if_neg htok
  unfold itemsIn
  rw [filterMap_cons_none (f := fun p : ℕ × Fin 4 => itemAt bs p.1 p.2) hitem]

lemma Clean.reinserted (hcl : Clean bs) (htok : (bs p.1).token p.2 = 1) :
    (cstr ((bs p.1).keyMemory p.2), memcpy 15 ((bs p.1).slot p.2).value.toList)
      = ((bs p.1).slot p.2).item := by
  rw [hcl.cstr_keyMemory (by rw [htok]; decide), memcpy_self]
  rfl

lemma arrays_lowered (hwf : WellFormed level) (s : ℕ) : arrays (level.lowered fun _ => zeroed) s
      = if s = level.levelSize then zeroed else arrays level s := by
  have hsz := hwf.size
  have hlow : (level.lowered fun _ => zeroed).levelSize = level.levelSize - 1 := rfl
  unfold arrays
  rw [hlow]
  by_cases htop : s = level.levelSize
  · rw [if_neg (by omega), if_neg (by omega), if_pos htop]
  rw [if_neg htop, if_neg htop]
  by_cases hbot : s + 1 = level.levelSize
  · rw [if_pos (by omega), if_pos hbot]
    rfl
  · rw [if_neg (by omega), if_neg hbot]
    by_cases hnew : s + 1 = level.levelSize - 1
    · rw [if_pos hnew]
      rfl
    · rw [if_neg hnew]

lemma view_lowered (hwf : WellFormed level) (q : Pos) :
    view (arrays (level.lowered fun _ => zeroed)) q
      = if q.1 = level.levelSize then none else view (arrays level) q := by
  unfold view
  rw [arrays_lowered hwf]
  split
  · rfl
  · rfl

lemma nodup_slotsBelow (count : ℕ) : (Level.slotsBelow count).Nodup := by
  unfold Level.slotsBelow
  rw [nodup_flatMap]
  refine ⟨fun idx _ => (nodup_finRange 4).map fun j j' h => (Prod.mk.inj h).2, ?_⟩
  refine nodup_range.imp fun {a b} hab => ?_
  simp only [Function.onFun, disjoint_left, mem_map]
  rintro x ⟨j, -, rfl⟩ ⟨j', -, h⟩
  exact hab (Prod.mk.inj h).1.symm

lemma lt_of_mem_slotsBelow {count : ℕ} (h : p ∈ Level.slotsBelow count) : p.1 < count := by
  obtain ⟨idx, hidx, hp⟩ := mem_flatMap.mp h
  obtain ⟨j, -, rfl⟩ := mem_map.mp hp
  exact mem_range.mp hidx

lemma Sound.lowered (hs : Sound H level) (h3 : 3 ≤ level.levelSize) :
    Sound H (level.lowered fun _ => zeroed) ∧
      itemsIn (level.buckets 0) (Level.slotsBelow (2 ^ level.levelSize))
        + (level.lowered fun _ => zeroed).items = level.items := by
  have hle := size_le_of_allocatable hs.alloc
  have hwf : WellFormed (level.lowered fun _ => zeroed) := by
    refine ⟨show 2 ≤ level.levelSize - 1 by omega, rfl, fun i => ?_⟩
    match i with
    | 0 => exact hs.wf.clean 1
    | 1 => exact clean_zeroed
  refine ⟨⟨hwf, ?_, ⟨fun {q k v} hq => ?_⟩⟩, ?_⟩
  · have halc := hs.alloc
    have hpow : 2 ^ (level.levelSize - 1) ≤ 2 ^ level.levelSize :=
      Nat.pow_le_pow_right (by omega) (by omega)
    show Allocatable (2 ^ (level.levelSize - 1))
    unfold Allocatable at halc ⊢
    omega
  · rw [view_lowered hs.wf] at hq
    split at hq
    · cases hq
    · obtain ⟨hcn, hlo, hhi⟩ := hs.placed.placed hq
      exact ⟨hcn, hlo, show q.1 ≤ level.levelSize - 1 by omega⟩
  · -- the positions of the top level, in the order of the loop
    set l : List Pos := (Level.slotsBelow (2 ^ level.levelSize)).map fun p =>
      (level.levelSize, p.1, p.2) with hl
    have hmem : ∀ q, q ∈ l ↔ q.1 = level.levelSize ∧ q.2.1 < 2 ^ level.levelSize := by
      rintro ⟨s, idx, j⟩
      constructor
      · intro hq
        obtain ⟨p, hp, heq⟩ := mem_map.mp hq
        cases heq
        exact ⟨rfl, lt_of_mem_slotsBelow hp⟩
      · rintro ⟨rfl, hidx⟩
        exact mem_map.mpr ⟨(idx, j), mem_slotsBelow hidx j, rfl⟩
    have hspl : contents positions (view (arrays level))
        = ↑(l.filterMap (view (arrays level)))
          + contents positions (view (arrays (level.lowered fun _ => zeroed))) := contents_split
      ((nodup_slotsBelow _).map fun p q h => by
        simp only [Prod.mk.injEq, true_and] at h
        exact Prod.ext h.1 h.2)
      (fun q hq => by
        obtain ⟨hq1, hq2⟩ := (hmem q).mp hq
        exact mem_positionsUpTo (hq1.trans_le hle) (by rw [hq1]; exact hq2) q.2.2)
      (fun q hq => by
        rw [view_lowered hs.wf]
        split
        case isFalse => rfl
        case isTrue hq1 =>
          cases hitem : view (arrays level) q with
          | none => rfl
          | some it =>
            have hcn : q.2.1 ∈ bucketsOf H it.1 (2 ^ q.1) := (hs.placed.placed hitem).candidate
            have hidx := lt_of_mem_bucketsOf (Nat.le_self_pow (by omega) 2) hcn
            rw [hq1] at hidx
            exact absurd ((hmem q).mpr ⟨hq1, hidx⟩) hq)
      (fun q hq => by rw [view_lowered hs.wf, if_pos ((hmem q).mp hq).1])
    have htop : l.filterMap (view (arrays level))
        = (Level.slotsBelow (2 ^ level.levelSize)).filterMap fun p =>
          itemAt (level.buckets 0) p.1 p.2 := by
      rw [hl, filterMap_map]
      refine filterMap_congr fun p _ => ?_
      exact view_level hs.wf 0 p.1 p.2
    rw [htop] at hspl
    exact hspl.symm

/-! ## The loop -/

/-- The old top level while the loop runs: only tokens behind it are cleared. -/
structure Remains (bs interim : Buckets) (slots : List (ℕ × Fin 4)) : Prop where
  slot : ∀ idx, (interim idx).slot = (bs idx).slot
  token : ∀ p ∈ slots, (interim p.1).token p.2 = (bs p.1).token p.2

lemma Remains.keyMemory (h : Remains bs interim slots) (idx : ℕ) (j : Fin 4) :
    (interim idx).keyMemory j = (bs idx).keyMemory j := by
  unfold Bucket.keyMemory
  rw [h.slot]

lemma Remains.tail (h : Remains bs interim (p :: slots)) : Remains bs interim slots :=
  ⟨h.slot, fun q hq => h.token q (mem_cons_of_mem _ hq)⟩

lemma Remains.clear (h : Remains bs interim (p :: slots)) (hp : p ∉ slots) :
    Remains bs (clearSlot interim p.1 p.2) slots := by
  refine ⟨fun idx => ?_, fun q hq => ?_⟩
  · unfold clearSlot
    by_cases hidx : idx = p.1
    · rw [hidx, Function.update_self]
      exact h.slot p.1
    · rw [Function.update_of_ne hidx]
      exact h.slot idx
  · have hqp : q ≠ p := by
      rintro rfl
      exact hp hq
    rw [token_clearSlot, if_neg hqp]
    exact h.token q (mem_cons_of_mem _ hq)

/-- What the loop does in one slot: nothing, or one `level_insert`. -/
lemma Remains.reinsertSlot_eq (h : Remains bs interim (p :: slots)) :
    Level.reinsertSlot H (fun _ => zeroed) fuel p.1 (interim, level) p.2
      = if (bs p.1).token p.2 = 1 then do
          let (ret, level) ← level.levelInsert H (fun _ => zeroed) fuel
            ((bs p.1).keyMemory p.2) ((bs p.1).slot p.2).value.toList
          if ret = 0 then .done (clearSlot interim p.1 p.2, level) else .exit
        else .done (interim, level) := by
  unfold Level.reinsertSlot
  rw [h.token p mem_cons_self, h.keyMemory, h.slot]

/-- What one slot leaves if it returns: the table has grown only if the item found no
place by itself. -/
lemma Remains.reinsert_done (h : Remains bs interim (p :: slots)) (hp : p ∉ slots)
    (hs : Sound H level) (hcl : Clean bs) {x : Buckets × Level}
    (hdn : Level.reinsertSlot H (fun _ => zeroed) fuel p.1 (interim, level) p.2 = .done x) :
    Remains bs x.1 slots ∧ Sound H x.2 ∧
      itemsIn bs (p :: slots) + level.items = itemsIn bs slots + x.2.items ∧
      level.levelSize ≤ x.2.levelSize ∧
      (x.2.levelSize = level.levelSize → refillSlot H bs level p = some x.2) := by
  rw [h.reinsertSlot_eq] at hdn
  unfold refillSlot
  split at hdn
  case isFalse htok =>
    cases hdn
    rw [itemsIn_cons_of_not htok, if_neg htok]
    exact ⟨h.tail, hs, rfl, le_rfl, fun _ => rfl⟩
  case isTrue htok =>
    obtain ⟨⟨ret, level1⟩, hins, hret⟩ := bind_eq_done.mp hdn
    obtain ⟨hz, hs1, hits, hle, hon⟩ :=
      hs.levelInsert (hcl.isKey_keyMemory (by rw [htok]; decide)) hins
    dsimp only at hret
    rw [if_pos hz] at hret
    cases hret
    rw [hcl.reinserted htok] at hits
    rw [if_pos htok, itemsIn_cons_of_token htok, hits, Multiset.cons_add, Multiset.add_cons]
    exact ⟨h.clear hp, hs1, rfl, hle, hon⟩

/-- The slots of the old top level, one after the other. -/
def reinsertAll (H : Hashes) (fuel : ℕ) (slots : List (ℕ × Fin 4)) (x : Buckets × Level) :
    Outcome (Buckets × Level) :=
  slots.foldlM (fun x p => Level.reinsertSlot H (fun _ => zeroed) fuel p.1 x p.2) x

lemma reinsertAll_done (rest : List (ℕ × Fin 4)) (h : Remains bs interim (slots ++ rest))
    (hnd : (slots ++ rest).Nodup) (hs : Sound H level) (hcl : Clean bs)
    {x : Buckets × Level} (hdn : reinsertAll H fuel slots (interim, level) = .done x) :
    Remains bs x.1 rest ∧ Sound H x.2 ∧
      itemsIn bs (slots ++ rest) + level.items = itemsIn bs rest + x.2.items ∧
      level.levelSize ≤ x.2.levelSize ∧
      (x.2.levelSize = level.levelSize → slots.foldlM (refillSlot H bs) level = some x.2) := by
  induction slots generalizing level interim with
  | nil =>
    cases hdn
    exact ⟨h, hs, rfl, le_rfl, fun _ => rfl⟩
  | cons p slots ih =>
    rw [cons_append] at h hnd ⊢
    obtain ⟨hp, hnd⟩ := nodup_cons.mp hnd
    unfold reinsertAll at hdn
    rw [foldlM_cons] at hdn
    obtain ⟨x1, hst, hrs⟩ := bind_eq_done.mp hdn
    obtain ⟨hrem, hs1, hits1, hle1, hrf1⟩ := h.reinsert_done hp hs hcl hst
    obtain ⟨hrem', hs', hits, hle, hrf⟩ := ih hrem hnd hs1 hrs
    refine ⟨hrem', hs', hits1.trans hits, hle1.trans hle, fun heq => ?_⟩
    rw [foldlM_cons, hrf1 (by omega)]
    exact hrf (by omega)

/-! ## The whole call -/

/-- The end of the loop: behind the last bucket if the table has grown. -/
def loopEnd (count : ℕ) (x : Buckets × Level) : Outcome (Buckets × Level) :=
  if count < 2 ^ (x.2.levelSize + 1) then .undefined else .done x

/-- The table does not get smaller in the loop, so that all buckets are visited. -/
lemma shrinkLoop_eq {count : ℕ} {idxs : List ℕ}
    (hidx : ∀ idx ∈ idxs, idx < 2 ^ (level.levelSize + 1))
    (h : Remains bs interim (idxs.flatMap fun idx => (finRange 4).map fun j => (idx, j)))
    (hnd : (idxs.flatMap fun idx => (finRange 4).map fun j => (idx, j)).Nodup)
    (hs : Sound H level) (hcl : Clean bs) :
    Level.shrinkLoop H (fun _ => zeroed) fuel count idxs (interim, level)
      = reinsertAll H fuel (idxs.flatMap fun idx => (finRange 4).map fun j => (idx, j))
          (interim, level) >>= loopEnd count := by
  induction idxs generalizing level interim with
  | nil => rfl
  | cons idx idxs ih =>
    have hlt := hidx idx mem_cons_self
    have hinn : (finRange 4).foldlM
        (Level.reinsertSlot H (fun _ => zeroed) fuel idx) (interim, level)
        = reinsertAll H fuel ((finRange 4).map fun j => (idx, j)) (interim, level) := by
      unfold reinsertAll
      rw [foldlM_map]
    rw [flatMap_cons] at h hnd ⊢
    have hapn : ∀ l, reinsertAll H fuel (((finRange 4).map fun j => (idx, j)) ++ l)
        (interim, level) = reinsertAll H fuel ((finRange 4).map fun j => (idx, j))
        (interim, level) >>= reinsertAll H fuel l := fun l => by
      unfold reinsertAll
      rw [foldlM_append]
    rw [Level.shrinkLoop, if_pos hlt, hinn, hapn, bind_assoc]
    cases hdn : reinsertAll H fuel ((finRange 4).map fun j => (idx, j)) (interim, level) with
    | done x =>
      obtain ⟨hrem, hs', -, hle, -⟩ := reinsertAll_done _ h hnd hs hcl hdn
      have hpow : 2 ^ (level.levelSize + 1) ≤ 2 ^ (x.2.levelSize + 1) :=
        Nat.pow_le_pow_right (by omega) (by omega)
      exact ih (fun i hi => (hidx i (mem_cons_of_mem _ hi)).trans_le hpow) hrem
        (nodup_append.mp hnd).2.1 hs'
    | exit => rfl
    | undefined => rfl
    | loop => rfl

lemma Sound.levelShrink_eq (hs : Sound H level) (h3 : 3 ≤ level.levelSize)
    (hfew : level.fewItems = true) :
    level.levelShrink H (fun _ => zeroed) fuel = do
      let x ← reinsertAll H fuel (Level.slotsBelow (2 ^ level.levelSize))
        (level.buckets 0, level.lowered fun _ => zeroed)
      let x ← loopEnd (2 ^ level.levelSize) x
      return { x.2 with levelExpandTime := 0 } := by
  have hlow : (level.lowered fun _ => zeroed).levelSize + 1 = level.levelSize :=
    show level.levelSize - 1 + 1 = _ by omega
  have hlp : Level.shrinkLoop H (fun _ => zeroed) fuel (2 ^ level.levelSize)
      (range (2 ^ level.levelSize)) (level.buckets 0, level.lowered fun _ => zeroed) = _ :=
    shrinkLoop_eq (fun idx hidx => by rw [hlow]; exact mem_range.mp hidx)
    ⟨fun _ => rfl, fun _ _ => rfl⟩ (nodup_slotsBelow _) (hs.lowered h3).1 (hs.wf.clean 0)
  unfold Level.levelShrink
  rw [if_pos hfew, hlp, bind_assoc]
  rfl

lemma Sound.reset (hs : Sound H level) : Sound H { level with levelExpandTime := 0 } ∧
      ({ level with levelExpandTime := 0 } : Level).items = level.items :=
  ⟨⟨⟨hs.wf.size, hs.wf.capacity, hs.wf.clean⟩, hs.alloc, hs.placed⟩, rfl⟩

lemma Sound.levelShrink_done (hs : Sound H level) (h3 : 3 ≤ level.levelSize)
    (h : level.levelShrink H (fun _ => zeroed) fuel = .done level') :
    Fits H level ∧ Sound H level' ∧ level'.items = level.items := by
  have hfew : level.fewItems = true := by
    by_contra hno
    unfold Level.levelShrink at h
    rw [if_neg hno] at h
    cases h
  rw [hs.levelShrink_eq h3 hfew] at h
  obtain ⟨x, hall, hrs⟩ := bind_eq_done.mp h
  obtain ⟨x', hend, hdn⟩ := bind_eq_done.mp hrs
  cases hdn
  obtain ⟨hlow, hits⟩ := hs.lowered h3
  obtain ⟨-, hs', hits', hle, hrf⟩ := reinsertAll_done []
    ⟨fun _ => rfl, fun _ _ => rfl⟩ (by rw [append_nil]; exact nodup_slotsBelow _)
    hlow (hs.wf.clean 0) hall
  rw [append_nil, hits] at hits'
  unfold loopEnd at hend
  split at hend
  case isTrue => cases hend
  case isFalse hsz =>
    cases hend
    -- the loop has ended at the last bucket, so the table has not grown
    have hlowSize : (level.lowered fun _ => zeroed).levelSize = level.levelSize - 1 := rfl
    have hgr : x.2.levelSize + 1 ≤ level.levelSize :=
      (Nat.pow_le_pow_iff_right (by decide)).mp (Nat.le_of_not_lt hsz)
    have hft : Fits H level := by
      unfold Fits
      rw [hrf (by omega)]
      rfl
    exact ⟨hft, hs'.reset.1, hs'.reset.2.trans (hits'.trans (zero_add _)).symm⟩

end Librdpma.LevelHash
