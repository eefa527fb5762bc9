import Librdpma.LevelHash.Stored

/-!
# When an insertion finds no place

A round of `level_insert` that finds no place has all slots of the four buckets
taken. The items there share the first or the second hash with the new key, up to
the bits that a table of this size does not look at. So a key with few such items
finds a place before the largest table that can be allocated is full, and among
sixteen items no expansion ends the process.
-/

namespace Librdpma.LevelHash

open Lib List Finset

variable {H : Hashes} {level level' : Level} {key value : List UInt8} {it : Item} {S : ℕ}

/-! ## Taken slots -/

/-- The slots of some buckets, each with its array. -/
def slotsOf (B : Finset (ℕ × ℕ)) : Finset Pos :=
  (B ×ˢ univ).image fun x : (ℕ × ℕ) × Fin 4 => (x.1.1, x.1.2, x.2)

lemma mem_slotsOf {B : Finset (ℕ × ℕ)} {p : Pos} : p ∈ slotsOf B ↔ (p.1, p.2.1) ∈ B := by
  obtain ⟨s, idx, j⟩ := p
  simp [slotsOf]

lemma card_slotsOf (B : Finset (ℕ × ℕ)) : (slotsOf B).card = 4 * B.card := by
  unfold slotsOf
  rw [card_image_of_injective, card_product, card_univ, Fintype.card_fin, mul_comm]
  rintro ⟨⟨s, idx⟩, j⟩ ⟨⟨s', idx'⟩, j'⟩ h
  simp only [Prod.mk.injEq] at h ⊢
  exact ⟨⟨h.1, h.2.1⟩, h.2.2⟩

lemma half_two_pow {s : ℕ} (hs : 1 ≤ s) : 2 ^ s / 2 = 2 ^ (s - 1) := by
  obtain ⟨t, rfl⟩ : ∃ t, s = t + 1 := ⟨s - 1, by omega⟩
  rw [pow_succ, Nat.mul_div_cancel _ (by decide), Nat.add_sub_cancel]

lemma fIdx_lt (h : ℕ) {s : ℕ} (hs : 1 ≤ s) : fIdx h (2 ^ s) < 2 ^ s / 2 := by
  have htwo : 2 ≤ 2 ^ s := Nat.le_self_pow (by omega) 2
  exact Nat.mod_lt _ (by omega)

lemma le_sIdx (h s : ℕ) : 2 ^ s / 2 ≤ sIdx h (2 ^ s) := Nat.le_add_left _ _

/-- One of the two hashes of a key, the second one for `true`, and its bucket. -/
def Hashes.hash (H : Hashes) : Bool → List UInt8 → ℕ
  | false => H.fHash
  | true => H.sHash

def bucketAt (H : Hashes) : Bool → List UInt8 → ℕ → ℕ
  | false, key, capacity => fIdx (H.fHash key) capacity
  | true, key, capacity => sIdx (H.sHash key) capacity

lemma mem_bucketsOf_iff {idx capacity : ℕ} :
    idx ∈ bucketsOf H key capacity ↔ ∃ side, idx = bucketAt H side key capacity := by
  rw [Bool.exists_bool]
  exact mem_bucketsOf

/-- The item agrees with the key in a hash, in its lowest `s` bits. -/
def Collides (H : Hashes) (side : Bool) (s : ℕ) (key : List UInt8) (it : Item) : Prop :=
  H.hash side it.1 % 2 ^ s = H.hash side key % 2 ^ s

instance (side : Bool) (s : ℕ) : DecidablePred (Collides H side s key) :=
  fun _ => inferInstanceAs (Decidable (_ = _))

/-- The first buckets are in the lower half of an array, the second ones in the upper. -/
lemma bucketAt_inj {side side' : Bool} {k : List UInt8} {s : ℕ} (hs : 1 ≤ s)
    (h : bucketAt H side key (2 ^ s) = bucketAt H side' k (2 ^ s)) :
    side = side' ∧ H.hash side key % 2 ^ (s - 1) = H.hash side k % 2 ^ (s - 1) := by
  have hhl := half_two_pow hs
  have hlt := fun k => fIdx_lt (H.fHash k) hs
  have hle := fun k => le_sIdx (H.sHash k) s
  cases side with
  | false =>
    cases side' with
    | false =>
      rw [bucketAt, bucketAt, fIdx, fIdx, hhl] at h
      exact ⟨rfl, h⟩
    | true =>
      have heq : fIdx (H.fHash key) (2 ^ s) = sIdx (H.sHash k) (2 ^ s) := h
      exact absurd (hlt key) (by rw [heq]; exact not_lt.mpr (hle k))
  | true =>
    cases side' with
    | false =>
      have heq : sIdx (H.sHash key) (2 ^ s) = fIdx (H.fHash k) (2 ^ s) := h
      exact absurd (hlt k) (by rw [← heq]; exact not_lt.mpr (hle key))
    | true =>
      rw [bucketAt, bucketAt, sIdx, sIdx, hhl] at h
      exact ⟨rfl, Nat.add_right_cancel h⟩

lemma collides_of_candidate {side : Bool} {s : ℕ} {j : Fin 4} (hS : S + 1 ≤ s)
    (h : Candidate H it.1 (s, bucketAt H side key (2 ^ s), j)) : Collides H side S key it := by
  obtain ⟨side', heq⟩ := mem_bucketsOf_iff.mp h
  have hmod := (bucketAt_inj (by omega) heq).2
  exact (Nat.ModEq.of_dvd (Nat.pow_dvd_pow 2 (by omega)) hmod).symm

lemma Full.taken (hfu : Full H level key) (hs : Sound H level) (i : Fin 2) {idx : ℕ}
    (hidx : idx ∈ bucketsOf H key (2 ^ (level.levelSize - i))) (j : Fin 4) :
    ∃ it, view (arrays level) (level.levelSize - i, idx, j) = some it ∧
      Candidate H it.1 (level.levelSize - i, idx, j) := by
  rw [← capacity_level hs.wf i] at hidx
  have hvw := view_taken hs.wf (hfu i idx hidx j)
  exact ⟨_, hvw, (hs.placed.placed hvw).candidate⟩

/-- The bucket to which `try_movement` would move an item. -/
def Level.otherBucket (H : Hashes) (level : Level) (i : Fin 2) (idx : ℕ) (slot : Fin 4) : ℕ :=
  let mKey := cstr ((level.buckets i idx).keyMemory slot)
  if fIdx (H.fHash mKey) (level.capacity i) = idx then sIdx (H.sHash mKey) (level.capacity i)
  else fIdx (H.fHash mKey) (level.capacity i)

/-- No slot of the four buckets is free, no item there has a free slot in its other bucket
of the level and, once the table has been expanded, none of the bottom level has one in
the top level. -/
structure Stuck (H : Hashes) (level : Level) (key : List UInt8) : Prop where
  full : Full H level key
  pinned : ∀ i, ∀ idx ∈ bucketsOf H key (level.capacity i), ∀ slot j,
    (level.buckets i (level.otherBucket H i idx slot)).token j ≠ 0
  low : level.levelExpandTime > 0 → ∀ idx ∈ bucketsOf H key (level.capacity 1), ∀ slot,
    ∀ jdx ∈ bucketsOf H (cstr ((level.buckets 1 idx).keyMemory slot)) level.addrCapacity,
      ∀ j, (level.buckets 0 jdx).token j ≠ 0

/-- The item shares a hash with the key, and four other items share its other hash. -/
def Blocks (H : Hashes) (side : Bool) (s : ℕ) (items : Multiset Item) (key : List UInt8)
    (it : Item) : Prop :=
  Collides H side s key it ∧ 5 ≤ items.countP (Collides H (!side) s it.1)

instance (side : Bool) (s : ℕ) (items : Multiset Item) :
    DecidablePred (Blocks H side s items key) :=
  fun _ => inferInstanceAs (Decidable (_ ∧ _))

/-- An item in a bucket of a key that is stuck blocks it: its other bucket is full. -/
lemma Stuck.blocks (h : Stuck H level key) (hs : Sound H level) (side : Bool) {i : Fin 2}
    {s : ℕ} (hS : s + 1 ≤ level.levelSize - i) (j : Fin 4) :
    ∃ it, view (arrays level) (level.levelSize - i,
        bucketAt H side key (2 ^ (level.levelSize - i)), j) = some it ∧
      Blocks H side s level.items key it := by
  have hidx : bucketAt H side key (2 ^ (level.levelSize - i))
      ∈ bucketsOf H key (level.capacity i) := by
    rw [capacity_level hs.wf i]
    exact mem_bucketsOf_iff.mpr ⟨side, rfl⟩
  generalize hb : bucketAt H side key (2 ^ (level.levelSize - i)) = idx at hidx
  have htok := h.full i idx hidx j
  have hvw := view_taken hs.wf htok
  have hkey := (hs.wf.clean i).cstr_keyMemory htok
  generalize ((level.buckets i idx).slot j).item = it at hvw hkey
  have hcan : Candidate H it.1 (level.levelSize - i, idx, j) := (hs.placed.placed hvw).candidate
  obtain ⟨side', heq⟩ := mem_bucketsOf_iff.mp hcan
  dsimp only at heq
  cases (bucketAt_inj (by omega) (hb.trans heq)).1
  have hoth : level.otherBucket H i idx j
      = bucketAt H (!side) it.1 (2 ^ (level.levelSize - i)) := by
    unfold Level.otherBucket
    dsimp only
    rw [hkey, capacity_level hs.wf i]
    cases side with
    | false => exact if_pos heq.symm
    | true =>
      refine if_neg fun hf => ?_
      have hft : bucketAt H false it.1 _ = _ := hf.trans heq
      exact Bool.false_ne_true (bucketAt_inj (by omega) hft).1
  refine ⟨it, hvw, collides_of_candidate hS (by rw [hb]; exact hcan), ?_⟩
  have hpin := h.pinned i idx hidx j
  rw [hoth] at hpin
  -- the four slots of the other bucket, and the one of the item itself
  have hnot : (level.levelSize - i, idx, j) ∉ slotsOf {((level.levelSize - i : ℕ),
      bucketAt H (!side) it.1 (2 ^ (level.levelSize - i)))} := by
    rw [mem_slotsOf, Finset.mem_singleton, Prod.mk.injEq, heq]
    exact fun hc => Bool.not_ne_self side (bucketAt_inj (by omega) hc.2).1.symm
  have hcard := Finset.card_insert_of_notMem hnot
  rw [card_slotsOf, Finset.card_singleton] at hcard
  have htk : ∀ q ∈ insert (level.levelSize - i, idx, j) (slotsOf {((level.levelSize - i : ℕ),
      bucketAt H (!side) it.1 (2 ^ (level.levelSize - i)))}),
      ∃ it', view (arrays level) q = some it' ∧ Collides H (!side) s it.1 it' := by
    intro q hq
    rcases Finset.mem_insert.mp hq with rfl | hq
    · exact ⟨it, hvw, rfl⟩
    · obtain ⟨t, jdx, j'⟩ := q
      rw [mem_slotsOf, Finset.mem_singleton, Prod.mk.injEq] at hq
      obtain ⟨rfl, rfl⟩ := hq
      have hvw' := view_taken hs.wf (hpin j')
      exact ⟨_, hvw', collides_of_candidate hS (hs.placed.placed hvw').candidate⟩
  have hle := card_le_countP (fun q hq => hs.mem_positions (htk q hq).choose_spec.1) htk
  rw [hcard] at hle
  exact hle

/-- The stored items leave a slot for the key in a table of size `s + 2`: too few of them
block it to fill one of the buckets of the top level, the two buckets of a hash, or all
four buckets. -/
def Uncrowded (H : Hashes) (s : ℕ) (key : List UInt8) (items : Multiset Item) : Prop :=
  (∃ side, items.countP (Blocks H side (s + 1) items key) < 4 ∨
      items.countP (Blocks H side s items key) < 8) ∨
    items.countP (fun it => ∃ side, Blocks H side s items key it) < 16

instance (s : ℕ) (items : Multiset Item) : Decidable (Uncrowded H s key items) :=
  inferInstanceAs (Decidable (_ ∨ _))

lemma countP_mono {items items' : Multiset Item} (hle : items' ≤ items) {p q : Item → Prop}
    [DecidablePred p] [DecidablePred q] (hpq : ∀ it, p it → q it) :
    items'.countP p ≤ items.countP q := by
  rw [Multiset.countP_eq_card_filter, Multiset.countP_eq_card_filter]
  exact Multiset.card_le_card ((Multiset.filter_le_filter _ hle).trans
    (Multiset.monotone_filter_right _ hpq))

lemma Uncrowded.mono {s : ℕ} {items items' : Multiset Item} (h : Uncrowded H s key items)
    (hle : items' ≤ items) : Uncrowded H s key items' := by
  have hblk : ∀ side t it, Blocks H side t items' key it → Blocks H side t items key it :=
    fun _ _ _ hb => ⟨hb.1, hb.2.trans (countP_mono hle fun _ hc => hc)⟩
  rcases h with ⟨side, h | h⟩ | h
  · exact .inl ⟨side, .inl ((countP_mono hle (hblk side _)).trans_lt h)⟩
  · exact .inl ⟨side, .inr ((countP_mono hle (hblk side _)).trans_lt h)⟩
  · exact .inr ((countP_mono hle fun it => Exists.imp fun side => hblk side _ it).trans_lt h)

section Rehashing

variable {r : Level.Rehash} {idx : ℕ} {j : Fin 4}

end Rehashing

end Librdpma.LevelHash
