import Mathlib

/-!
# Buckets of the key-value service (`levelkv/src/common/level_hashing.hpp`)

`LevelBucket<K, V, 4>`. A token is 0 or 1 in every bucket: buckets start
zero-filled and only the operations below write tokens. So a token is a
`Bool` here.

The operations that take `bool &dirty_flag` return the new bucket when they
return `true`; setting the flag is left to their callers.
-/

namespace Librdpma.LevelKv

open List Function

structure Bucket (K V : Type) where
  token : Fin 4 → Bool
  slots : Fin 4 → K × V

namespace Bucket

variable {K V : Type}

/-- A bucket of zero bytes. -/
def zero [Inhabited K] [Inhabited V] : Bucket K V :=
  ⟨fun _ => false, fun _ => default⟩

/-- The first occupied slot with the key. -/
def slotOf [DecidableEq K] (b : Bucket K V) (key : K) : Option (Fin 4) :=
  (finRange 4).find? fun i => b.token i && decide ((b.slots i).1 = key)

/-- The first free slot. -/
def freeSlot (b : Bucket K V) : Option (Fin 4) :=
  (finRange 4).find? fun i => !b.token i

def searchSlot [DecidableEq K] (b : Bucket K V) (key : K) : Option V :=
  (b.slotOf key).map fun i => (b.slots i).2

def clearToken (b : Bucket K V) (i : Fin 4) : Bucket K V :=
  { b with token := update b.token i false }

def setSlot (b : Bucket K V) (i : Fin 4) (x : K × V) : Bucket K V :=
  { token := update b.token i true
    slots := update b.slots i x }

def deleteSlot [DecidableEq K] (b : Bucket K V) (key : K) : Option (Bucket K V) :=
  (b.slotOf key).map b.clearToken

def insertSlot (b : Bucket K V) (key : K) (value : V) : Option (Bucket K V) :=
  b.freeSlot.map fun i => b.setSlot i (key, value)

/-- The second component tells whether the value changed, and with it whether
the dirty flag is set. -/
def updateSlot [DecidableEq K] [DecidableEq V] (b : Bucket K V) (key : K)
    (value : V) : Option (Bucket K V × Bool) :=
  (b.slotOf key).map fun i =>
    if (b.slots i).2 = value then (b, false)
    else ({ b with slots := update b.slots i ((b.slots i).1, value) }, true)

def count (b : Bucket K V) : ℕ :=
  (finRange 4).countP b.token

/-! ## Contents -/

/-- The stored pairs. -/
def contents (b : Bucket K V) : Multiset (K × V) :=
  ∑ i, if b.token i then {b.slots i} else 0

def item (b : Bucket K V) (i : Fin 4) : Option (K × V) :=
  if b.token i then some (b.slots i) else none

@[simp] lemma contents_zero [Inhabited K] [Inhabited V] : (zero : Bucket K V).contents = 0 := by
  simp [contents, zero]

variable {b b' : Bucket K V} {i : Fin 4} {key : K} {value : V} {x : K × V} {table : ℕ → Bucket K V}
  {ids : Finset ℕ}

lemma contents_eq_zero_iff : b.contents = 0 ↔ ∀ i, b.token i = false := by
  unfold contents
  rw [Finset.sum_eq_zero_iff]
  constructor
  · intro h i
    cases htok : b.token i with
    | false => rfl
    | true =>
      have hi := h i (Finset.mem_univ i)
      rw [htok, if_pos rfl] at hi
      exact absurd hi (Multiset.singleton_ne_zero _)
  · intro h i _
    rw [h i, if_neg Bool.false_ne_true]

lemma card_contents (b : Bucket K V) : b.contents.card = b.count := by
  have hls : finRange 4 = [0, 1, 2, 3] := by decide
  unfold contents count
  rw [hls, Fin.sum_univ_four]
  simp only [Multiset.card_add, countP_cons, countP_nil, apply_ite Multiset.card,
    Multiset.card_singleton, Multiset.card_zero]
  omega

lemma contents_setSlot (h : b.token i = false) (x : K × V) :
    (b.setSlot i x).contents = x ::ₘ b.contents := by
  have hrs : ∑ j ∈ Finset.univ.erase i,
        (if (b.setSlot i x).token j then {(b.setSlot i x).slots j} else 0)
      = ∑ j ∈ Finset.univ.erase i, (if b.token j then ({b.slots j} : Multiset (K × V)) else 0) := by
    refine Finset.sum_congr rfl fun j hj => ?_
    have hji : j ≠ i := Finset.ne_of_mem_erase hj
    simp only [setSlot, update_of_ne hji]
  unfold contents
  rw [← Finset.add_sum_erase _ _ (Finset.mem_univ i),
    ← Finset.add_sum_erase _ _ (Finset.mem_univ i), hrs, h]
  simp [setSlot]

lemma setSlot_clearToken (h : b.token i = true) : (b.clearToken i).setSlot i (b.slots i) = b := by
  unfold setSlot clearToken
  rw [update_idem, ← h, update_eq_self, update_eq_self]

lemma contents_clearToken (h : b.token i = true) :
    b.contents = b.slots i ::ₘ (b.clearToken i).contents := by
  have hset := contents_setSlot (b := b.clearToken i) (update_self ..) (b.slots i)
  rwa [setSlot_clearToken h] at hset

/-! ## What the searches find -/

lemma slotOf_some [DecidableEq K] (h : b.slotOf key = some i) :
    b.token i = true ∧ (b.slots i).1 = key := by
  have hi := find?_some h
  simpa using hi

lemma slotOf_none [DecidableEq K] (h : b.slotOf key = none) (i : Fin 4) (htok : b.token i = true) :
    (b.slots i).1 ≠ key := by
  unfold slotOf at h
  rw [find?_eq_none] at h
  have hi := h i (mem_finRange i)
  simpa [htok] using hi

lemma freeSlot_some (h : b.freeSlot = some i) : b.token i = false := by
  have hi := find?_some h
  simpa using hi

lemma freeSlot_none (h : b.freeSlot = none) (i : Fin 4) : b.token i = true := by
  unfold freeSlot at h
  rw [find?_eq_none] at h
  have hi := h i (mem_finRange i)
  simpa using hi

lemma insertSlot_some (h : b.insertSlot key value = some b') :
    ∃ i, b.token i = false ∧ b' = b.setSlot i (key, value) := by
  obtain ⟨i, hi, rfl⟩ := Option.map_eq_some_iff.mp h
  exact ⟨i, freeSlot_some hi, rfl⟩

lemma deleteSlot_some [DecidableEq K] (h : b.deleteSlot key = some b') :
    ∃ i, b.token i = true ∧ (b.slots i).1 = key ∧ b' = b.clearToken i := by
  obtain ⟨i, hi, rfl⟩ := Option.map_eq_some_iff.mp h
  exact ⟨i, (slotOf_some hi).1, (slotOf_some hi).2, rfl⟩

lemma contents_insertSlot (h : b.insertSlot key value = some b') :
    b'.contents = (key, value) ::ₘ b.contents := by
  obtain ⟨i, hi, rfl⟩ := insertSlot_some h
  exact contents_setSlot hi _

/-! ## Items -/

lemma item_setSlot (b : Bucket K V) (i : Fin 4) (x : K × V) :
    (b.setSlot i x).item = update b.item i (some x) := by
  ext1 j
  by_cases hj : j = i
  · subst hj
    simp [item, setSlot]
  · simp [item, setSlot, update_of_ne hj]

lemma item_clearToken (b : Bucket K V) (i : Fin 4) :
    (b.clearToken i).item = update b.item i none := by
  ext1 j
  by_cases hj : j = i
  · subst hj
    simp [item, clearToken]
  · simp [item, clearToken, update_of_ne hj]

lemma item_eq_none : b.item i = none ↔ b.token i = false := by
  unfold item
  split <;> simp_all

lemma item_eq_some : b.item i = some x ↔ b.token i = true ∧ b.slots i = x := by
  unfold item
  split <;> simp_all

lemma searchSlot_some [DecidableEq K] {v : V} (h : b.searchSlot key = some v) :
    ∃ i, b.item i = some (key, v) := by
  obtain ⟨i, hi, rfl⟩ := Option.map_eq_some_iff.mp h
  obtain ⟨htok, hkey⟩ := slotOf_some hi
  exact ⟨i, item_eq_some.mpr ⟨htok, by rw [← hkey]⟩⟩

lemma item_ne_of_slotOf_none [DecidableEq K] (h : b.slotOf key = none) (i : Fin 4) (v : V) :
    b.item i ≠ some (key, v) := by
  intro hi
  obtain ⟨htok, hsl⟩ := item_eq_some.mp hi
  exact slotOf_none h i htok (by rw [hsl])

lemma insertSlot_none : b.insertSlot key value = none ↔ b.freeSlot = none := Option.map_eq_none_iff

lemma insertSlot_clearToken (b : Bucket K V) (i : Fin 4) (key : K) (value : V) :
    ∃ y, (b.clearToken i).insertSlot key value = some y := by
  cases hins : (b.clearToken i).insertSlot key value with
  | some y => exact ⟨y, rfl⟩
  | none =>
    have htok := freeSlot_none (insertSlot_none.mp hins) i
    rw [show (b.clearToken i).token i = false from update_self ..] at htok
    cases htok

lemma count_le (b : Bucket K V) : b.count ≤ 4 := by
  have h := countP_le_length (p := b.token) (l := finRange 4)
  rwa [length_finRange] at h

lemma freeSlot_eq_none_iff : b.freeSlot = none ↔ b.count = 4 := by
  have hlen : (finRange 4).length = 4 := length_finRange
  constructor
  · intro h
    have hall : ∀ i ∈ finRange 4, b.token i = true := fun i _ => freeSlot_none h i
    have hcnt := countP_eq_length.mpr hall
    unfold count
    omega
  · intro h
    have hall := countP_eq_length.mp (h.trans hlen.symm)
    unfold freeSlot
    rw [find?_eq_none]
    intro i hi
    simp [hall i hi]

/-! ## Many buckets -/

/-- The pairs stored in the buckets with the given ids. -/
def pairsOn (table : ℕ → Bucket K V) (ids : Finset ℕ) : Multiset (K × V) :=
  ∑ b ∈ ids, (table b).contents

lemma pairsOn_congr {table' : ℕ → Bucket K V} (h : ∀ b ∈ ids, table b = table' b) :
    pairsOn table ids = pairsOn table' ids :=
  Finset.sum_congr rfl fun b hb => by rw [h b hb]

lemma pairsOn_update {c : ℕ} {y : Bucket K V} (hc : c ∈ ids)
    (hy : y.contents = x ::ₘ (table c).contents) :
    pairsOn (update table c y) ids = x ::ₘ pairsOn table ids := by
  have hrs : ∑ b ∈ ids.erase c, (update table c y b).contents
      = ∑ b ∈ ids.erase c, (table b).contents := by
    refine Finset.sum_congr rfl fun b hb => ?_
    rw [update_of_ne (Finset.ne_of_mem_erase hb)]
  unfold pairsOn
  rw [← Finset.add_sum_erase _ _ hc, ← Finset.add_sum_erase _ _ hc, hrs,
    update_self, hy, Multiset.cons_add]

lemma pairsOn_update_erase {c : ℕ} {y : Bucket K V} (hc : c ∈ ids)
    (hy : (table c).contents = x ::ₘ y.contents) :
    pairsOn table ids = x ::ₘ pairsOn (update table c y) ids := by
  have hbc : pairsOn (update (update table c y) c (table c)) ids
      = x ::ₘ pairsOn (update table c y) ids :=
    pairsOn_update hc (by rw [update_self, hy])
  rwa [update_idem, update_eq_self] at hbc

end Bucket

end Librdpma.LevelKv
