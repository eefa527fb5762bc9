import Librdpma.Lib.Placement
import Librdpma.LevelHash.Table

/-!
# The items of the level hash

An item stands at a position `(s, idx, j)`: slot `j` of bucket `idx` of the
array of `2 ^ s` buckets. The two buckets of a key depend on `s` only, so an
expansion re-reads no index: the old top level keeps its `s`, and the items
of the old bottom level move to positions with `s` two higher.

`WellFormed` holds of a table over zero-filled memory; `Represents` adds the
map its items stand for.
-/

namespace Librdpma.LevelHash

open Lib Function List

/-! ## Strings -/

/-- A NUL-terminated key of at most 15 bytes. -/
structure IsKey (mem : List UInt8) : Prop where
  terminated : 0 ∈ mem
  short : (cstr mem).length ≤ 15

lemma IsKey.memcpy_eq {mem : List UInt8} (h : IsKey mem) :
    0 ∈ (memcpy 16 mem).toList ∧ cstr (memcpy 16 mem).toList = cstr mem := by
  obtain ⟨rest, hrs⟩ := cstr_terminated h.terminated
  have hcp : ∃ rest', (memcpy 16 mem).toList = (cstr mem ++ [0]) ++ rest' := by
    refine ⟨(rest ++ replicate 16 0).take (16 - (cstr mem).length - 1), ?_⟩
    have hlen := h.short
    show (mem ++ replicate 16 0).take 16 = _
    nth_rewrite 1 [hrs]
    rw [append_assoc, take_append, take_of_length_le (by omega), cons_append, append_assoc]
    congr 1
    rw [show 16 - (cstr mem).length = (16 - (cstr mem).length - 1) + 1 from by omega,
      take_succ_cons]
    rfl
  obtain ⟨rest', hcp⟩ := hcp
  have hz : (0 : UInt8) ∈ cstr mem ++ [0] := by simp
  constructor
  · rw [hcp]
    exact mem_append_left _ hz
  · have hmem : mem = (cstr mem ++ [0]) ++ rest := by
      rw [append_assoc]
      exact hrs
    rw [hcp, cstr_append_of_mem hz]
    conv_rhs => rw [hmem]
    exact (cstr_append_of_mem hz rest).symm

/-! ## Items -/

abbrev Pos := ℕ × ℕ × Fin 4

abbrev Item := List UInt8 × Bytes 15

def Entry.item (e : Entry) : Item := (cstr e.key.toList, e.value)

/-- The item in a slot, if its token is set. -/
def itemAt (bs : Buckets) (idx : ℕ) (j : Fin 4) : Option Item :=
  if (bs idx).token j = 1 then some ((bs idx).slot j).item else none

/-- Tokens are 0 or 1, and every stored key has its terminator. -/
def Clean (bs : Buckets) : Prop :=
  ∀ idx j, (bs idx).token j = 0 ∨ ((bs idx).token j = 1 ∧ 0 ∈ ((bs idx).slot j).key.toList)

def zeroBucket : Bucket where
  token := fun _ => 0
  slot := fun _ => ⟨⟨replicate 16 0, rfl⟩, ⟨replicate 15 0, rfl⟩⟩

/-- Memory from `alignedmalloc`, when it is zero-filled. -/
def zeroed : Buckets := fun _ => zeroBucket

lemma clean_zeroed : Clean zeroed := fun _ _ => Or.inl rfl

lemma itemAt_zeroed (idx : ℕ) (j : Fin 4) : itemAt zeroed idx j = none := rfl

variable {bs : Buckets} {idx : ℕ} {j : Fin 4} {e : Entry}

lemma itemAt_of_token_zero (h : (bs idx).token j = 0) : itemAt bs idx j = none := by
  unfold itemAt
  rw [h]
  rfl

lemma Clean.itemAt_of_token_ne (hbs : Clean bs) (h : (bs idx).token j ≠ 0) :
    itemAt bs idx j = some ((bs idx).slot j).item := by
  rcases hbs idx j with h0 | ⟨h1, -⟩
  · exact absurd h0 h
  · exact if_pos h1

lemma Clean.terminated (hbs : Clean bs) (h : (bs idx).token j ≠ 0) :
    0 ∈ ((bs idx).slot j).key.toList := by
  rcases hbs idx j with h0 | ⟨-, htr⟩
  · exact absurd h0 h
  · exact htr

lemma Bucket.keyMemory_eq (b : Bucket) (j : Fin 4) :
    ∃ rest, b.keyMemory j = (b.slot j).key.toList ++ rest := by
  have hdr : ∀ j : Fin 4, (finRange 4).drop j = j :: (finRange 4).drop (j + 1) := by decide
  unfold Bucket.keyMemory
  rw [hdr j, flatMap_cons, append_assoc]
  exact ⟨_, rfl⟩

/-- A stored key ends inside its slot, so its string is the slot's own. -/
lemma Clean.cstr_keyMemory (hbs : Clean bs) (h : (bs idx).token j ≠ 0) :
    cstr ((bs idx).keyMemory j) = ((bs idx).slot j).item.1 := by
  obtain ⟨rest, hrs⟩ := (bs idx).keyMemory_eq j
  rw [hrs, cstr_append_of_mem (hbs.terminated h)]
  rfl

lemma Clean.isKey_keyMemory (hbs : Clean bs) (h : (bs idx).token j ≠ 0) :
    IsKey ((bs idx).keyMemory j) := by
  have htr := hbs.terminated h
  constructor
  · obtain ⟨rest, hrs⟩ := (bs idx).keyMemory_eq j
    rw [hrs]
    exact mem_append_left _ htr
  · rw [hbs.cstr_keyMemory h]
    have hlt := length_cstr_lt htr
    rw [List.Vector.toList_length] at hlt
    exact Nat.le_of_lt_succ hlt

lemma token_putSlot (bs : Buckets) (idx : ℕ) (j : Fin 4) (e : Entry) (p : ℕ × Fin 4) :
    (putSlot bs idx j e p.1).token p.2 = if p = (idx, j) then 1 else (bs p.1).token p.2 := by
  obtain ⟨idx', j'⟩ := p
  unfold putSlot
  by_cases hidx : idx' = idx
  · subst hidx
    by_cases hj : j' = j
    · subst hj
      simp
    · simp [hj]
  · simp [hidx]

lemma token_clearSlot (bs : Buckets) (idx : ℕ) (j : Fin 4) (p : ℕ × Fin 4) :
    (clearSlot bs idx j p.1).token p.2 = if p = (idx, j) then 0 else (bs p.1).token p.2 := by
  obtain ⟨idx', j'⟩ := p
  unfold clearSlot
  by_cases hidx : idx' = idx
  · subst hidx
    by_cases hj : j' = j
    · subst hj
      simp
    · simp [hj]
  · simp [hidx]

lemma Clean.putSlot (hbs : Clean bs) (he : 0 ∈ e.key.toList) (idx : ℕ)
    (j : Fin 4) : Clean (putSlot bs idx j e) := by
  intro idx' j'
  unfold LevelHash.putSlot
  by_cases hidx : idx' = idx
  · subst hidx
    rw [update_self]
    by_cases hj : j' = j
    · subst hj
      simp only [update_self]
      exact .inr ⟨trivial, he⟩
    · simp only [update_of_ne hj]
      exact hbs idx' j'
  · rw [update_of_ne hidx]
    exact hbs idx' j'

lemma Clean.clearSlot (hbs : Clean bs) (idx : ℕ) (j : Fin 4) : Clean (clearSlot bs idx j) := by
  intro idx' j'
  unfold LevelHash.clearSlot
  by_cases hidx : idx' = idx
  · subst hidx
    rw [update_self]
    by_cases hj : j' = j
    · subst hj
      simp only [update_self]
      exact .inl trivial
    · simp only [update_of_ne hj]
      exact hbs idx' j'
  · rw [update_of_ne hidx]
    exact hbs idx' j'

lemma itemAt_putSlot (idx' : ℕ) (j' : Fin 4) : itemAt (putSlot bs idx j e) idx' j'
      = if (idx', j') = (idx, j) then some e.item else itemAt bs idx' j' := by
  unfold itemAt putSlot
  by_cases hidx : idx' = idx
  · subst hidx
    rw [update_self]
    by_cases hj : j' = j
    · subst hj
      simp
    · simp [hj]
  · simp [hidx]

lemma itemAt_clearSlot (idx' : ℕ) (j' : Fin 4) : itemAt (clearSlot bs idx j) idx' j'
      = if (idx', j') = (idx, j) then none else itemAt bs idx' j' := by
  unfold itemAt clearSlot
  by_cases hidx : idx' = idx
  · subst hidx
    rw [update_self]
    by_cases hj : j' = j
    · subst hj
      simp
    · simp [hj]
  · simp [hidx]

/-! ## Arrays by their size -/

/-- The items of a family of arrays, one for each `s`. -/
def view (arr : ℕ → Buckets) (p : Pos) : Option Item :=
  itemAt (arr p.1) p.2.1 p.2.2

/-- The arrays of a table; those it does not have are empty. -/
def arrays (level : Level) (s : ℕ) : Buckets :=
  if s = level.levelSize then level.buckets 0
  else if s + 1 = level.levelSize then level.buckets 1
  else zeroed

/-- A key may stand in its two buckets of every array. -/
def Candidate (H : Hashes) (key : List UInt8) (p : Pos) : Prop :=
  p.2.1 ∈ bucketsOf H key (2 ^ p.1)

/-- The candidates in the arrays up to that of `2 ^ S` buckets. -/
def Within (H : Hashes) (S : ℕ) (key : List UInt8) (p : Pos) : Prop :=
  Candidate H key p ∧ 1 ≤ p.1 ∧ p.1 ≤ S

lemma Within.candidate {H : Hashes} {S : ℕ} {key : List UInt8} {p : Pos}
    (h : Within H S key p) : Candidate H key p := h.1

variable {arr : ℕ → Buckets} {s : ℕ}

lemma view_update {bs' : Buckets} {x : Option Item} (h : ∀ idx' j', itemAt bs' idx' j'
    = if (idx', j') = (idx, j) then x else itemAt bs idx' j') :
    view (update arr s bs') = update (view (update arr s bs)) (s, idx, j) x := by
  funext ⟨s', idx', j'⟩
  by_cases hs : s' = s
  · subst hs
    simp only [view, update_self, h]
    by_cases hp : (idx', j') = (idx, j)
    · rw [if_pos hp]
      cases hp
      rw [update_self]
    · rw [if_neg hp, update_of_ne (fun h => hp (Prod.mk.inj h).2)]
      simp only [view, update_self]
  · have hne : (s', idx', j') ≠ (s, idx, j) := fun h => hs (Prod.mk.inj h).1
    rw [update_of_ne hne]
    simp only [view, update_of_ne hs]

lemma view_putSlot : view (update arr s (putSlot bs idx j e))
      = update (view (update arr s bs)) (s, idx, j) (some e.item) :=
  view_update itemAt_putSlot

lemma view_clearSlot :
    view (update arr s (clearSlot bs idx j)) = update (view (update arr s bs)) (s, idx, j) none :=
  view_update itemAt_clearSlot

/-- What holds of every table over zero-filled memory. -/
structure WellFormed (level : Level) : Prop where
  size : 2 ≤ level.levelSize
  capacity : level.addrCapacity = 2 ^ level.levelSize
  clean : ∀ i, Clean (level.buckets i)

/-- The table stands for the map `m` from key strings to values. -/
def Represents (H : Hashes) (level : Level) (m : List UInt8 → Option (Bytes 15)) :
    Prop :=
  Placed (Candidate H) (view (arrays level)) m

variable {level level' : Level}

lemma arrays_level (h : WellFormed level) (i : Fin 2) :
    arrays level (level.levelSize - i) = level.buckets i := by
  have hsz := h.size
  unfold arrays
  match i with
  | 0 => simp
  | 1 =>
    rw [if_neg (by simp; omega), if_pos (by simp; omega)]

lemma capacity_eq (hsz : 1 ≤ level.levelSize)
    (hcap : level.addrCapacity = 2 ^ level.levelSize) (i : Fin 2) :
    level.capacity i = 2 ^ (level.levelSize - i) := by
  unfold Level.capacity
  rw [hcap]
  match i with
  | 0 => simp
  | 1 =>
    have hpow : 2 ^ level.levelSize = 2 ^ (level.levelSize - 1) * 2 := by
      rw [← pow_succ]
      congr 1
      omega
    simp only [Fin.val_one]
    omega

lemma capacity_level (h : WellFormed level) (i : Fin 2) :
    level.capacity i = 2 ^ (level.levelSize - i) :=
  capacity_eq (Nat.le_of_succ_le h.size) h.capacity i

/-- Writing the array of level `i` writes the array of its size. -/
lemma arrays_update (h : WellFormed level) (i : Fin 2) (bs : Buckets)
    (hsz : level'.levelSize = level.levelSize)
    (hbks : level'.buckets = update level.buckets i bs) :
    arrays level' = update (arrays level) (level.levelSize - i) bs := by
  have hpos := h.size
  funext s
  by_cases hs : s = level.levelSize - i
  · subst hs
    rw [update_self]
    unfold arrays
    rw [hsz, hbks]
    match i with
    | 0 => simp
    | 1 =>
      rw [if_neg (by simp; omega), if_pos (by simp; omega), update_self]
  · rw [update_of_ne hs]
    unfold arrays
    rw [hsz, hbks]
    match i with
    | 0 =>
      have hs0 : ¬ s = level.levelSize := hs
      rw [if_neg hs0, if_neg hs0, update_of_ne (by decide)]
    | 1 =>
      have hs1 : ¬ s + 1 = level.levelSize := by
        intro h1
        apply hs
        simp only [Fin.val_one]
        omega
      rw [if_neg hs1, if_neg hs1, update_of_ne (by decide)]

lemma view_level (h : WellFormed level) (i : Fin 2) (idx : ℕ) (j : Fin 4) :
    view (arrays level) (level.levelSize - i, idx, j) = itemAt (level.buckets i) idx j := by
  unfold view
  rw [arrays_level h i]

end Librdpma.LevelHash
