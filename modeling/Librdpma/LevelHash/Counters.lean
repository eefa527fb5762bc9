import Librdpma.LevelHash.Refinement

/-!
# The counters of the level hash

`level_item_num[i]` is the number of set tokens of level `i`. A put adds one token
and a clear takes one away; a movement inside a level is a put, a clear and a put,
a movement to the top level a put there and a clear at the bottom, and the
expansion counts what it puts into the new level. Nothing here depends on what
the keys are.
-/

namespace Librdpma.LevelHash

open Lib Function Finset

variable {H : Hashes} {level level' : Level} {bs : Buckets} {idx count : ℕ} {j : Fin 4}
  {e : Entry} {key : List UInt8} {i : Fin 2}

/-! ## Set tokens -/

/-- The slots of the first `count` buckets whose token is set. -/
def setSlots (bs : Buckets) (count : ℕ) : Finset (ℕ × Fin 4) :=
  (range count ×ˢ univ).filter fun p => (bs p.1).token p.2 = 1

/-- The number of set tokens of an array. -/
def tokensSet (bs : Buckets) (count : ℕ) : ℕ := (setSlots bs count).card

lemma mem_setSlots {p : ℕ × Fin 4} :
    p ∈ setSlots bs count ↔ p.1 < count ∧ (bs p.1).token p.2 = 1 := by
  simp [setSlots]

lemma tokensSet_le (bs : Buckets) (count : ℕ) : tokensSet bs count ≤ count * 4 := by
  refine (card_filter_le _ _).trans_eq ?_
  rw [card_product, card_range, card_univ, Fintype.card_fin]

lemma tokensSet_zeroed (count : ℕ) : tokensSet zeroed count = 0 := by
  refine card_eq_zero.mpr (eq_empty_of_forall_notMem fun p hp => ?_)
  exact absurd (mem_setSlots.mp hp).2 (show ¬ (0 : UInt8) = 1 by decide)

lemma tokensSet_putSlot (hidx : idx < count) (h : (bs idx).token j = 0) :
    tokensSet (putSlot bs idx j e) count = tokensSet bs count + 1 := by
  have hnot : (idx, j) ∉ setSlots bs count := by
    intro hmem
    have hone := (mem_setSlots.mp hmem).2
    rw [h] at hone
    cases hone
  have hset : setSlots (putSlot bs idx j e) count = insert (idx, j) (setSlots bs count) := by
    ext p
    rw [mem_insert, mem_setSlots, mem_setSlots, token_putSlot]
    by_cases hp : p = (idx, j)
    · subst hp
      simp [hidx]
    · simp [hp]
  unfold tokensSet
  rw [hset, card_insert_of_notMem hnot]

lemma tokensSet_clearSlot (hidx : idx < count) (h : (bs idx).token j = 1) :
    tokensSet (clearSlot bs idx j) count + 1 = tokensSet bs count := by
  have hset : setSlots (clearSlot bs idx j) count = (setSlots bs count).erase (idx, j) := by
    ext p
    rw [mem_erase, mem_setSlots, mem_setSlots, token_clearSlot]
    by_cases hp : p = (idx, j)
    · subst hp
      simp
    · simp [hp]
  unfold tokensSet
  rw [hset, card_erase_add_one (mem_setSlots.mpr ⟨hidx, h⟩)]

/-- Tokens are 0 or 1. -/
def Binary (bs : Buckets) : Prop := ∀ p : ℕ × Fin 4,
  (bs p.1).token p.2 = 0 ∨ (bs p.1).token p.2 = 1

lemma binary_zeroed : Binary zeroed := fun _ => Or.inl rfl

lemma Binary.putSlot (h : Binary bs) (idx : ℕ) (j : Fin 4) (e : Entry) :
    Binary (putSlot bs idx j e) := by
  intro p
  rw [token_putSlot]
  split
  · exact .inr rfl
  · exact h p

lemma Binary.clearSlot (h : Binary bs) (idx : ℕ) (j : Fin 4) : Binary (clearSlot bs idx j) := by
  intro p
  rw [token_clearSlot]
  split
  · exact .inl rfl
  · exact h p

lemma Binary.eq_one (h : Binary bs) (hne : (bs idx).token j ≠ 0) :
    (bs idx).token j = 1 := (h (idx, j)).resolve_left hne

/-! ## The invariant -/

/-- The counter `n` of an array of `count` buckets is right. -/
structure Tallied (bs : Buckets) (count : ℕ) (n : UInt64) : Prop where
  binary : Binary bs
  num : n = UInt64.ofNat (tokensSet bs count)

lemma Tallied.putSlot {n : UInt64} (h : Tallied bs count n) (hidx : idx < count)
    (htok : (bs idx).token j = 0) (e : Entry) :
    Tallied (putSlot bs idx j e) count (n + 1) := by
  refine ⟨h.binary.putSlot idx j e, ?_⟩
  rw [tokensSet_putSlot hidx htok, UInt64.ofNat_add, h.num]
  rfl

lemma Tallied.clearSlot {n : UInt64} (h : Tallied bs count n) (hidx : idx < count)
    (htok : (bs idx).token j ≠ 0) : Tallied (clearSlot bs idx j) count (n - 1) := by
  refine ⟨h.binary.clearSlot idx j, ?_⟩
  rw [h.num, ← tokensSet_clearSlot hidx (h.binary.eq_one htok), UInt64.ofNat_add]
  exact UInt64.add_sub_cancel _ _

/-- A counter does not overflow: an array has fewer slots than it can count. -/
lemma Tallied.toNat {n : UInt64} (h : Tallied bs count n) (halc : Allocatable count) :
    n.toNat = tokensSet bs count := by
  have hle := tokensSet_le bs count
  unfold Allocatable at halc
  rw [h.num]
  exact UInt64.toNat_ofNat_of_lt' (show _ < 2 ^ 64 by omega)

/-- The counters and the capacities of a table are right. -/
structure Counted (level : Level) : Prop where
  size : 2 ≤ level.levelSize
  addrCapacity : level.addrCapacity = 2 ^ level.levelSize
  totalCapacity : level.totalCapacity = 2 ^ level.levelSize + 2 ^ (level.levelSize - 1)
  allocatable : Allocatable (2 ^ level.levelSize)
  tallied : ∀ i, Tallied (level.buckets i) (2 ^ (level.levelSize - i)) (level.levelItemNum i)

section

variable (h : Counted level)

include h

lemma Counted.capacity (i : Fin 2) : level.capacity i = 2 ^ (level.levelSize - i) :=
  capacity_eq (Nat.le_of_succ_le h.size) h.addrCapacity i

lemma Counted.idx_lt (hidx : idx ∈ bucketsOf H key (level.capacity i)) :
    idx < 2 ^ (level.levelSize - i) := by
  have hsz := h.size
  have hi : (i : ℕ) < 2 := i.isLt
  rw [h.capacity i] at hidx
  exact lt_of_mem_bucketsOf (Nat.le_self_pow (by omega) 2) hidx

lemma Counted.write {n : UInt64} (hbs : Tallied bs (2 ^ (level.levelSize - i)) n) :
    Counted { level with
      buckets := update level.buckets i bs
      levelItemNum := update level.levelItemNum i n } := by
  refine ⟨h.size, h.addrCapacity, h.totalCapacity, h.allocatable, fun i' => ?_⟩
  dsimp only
  by_cases hi : i' = i
  · subst hi
    rw [update_self, update_self]
    exact hbs
  · rw [update_of_ne hi, update_of_ne hi]
    exact h.tallied i'

/-! ## Operations -/

lemma Counted.insertAt (hidx : idx ∈ bucketsOf H key (level.capacity i))
    (htok : (level.buckets i idx).token j = 0) (e : Entry) :
    Counted (level.insertAt i idx j e) :=
  h.write ((h.tallied i).putSlot (h.idx_lt hidx) htok e)

/-- The moved item is counted once: it is put before its old token is cleared. -/
lemma Counted.tryMovement (hidx : idx ∈ bucketsOf H key (level.capacity i))
    (hfu : ∀ j, (level.buckets i idx).token j ≠ 0)
    (hmv : level.tryMovement H idx i e = some level') : Counted level' := by
  obtain ⟨slot, jdx, j, hjdx, htok, rfl⟩ := tryMovement_cases hmv
  have hne : (idx, slot) ≠ (jdx, j) := by
    intro heq
    cases heq
    exact hfu slot htok
  have hput := (h.tallied i).putSlot (h.idx_lt hjdx) htok ((level.buckets i idx).slot slot)
  have hclr := hput.clearSlot (j := slot) (h.idx_lt hidx)
    (by rw [token_putSlot _ _ _ _ (idx, slot), if_neg hne]; exact hfu slot)
  have hla := hclr.putSlot (j := slot) (h.idx_lt hidx)
    (by rw [token_clearSlot _ _ _ (idx, slot), if_pos rfl]) e
  rw [UInt64.add_sub_cancel] at hla
  exact h.write hla

lemma Counted.b2tMovement {slot : Fin 4} (hidx : idx ∈ bucketsOf H key (level.capacity 1))
    (hfu : ∀ j, (level.buckets 1 idx).token j ≠ 0)
    (hmv : level.b2tMovement H idx = some (slot, level')) :
    Counted level' ∧ level'.capacity = level.capacity ∧ (level'.buckets 1 idx).token slot = 0 := by
  obtain ⟨jdx, j, hjdx, htok, rfl⟩ := b2tMovement_cases hmv
  have hup := h.write (i := 0) ((h.tallied 0).putSlot (h.idx_lt hjdx) htok
    ((level.buckets 1 idx).slot slot))
  have hdown := (h.tallied 1).clearSlot (j := slot) (h.idx_lt hidx) (hfu slot)
  refine ⟨hup.write (i := 1) hdown, rfl, ?_⟩
  dsimp only
  rw [update_self, token_clearSlot _ _ _ (idx, slot), if_pos rfl]

lemma Counted.insertOnce (hon : level.insertOnce H key e = some level') : Counted level' := by
  rcases insertOnce_cases hon with ⟨i, idx, j, hidx, htok, rfl⟩ | ⟨hfu, hmove | hlf⟩
  · exact h.insertAt hidx htok e
  · obtain ⟨i, idx, hidx, hmv⟩ := hmove
    exact h.tryMovement hidx (hfu i idx hidx) hmv
  · obtain ⟨idx, hidx, slot, lifted, hb2t, rfl⟩ := hlf
    obtain ⟨h', hcap, htok⟩ := h.b2tMovement hidx (hfu 1 idx hidx) hb2t
    rw [← hcap] at hidx
    exact h'.insertAt hidx htok e

lemma Counted.levelDelete (key : List UInt8) : Counted (level.levelDelete H key).2 := by
  unfold Level.levelDelete
  cases hsr : level.search H [0, 1] key with
  | none => exact h
  | some p =>
    obtain ⟨hidx, htok⟩ := search_token hsr
    exact h.write ((h.tallied p.1).clearSlot (h.idx_lt hidx) (by rw [htok]; decide))

lemma Counted.levelUpdate (key newValue : List UInt8) :
    Counted (level.levelUpdate H key newValue).2 := by
  unfold Level.levelUpdate
  cases hsr : level.search H [0, 1] key with
  | none => exact h
  | some p =>
    obtain ⟨i, idx, j⟩ := p
    set b := { level.buckets i idx with
      slot := update (level.buckets i idx).slot j
        { (level.buckets i idx).slot j with value := memcpy 15 newValue } }
    have htkn : ∀ idx', (update (level.buckets i) idx b idx').token
        = (level.buckets i idx').token := by
      intro idx'
      by_cases hidx : idx' = idx
      · subst hidx
        rw [update_self]
      · rw [update_of_ne hidx]
    have htly : Tallied (update (level.buckets i) idx b)
        (2 ^ (level.levelSize - i)) (level.levelItemNum i) := by
      refine ⟨fun p => ?_, ?_⟩
      · rw [htkn]
        exact (h.tallied i).binary p
      · unfold tokensSet setSlots
        simp only [htkn]
        exact (h.tallied i).num
    have hwr := h.write htly
    rwa [update_eq_self] at hwr

end

/-! ## Expansion -/

lemma Tallied.rehash {addrCapacity : ℕ} (hcap : 2 ≤ addrCapacity) {slots : List (ℕ × Fin 4)}
    {r r' : Level.Rehash} (h : Tallied r.newBuckets addrCapacity r.newLevelItemNum)
    (hlp : slots.foldlM (Level.rehashSlot H addrCapacity) r = .done r') :
    Tallied r'.newBuckets addrCapacity r'.newLevelItemNum := by
  induction slots generalizing r with
  | nil =>
    cases hlp
    exact h
  | cons p slots ih =>
    rw [List.foldlM_cons] at hlp
    obtain ⟨r1, hst, hrs⟩ := Outcome.bind_eq_done.mp hlp
    refine ih ?_ hrs
    unfold Level.rehashSlot at hst
    dsimp only at hst
    split at hst
    case isFalse =>
      cases hst
      exact h
    split at hst
    case h_1 => cases hst
    case h_2 idx j hnil =>
      cases hst
      obtain ⟨hidx, htok⟩ := emptySlot_some hnil
      exact h.putSlot (lt_of_mem_bucketsOf hcap (mem_bucketsOf.mpr hidx)) htok _

lemma Counted.levelExpand (h : Counted level)
    (hexp : level.levelExpand H (fun _ => zeroed) = .done level') : Counted level' := by
  unfold Level.levelExpand at hexp
  dsimp only at hexp
  split at hexp
  case isFalse => cases hexp
  case isTrue halc =>
    obtain ⟨r, hlp, hdn⟩ := Outcome.bind_eq_done.mp hexp
    cases hdn
    have hnew := Tallied.rehash (Nat.le_self_pow (Nat.succ_ne_zero _) 2)
      ⟨binary_zeroed, by rw [tokensSet_zeroed]; rfl⟩ hlp
    have hsz := h.size
    exact ⟨by simp only [Level.adopt]; omega, rfl, rfl, halc,
      Fin.forall_fin_two.mpr ⟨hnew, h.tallied 0⟩⟩

lemma Counted.levelInsert {fuel : ℕ} {key value : List UInt8} {ret : UInt8} (h : Counted level)
    (hins : level.levelInsert H (fun _ => zeroed) fuel key value = .done (ret, level')) :
    Counted level' := by
  induction fuel generalizing level with
  | zero => exact absurd hins (by simp [Level.levelInsert])
  | succ fuel ih =>
    rw [Level.levelInsert] at hins
    cases hon : level.insertOnce H (cstr key) ⟨memcpy 16 key, memcpy 15 value⟩ with
    | some inserted =>
      rw [hon] at hins
      cases hins
      exact h.insertOnce hon
    | none =>
      rw [hon] at hins
      obtain ⟨expanded, hexp, hrs⟩ := Outcome.bind_eq_done.mp hins
      exact ih (h.levelExpand hexp) hrs

lemma Counted.levelInit {n : ℕ} (hn : 2 ≤ n)
    (h : Level.levelInit (fun _ => zeroed) n = .done level) : Counted level := by
  unfold Level.levelInit at h
  split at h
  case isFalse => cases h
  case isTrue halc =>
    cases h
    refine ⟨hn, rfl, rfl, halc, fun i => ?_⟩
    have hnil : (if i = 0 then zeroed else zeroed) = zeroed := ite_self _
    dsimp only
    rw [hnil]
    exact ⟨binary_zeroed, by rw [tokensSet_zeroed]; rfl⟩

/-! ## Runs -/

/-- The tables that calls lead to from `level_init(n)` over zero-filled memory, when
none of them ends the process. Keys and values are any memory; queries change
nothing. -/
inductive Called (H : Hashes) (n : ℕ) : Level → Prop where
  | init {level : Level} : Level.levelInit (fun _ => zeroed) n = .done level → Called H n level
  | insert {level level' : Level} {key value : List UInt8} {fuel : ℕ} {ret : UInt8} :
      Called H n level →
      level.levelInsert H (fun _ => zeroed) fuel key value = .done (ret, level') →
      Called H n level'
  | update {level : Level} (key value : List UInt8) :
      Called H n level → Called H n (level.levelUpdate H key value).2
  | delete {level : Level} (key : List UInt8) :
      Called H n level → Called H n (level.levelDelete H key).2

lemma Called.counted {n : ℕ} (hn : 2 ≤ n) (h : Called H n level) : Counted level := by
  induction h with
  | init hin => exact Counted.levelInit hn hin
  | insert _ hins ih => exact ih.levelInsert hins
  | update key value _ ih => exact ih.levelUpdate key value
  | delete key _ ih => exact ih.levelDelete key

/-- **The occupancy counters are exact** along every run from `level_init(n)` that
is not ended by `exit()`: level `i` is an array of `2 ^ (level_size - i)` buckets. -/
theorem level_counters_exact (H : Hashes) (n : ℕ) (hn : 2 ≤ n) (level : Level)
    (h : Called H n level) :
    (∀ i, (level.levelItemNum i).toNat = tokensSet (level.buckets i) (2 ^ (level.levelSize - i))) ∧
      level.addrCapacity = 2 ^ level.levelSize ∧
      level.totalCapacity = 2 ^ level.levelSize + 2 ^ (level.levelSize - 1) := by
  have hc := h.counted hn
  refine ⟨fun i => (hc.tallied i).toNat ?_, hc.addrCapacity, hc.totalCapacity⟩
  have hle : 2 ^ (level.levelSize - i) ≤ 2 ^ level.levelSize :=
    Nat.pow_le_pow_right (by omega) (Nat.sub_le _ _)
  have halc := hc.allocatable
  unfold Allocatable at halc ⊢
  omega

theorem level_counters_exact_insert :
    ∃ level, Called constHashes 2 level ∧ (level.levelItemNum 0).toNat = 1 ∧
      tokensSet (level.buckets 0) 4 = 1 := by
  obtain ⟨level, hin⟩ : ∃ level, Level.levelInit (fun _ => zeroed) 2 = .done level := ⟨_, rfl⟩
  obtain ⟨level', hins, hnum, hsz⟩ : ∃ level', level.levelInsert constHashes
      (fun _ => zeroed) 1 [97, 0] [98] = .done (0, level') ∧
      level'.levelItemNum 0 = 1 ∧ level'.levelSize = 2 := by
    cases hin
    exact ⟨_, rfl, rfl, rfl⟩
  have hrun : Called constHashes 2 level' := .insert (.init hin) hins
  have hcnt := (level_counters_exact constHashes 2 (by decide) level' hrun).1 0
  rw [hnum, hsz] at hcnt
  exact ⟨level', hrun, by rw [hnum]; rfl, hcnt.symm⟩

end Librdpma.LevelHash
