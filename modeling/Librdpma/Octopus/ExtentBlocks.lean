import Librdpma.Octopus.BlockCalls

/-!
# The blocks of a file

The extents of a file list blocks. Growing a file appends the new blocks to
that list, whether they are merged into the last extent or not; the loops that
give blocks back go through the list of an extent from its end.

All of it is arithmetic of 32 bits, which is exact for blocks of an area of
fewer than `2 ^ 31`.
-/

namespace Librdpma.Octopus

open Lib Outcome Function List FileMeta

/-! ## Lists of blocks -/

/-- The blocks an extent names. -/
def FileMetaTuple.blocks (e : FileMetaTuple) : List ℕ :=
  range' e.indexExtentStartBlock e.countExtentBlock

/-- A nonempty extent of an area of `n` blocks. -/
def FileMetaTuple.Within (n : ℕ) (e : FileMetaTuple) : Prop :=
  0 < e.countExtentBlock ∧ e.indexExtentStartBlock + e.countExtentBlock ≤ n

namespace FileMeta

/-- The extents in use. -/
def extents (m : FileMeta) : List FileMetaTuple := (range m.count).map m.tuple

/-- The blocks a file lists. -/
def blocks (m : FileMeta) : List ℕ := m.extents.flatMap FileMetaTuple.blocks

def Within (n : ℕ) (m : FileMeta) : Prop := ∀ e ∈ m.extents, e.Within n

/-- The number of blocks in the first `i` extents. -/
def total (m : FileMeta) (i : ℕ) : ℕ :=
  ((range i).map fun j => (m.tuple j).countExtentBlock).sum

variable {m m' : FileMeta} {n : ℕ}

lemma total_succ (m : FileMeta) (i : ℕ) :
    m.total (i + 1) = m.total i + (m.tuple i).countExtentBlock := by
  simp [total, range_succ]

variable {i b node : ℕ}

lemma total_mono (m : FileMeta) {j : ℕ} (h : i ≤ j) : m.total i ≤ m.total j := by
  induction j, h using Nat.le_induction with
  | base => exact le_rfl
  | succ j _ ih =>
    rw [total_succ]
    omega

lemma mem_extents {e : FileMetaTuple} : e ∈ m.extents ↔ ∃ i < m.count, m.tuple i = e := by
  simp [extents]

lemma length_blocks (m : FileMeta) : m.blocks.length = m.total m.count := by
  unfold blocks extents total
  rw [length_flatMap, map_map]
  congr 1
  refine map_congr_left fun i _ => ?_
  simp [FileMetaTuple.blocks]

lemma blocks_eq_nil (h : m.count = 0) : m.blocks = [] := by
  simp [blocks, extents, h]

lemma extents_take (m : FileMeta) (h : i ≤ m.count) (size : ℕ) :
    ({ m with size, count := i } : FileMeta).extents = m.extents.take i := by
  unfold extents
  rw [← map_take, take_range, min_eq_left h]

lemma extents_drop (m : FileMeta) (i : ℕ) :
    m.extents.drop i = (range' i (m.count - i)).map m.tuple := by
  unfold extents
  rw [← map_drop, range_eq_range', drop_range', zero_add, mul_one]

lemma blocks_split (m : FileMeta) (h : i ≤ m.count) (size : ℕ) :
    m.blocks = ({ m with size, count := i } : FileMeta).blocks
      ++ (m.extents.drop i).flatMap FileMetaTuple.blocks := by
  rw [blocks, blocks, extents_take m h, ← flatMap_append, take_append_drop]

/-! ## Growing -/

lemma extents_addExtent (m : FileMeta) (e : FileMetaTuple) :
    ({ m.setTuple m.count e with count := m.count + 1 } : FileMeta).extents = m.extents ++ [e] := by
  unfold extents setTuple
  rw [range_succ, map_append]
  congr 1
  · refine map_congr_left fun i hi => ?_
    exact update_of_ne (ne_of_lt (mem_range.mp hi)) _ _
  · simp

lemma extents_last (m : FileMeta) (h : 0 < m.count) (e : FileMetaTuple) :
    ∃ es, m.extents = es ++ [m.tuple (m.count - 1)] ∧
      (m.setTuple (m.count - 1) e).extents = es ++ [e] := by
  obtain ⟨n, hn⟩ : ∃ n, m.count = n + 1 := ⟨m.count - 1, by omega⟩
  refine ⟨(range n).map m.tuple, ?_, ?_⟩
  · rw [extents, hn, range_succ, map_append]
    rfl
  · unfold extents setTuple
    rw [hn, range_succ, map_append, Nat.add_sub_cancel]
    congr 1
    · refine map_congr_left fun i hi => ?_
      exact update_of_ne (ne_of_lt (mem_range.mp hi)) _ _
    · simp

/-- The block behind the last extent. -/
def runEnd (m : FileMeta) : Option ℕ :=
  if 0 < m.count then
    some ((m.tuple (m.count - 1)).indexExtentStartBlock + (m.tuple (m.count - 1)).countExtentBlock)
  else none

/-- The node of the last extent. -/
def endNode (m : FileMeta) : ℕ := (m.tuple (m.count - 1)).hashNode

/-- The blocks a file lists, with the nodes they are said to be on. -/
def placed (m : FileMeta) : List (ℕ × ℕ) :=
  m.extents.flatMap fun e => e.blocks.map fun b => (e.hashNode, b)

lemma blocks_eq_placed (m : FileMeta) : m.blocks = m.placed.map Prod.snd := by
  simp [blocks, placed, map_flatMap, comp_def]

/-- The metadata after one more block: it goes to the end of the last extent
if it follows that extent, and into an extent of its own if not. -/
structure Takes (n node b : ℕ) (m m1 : FileMeta) : Prop where
  placed : m1.placed = m.placed ++ [(if m.runEnd = some b then m.endNode else node, b)]
  within : m1.Within n
  size : m1.size = m.size
  count : m1.count = m.count + if m.runEnd = some b then 0 else 1
  runEnd : m1.runEnd = some (b + 1)
  endNode : m1.endNode = if m.runEnd = some b then m.endNode else node

lemma runEnd_eq_some : m.runEnd = some b ↔ 0 < m.count ∧
    (m.tuple (m.count - 1)).indexExtentStartBlock
      + (m.tuple (m.count - 1)).countExtentBlock = b := by
  unfold runEnd
  split_ifs with hpos
  · rw [Option.some.injEq]
    exact ⟨fun h => ⟨hpos, h⟩, And.right⟩
  · exact ⟨nofun, fun h => absurd h.1 hpos⟩

lemma takes_merge (hm : m.Within n) (hb : b < n) (hend : m.runEnd = some b) :
    Takes n node b m (m.setTuple (m.count - 1)
      { m.tuple (m.count - 1) with
        countExtentBlock := (m.tuple (m.count - 1)).countExtentBlock + 1 }) := by
  obtain ⟨hpos, hb'⟩ := runEnd_eq_some.mp hend
  obtain ⟨es, hold, hnew⟩ := m.extents_last hpos
    { m.tuple (m.count - 1) with
      countExtentBlock := (m.tuple (m.count - 1)).countExtentBlock + 1 }
  refine ⟨?_, fun e he => ?_, rfl, ?_, runEnd_eq_some.mpr ⟨hpos, ?_⟩, ?_⟩
  · rw [if_pos hend, placed, placed, hnew, hold, flatMap_append,
      flatMap_append, flatMap_singleton, flatMap_singleton,
      FileMetaTuple.blocks, FileMetaTuple.blocks, range'_concat]
    simp [endNode, hb']
  · rw [hnew, mem_append, mem_singleton] at he
    rcases he with he | rfl
    · exact hm e (by rw [hold]; exact mem_append_left _ he)
    · exact ⟨Nat.succ_pos _, by dsimp only; omega⟩
  · rw [if_pos hend]
    rfl
  · unfold setTuple
    dsimp only
    rw [update_self]
    dsimp only
    omega
  · simp [endNode, setTuple, hend]

lemma takes_extent (hm : m.Within n) (hb : b < n) (hend : m.runEnd ≠ some b) :
    Takes n node b m { m.setTuple m.count ⟨node, b, 1⟩ with count := m.count + 1 } := by
  refine ⟨?_, fun e he => ?_, rfl, ?_, ?_, ?_⟩
  · rw [if_neg hend, placed, extents_addExtent, flatMap_append,
      flatMap_singleton, FileMetaTuple.blocks, range'_one]
    rfl
  · rw [extents_addExtent, mem_append, mem_singleton] at he
    rcases he with he | rfl
    · exact hm e he
    · exact ⟨Nat.one_pos, hb⟩
  · rw [if_neg hend]
  · simp [runEnd, setTuple]
  · simp [endNode, setTuple, hend]

lemma grow_cons (hn : n < 2 ^ 32) (node : ℕ) (bs : List ℕ) (hm : m.Within n) (hb : b < n) :
    ∃ m1, Takes n node b m m1 ∧ m.grow node (b :: bs) m.count =
      if m.runEnd = some b ∨ m.count < maxFileExtentCount then m1.grow node bs m1.count
      else .undefined := by
  by_cases hend : m.runEnd = some b
  · refine ⟨_, takes_merge hm hb hend, ?_⟩
    obtain ⟨hpos, hb'⟩ := runEnd_eq_some.mp hend
    have hla := (hm _ (mem_extents.mpr ⟨m.count - 1, by omega, rfl⟩)).2
    rw [if_pos (.inl hend), grow]
    rw [if_pos ⟨hpos, by omega⟩, Nat.mod_eq_of_lt (by omega)]
    rfl
  · refine ⟨_, takes_extent hm hb hend, ?_⟩
    have hspl : ¬ (0 < m.count ∧ b = ((m.tuple (m.count - 1)).indexExtentStartBlock
        + (m.tuple (m.count - 1)).countExtentBlock) % 2 ^ 32) := by
      rintro ⟨hpos, heq⟩
      have hla := (hm _ (mem_extents.mpr ⟨m.count - 1, by omega, rfl⟩)).2
      exact hend (runEnd_eq_some.mpr ⟨hpos, by omega⟩)
    rw [grow]
    rw [if_neg hspl, addExtent, Nat.mod_eq_of_lt (by omega)]
    by_cases hcnt : m.count < maxFileExtentCount
    · rw [if_pos hcnt, if_pos (.inr hcnt)]
      rfl
    · rw [if_neg hcnt, if_neg (not_or.mpr ⟨hend, hcnt⟩)]
      rfl

/-- **A file that grows lists its old blocks and then the new ones.** -/
lemma grow_blocks (hn : n < 2 ^ 32) {bs : List ℕ} (hm : m.Within n) (hbs : ∀ b ∈ bs, b < n)
    (h : m.grow node bs m.count = .done m') :
    m'.blocks = m.blocks ++ bs ∧ m'.Within n ∧ m'.size = m.size := by
  induction bs generalizing m with
  | nil =>
    cases h
    exact ⟨(append_nil _).symm, hm, rfl⟩
  | cons b bs ih =>
    obtain ⟨m1, htk, hgr⟩ := grow_cons hn node bs hm (hbs b mem_cons_self)
    rw [hgr] at h
    split at h
    · obtain ⟨hblk, hwin, hsz⟩ := ih htk.within (fun b' hb' => hbs b' (mem_cons_of_mem _ hb')) h
      refine ⟨?_, hwin, hsz.trans htk.size⟩
      rw [hblk, blocks_eq_placed m1, htk.placed, map_append, ← blocks_eq_placed]
      simp
    · cases h

/-- The number of runs of consecutive blocks, where a run may continue what
ends before block `e`. -/
def newRuns : Option ℕ → List ℕ → ℕ
  | _, [] => 0
  | e, b :: bs => (if e = some b then 0 else 1) + newRuns (some (b + 1)) bs

/-- A file gets an extent for each new run, as long as the array has room. -/
lemma grow_count (hn : n < 2 ^ 32) (node : ℕ) {bs : List ℕ} (hm : m.Within n)
    (hbs : ∀ b ∈ bs, b < n) (hcnt : m.count + newRuns m.runEnd bs ≤ maxFileExtentCount) :
    ∃ m', m.grow node bs m.count = .done m' ∧ m'.count = m.count + newRuns m.runEnd bs := by
  induction bs generalizing m with
  | nil => exact ⟨m, rfl, rfl⟩
  | cons b bs ih =>
    obtain ⟨m1, htk, hgr⟩ := grow_cons hn node bs hm (hbs b mem_cons_self)
    rw [newRuns] at hcnt ⊢
    have hrm : m.runEnd = some b ∨ m.count < maxFileExtentCount := by
      by_cases hend : m.runEnd = some b
      · exact .inl hend
      · rw [if_neg hend] at hcnt
        exact .inr (by omega)
    have htot : m1.count + newRuns m1.runEnd bs
        = m.count + ((if m.runEnd = some b then 0 else 1) + newRuns (some (b + 1)) bs) := by
      rw [htk.count, htk.runEnd]
      omega
    rw [hgr, if_pos hrm, ← htot]
    exact ih htk.within (fun b' hb' => hbs b' (mem_cons_of_mem _ hb')) (by omega)

end FileMeta

/-! ## Giving back -/

lemma toInt_of_lt {k : ℕ} (h : k < 2 ^ 31) : toInt k = k := by
  unfold toInt
  rw [Int.bmod_eq_of_le] <;> omega

section Down

variable {n : ℕ} {e : FileMetaTuple}

lemma FileMetaTuple.Within.lastBlock (h : e.Within n) (hn : n < 2 ^ 31) :
    e.lastBlock = (e.countExtentBlock : ℤ) - 1 := by
  obtain ⟨hpos, hle⟩ := h
  have hadd : e.countExtentBlock + (2 ^ 32 - 1) = e.countExtentBlock - 1 + 2 ^ 32 := by omega
  have hturn : toInt (e.countExtentBlock - 1 + 2 ^ 32) = toInt (e.countExtentBlock - 1) := by
    unfold toInt
    rw [Nat.cast_add, Nat.cast_pow, Nat.cast_ofNat]
    exact Int.add_bmod_right _ _
  rw [FileMetaTuple.lastBlock, hadd, hturn, toInt_of_lt (by omega)]
  omega

lemma FileMetaTuple.Within.blocksDown (h : e.Within n) (hn : n < 2 ^ 31) :
    e.blocksDown ((e.countExtentBlock : ℤ) - 1) 0 = e.blocks.reverse := by
  obtain ⟨hpos, hle⟩ := h
  unfold FileMetaTuple.blocksDown descend FileMetaTuple.blocks
  rw [reverse_range', map_map]
  have hlen : ((e.countExtentBlock : ℤ) - 1 - 0 + 1).toNat = e.countExtentBlock := by omega
  rw [hlen]
  refine map_congr_left fun k hk => ?_
  have hk' := mem_range.mp hk
  unfold FileMetaTuple.block
  simp only [comp_apply]
  rw [Int.emod_eq_of_lt (by omega) (by omega)]
  omega

end Down

variable {m : FileMeta}

lemma mem_blocks_of_mem_blocksToRemove {n node b : ℕ} (hm : m.Within n) (hn : n < 2 ^ 31)
    (hb : b ∈ blocksToRemove node m) : b ∈ m.blocks := by
  obtain ⟨e, he, hb⟩ := mem_flatMap.mp hb
  have he' : e ∈ m.extents := (takeWhile_sublist _).subset he
  have hin := hm e he'
  rw [toInt_of_lt (by have := hin.2; omega), hin.blocksDown hn, mem_reverse] at hb
  exact mem_flatMap.mpr ⟨e, he', hb⟩

/-- The extent `truncate` finds is the first that reaches the new end. -/
lemma findLastExtent_some {target fuel i e till : ℕ}
    (h : findLastExtent m target fuel i (m.total i) = some (e, till)) :
    i ≤ e ∧ e < i + fuel ∧ till = m.total e ∧ target ≤ m.total (e + 1) ∧
      ∀ j, i ≤ j → j < e → m.total (j + 1) < target := by
  induction fuel generalizing i with
  | zero => cases h
  | succ fuel ih =>
    rw [findLastExtent, ← total_succ] at h
    split at h
    · rename_i hrch
      cases h
      exact ⟨le_rfl, by omega, rfl, hrch, fun j hij hji => absurd hji (by omega)⟩
    · rename_i hsht
      obtain ⟨hle, hlt, htill, hrch, hfst⟩ := ih h
      refine ⟨by omega, by omega, htill, hrch, fun j hij hje => ?_⟩
      by_cases hj : j = i
      · rw [hj]
        omega
      · exact hfst j (by omega) hje

/-- A new end at the end of an extent. -/
def FileMeta.CutsAtExtent (m : FileMeta) (size : ℕ) : Prop :=
  ∃ i < m.count, countBlocks size = m.total (i + 1)

lemma cutBlocks_perm {n size e till : ℕ} (hm : m.Within n) (hn : n < 2 ^ 31)
    (hcut : m.CutsAtExtent size)
    (hfd : findLastExtent m (countBlocks size) m.count 0 0 = some (e, till)) :
    e < m.count ∧ countBlocks size = m.total (e + 1) ∧
      (cutBlocks m size e till).Perm ((m.extents.drop (e + 1)).flatMap FileMetaTuple.blocks) := by
  obtain ⟨-, hlt, rfl, hrch, hfst⟩ := findLastExtent_some (i := 0) hfd
  rw [zero_add] at hlt
  obtain ⟨i, hi, htot⟩ := hcut
  have hie : e ≤ i := by
    by_contra hgt
    exact absurd (hfst i (Nat.zero_le _) (by omega)) (by omega)
  have hex : countBlocks size = m.total (e + 1) :=
    le_antisymm hrch (by rw [htot]; exact m.total_mono (by omega))
  refine ⟨hlt, hex, ?_⟩
  have hin : ∀ j, j < m.count → (m.tuple j).Within n := fun j hj =>
    hm _ (mem_extents.mpr ⟨j, hj, rfl⟩)
  have hla : (m.tuple e).blocksDown (m.tuple e).lastBlock
      (toInt (countBlocks size - m.total e)) = [] := by
    have hle := (hin e hlt).2
    rw [hex, total_succ, Nat.add_sub_cancel_left, (hin e hlt).lastBlock hn, toInt_of_lt (by omega)]
    unfold FileMetaTuple.blocksDown descend
    rw [show ((m.tuple e).countExtentBlock : ℤ) - 1 - (m.tuple e).countExtentBlock + 1 = 0 by
      omega]
    rfl
  rw [cutBlocks, hla, nil_append, extents_drop, flatMap_map]
  refine Perm.flatMap_left _ fun j hj => ?_
  obtain ⟨-, hj⟩ := mem_range'_1.mp hj
  have hjin := hin j (by omega)
  rw [hjin.lastBlock hn, hjin.blocksDown hn]
  exact reverse_perm _

/-! ## How many -/

lemma countBlocks_eq (size : ℕ) : countBlocks size = (size + (blockSize - 1)) / blockSize := by
  unfold countBlocks blockSize
  split <;> omega

lemma countBlocks_add {size : ℕ} (hsz : size ≠ 0) (offset : ℕ) :
    countBlocks m.size + countExtraBlock m size offset
      = countBlocks (max (offset + size) m.size) := by
  unfold countBlocks countExtraBlock blockSize
  by_cases hm : m.size = 0
  · rw [if_pos hm, if_pos hm, if_neg (by omega)]
    omega
  · rw [if_neg hm, if_neg hm, if_neg (by omega)]
    omega

end Librdpma.Octopus
