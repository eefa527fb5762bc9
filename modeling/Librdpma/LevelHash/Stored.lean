import Librdpma.Lib.Contents
import Librdpma.LevelHash.Refinement

/-!
# The stored pairs of the level hash

`level_insert` does not ask whether a key is there, so a table may hold a key
twice and then stands for no map. What holds of every table is that each item is
at a candidate of its key (`Sound`), and that insertions and expansions keep the
multiset of the items.
-/

namespace Librdpma.LevelHash

open Lib Finset

variable {H : Hashes} {level level' : Level} {bs : Buckets} {idx : ℕ} {j : Fin 4}
  {e : Entry} {key value : List UInt8} {i : Fin 2} {it : Item}

/-! ## Items -/

/-- The positions of the arrays up to that of `2 ^ S` buckets. -/
@[irreducible] def positionsUpTo (S : ℕ) : Finset Pos := range (S + 1) ×ˢ (range (2 ^ S) ×ˢ univ)

/-- All positions of the arrays that can be allocated. -/
def positions : Finset Pos := positionsUpTo 56

/-- The stored pairs. -/
def Level.items (level : Level) : Multiset Item := contents positions (view (arrays level))

/-- The pair is in some slot of the table. -/
def Level.Stores (level : Level) (it : Item) : Prop :=
  ∃ i idx j, itemAt (level.buckets i) idx j = some it

lemma mem_positionsUpTo {S s idx : ℕ} (hs : s ≤ S) (hidx : idx < 2 ^ s) (j : Fin 4) :
    (s, idx, j) ∈ positionsUpTo S := by
  have hle : 2 ^ s ≤ 2 ^ S := Nat.pow_le_pow_right (by omega) hs
  unfold positionsUpTo
  exact mem_product.mpr ⟨mem_range.mpr (Nat.lt_succ_of_le hs),
    mem_product.mpr ⟨mem_range.mpr (hidx.trans_le hle), mem_univ _⟩⟩

lemma mem_positions {p : Pos} (h : Within H 56 key p) : p ∈ positions := by
  obtain ⟨hcn, hlo, hhi⟩ := h
  exact mem_positionsUpTo hhi (lt_of_mem_bucketsOf (Nat.le_self_pow (by omega) 2) hcn) p.2.2

/-- What holds of every table. -/
structure Sound (H : Hashes) (level : Level) : Prop where
  wf : WellFormed level
  alloc : Allocatable (2 ^ level.levelSize)
  placed : AtCandidates (Within H level.levelSize) (view (arrays level))

lemma Within.mono {S S' : ℕ} {p : Pos} (h : Within H S key p) (hle : S ≤ S') :
    Within H S' key p := ⟨h.1, h.2.1, h.2.2.trans hle⟩

lemma size_le_of_allocatable {s : ℕ} (h : Allocatable (2 ^ s)) : s ≤ 56 := by
  by_contra hlt
  have hle : 2 ^ 57 ≤ 2 ^ s := Nat.pow_le_pow_right (by omega) (by omega)
  unfold Allocatable at h
  omega

lemma AtCandidates.within {S S' : ℕ} {items : Pos → Option Item}
    (h : AtCandidates (Within H S) items) (hle : S ≤ S') : AtCandidates (Within H S') items :=
  ⟨fun hp => (h.placed hp).mono hle⟩

lemma Sound.mem_positions (h : Sound H level) {p : Pos}
    (hp : view (arrays level) p = some it) : p ∈ positions :=
  LevelHash.mem_positions ((h.placed.placed hp).mono (size_le_of_allocatable h.alloc))

lemma Puts.sound (h : Puts H level it level') (hs : Sound H level) :
    Sound H level' ∧ level'.items = it ::ₘ level.items := by
  obtain ⟨mid, p, hshf, hfr, hp, hvw⟩ := h.put
  have hle := size_le_of_allocatable hs.alloc
  have hmid := hshf.atCandidates hs.placed
  refine ⟨⟨h.wf, by rw [h.size]; exact hs.alloc, ?_⟩, ?_⟩
  · rw [h.size, hvw]
    exact hmid.update hp
  · unfold Level.items
    rw [hvw, contents_put (mem_positions (hp.mono hle)) hfr,
      hshf.contents_eq hs.placed fun _ _ hc => mem_positions (hc.mono hle)]

lemma Moves.sound {S : ℕ} (h : Moves H S level level') (hs : Sound H level)
    (hle : level.levelSize ≤ S) (hS : S ≤ 56)
    (hsz : AtCandidates (Within H S) (view (arrays level')) →
      AtCandidates (Within H level'.levelSize) (view (arrays level')))
    (halc : Allocatable (2 ^ level'.levelSize)) :
    Sound H level' ∧ level'.items = level.items := by
  have hat := AtCandidates.within hs.placed hle
  exact ⟨⟨h.wf, halc, hsz (h.shifts.atCandidates hat)⟩,
    h.shifts.contents_eq hat fun _ _ hc => mem_positions (hc.mono hS)⟩

lemma allocatable_of_levelExpand {fresh : ℕ → Buckets}
    (h : level.levelExpand H fresh = .done level') :
    Allocatable (2 ^ (level.levelSize + 1)) := by
  unfold Level.levelExpand at h
  dsimp only at h
  split at h
  case isTrue halc => exact halc
  case isFalse => cases h

lemma Sound.levelExpand (hs : Sound H level)
    (h : level.levelExpand H (fun _ => zeroed) = .done level') :
    Sound H level' ∧ level'.items = level.items ∧ level'.levelSize = level.levelSize + 1 := by
  have halc := allocatable_of_levelExpand h
  obtain ⟨hmv, hsz⟩ := levelExpand_moves hs.wf ⟨fun hp => (hs.placed.placed hp).candidate⟩ h
  obtain ⟨hs', hits⟩ := hmv.sound hs (Nat.le_succ _) (size_le_of_allocatable halc)
    (by rw [hsz]; exact id) (by rw [hsz]; exact halc)
  exact ⟨hs', hits, hsz⟩

/-- `level_insert` adds its item. If the table has not grown, it found a place in the
first round. -/
lemma Sound.levelInsert {fuel : ℕ} {ret : UInt8} (hs : Sound H level) (hkey : IsKey key)
    (h : level.levelInsert H (fun _ => zeroed) fuel key value = .done (ret, level')) :
    ret = 0 ∧ Sound H level' ∧ level'.items = (cstr key, memcpy 15 value) ::ₘ level.items ∧
      level.levelSize ≤ level'.levelSize ∧
      (level'.levelSize = level.levelSize →
        level.insertOnce H (cstr key) ⟨memcpy 16 key, memcpy 15 value⟩ = some level') := by
  induction fuel generalizing level with
  | zero => exact absurd h (by simp [Level.levelInsert])
  | succ fuel ih =>
    rw [Level.levelInsert] at h
    cases hon : level.insertOnce H (cstr key) ⟨memcpy 16 key, memcpy 15 value⟩ with
    | some inserted =>
      rw [hon] at h
      cases h
      have hpt := hkey.insertOnce_puts hs.wf hon
      obtain ⟨hs', hits⟩ := hpt.sound hs
      exact ⟨rfl, hs', hits, hpt.size.ge, fun _ => rfl⟩
    | none =>
      rw [hon] at h
      obtain ⟨expanded, hexp, hrs⟩ := Outcome.bind_eq_done.mp h
      obtain ⟨hs1, hits1, hsz⟩ := hs.levelExpand hexp
      obtain ⟨hret, hs', hits, hle, -⟩ := ih hs1 hrs
      rw [hits1] at hits
      exact ⟨hret, hs', hits, by omega, fun heq => absurd heq (by omega)⟩

lemma Sound.levelDelete (hs : Sound H level) (key : List UInt8) :
    Sound H (level.levelDelete H key).2 := by
  unfold Level.levelDelete
  cases hsr : level.search H [0, 1] key with
  | none => exact hs
  | some p =>
    obtain ⟨i, idx, j⟩ := p
    have hw : Writes level i (clearSlot (level.buckets i) idx j) { level with
        buckets := Function.update level.buckets i (clearSlot (level.buckets i) idx j)
        levelItemNum := Function.update level.levelItemNum i
          (level.levelItemNum i - 1) } := ⟨rfl, rfl, rfl⟩
    refine ⟨hw.wellFormed hs.wf ((hs.wf.clean i).clearSlot idx j), hs.alloc, ?_⟩
    rw [hw.clear hs.wf]
    exact hs.placed.erase _

lemma Sound.levelUpdate (hs : Sound H level) (key newValue : List UInt8) :
    Sound H (level.levelUpdate H key newValue).2 := by
  unfold Level.levelUpdate
  cases hsr : level.search H [0, 1] key with
  | none => exact hs
  | some p =>
    obtain ⟨i, idx, j⟩ := p
    have htok := (search_token hsr).2
    dsimp only at htok ⊢
    have hne : (level.buckets i idx).token j ≠ 0 := by
      rw [htok]
      decide
    rw [update_value_eq_putSlot htok]
    set e : Entry := { (level.buckets i idx).slot j with value := memcpy 15 newValue }
    have hw : Writes level i (putSlot (level.buckets i) idx j e) { level with
        buckets := Function.update level.buckets i
          (putSlot (level.buckets i) idx j e) } := ⟨rfl, rfl, rfl⟩
    have htr : 0 ∈ e.key.toList := (hs.wf.clean i).terminated hne
    refine ⟨hw.wellFormed hs.wf ((hs.wf.clean i).putSlot htr idx j), hs.alloc, ?_⟩
    rw [hw.put hs.wf]
    exact hs.placed.update (k := e.item.1) (v := e.item.2) (hs.placed.placed (view_taken hs.wf hne))

lemma Sound.levelInit (H : Hashes) {n : ℕ} (hn : 2 ≤ n)
    (h : Level.levelInit (fun _ => zeroed) n = .done level) :
    Sound H level ∧ level.items = 0 := by
  obtain ⟨hwf, -⟩ := levelInit_represents H hn h
  have hvw := view_levelInit h
  have halc : Allocatable (2 ^ level.levelSize) := by
    unfold Level.levelInit at h
    split at h
    case isFalse => cases h
    case isTrue halc =>
      cases h
      exact halc
  refine ⟨⟨hwf, halc, ⟨fun hp => ?_⟩⟩, ?_⟩
  · rw [hvw] at hp
    cases hp
  · unfold Level.items
    rw [hvw]
    exact contents_empty _

end Librdpma.LevelHash
