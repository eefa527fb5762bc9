import Librdpma.LevelHash.Shrink

/-!
# Tables that calls lead to

`Reached` collects the tables that any calls lead to from `level_init(n)`, with
keys that may be there already. Of these the results say when `level_insert`
comes back and when `level_shrink` keeps the stored pairs.
-/

namespace Librdpma.LevelHash

open Lib Function List

variable {H : Hashes} {level level' : Level} {key value : List UInt8} {it : Item} {n : ℕ}

/-- The tables that a run from `level_init(n)` over zero-filled memory reaches. Keys
are NUL-terminated strings of at most 15 bytes. A table of size 2 is not shrunk: in
the table of size 1 the indices of the bottom level would be taken modulo 0. -/
inductive Reached (H : Hashes) (n : ℕ) : Level → Prop where
  | init {level : Level} : Level.levelInit (fun _ => zeroed) n = .done level → Reached H n level
  | insert {level level' : Level} {key value : List UInt8} {fuel : ℕ} {ret : UInt8} :
      Reached H n level → IsKey key →
      level.levelInsert H (fun _ => zeroed) fuel key value = .done (ret, level') →
      Reached H n level'
  | update {level : Level} (key value : List UInt8) :
      Reached H n level → Reached H n (level.levelUpdate H key value).2
  | delete {level : Level} (key : List UInt8) :
      Reached H n level → Reached H n (level.levelDelete H key).2
  | expand {level level' : Level} :
      Reached H n level → level.levelExpand H (fun _ => zeroed) = .done level' →
      Reached H n level'
  | shrink {level level' : Level} {fuel : ℕ} : Reached H n level → 3 ≤ level.levelSize →
      level.levelShrink H (fun _ => zeroed) fuel = .done level' → Reached H n level'

lemma Reached.sound (hn : 2 ≤ n) (h : Reached H n level) : Sound H level := by
  induction h with
  | init hin => exact (Sound.levelInit H hn hin).1
  | insert _ hkey hins ih => exact (ih.levelInsert hkey hins).2.1
  | update key value _ ih => exact ih.levelUpdate key value
  | delete key _ ih => exact ih.levelDelete key
  | expand _ hexp ih => exact (ih.levelExpand hexp).1
  | shrink _ h3 hshr ih => exact (ih.levelShrink_done h3 hshr).2.1

/-! ## Tables with few items -/

lemma insertOnce_itemNum {e : Entry} (h : level.insertOnce H key e = some level') :
    level'.levelItemNum 0 + level'.levelItemNum 1
        = level.levelItemNum 0 + level.levelItemNum 1 + 1 ∧
      level'.totalCapacity = level.totalCapacity := by
  have hone : ∀ i : Fin 2, update level.levelItemNum i (level.levelItemNum i + 1) 0
      + update level.levelItemNum i (level.levelItemNum i + 1) 1
      = level.levelItemNum 0 + level.levelItemNum 1 + 1 := by
    intro i
    match i with
    | 0 =>
      rw [update_self, update_of_ne (by decide), UInt64.add_assoc,
        UInt64.add_comm 1, ← UInt64.add_assoc]
    | 1 =>
      rw [update_self, update_of_ne (by decide), UInt64.add_assoc]
  rcases insertOnce_cases h with ⟨i, idx, j, -, -, rfl⟩ | ⟨-, hmove | hlf⟩
  · exact ⟨hone i, rfl⟩
  · obtain ⟨i, idx, -, hmv⟩ := hmove
    obtain ⟨slot, jdx, j, -, -, rfl⟩ := tryMovement_cases hmv
    exact ⟨hone i, rfl⟩
  · obtain ⟨idx, -, slot, lifted, hb2t, rfl⟩ := hlf
    obtain ⟨jdx, j, -, -, rfl⟩ := b2tMovement_cases hb2t
    refine ⟨?_, rfl⟩
    show level.levelItemNum 0 + 1 + (level.levelItemNum 1 - 1 + 1) = _
    rw [UInt64.sub_add_cancel, UInt64.add_assoc, UInt64.add_comm 1, ← UInt64.add_assoc]

/-- The item of a key inserted with the value 0. -/
def plainItem (key : List UInt8) : Item := (cstr key, memcpy 15 [])

/-- The table of size `n` after the insertions of some keys, without an expansion. -/
structure Filled (H : Hashes) (n : ℕ) (keys : List (List UInt8)) (level : Level) : Prop where
  reached : Reached H n level
  size : level.levelSize = n
  items : level.items = ↑(keys.map plainItem)
  itemNum : level.levelItemNum 0 + level.levelItemNum 1 = UInt64.ofNat keys.length
  totalCapacity : level.totalCapacity = 2 ^ n + 2 ^ (n - 1)

lemma Filled.card {keys : List (List UInt8)} (h : Filled H n keys level) :
    level.items.card = keys.length := by
  rw [h.items, Multiset.coe_card, length_map]

lemma Filled.insert {keys : List (List UInt8)} (hn : 2 ≤ n) (h : Filled H n keys level)
    (hkey : IsKey key)
    (hon : level.insertOnce H (cstr key) ⟨memcpy 16 key, memcpy 15 []⟩ = some level') :
    Filled H n (key :: keys) level' := by
  have hs := h.reached.sound hn
  have hpt := hkey.insertOnce_puts hs.wf hon
  obtain ⟨hnum, htot⟩ := insertOnce_itemNum hon
  have hins : level.levelInsert H (fun _ => zeroed) 1 key [] = .done (0, level') := by
    rw [Level.levelInsert, hon]
  refine ⟨h.reached.insert hkey hins, hpt.size.trans h.size, ?_, ?_, htot.trans h.totalCapacity⟩
  · rw [(hpt.sound hs).2, h.items]
    rfl
  · rw [hnum, h.itemNum, length_cons, UInt64.ofNat_add]
    rfl

lemma Sound.levelStaticQuery_eq (hs : Sound H level) {v : Bytes 15}
    (hv : level.Stores (cstr key, v)) (h : ∀ w, level.Stores (cstr key, w) → w = v) :
    level.levelStaticQuery H key = some v := by
  unfold Level.levelStaticQuery
  cases hsr : level.search H [0, 1] key with
  | none =>
    obtain ⟨i, idx, j, hitem⟩ := hv
    rw [← view_level hs.wf i] at hitem
    exact absurd hitem (search_none hs.wf (by decide) hsr _ (hs.placed.placed hitem).candidate v)
  | some p =>
    have hfnd := search_some hs.wf hsr
    rw [Option.map_some, h _ ⟨_, _, _, hfnd⟩]

end Librdpma.LevelHash
