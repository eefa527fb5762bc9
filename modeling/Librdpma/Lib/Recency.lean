import Mathlib

/-!
# Recency lists

A list of distinct elements, most recently used first. Using an element moves
it to the front, and room is made at the back. An element among the first `n`
is then among the first `n + 1` after one more use of another one. `use` is
the whole list, with the last element dropped when there is no room.
-/

namespace Librdpma.Lib

open List

variable {α : Type} [DecidableEq α] {l rest : List α} {x y : α} {n : ℕ}

lemma mem_take_erase (h : x ∈ l.take n) (hne : x ≠ y) : x ∈ (l.erase y).take n := by
  induction l generalizing n with
  | nil => simp at h
  | cons a l ih =>
    cases n with
    | zero => simp at h
    | succ n =>
      rw [take_succ_cons] at h
      by_cases ha : a = y
      · subst ha
        rw [erase_cons_head]
        rcases mem_cons.mp h with rfl | h
        · exact absurd rfl hne
        · exact (take_subset_take_left l (Nat.le_succ n)) h
      · rw [erase_cons_tail (by simpa using ha), take_succ_cons]
        rcases mem_cons.mp h with rfl | h
        · exact mem_cons_self
        · exact mem_cons_of_mem _ (ih h)

lemma mem_take_use (h : x ∈ l.take n) : x ∈ (y :: l.erase y).take (n + 1) := by
  rw [take_succ_cons]
  by_cases hxy : x = y
  · exact hxy ▸ mem_cons_self
  · exact mem_cons_of_mem _ (mem_take_erase h hxy)

omit [DecidableEq α] in
/-- An element that is not among the last ones stays when the last one goes. -/
lemma mem_take_of_append_singleton (h : x ∈ (rest ++ [y]).take n)
    (hn : n ≤ rest.length) : x ∈ rest.take n := by
  rwa [take_append_of_le_length hn] at h

/-- Use an element of a list that keeps at most `cap` of them. -/
def use (cap : ℕ) (x : α) (l : List α) : List α := (x :: l.erase x).take cap

lemma use_of_mem {cap : ℕ} (h : x ∈ l) (hlen : l.length ≤ cap) : use cap x l = x :: l.erase x := by
  refine take_of_length_le ?_
  have hpos := length_pos_of_mem h
  rw [length_cons, length_erase_of_mem h]
  omega

lemma use_of_lt {cap : ℕ} (h : x ∉ l) (hlen : l.length < cap) : use cap x l = x :: l := by
  unfold use
  rw [erase_of_not_mem h]
  exact take_of_length_le hlen

lemma use_of_full {cap : ℕ} (h : x ∉ rest ++ [y]) (hlen : rest.length + 1 = cap) :
    use cap x (rest ++ [y]) = x :: rest := by
  unfold use
  rw [erase_of_not_mem h, ← hlen, take_succ_cons, take_left]

lemma mem_use {cap : ℕ} (h : 0 < cap) : x ∈ use cap x l := by
  unfold use
  obtain ⟨k, rfl⟩ := Nat.exists_eq_succ_of_ne_zero (Nat.ne_of_gt h)
  rw [take_succ_cons]
  exact mem_cons_self

lemma map_erase_of_inj {β : Type} [DecidableEq β] {g : α → β}
    (h : ∀ z ∈ l, g z = g x → z = x) : (l.erase x).map g = (l.map g).erase (g x) := by
  induction l with
  | nil => rfl
  | cons z l ih =>
    by_cases hz : z = x
    · subst hz
      rw [erase_cons_head, map_cons, erase_cons_head]
    · have hg : g z ≠ g x := fun hg => hz (h z mem_cons_self hg)
      rw [erase_cons_tail (by simpa using hz), map_cons, map_cons,
        erase_cons_tail (by simpa using hg),
        ih fun w hw => h w (mem_cons_of_mem _ hw)]

end Librdpma.Lib
