import Mathlib

/-!
# Index chains

An array of records linked by the index of the next record, with `0` for the
end, holds a chain of indices from a given head. `Linked next c l` says that
following `next` from `c` visits exactly the indices of `l` and then reaches
`0`; so a head with such a list starts an acyclic chain.

The rules for changing a chain take the new link function `next'` with what
is known of it, so that they apply to any write to the array.
-/

namespace Librdpma.Lib

open List

/-- Following `next` from `c` visits the indices `l`, in order, and ends at 0. -/
def Linked (next : ℕ → ℕ) : ℕ → List ℕ → Prop
  | c, [] => c = 0
  | c, i :: l => c = i ∧ i ≠ 0 ∧ Linked next (next i) l

namespace Linked

variable {next next' : ℕ → ℕ} {c i b : ℕ} {l l1 l2 : List ℕ}

lemma nil_of_zero (h : Linked next 0 l) : l = [] := by
  cases l with
  | nil => rfl
  | cons i l =>
    obtain ⟨hi, hne, -⟩ := h
    exact absurd hi.symm hne

lemma zero_of_nil (h : Linked next c []) : c = 0 := h

lemma head_cases (h : Linked next c l) (hc : c ≠ 0) :
    ∃ rest, l = c :: rest ∧ Linked next (next c) rest := by
  cases l with
  | nil => exact absurd h hc
  | cons i rest =>
    obtain ⟨rfl, -, hrs⟩ := h
    exact ⟨rest, rfl, hrs⟩

lemma ne_zero_of_mem (h : Linked next c l) (hi : i ∈ l) : i ≠ 0 := by
  induction l generalizing c with
  | nil => cases hi
  | cons j l ih =>
    obtain ⟨-, hne, hl⟩ := h
    rcases mem_cons.mp hi with rfl | hi
    · exact hne
    · exact ih hl hi

lemma suffix (l1 : List ℕ) (h : Linked next c (l1 ++ i :: l2)) : Linked next i (i :: l2) := by
  induction l1 generalizing c with
  | nil =>
    obtain ⟨-, hne, hl⟩ := h
    exact ⟨rfl, hne, hl⟩
  | cons j l1 ih => exact ih h.2.2

lemma unique (h1 : Linked next c l1) (h2 : Linked next c l2) : l1 = l2 := by
  induction l1 generalizing c l2 with
  | nil =>
    rw [zero_of_nil h1] at h2
    exact (nil_of_zero h2).symm
  | cons i l1 ih =>
    obtain ⟨rfl, hne, hl1⟩ := h1
    obtain ⟨rest, rfl, hrs⟩ := head_cases h2 hne
    rw [ih hl1 hrs]

/-- No index is visited twice: the chain from its second visit would be the
chain from its first, and shorter. -/
lemma nodup (h : Linked next c l) : l.Nodup := by
  induction l generalizing c with
  | nil => exact nodup_nil
  | cons i l ih =>
    refine nodup_cons.mpr ⟨fun hi => ?_, ih h.2.2⟩
    obtain ⟨l1, l2, hspl⟩ := append_of_mem hi
    have hln : Linked next i (i :: l) := suffix [] h
    have hsht : Linked next i (i :: l2) := by
      have h' := h
      rw [hspl] at h'
      exact suffix (i :: l1) h'
    have hlen := congrArg length (unique hln hsht)
    rw [hspl] at hlen
    simp only [length_cons, length_append] at hlen
    omega

lemma frame (h : Linked next c l) (hfrm : ∀ j ∈ l, next' j = next j) : Linked next' c l := by
  induction l generalizing c with
  | nil => exact h
  | cons i l ih =>
    obtain ⟨hc, hne, hl⟩ := h
    refine ⟨hc, hne, ?_⟩
    rw [hfrm i mem_cons_self]
    exact ih hl fun j hj => hfrm j (mem_cons_of_mem _ hj)

lemma snoc (h : Linked next c (l ++ [b])) (hi : i ≠ 0) (hnew : next' i = 0) (hla : next' b = i)
    (hfrm : ∀ j ∈ l, next' j = next j) :
    Linked next' c (l ++ [b] ++ [i]) := by
  induction l generalizing c with
  | nil =>
    obtain ⟨hc, hne, -⟩ := h
    exact ⟨hc, hne, hla, hi, hnew⟩
  | cons j l ih =>
    obtain ⟨hc, hne, hl⟩ := h
    refine ⟨hc, hne, ?_⟩
    rw [hfrm j mem_cons_self]
    exact ih hl fun k hk => hfrm k (mem_cons_of_mem _ hk)

lemma unlink (h : Linked next c (l1 ++ b :: i :: l2))
    (hln : next' b = next i) (hfrm : ∀ j ∈ l1 ++ l2, next' j = next j) :
    Linked next' c (l1 ++ b :: l2) := by
  induction l1 generalizing c with
  | nil =>
    obtain ⟨hc, hne, -, -, hl⟩ := h
    refine ⟨hc, hne, ?_⟩
    rw [hln]
    exact hl.frame hfrm
  | cons j l1 ih =>
    obtain ⟨hc, hne, hl⟩ := h
    refine ⟨hc, hne, ?_⟩
    rw [hfrm j mem_cons_self]
    exact ih hl fun k hk => hfrm k (mem_cons_of_mem _ hk)

lemma mem_unlinked {j : ℕ} (h : Linked next c (l1 ++ i :: l2)) :
    j ∈ l1 ++ l2 ↔ j ∈ l1 ++ i :: l2 ∧ j ≠ i := by
  have hnot : i ∉ l1 ++ l2 := (nodup_cons.mp (nodup_middle.mp h.nodup)).1
  have hmid : j ∈ l1 ++ i :: l2 ↔ j = i ∨ j ∈ l1 ++ l2 := by
    rw [perm_middle.mem_iff, mem_cons]
  rw [hmid]
  constructor
  · intro hj
    refine ⟨.inr hj, ?_⟩
    rintro rfl
    exact hnot hj
  · rintro ⟨rfl | hj, hne⟩
    · exact absurd rfl hne
    · exact hj

end Linked

end Librdpma.Lib
