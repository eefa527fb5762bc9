import Mathlib

/-!
# Resources and their owners

Each owner holds a list of resources from a common pool. The holdings are
sound when everything held is in use, and nothing is held twice. Taking unused
resources and giving some back keep them so.
-/

namespace Librdpma.Lib

open List

variable {ι ρ : Type} {own own' : ι → List ρ} {live live' : ρ → Prop}

structure Owned (own : ι → List ρ) (live : ρ → Prop) : Prop where
  live : ∀ i, ∀ r ∈ own i, live r
  nodup : ∀ i, (own i).Nodup
  apart : ∀ i j, i ≠ j → List.Disjoint (own i) (own j)

namespace Owned

lemma empty (h : ∀ i, own i = []) : Owned own live := by
  refine ⟨fun i r hr => ?_, fun i => ?_, fun i j _ => ?_⟩
  · rw [h i] at hr
    cases hr
  · rw [h i]
    exact nodup_nil
  · rw [h i]
    exact disjoint_nil_left _

lemma mono (h : Owned own live) (hlv : ∀ r, live r → live' r) : Owned own live' :=
  ⟨fun i r hr => hlv r (h.live i r hr), h.nodup, h.apart⟩

variable [DecidableEq ι] {i : ι}

lemma take (h : Owned own live) {rs : List ρ} (hnd : rs.Nodup)
    (hfr : ∀ r ∈ rs, ¬ live r) (hown : ∀ j, own' j = if j = i then own i ++ rs else own j)
    (hlv : ∀ r, live r ∨ r ∈ rs → live' r) : Owned own' live' := by
  have hnew : ∀ j, List.Disjoint (own j) rs := fun j r hr hrs => hfr r hrs (h.live j r hr)
  have hsf : own' i = own i ++ rs := by rw [hown, if_pos rfl]
  have hoth : ∀ j, j ≠ i → own' j = own j := fun j hj => by rw [hown, if_neg hj]
  have hapr : ∀ j, j ≠ i → List.Disjoint (own' i) (own' j) := by
    intro j hj
    rw [hsf, hoth j hj, disjoint_append_left]
    exact ⟨h.apart i j hj.symm, disjoint_symm (hnew j)⟩
  refine ⟨fun j r hr => ?_, fun j => ?_, fun j k hjk => ?_⟩
  · apply hlv
    by_cases hj : j = i
    · rw [hj, hsf, mem_append] at hr
      exact hr.imp (h.live i r) id
    · rw [hoth j hj] at hr
      exact .inl (h.live j r hr)
  · by_cases hj : j = i
    · rw [hj, hsf]
      exact (h.nodup i).append hnd (hnew i)
    · rw [hoth j hj]
      exact h.nodup j
  · by_cases hj : j = i
    · rw [hj]
      exact hapr k fun hk => hjk (hj.trans hk.symm)
    · by_cases hk : k = i
      · rw [hk]
        exact disjoint_symm (hapr j hj)
      · rw [hoth j hj, hoth k hk]
        exact h.apart j k hjk

/-- One owner keeps the first part of its holding; no more than the second
part becomes unused. -/
lemma give (h : Owned own live) {kept gone : List ρ} (hspl : own i = kept ++ gone)
    (hown : ∀ j, own' j = if j = i then kept else own j)
    (hlv : ∀ r, live r → r ∉ gone → live' r) : Owned own' live' := by
  have hsf : own' i = kept := by rw [hown, if_pos rfl]
  have hoth : ∀ j, j ≠ i → own' j = own j := fun j hj => by rw [hown, if_neg hj]
  have hnd := h.nodup i
  rw [hspl] at hnd
  have hsub : ∀ j r, r ∈ own' j → r ∈ own j := by
    intro j r hr
    by_cases hj : j = i
    · rw [hj, hsf] at hr
      rw [hj, hspl]
      exact mem_append_left _ hr
    · rw [← hoth j hj]
      exact hr
  refine ⟨fun j r hr => hlv r (h.live j r (hsub j r hr)) fun hgn => ?_, fun j => ?_,
    fun j k hjk r hr hr' => h.apart j k hjk (hsub j r hr) (hsub k r hr')⟩
  · by_cases hj : j = i
    · rw [hj, hsf] at hr
      exact (disjoint_of_nodup_append hnd) hr hgn
    · have hmem : r ∈ own i := by
        rw [hspl]
        exact mem_append_right _ hgn
      exact h.apart j i hj (hsub j r hr) hmem
  · by_cases hj : j = i
    · rw [hj, hsf]
      exact hnd.of_append_left
    · rw [hoth j hj]
      exact h.nodup j

end Owned

end Librdpma.Lib
