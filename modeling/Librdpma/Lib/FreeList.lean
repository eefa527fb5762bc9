import Mathlib

/-!
# Exact free lists

A free list over a set `P` of slots is exact when it lists, once each, the
slots that are not in use. Taking the head and giving a slot back keep it so.
-/

namespace Librdpma.Lib

open List

variable {α : Type} {P used : α → Prop} {free : List α} {i : α}

/-- `free` lists exactly the slots of `P` outside `used`, without repetition. -/
structure FreeExact (P used : α → Prop) (free : List α) : Prop where
  nodup : free.Nodup
  mem_iff : ∀ i, i ∈ free ↔ P i ∧ ¬ used i

namespace FreeExact

lemma head_free (h : FreeExact P used (i :: free)) : P i ∧ ¬ used i :=
  (h.mem_iff i).mp mem_cons_self

lemma take (h : FreeExact P used (i :: free)) : FreeExact P (fun j => j = i ∨ used j) free := by
  obtain ⟨hi, hnd⟩ := nodup_cons.mp h.nodup
  refine ⟨hnd, fun j => ?_⟩
  constructor
  · intro hj
    obtain ⟨hP, hus⟩ := (h.mem_iff j).mp (mem_cons_of_mem _ hj)
    refine ⟨hP, ?_⟩
    rintro (rfl | hu)
    · exact hi hj
    · exact hus hu
  · rintro ⟨hP, hus⟩
    have hmem := (h.mem_iff j).mpr ⟨hP, fun hu => hus (.inr hu)⟩
    rcases mem_cons.mp hmem with rfl | hj
    · exact absurd (.inl rfl) hus
    · exact hj

/-- Release: a used slot of `P` goes back to the front of the list. -/
lemma give (h : FreeExact P used free) (hP : P i) (hu : used i) :
    FreeExact P (fun j => j ≠ i ∧ used j) (i :: free) := by
  refine ⟨nodup_cons.mpr ⟨fun hi => ((h.mem_iff i).mp hi).2 hu, h.nodup⟩, fun j => ?_⟩
  rw [mem_cons, h.mem_iff j]
  constructor
  · rintro (rfl | ⟨hPj, hj⟩)
    · exact ⟨hP, fun hne => hne.1 rfl⟩
    · exact ⟨hPj, fun hne => hj hne.2⟩
  · rintro ⟨hPj, hj⟩
    by_cases hji : j = i
    · exact .inl hji
    · exact .inr ⟨hPj, fun hu => hj ⟨hji, hu⟩⟩

lemma all_used_of_nil (h : FreeExact P used []) (hP : P i) : used i := by
  by_contra hu
  exact not_mem_nil ((h.mem_iff i).mpr ⟨hP, hu⟩)

lemma congr {used' : α → Prop} (h : FreeExact P used free)
    (heq : ∀ i, P i → (used i ↔ used' i)) : FreeExact P used' free := by
  refine ⟨h.nodup, fun i => ?_⟩
  rw [h.mem_iff i]
  constructor
  · rintro ⟨hP, hu⟩
    exact ⟨hP, fun hu' => hu ((heq i hP).mpr hu')⟩
  · rintro ⟨hP, hu⟩
    exact ⟨hP, fun hu' => hu ((heq i hP).mp hu')⟩

end FreeExact

end Librdpma.Lib
