import Librdpma.Lib.Chain

/-!
# Rings with a header

Records linked in both directions, with the header 0 in front of the first one:
`next` leads from the header through the listed records and back, `prev` leads
back from each listed record. The tail is the last record, or the header if none
is listed. The `prev` of the header is free.
-/

namespace Librdpma.Lib

open List Function

/-- `prev` leads from each index of `l` to the one before it, from the first to
`p`. -/
def Backed (prev : ℕ → ℕ) : ℕ → List ℕ → Prop
  | _, [] => True
  | p, i :: l => prev i = p ∧ Backed prev i l

/-- The last index of `l`, or `p`. -/
def lastOr (p : ℕ) : List ℕ → ℕ
  | [] => p
  | i :: l => lastOr i l

structure Ring (next prev : ℕ → ℕ) (tail : ℕ) (l : List ℕ) : Prop where
  linked : Linked next (next 0) l
  backed : Backed prev 0 l
  tail : tail = lastOr 0 l

section

variable {next next' prev prev' : ℕ → ℕ} {p c i x : ℕ} {l l1 l2 : List ℕ}

lemma lastOr_append (p : ℕ) (l1 l2 : List ℕ) : lastOr p (l1 ++ l2) = lastOr (lastOr p l1) l2 := by
  induction l1 generalizing p with
  | nil => rfl
  | cons i l1 ih => exact ih i

lemma lastOr_mem (p : ℕ) (l : List ℕ) : lastOr p l ∈ p :: l := by
  induction l generalizing p with
  | nil => exact mem_singleton_self _
  | cons i l ih => exact mem_cons_of_mem _ (ih i)

lemma Backed.frame (h : Backed prev p l) (hfrm : ∀ i ∈ l, prev' i = prev i) : Backed prev' p l := by
  induction l generalizing p with
  | nil => trivial
  | cons i l ih =>
    exact ⟨(hfrm i mem_cons_self).trans h.1, ih h.2 fun j hj => hfrm j (mem_cons_of_mem _ hj)⟩

lemma Backed.append : Backed prev p (l1 ++ l2) ↔
    Backed prev p l1 ∧ Backed prev (lastOr p l1) l2 := by
  induction l1 generalizing p with
  | nil => exact ⟨fun h => ⟨trivial, h⟩, fun h => h.2⟩
  | cons i l1 ih => rw [cons_append, Backed, Backed, ih, lastOr, and_assoc]

lemma Linked.head_mem (h : Linked next c l) : c = 0 ∨ c ∈ l := by
  cases l with
  | nil => exact .inl h
  | cons i l => exact .inr (h.1 ▸ mem_cons_self)

lemma Linked.after (h : Linked next c (l1 ++ x :: l2)) : Linked next (next x) l2 :=
  (h.suffix l1).2.2

lemma Linked.push (h : Linked next (next p) l) (hnd : (p :: l).Nodup) (hc : c ≠ 0)
    (hnew : next' c = 0) (hla : next' (lastOr p l) = c)
    (hfrm : ∀ j ∈ p :: l, j ≠ lastOr p l → next' j = next j) :
    Linked next' (next' p) (l ++ [c]) := by
  induction l generalizing p with
  | nil => exact ⟨hla, hc, hnew⟩
  | cons i l ih =>
    obtain ⟨hi, hne, h⟩ := h
    have hp : p ≠ lastOr i l := fun heq =>
      (nodup_cons.mp hnd).1 (heq ▸ lastOr_mem i l)
    rw [hfrm p mem_cons_self hp]
    exact ⟨hi, hne, ih h (nodup_cons.mp hnd).2 hla fun j hj =>
      hfrm j (mem_cons_of_mem _ hj)⟩

lemma Linked.pass (h : Linked next (next p) (l1 ++ x :: l2))
    (hnd : (p :: (l1 ++ x :: l2)).Nodup) (hln : next' (lastOr p l1) = next x)
    (hfrm : ∀ j ∈ p :: (l1 ++ x :: l2), j ≠ lastOr p l1 → next' j = next j) :
    Linked next' (next' p) (l1 ++ l2) := by
  induction l1 generalizing p with
  | nil =>
    obtain ⟨-, -, h⟩ := h
    have hln : next' p = next x := hln
    rw [hln]
    refine h.frame fun j hj => hfrm j (by simp [hj]) ?_
    rintro rfl
    exact (nodup_cons.mp hnd).1 (by simp [hj])
  | cons i l1 ih =>
    obtain ⟨hi, hne, h⟩ := h
    have hp : p ≠ lastOr i l1 := by
      intro heq
      refine (nodup_cons.mp hnd).1 (heq ▸ ?_)
      have := lastOr_mem i l1
      simp only [mem_cons, cons_append, mem_append] at this ⊢
      tauto
    rw [hfrm p mem_cons_self hp]
    exact ⟨hi, hne, ih h (nodup_cons.mp hnd).2 hln fun j hj =>
      hfrm j (mem_cons_of_mem _ hj)⟩

end

namespace Ring

variable {next prev : ℕ → ℕ} {tail c x : ℕ} {l l1 l2 : List ℕ}

lemma ne_zero (h : Ring next prev tail l) (hx : x ∈ l) : x ≠ 0 := h.linked.ne_zero_of_mem hx

lemma nodup (h : Ring next prev tail l) : (0 :: l).Nodup :=
  nodup_cons.mpr ⟨fun h0 => h.ne_zero h0 rfl, h.linked.nodup⟩

lemma next_mem (h : Ring next prev tail l) (hx : x ∈ 0 :: l) : next x = 0 ∨ next x ∈ l := by
  rcases mem_cons.mp hx with rfl | hx
  · exact h.linked.head_mem
  · obtain ⟨l1, l2, rfl⟩ := append_of_mem hx
    refine h.linked.after.head_mem.imp_right fun hmem => ?_
    exact mem_append_right _ (mem_cons_of_mem _ hmem)

lemma prev_eq (h : Ring next prev tail (l1 ++ x :: l2)) : prev x = lastOr 0 l1 :=
  (Backed.append.mp h.backed).2.1

lemma insert (h : Ring next prev tail l) (hc : c ≠ 0) (hcl : c ∉ l) :
    Ring (update (update next tail c) c 0) (update prev c tail) c (l ++ [c]) := by
  have htl : tail ∈ 0 :: l := h.tail ▸ lastOr_mem 0 l
  have hct : tail ≠ c := by
    rintro rfl
    rcases mem_cons.mp htl with h0 | hl
    · exact hc h0
    · exact hcl hl
  have hne : ∀ j ∈ 0 :: l, j ≠ c := by
    rintro j hj rfl
    rcases mem_cons.mp hj with h0 | hl
    · exact hc h0
    · exact hcl hl
  refine ⟨h.linked.push h.nodup hc (update_self ..) ?_ fun j hj hjt => ?_, ?_, ?_⟩
  · rw [← h.tail, update_of_ne hct, update_self]
  · rw [update_of_ne (hne j hj), update_of_ne (h.tail ▸ hjt)]
  · refine Backed.append.mpr ⟨h.backed.frame fun j hj => ?_, ?_, trivial⟩
    · exact update_of_ne (hne j (mem_cons_of_mem _ hj)) _ _
    · rw [update_self, h.tail]
  · rw [lastOr_append]
    rfl

lemma remove (h : Ring next prev tail (l1 ++ x :: l2)) :
    Ring (update next (prev x) (next x)) (update prev (next x) (prev x))
      (if tail = x then prev x else tail) (l1 ++ l2) := by
  have hnd := h.nodup
  have hpr := h.prev_eq
  refine ⟨h.linked.pass hnd ?_ fun j hj hjp => ?_, ?_, ?_⟩
  · rw [← hpr, update_self]
  · exact update_of_ne (hpr ▸ hjp) _ _
  · obtain ⟨hb1, -, hb2⟩ := Backed.append.mp h.backed
    have haft := h.linked.after
    have hfst : ∀ j ∈ l1, j ≠ next x := by
      rintro j hj rfl
      cases l2 with
      | nil => exact h.ne_zero (mem_append_left _ hj) haft
      | cons y l2 =>
        have hmem : next x ∈ x :: y :: l2 := haft.1 ▸ by simp
        exact (nodup_append.mp (nodup_cons.mp hnd).2).2.2 _ hj _ hmem rfl
    refine Backed.append.mpr ⟨hb1.frame fun j hj => update_of_ne (hfst j hj) _ _, ?_⟩
    cases l2 with
    | nil => trivial
    | cons y l2 =>
      have hy : next x = y := haft.1
      have hyl : y ∉ l2 := by
        have := (nodup_append.mp (nodup_cons.mp hnd).2).2.1
        exact (nodup_cons.mp (nodup_cons.mp this).2).1
      rw [hy]
      refine ⟨by rw [update_self, hpr], hb2.2.frame fun j hj => ?_⟩
      refine update_of_ne ?_ _ _
      rintro rfl
      exact hyl hj
  · rw [h.tail, lastOr_append, lastOr_append, lastOr, hpr]
    cases l2 with
    | nil => rw [lastOr, if_pos rfl]; rfl
    | cons y l2 =>
      rw [if_neg]
      · rfl
      · -- the tail is behind `x`
        intro heq
        have hmem : x ∈ y :: l2 := heq ▸ lastOr_mem y l2
        have := (nodup_append.mp (nodup_cons.mp hnd).2).2.1
        exact (nodup_cons.mp this).1 hmem

end Ring

end Librdpma.Lib
