import Librdpma.Lib.Placement

/-!
# What the slots of a table hold

`contents ps items` is the multiset of what stands at the positions `ps`. A put
at a free position adds one thing, an erasure takes it away, and moves keep the
contents. Things at known positions can be counted in both directions: positions
that hold something with a property are not more than the things with it, and
things that stand at few positions are few.
-/

namespace Librdpma.Lib

open List Function Finset Multiset

variable {P A K V : Type}

def contents (ps : Finset P) (items : P → Option A) : Multiset A :=
  ∑ p ∈ ps, (items p).elim 0 ({·})

variable {ps qs : Finset P} {items items' : P → Option A} {p : P} {a : A}

lemma mem_contents : a ∈ contents ps items ↔ ∃ p ∈ ps, items p = some a := by
  unfold contents
  rw [mem_sum]
  refine exists_congr fun p => and_congr_right fun _ => ?_
  cases items p with
  | none => simp
  | some b => simp [eq_comm]

lemma contents_empty (ps : Finset P) : contents ps (fun _ => (none : Option A)) = 0 :=
  sum_const_zero

lemma contents_congr (h : ∀ p ∈ ps, items p = items' p) : contents ps items = contents ps items' :=
  sum_congr rfl fun p hp => by rw [h p hp]

section Update

variable [DecidableEq P]

lemma contents_erase (hp : p ∈ ps) (h : items p = some a) :
    contents ps items = a ::ₘ contents ps (update items p none) := by
  unfold contents
  rw [← add_sum_erase ps _ hp, ← add_sum_erase ps _ hp, h, update_self]
  have hrs : ∀ q ∈ ps.erase p, (update items p none q).elim 0 ({·})
      = (items q).elim (0 : Multiset A) ({·}) := fun q hq => by
    rw [update_of_ne (ne_of_mem_erase hq)]
  rw [sum_congr rfl hrs]
  simp

lemma contents_put (hp : p ∈ ps) (h : items p = none) (a : A) :
    contents ps (update items p (some a)) = a ::ₘ contents ps items := by
  rw [contents_erase hp (update_self ..), update_idem, ← h, update_eq_self]

/-- The contents of some positions, listed in order, beside those of the others. -/
lemma contents_split {l : List P} (hl : l.Nodup) (hsub : ∀ p ∈ l, p ∈ ps)
    (hoth : ∀ p ∉ l, items p = items' p) (hno : ∀ p ∈ l, items' p = none) :
    contents ps items = ↑(l.filterMap items) + contents ps items' := by
  induction l generalizing items with
  | nil =>
    rw [contents_congr fun p _ => hoth p not_mem_nil]
    exact (zero_add _).symm
  | cons p l ih =>
    obtain ⟨hp, hl⟩ := nodup_cons.mp hl
    have hrs : l.filterMap (update items p none) = l.filterMap items := by
      refine filterMap_congr fun q hq => update_of_ne ?_ _ _
      rintro rfl
      exact hp hq
    have hclr : ∀ q ∉ l, update items p none q = items' q := fun q hq => by
      by_cases hqp : q = p
      · rw [hqp, update_self, hno p mem_cons_self]
      · rw [update_of_ne hqp]
        exact hoth q (by simp [hqp, hq])
    have hih := ih hl (fun q hq => hsub q (mem_cons_of_mem _ hq)) hclr
      (fun q hq => hno q (mem_cons_of_mem _ hq))
    rw [hrs] at hih
    cases hitem : items p with
    | none =>
      rw [filterMap_cons_none hitem, ← hih, ← hitem, update_eq_self]
    | some a =>
      rw [filterMap_cons_some hitem, contents_erase (hsub p mem_cons_self) hitem,
        hih, ← cons_coe, cons_add]

lemma Shifts.contents_eq {cand : K → P → Prop} {items items' : P → Option (K × V)}
    (h : Shifts cand items items') (hat : AtCandidates cand items)
    (hcn : ∀ k p, cand k p → p ∈ ps) : contents ps items' = contents ps items := by
  induction h with
  | refl => rfl
  | @move items' p q k v hs hp hq hc ih =>
    have hqp : q ≠ p := by
      rintro rfl
      rw [hp] at hq
      cases hq
    have hfr : update items' p none q = none := by
      rw [update_of_ne hqp, hq]
    rw [contents_put (hcn k q hc) hfr, ← ih,
      contents_erase (hcn k p ((hs.atCandidates hat).placed hp)) hp]

end Update

/-! ## Counting -/

lemma countP_contents {pred : A → Prop} [DecidablePred pred] :
    (contents ps items).countP pred = (ps.filter fun p => ∃ a, items p = some a ∧ pred a).card := by
  classical
  unfold contents
  rw [← coe_countPAddMonoidHom, map_sum, card_filter]
  refine sum_congr rfl fun p _ => ?_
  cases items p with
  | none => simp
  | some a => by_cases ha : pred a <;> simp [ha, ← cons_zero]

/-- Positions that hold something with a property are not more than the things
with it. -/
lemma card_le_countP {f : A → Prop} [DecidablePred f] (hsub : qs ⊆ ps)
    (h : ∀ p ∈ qs, ∃ a, items p = some a ∧ f a) :
    qs.card ≤ (contents ps items).countP f := by
  classical
  rw [countP_contents]
  exact Finset.card_le_card fun p hp => Finset.mem_filter.mpr ⟨hsub hp, h p hp⟩

end Librdpma.Lib
