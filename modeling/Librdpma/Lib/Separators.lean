import Mathlib

/-!
# Separators

An inner node of a search tree has children and, between two neighbours, a
separator: keys below it belong to the left neighbour, all others to the right
one. `Kids P lo hi ks cs L` says that the children `cs` with the separators `ks`
split the keys from `lo` to `hi`, that `P` holds of each child with its own
bounds, and that `L` collects what `P` says of the children, in their order.

What is collected is left open; so are the children.
-/

namespace Librdpma.Lib

open List

variable {K : Type} [LinearOrder K]

/-- A lower bound, absent at the left edge. -/
def AtLeast : Option K → K → Prop
  | none, _ => True
  | some l, k => l ≤ k

/-- A lower bound that is not reached. -/
def Above : Option K → K → Prop
  | none, _ => True
  | some l, k => l < k

/-- An upper bound, absent at the right edge. -/
def Below : Option K → K → Prop
  | none, _ => True
  | some h, k => k < h

/-- The keys from `lo` on and below `hi`. -/
def InRange (lo hi : Option K) (k : K) : Prop := AtLeast lo k ∧ Below hi k

/-- A separator, which leaves something on its left. -/
def Between (lo hi : Option K) (s : K) : Prop := Above lo s ∧ Below hi s

section

variable {lo hi : Option K} {s k k' : K}

lemma AtLeast.mono (h : AtLeast lo k) (hk : k ≤ k') : AtLeast lo k' := by
  cases lo with
  | none => trivial
  | some l => exact le_trans h hk

lemma Below.mono (h : Below hi k) (hk : k' ≤ k) : Below hi k' := by
  cases hi with
  | none => trivial
  | some r => exact lt_of_le_of_lt hk h

lemma Above.atLeast (h : Above lo k) : AtLeast lo k := by
  cases lo with
  | none => trivial
  | some l => exact le_of_lt h

lemma AtLeast.above (h : AtLeast lo k) (hk : k < k') : Above lo k' := by
  cases lo with
  | none => trivial
  | some l => exact lt_of_le_of_lt h hk

lemma Above.trans (h : Above lo k) (hk : k < k') : Above lo k' := h.atLeast.above hk

lemma Between.inRange (h : Between lo hi s) : InRange lo hi s := ⟨h.1.atLeast, h.2⟩

end

/-! ## Children and their separators -/

variable {C A : Type}

def Kids (P : Option K → Option K → C → List A → Prop) (hi : Option K) :
    Option K → List K → List C → List A → Prop
  | lo, [], cs, L => ∃ c, cs = [c] ∧ P lo hi c L
  | lo, s :: ks, cs, L => ∃ c cs' L1 L2, cs = c :: cs' ∧ L = L1 ++ L2 ∧ Between lo hi s ∧
      P lo (some s) c L1 ∧ Kids P hi (some s) ks cs' L2

namespace Kids

variable {P : Option K → Option K → C → List A → Prop} {lo hi : Option K} {ks ks1 ks2 : List K}
  {cs cs1 cs2 : List C} {L L1 L2 : List A} {s : K}

lemma one {c : C} (h : P lo hi c L) : Kids P hi lo [] [c] L := ⟨c, rfl, h⟩

lemma cons {c : C} (hs : Between lo hi s) (hc : P lo (some s) c L1)
    (h : Kids P hi (some s) ks cs L2) : Kids P hi lo (s :: ks) (c :: cs) (L1 ++ L2) :=
  ⟨c, cs, L1, L2, rfl, rfl, hs, hc, h⟩

lemma length_eq (h : Kids P hi lo ks cs L) : cs.length = ks.length + 1 := by
  induction ks generalizing lo cs L with
  | nil =>
    obtain ⟨c, rfl, -⟩ := h
    rfl
  | cons s ks ih =>
    obtain ⟨c, cs', L1, L2, rfl, -, -, -, h⟩ := h
    rw [length_cons, ih h, length_cons]

lemma between (h : Kids P hi lo ks cs L) (hs : s ∈ ks) : Between lo hi s := by
  induction ks generalizing lo cs L with
  | nil => cases hs
  | cons s0 ks ih =>
    obtain ⟨c, cs', L1, L2, -, -, hs0, -, h⟩ := h
    rcases mem_cons.mp hs with rfl | hs
    · exact hs0
    · have := ih h hs
      exact ⟨hs0.1.trans this.1, this.2⟩

lemma of_append (h : Kids P hi lo (ks1 ++ s :: ks2) cs L) :
    Between lo hi s ∧ ∃ L1 L2, L = L1 ++ L2 ∧ Kids P (some s) lo ks1 (cs.take (ks1.length + 1)) L1 ∧
      Kids P hi (some s) ks2 (cs.drop (ks1.length + 1)) L2 := by
  refine ⟨h.between (by simp), ?_⟩
  induction ks1 generalizing lo cs L with
  | nil =>
    obtain ⟨c, cs', L1, L2, rfl, rfl, -, hc, h⟩ := h
    exact ⟨L1, L2, rfl, one hc, h⟩
  | cons s1 ks1 ih =>
    obtain ⟨c, cs', M1, M2, rfl, rfl, hs1, hc, h⟩ := h
    obtain ⟨L1, L2, rfl, h1, h2⟩ := ih h
    have hlt : s1 < s := (h.between (mem_append_right _ mem_cons_self)).1
    exact ⟨M1 ++ L1, L2, (append_assoc ..).symm, cons ⟨hs1.1, hlt⟩ hc h1, h2⟩

lemma ne_nil (hP : ∀ lo hi c M, P lo hi c M → M ≠ []) (h : Kids P hi lo ks cs L) : L ≠ [] := by
  cases ks with
  | nil =>
    obtain ⟨c, -, hc⟩ := h
    exact hP _ _ _ _ hc
  | cons s ks =>
    obtain ⟨c, cs', L1, L2, -, rfl, -, hc, -⟩ := h
    exact append_ne_nil_of_left_ne_nil (hP _ _ _ _ hc) _

end Kids

/-! ## One child and what is around it -/

/-- The children on the left of one whose lower bound is `lo'`. -/
def Lefts (P : Option K → Option K → C → List A → Prop) (hi lo' : Option K) :
    Option K → List K → List C → List A → Prop
  | lo, [], cs, L => lo = lo' ∧ cs = [] ∧ L = []
  | lo, s :: ks, cs, L => ∃ c cs' L1 L2, cs = c :: cs' ∧ L = L1 ++ L2 ∧ Between lo hi s ∧
      P lo (some s) c L1 ∧ Lefts P hi lo' (some s) ks cs' L2

/-- The children on the right of one with the bounds `lo'` and `hi'`. -/
def Rights (P : Option K → Option K → C → List A → Prop) (hi lo' hi' : Option K) :
    List K → List C → List A → Prop
  | [], cs, L => hi' = hi ∧ cs = [] ∧ L = []
  | s :: ks, cs, L => hi' = some s ∧ Between lo' hi s ∧ Kids P hi (some s) ks cs L

section

variable {P : Option K → Option K → C → List A → Prop} {lo hi lo' hi' : Option K}
  {ks ks1 ks2 : List K} {c : C} {cs cs1 cs2 : List C} {L L1 L2 M : List A} {s x : K}

lemma Kids.split (h : Kids P hi lo (ks1 ++ ks2) cs L) :
    ∃ cs1 c cs2 L1 M L2 lo' hi', cs = cs1 ++ c :: cs2 ∧ L = L1 ++ (M ++ L2) ∧
      Lefts P hi lo' lo ks1 cs1 L1 ∧ P lo' hi' c M ∧ Rights P hi lo' hi' ks2 cs2 L2 := by
  induction ks1 generalizing lo cs L with
  | nil =>
    rw [nil_append] at h
    cases ks2 with
    | nil =>
      obtain ⟨c, rfl, hc⟩ := h
      exact ⟨[], c, [], [], L, [], lo, hi, rfl, (append_nil L).symm, ⟨rfl, rfl, rfl⟩, hc,
        rfl, rfl, rfl⟩
    | cons s ks =>
      obtain ⟨c, cs', L1, L2, rfl, rfl, hs, hc, h⟩ := h
      exact ⟨[], c, cs', [], L1, L2, lo, some s, rfl, rfl, ⟨rfl, rfl, rfl⟩, hc, rfl, hs, h⟩
  | cons s ks1 ih =>
    obtain ⟨c, cs', M1, M2, rfl, rfl, hs, hc, h⟩ := h
    obtain ⟨cs1, c', cs2, L1, M, L2, lo', hi', rfl, rfl, hl, hc', hr⟩ := ih h
    exact ⟨c :: cs1, c', cs2, M1 ++ L1, M, L2, lo', hi', rfl, (append_assoc ..).symm,
      ⟨c, cs1, M1, L1, rfl, rfl, hs, hc, hl⟩, hc', hr⟩

lemma Lefts.length_eq (h : Lefts P hi lo' lo ks cs L) : cs.length = ks.length := by
  induction ks generalizing lo cs L with
  | nil =>
    obtain ⟨-, rfl, -⟩ := h
    rfl
  | cons s ks ih =>
    obtain ⟨c, cs', L1, L2, rfl, -, -, -, h⟩ := h
    rw [length_cons, length_cons, ih h]

lemma Lefts.kids (hl : Lefts P hi lo' lo ks1 cs1 L1) (h : Kids P hi lo' ks2 cs2 L2) :
    Kids P hi lo (ks1 ++ ks2) (cs1 ++ cs2) (L1 ++ L2) := by
  induction ks1 generalizing lo cs1 L1 with
  | nil =>
    obtain ⟨rfl, rfl, rfl⟩ := hl
    exact h
  | cons s ks1 ih =>
    obtain ⟨c, cs', M1, M2, rfl, rfl, hs, hc, hl⟩ := hl
    rw [append_assoc]
    exact .cons hs hc (ih hl)

lemma Rights.kids (hr : Rights P hi lo' hi' ks cs L) (hc : P lo' hi' c M) :
    Kids P hi lo' ks (c :: cs) (M ++ L) := by
  cases ks with
  | nil =>
    obtain ⟨rfl, rfl, rfl⟩ := hr
    rw [append_nil]
    exact .one hc
  | cons s ks =>
    obtain ⟨rfl, hs, h⟩ := hr
    exact .cons hs hc h

lemma Rights.cut (hr : Rights P hi lo' hi' ks cs L) (hs : Between lo' hi' s) :
    Between lo' hi s ∧ Rights P hi (some s) hi' ks cs L := by
  cases ks with
  | nil =>
    obtain ⟨rfl, rfl, rfl⟩ := hr
    exact ⟨hs, rfl, rfl, rfl⟩
  | cons s0 ks =>
    obtain ⟨rfl, hs0, h⟩ := hr
    exact ⟨⟨hs.1, hs0.2.mono (le_of_lt hs.2)⟩, rfl, ⟨hs.2, hs0.2⟩, h⟩

lemma Rights.kids_two {c1 c2 : C} {M1 M2 : List A} (hr : Rights P hi lo' hi' ks cs L)
    (hs : Between lo' hi' s) (h1 : P lo' (some s) c1 M1) (h2 : P (some s) hi' c2 M2) :
    Kids P hi lo' (s :: ks) (c1 :: c2 :: cs) (M1 ++ (M2 ++ L)) :=
  .cons (hr.cut hs).1 h1 ((hr.cut hs).2.kids h2)

lemma Lefts.le_of_mem (hl : Lefts P hi lo' lo ks cs L) (hs : s ∈ ks) (hx : AtLeast lo' x) :
    s ≤ x := by
  have hla : ∀ {lo ks cs L}, Lefts P hi lo' lo ks cs L → AtLeast lo x := by
    intro lo ks cs L hl
    induction ks generalizing lo cs L with
    | nil =>
      obtain ⟨rfl, -, -⟩ := hl
      exact hx
    | cons s ks ih =>
      obtain ⟨c, cs', L1, L2, -, -, hs, -, hl⟩ := hl
      exact hs.1.atLeast.mono (ih hl)
  induction ks generalizing lo cs L with
  | nil => cases hs
  | cons s0 ks ih =>
    obtain ⟨c, cs', L1, L2, -, -, -, -, hl⟩ := hl
    rcases mem_cons.mp hs with rfl | hs
    · exact hla hl
    · exact ih hl hs

lemma Rights.lt_of_mem (hr : Rights P hi lo' hi' ks cs L) (hs : s ∈ ks) (hx : Below hi' x) :
    x < s := by
  cases ks with
  | nil => cases hs
  | cons s0 ks =>
    obtain ⟨rfl, -, h⟩ := hr
    rcases mem_cons.mp hs with rfl | hs
    · exact hx
    · exact lt_trans hx (h.between hs).1

lemma Lefts.bound {B : Option K → Prop} (hl : Lefts P hi lo' lo ks cs L) (hlo : B lo)
    (hks : ∀ s ∈ ks, B (some s)) : B lo' := by
  induction ks generalizing lo cs L with
  | nil =>
    obtain ⟨rfl, -, -⟩ := hl
    exact hlo
  | cons s ks ih =>
    obtain ⟨c, cs', L1, L2, -, -, -, -, hl⟩ := hl
    exact ih hl (hks s mem_cons_self) fun s' hs' => hks s' (mem_cons_of_mem _ hs')

lemma Rights.bound {B : Option K → Prop} (hr : Rights P hi lo' hi' ks cs L) (hhi : B hi)
    (hks : ∀ s, ks.head? = some s → B (some s)) : B hi' := by
  cases ks with
  | nil =>
    obtain ⟨rfl, -, -⟩ := hr
    exact hhi
  | cons s ks =>
    obtain ⟨rfl, -, -⟩ := hr
    exact hks s rfl

/-! ## Changes around a child -/

variable {Q : Option K → Option K → C → List A → Prop}

section

variable (hPQ : ∀ lo hi c M, P lo hi c M → Q lo hi c M)

include hPQ

lemma Kids.imp (h : Kids P hi lo ks cs L) : Kids Q hi lo ks cs L := by
  induction ks generalizing lo cs L with
  | nil =>
    obtain ⟨c, rfl, h⟩ := h
    exact .one (hPQ _ _ _ _ h)
  | cons s ks ih =>
    obtain ⟨c, cs', L1, L2, rfl, rfl, hs, hc, h⟩ := h
    exact .cons hs (hPQ _ _ _ _ hc) (ih h)

lemma Lefts.imp (h : Lefts P hi lo' lo ks cs L) : Lefts Q hi lo' lo ks cs L := by
  induction ks generalizing lo cs L with
  | nil => exact h
  | cons s ks ih =>
    obtain ⟨c, cs', L1, L2, rfl, rfl, hs, hc, h⟩ := h
    exact ⟨c, cs', L1, L2, rfl, rfl, hs, hPQ _ _ _ _ hc, ih h⟩

lemma Rights.imp (h : Rights P hi lo' hi' ks cs L) : Rights Q hi lo' hi' ks cs L := by
  cases ks with
  | nil => exact h
  | cons s ks =>
    obtain ⟨rfl, hs, h⟩ := h
    exact ⟨rfl, hs, h.imp hPQ⟩

end

lemma Rights.change_lo {lo'' : Option K} (hr : Rights P hi lo' hi' ks cs L)
    (hlo : ∀ s, hi' = some s → Above lo'' s) : Rights P hi lo'' hi' ks cs L := by
  cases ks with
  | nil => exact hr
  | cons s ks =>
    obtain ⟨rfl, hs, h⟩ := hr
    exact ⟨rfl, ⟨hlo s rfl, hs.2⟩, h⟩

lemma Lefts.last (hl : Lefts P hi lo' lo (ks ++ [s]) cs L) :
    ∃ cs1 c L1 M lo'', cs = cs1 ++ [c] ∧ L = L1 ++ M ∧ lo' = some s ∧ Between lo'' hi s ∧
      Lefts P hi lo'' lo ks cs1 L1 ∧ P lo'' (some s) c M := by
  induction ks generalizing lo cs L with
  | nil =>
    obtain ⟨c, cs', L1, L2, rfl, rfl, hs, hc, heq, rfl, rfl⟩ := hl
    exact ⟨[], c, [], L1, lo, rfl, append_nil _, heq.symm, hs, ⟨rfl, rfl, rfl⟩, hc⟩
  | cons s0 ks ih =>
    obtain ⟨c, cs', M1, M2, rfl, rfl, hs0, hc, hl⟩ := hl
    obtain ⟨cs1, c', L1, M, lo'', rfl, rfl, heq, hs, hl, hc'⟩ := ih hl
    exact ⟨c :: cs1, c', M1 ++ L1, M, lo'', rfl, (append_assoc ..).symm, heq, hs,
      ⟨c, cs1, M1, L1, rfl, rfl, hs0, hc, hl⟩, hc'⟩

/-- Bounds that leave more room. -/
structure Wider (lo hi lo' hi' : Option K) : Prop where
  above : ∀ x, Above lo x → Above lo' x
  atLeast : ∀ x, AtLeast lo x → AtLeast lo' x
  below : ∀ x, Below hi x → Below hi' x

lemma Kids.widen (hw : Wider lo hi lo' hi')
    (hP : ∀ lo hi lo' hi' c M, Wider lo hi lo' hi' → P lo hi c M → P lo' hi' c M)
    (h : Kids P hi lo ks cs L) : Kids P hi' lo' ks cs L := by
  induction ks generalizing lo lo' cs L with
  | nil =>
    obtain ⟨c, rfl, h⟩ := h
    exact .one (hP _ _ _ _ _ _ hw h)
  | cons s ks ih =>
    obtain ⟨c, cs', L1, L2, rfl, rfl, hs, hc, h⟩ := h
    exact .cons ⟨hw.above s hs.1, hw.below s hs.2⟩
      (hP _ _ _ _ _ _ ⟨hw.above, hw.atLeast, fun _ => id⟩ hc)
      (ih ⟨fun _ => id, fun _ => id, hw.below⟩ h)

end

end Librdpma.Lib
