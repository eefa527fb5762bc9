import Mathlib

/-!
# Items placed in candidate positions

A table keeps its items at positions, and each key may stand only at some of
them. `Placed cand items m` says that the items stand for the map `m`: every
item is at a candidate of its key, no key stands twice, and the items are the
bindings of `m`. Then a lookup need only visit the candidates of its key, and
an item may move between them. `Shifts` collects such moves; what it keeps needs
no map, so it also serves tables in which a key stands twice.
-/

namespace Librdpma.Lib

open Function

variable {P K V : Type}

structure Placed (cand : K → P → Prop) (items : P → Option (K × V))
    (m : K → Option V) : Prop where
  placed : ∀ {p k v}, items p = some (k, v) → cand k p
  unique : ∀ {p q k v w}, items p = some (k, v) → items q = some (k, w) → p = q
  bindings : ∀ k v, m k = some v ↔ ∃ p, items p = some (k, v)

namespace Placed

variable {cand : K → P → Prop} {items : P → Option (K × V)} {m : K → Option V}
  {p q : P} {k : K} {v : V}

lemma empty (cand : K → P → Prop) :
    Placed cand (fun _ => none) (fun _ : K => (none : Option V)) := by
  constructor
  · intro p k v h
    cases h
  · intro p q k v w h
    cases h
  · simp

lemma lookup_some (h : Placed cand items m) (hp : items p = some (k, v)) : m k = some v :=
  (h.bindings k v).mpr ⟨p, hp⟩

lemma lookup_none (h : Placed cand items m)
    (habs : ∀ p, cand k p → ∀ v, items p ≠ some (k, v)) : m k = none := by
  cases hm : m k with
  | none => rfl
  | some v =>
    obtain ⟨p, hp⟩ := (h.bindings k v).mp hm
    exact absurd hp (habs p (h.placed hp) v)

variable [DecidableEq P]

lemma update_items_cases {x : Option (K × V)} {k' : K} {w : V}
    (h : update items p x q = some (k', w)) :
    (q = p ∧ x = some (k', w)) ∨ (q ≠ p ∧ items q = some (k', w)) := by
  by_cases hq : q = p
  · subst hq
    rw [update_self] at h
    exact .inl ⟨rfl, h⟩
  · rw [update_of_ne hq] at h
    exact .inr ⟨hq, h⟩

variable [DecidableEq K]

section

variable (h : Placed cand items m)

include h

lemma insert (hp : items p = none) (hk : m k = none) (hc : cand k p) (v : V) :
    Placed cand (update items p (some (k, v))) (update m k (some v)) := by
  have habs : ∀ {q w}, items q ≠ some (k, w) := by
    intro q w hq
    rw [h.lookup_some hq] at hk
    cases hk
  constructor
  · intro q k' w hq
    rcases update_items_cases hq with ⟨rfl, hx⟩ | ⟨-, hq⟩
    · cases hx
      exact hc
    · exact h.placed hq
  · intro q r k' w w' hq hr
    rcases update_items_cases hq with ⟨hqp, hx⟩ | ⟨-, hold⟩ <;>
      rcases update_items_cases hr with ⟨hrp, hy⟩ | ⟨-, hold'⟩
    · exact hqp.trans hrp.symm
    · cases hx
      exact absurd hold' habs
    · cases hy
      exact absurd hold habs
    · exact h.unique hold hold'
  · intro k' w
    by_cases hkk : k' = k
    · subst hkk
      rw [update_self]
      constructor
      · intro hw
        refine ⟨p, ?_⟩
        rw [update_self, Option.some.inj hw]
      · rintro ⟨q, hq⟩
        rcases update_items_cases hq with ⟨-, hx⟩ | ⟨-, hq⟩
        · cases hx
          rfl
        · exact absurd hq habs
    · rw [update_of_ne hkk, h.bindings k' w]
      constructor
      · rintro ⟨q, hq⟩
        refine ⟨q, ?_⟩
        have hqp : q ≠ p := by
          rintro rfl
          rw [hp] at hq
          cases hq
        rw [update_of_ne hqp, hq]
      · rintro ⟨q, hq⟩
        rcases update_items_cases hq with ⟨-, hx⟩ | ⟨-, hq⟩
        · cases hx
          exact absurd rfl hkk
        · exact ⟨q, hq⟩

lemma delete (hp : items p = some (k, v)) :
    Placed cand (update items p none) (update m k none) := by
  constructor
  · intro q k' w hq
    rcases update_items_cases hq with ⟨-, hx⟩ | ⟨-, hq⟩
    · cases hx
    · exact h.placed hq
  · intro q r k' w w' hq hr
    rcases update_items_cases hq with ⟨-, hx⟩ | ⟨-, hq⟩
    · cases hx
    rcases update_items_cases hr with ⟨-, hx⟩ | ⟨-, hr⟩
    · cases hx
    exact h.unique hq hr
  · intro k' w
    by_cases hkk : k' = k
    · subst hkk
      rw [update_self]
      constructor
      · intro hw
        cases hw
      · rintro ⟨q, hq⟩
        rcases update_items_cases hq with ⟨-, hx⟩ | ⟨hne, hq⟩
        · cases hx
        · exact absurd (h.unique hq hp) hne
    · rw [update_of_ne hkk, h.bindings k' w]
      constructor
      · rintro ⟨q, hq⟩
        refine ⟨q, ?_⟩
        have hqp : q ≠ p := by
          rintro rfl
          rw [hp] at hq
          cases hq
          exact hkk rfl
        rw [update_of_ne hqp, hq]
      · rintro ⟨q, hq⟩
        rcases update_items_cases hq with ⟨-, hx⟩ | ⟨-, hq⟩
        · cases hx
        · exact ⟨q, hq⟩

/-- Overwriting a value is a deletion followed by an insertion in place. -/
lemma overwrite (hp : items p = some (k, v)) (w : V) :
    Placed cand (update items p (some (k, w))) (update m k (some w)) := by
  have hins := (h.delete hp).insert (p := p) (k := k) (update_self ..)
    (update_self ..) (h.placed hp) w
  rwa [update_idem, update_idem] at hins

lemma move (hp : items p = some (k, v)) (hq : items q = none) (hc : cand k q) :
    Placed cand (update (update items p none) q (some (k, v))) m := by
  have hqp : q ≠ p := by
    rintro rfl
    rw [hp] at hq
    cases hq
  have hfr : update items p none q = none := by
    rw [update_of_ne hqp, hq]
  have hins := (h.delete hp).insert hfr (update_self ..) hc v
  have hm : update m k (some v) = m := by
    rw [← h.lookup_some hp]
    exact update_eq_self ..
  rwa [update_idem, hm] at hins

end

end Placed

/-! ## Moves -/

/-- Every item is at a candidate of its key. -/
structure AtCandidates (cand : K → P → Prop) (items : P → Option (K × V)) : Prop where
  placed : ∀ {p k v}, items p = some (k, v) → cand k p

/-- The second family of items comes from the first by moves of items to free
candidates. -/
inductive Shifts [DecidableEq P] (cand : K → P → Prop) (items : P → Option (K × V)) :
    (P → Option (K × V)) → Prop
  | refl : Shifts cand items items
  | move {items' : P → Option (K × V)} {p q : P} {k : K} {v : V} :
      Shifts cand items items' → items' p = some (k, v) → items' q = none → cand k q →
      Shifts cand items (update (update items' p none) q (some (k, v)))

section Shifts

variable [DecidableEq P] {cand : K → P → Prop} {items items' : P → Option (K × V)}
  {p : P} {k : K} {v : V}

lemma Shifts.mono {cand' : K → P → Prop} (h : Shifts cand items items')
    (hcn : ∀ k p, cand k p → cand' k p) : Shifts cand' items items' := by
  induction h with
  | refl => exact .refl
  | move _ hp hq hc ih => exact ih.move hp hq (hcn _ _ hc)

lemma Shifts.trans {items'' : P → Option (K × V)} (h : Shifts cand items items')
    (h' : Shifts cand items' items'') : Shifts cand items items'' := by
  induction h' with
  | refl => exact h
  | move _ hp hq hc ih => exact ih.move hp hq hc

lemma AtCandidates.update (h : AtCandidates cand items) (hc : cand k p) :
    AtCandidates cand (update items p (some (k, v))) := by
  refine ⟨fun {q k' w} hq => ?_⟩
  rcases Placed.update_items_cases hq with ⟨rfl, hx⟩ | ⟨-, hq⟩
  · cases hx
    exact hc
  · exact h.placed hq

lemma AtCandidates.erase (h : AtCandidates cand items) (p : P) :
    AtCandidates cand (Function.update items p none) := by
  refine ⟨fun {q k' w} hq => ?_⟩
  rcases Placed.update_items_cases hq with ⟨-, hx⟩ | ⟨-, hq⟩
  · cases hx
  · exact h.placed hq

lemma Shifts.atCandidates (h : Shifts cand items items') (hat : AtCandidates cand items) :
    AtCandidates cand items' := by
  induction h with
  | refl => exact hat
  | move _ _ _ hc ih => exact (ih.erase _).update hc

lemma Shifts.placed [DecidableEq K] {m : K → Option V} (h : Shifts cand items items')
    (hm : Placed cand items m) : Placed cand items' m := by
  induction h with
  | refl => exact hm
  | move _ hp hq hc ih => exact ih.move hp hq hc

end Shifts

end Librdpma.Lib
