import Librdpma.Drtmh.BPlusTree

/-!
# The inner nodes of the B+ tree

The inner nodes are an index: they divide the keys into regions, one for each
leaf. `Index d lo hi node L` says that a node at depth `d` divides the keys from
`lo` to `hi` into the regions `L`. It says nothing about the contents of the
leaves; so an insertion changes it only when a leaf is split, and then one region
becomes two.
-/

namespace Librdpma.Drtmh.BPlusTree

open Lib List

/-- The keys that belong to a leaf. -/
structure Region (K : Type) where
  id : ℕ
  lo : Option K
  hi : Option K

variable {K : Type} [LinearOrder K]

def Index : ℕ → Option K → Option K → Node K → List (Region K) → Prop
  | 0, lo, hi, node, L => ∃ a, node = .leaf a ∧ L = [⟨a, lo, hi⟩]
  | d + 1, lo, hi, node, L => ∃ ks cs spare, node = .inner ks cs spare ∧ ks.length ≤ nent ∧
      Kids (Index d) hi lo ks cs L

variable {d : ℕ} {lo hi lo' hi' : Option K} {node : Node K} {L L1 L2 M1 M2 : List (Region K)}
  {ks ks1 ks2 : List K} {cs cs1 cs2 : List (Node K)} {key : K}

lemma Index.ne_nil (h : Index d lo hi node L) : L ≠ [] := by
  induction d generalizing lo hi node L with
  | zero =>
    obtain ⟨a, -, rfl⟩ := h
    exact cons_ne_nil _ _
  | succ d ih =>
    obtain ⟨ks, cs, spare, -, -, h⟩ := h
    exact h.ne_nil fun _ _ _ _ => ih

lemma Rights.eq_nil_of_regions (h : Rights (Index d) hi lo' hi' ks cs []) : ks = [] := by
  cases ks with
  | nil => rfl
  | cons s ks =>
    obtain ⟨-, -, h⟩ := h
    exact absurd rfl (h.ne_nil fun _ _ _ _ => Index.ne_nil)

/-! ## The descent -/

variable {α : Type} {k : ℕ}

lemma getElem?_append_length (l1 : List α) (x : α) (l2 : List α) :
    (l1 ++ x :: l2)[l1.length]? = some x := by
  simp

lemma set_append_length (l1 : List α) (x y : α) (l2 : List α) :
    (l1 ++ x :: l2).set l1.length y = l1 ++ y :: l2 := by
  simp

lemma take_append_cons_drop {l : List α} {i : ℕ} {x : α} (h : l[i]? = some x) :
    l.take i ++ x :: l.drop (i + 1) = l := by
  obtain ⟨hi, rfl⟩ := List.getElem?_eq_some_iff.mp h
  rw [getElem_cons_drop, take_append_drop]

lemma Kids.descend {A : Type} {P : Option K → Option K → Node K → List A → Prop} {L : List A}
    (h : Kids P hi lo ks cs L) (hkey : InRange lo hi key) :
    ∃ ks1 ks2 cs1 c cs2 L1 M L2 lo' hi', ks = ks1 ++ ks2 ∧ cs = cs1 ++ c :: cs2 ∧
      L = L1 ++ (M ++ L2) ∧ childIndex ks key = ks1.length ∧ cs1.length = ks1.length ∧
      InRange lo' hi' key ∧ Lefts P hi lo' lo ks1 cs1 L1 ∧ P lo' hi' c M ∧
      Rights P hi lo' hi' ks2 cs2 L2 := by
  have hks : ks = ks.takeWhile (· ≤ key) ++ ks.dropWhile (· ≤ key) :=
    takeWhile_append_dropWhile.symm
  rw [hks] at h
  obtain ⟨cs1, c, cs2, L1, M, L2, lo', hi', rfl, rfl, hl, hc, hr⟩ := h.split
  refine ⟨_, _, cs1, c, cs2, L1, M, L2, lo', hi', hks, rfl, rfl, rfl, hl.length_eq, ⟨?_, ?_⟩, hl,
    hc, hr⟩
  · refine hl.bound (B := (AtLeast · key)) hkey.1 fun s hs => ?_
    simpa [AtLeast] using all_eq_true.mp all_takeWhile s hs
  · refine hr.bound (B := (Below · key)) hkey.2 fun s hs => ?_
    have := head?_dropWhile_not (fun s => decide (s ≤ key)) ks
    rw [hs] at this
    simpa [Below] using this

/-! ## A new node -/

lemma insertAt_append_left {A B : List α} (x : α) (h : k ≤ A.length) :
    insertAt (A ++ B) k x = insertAt A k x ++ B := by
  rw [insertAt, insertAt, take_append_of_le_length h, drop_append_of_le_length h,
    append_assoc, cons_append]

lemma insertAt_append_right {A B : List α} (x : α) (h : A.length ≤ k) :
    insertAt (A ++ B) k x = A ++ insertAt B (k - A.length) x := by
  obtain ⟨j, rfl⟩ := Nat.exists_eq_add_of_le h
  rw [insertAt, insertAt, take_length_add_append, drop_length_add_append,
    Nat.add_sub_cancel_left, append_assoc]

lemma length_insertAt {A : List α} (x : α) : (insertAt A k x).length = A.length + 1 := by
  simp only [insertAt, length_append, length_cons, length_take, length_drop]
  omega

lemma insertAt_length (A B : List α) (x : α) : insertAt (A ++ B) A.length x = A ++ x :: B := by
  rw [insertAt_append_right x (Nat.le_refl _), Nat.sub_self]
  rfl

/-- A node has taken in a new one below it, and has a sibling now if it was
full. A sibling without separators has the only leaf at the right edge. -/
inductive Grown (d : ℕ) (lo hi : Option K) (L : List (Region K)) (edge : Prop) :
    Node K → Option (Node K) → Prop where
  | whole {node : Node K} (h : Index d lo hi node L) : Grown d lo hi L edge node none
  | split {node : Node K} {ks : List K} {cs : List (Node K)} {upKey : K} {L1 L2 : List (Region K)}
      (hL : L = L1 ++ L2) (hup : Between lo hi upKey) (h1 : Index d lo (some upKey) node L1)
      (h2 : Index d (some upKey) hi (.inner ks cs (some upKey)) L2) (hedge : ks = [] → edge) :
      Grown d lo hi L edge node (some (.inner ks cs (some upKey)))

/-- A node that is too long by one is cut at one of its separators. -/
lemma Grown.of_cut {spare : Option K} {up : K} {edge : Prop}
    (h : Kids (Index d) hi lo (ks1 ++ up :: ks2) (cs1 ++ cs2) L)
    (hlen : cs1.length = ks1.length + 1) (hks1 : ks1.length ≤ nent) (hks2 : ks2.length ≤ nent)
    (hedge : ks2 = [] → edge) :
    Grown (d + 1) lo hi L edge (.inner ks1 cs1 spare) (some (.inner ks2 cs2 (some up))) := by
  obtain ⟨hup, L1, L2, hL, h1, h2⟩ := h.of_append
  rw [← hlen, take_left] at h1
  rw [← hlen, drop_left] at h2
  exact .split hL hup ⟨_, _, _, rfl, hks1, h1⟩ ⟨_, _, _, rfl, hks2, h2⟩ hedge

/-- The test on the separator that goes up is about the place of the child. -/
lemma goesRight_iff (hl : Lefts (Index d) hi lo' lo ks1 cs1 L1)
    (hr : Rights (Index d) hi lo' hi' ks2 cs2 L2) {x up : K} (hx : InRange lo' hi' x) {i : ℕ}
    (hup : (ks1 ++ ks2)[i]? = some up) : up ≤ x ↔ i < ks1.length := by
  constructor
  · intro hle
    by_contra hge
    rw [getElem?_append_right (Nat.le_of_not_lt hge)] at hup
    exact absurd hle (not_le_of_gt (hr.lt_of_mem (mem_of_getElem? hup) hx.2))
  · intro hlt
    rw [getElem?_append_left hlt] at hup
    exact hl.le_of_mem (mem_of_getElem? hup) hx.1

section

variable {k : ℕ} {sep up : K} {new : Node K} {spare : Option K} {edge : Prop}
  (hkids : Kids (Index d) hi lo (insertAt ks k sep) (insertAt cs (k + 1) new) L)
  (hfull : ks.length = nent) (hup : ks[(nent + 1) / 2 - 1]? = some up)
include hkids hfull hup

omit hup in
lemma length_take_full : (cs.take ((nent + 1) / 2)).length = (nent + 1) / 2 := by
  have := hkids.length_eq
  rw [length_insertAt, length_insertAt] at this
  rw [length_take]
  have hcs : cs.length = nent + 1 := by omega
  rw [hcs]
  rfl

lemma grown_right (hk : (nent + 1) / 2 ≤ k) : Grown (d + 1) lo hi L edge
      (.inner (ks.take ((nent + 1) / 2 - 1)) (cs.take ((nent + 1) / 2)) spare)
      (some (.inner (insertAt (ks.drop ((nent + 1) / 2)) (k - (nent + 1) / 2) sep)
        (insertAt (cs.drop ((nent + 1) / 2)) (k - (nent + 1) / 2 + 1) new) (some up))) := by
  have hlen : (ks.take ((nent + 1) / 2 - 1) ++ [up]).length = (nent + 1) / 2 := by
    rw [length_append, length_singleton, length_take, hfull]
    rfl
  have hks : ks = (ks.take ((nent + 1) / 2 - 1) ++ [up]) ++ ks.drop ((nent + 1) / 2) := by
    rw [append_assoc, singleton_append]
    exact (take_append_cons_drop hup).symm
  have hcs' : cs = cs.take ((nent + 1) / 2) ++ cs.drop ((nent + 1) / 2) :=
    (take_append_drop _ _).symm
  have hcut := length_take_full hkids hfull
  rw [hks, hcs', insertAt_append_right sep (by rw [hlen]; exact hk),
    insertAt_append_right new (by rw [hcut]; omega), hlen, hcut, append_assoc,
    singleton_append] at hkids
  have hart : k + 1 - (nent + 1) / 2 = k - (nent + 1) / 2 + 1 := by omega
  rw [hart] at hkids
  refine .of_cut hkids ?_ ?_ ?_ fun hnil => ?_
  · rw [hcut, length_take, hfull]
    rfl
  · rw [length_take]
    omega
  · rw [length_insertAt, length_drop, hfull]
    decide
  · have := congrArg length hnil
    rw [length_insertAt] at this
    cases this

lemma grown_left (hk : k < (nent + 1) / 2) : Grown (d + 1) lo hi L edge
      (.inner (insertAt (ks.take ((nent + 1) / 2 - 1)) k sep)
        (insertAt (cs.take ((nent + 1) / 2)) (k + 1) new) spare)
      (some (.inner (ks.drop ((nent + 1) / 2)) (cs.drop ((nent + 1) / 2)) (some up))) := by
  have hlen : (ks.take ((nent + 1) / 2 - 1)).length = (nent + 1) / 2 - 1 := by
    rw [length_take, hfull]
    rfl
  have hks : ks = ks.take ((nent + 1) / 2 - 1) ++ up :: ks.drop ((nent + 1) / 2) :=
    (take_append_cons_drop hup).symm
  have hcs' : cs = cs.take ((nent + 1) / 2) ++ cs.drop ((nent + 1) / 2) :=
    (take_append_drop _ _).symm
  have hcut := length_take_full hkids hfull
  rw [hks, hcs', insertAt_append_left sep (by omega), insertAt_append_left new (by omega)] at hkids
  refine .of_cut hkids ?_ ?_ ?_ fun hnil => ?_
  · rw [length_insertAt, length_insertAt, hcut, hlen]
    rfl
  · rw [length_insertAt, hlen]
    decide
  · rw [length_drop, hfull]
    decide
  · have := congrArg length hnil
    rw [length_drop, hfull] at this
    cases this

end

variable {c : Node K} {spare : Option K}

lemma addChild_spec (hl : Lefts (Index d) hi lo' lo ks1 cs1 L1)
    (hr : Rights (Index d) hi lo' hi' ks2 cs2 L2) (hlen : (ks1 ++ ks2).length ≤ nent)
    (spare : Option K) {sep x : K} {new : Node K} (hsep : Between lo' hi' sep)
    (h1 : Index d lo' (some sep) c M1) (h2 : Index d (some sep) hi' new M2) (hx : InRange lo' hi' x)
    (alone : Bool) (haln : alone = true → ks2 = []) :
    ∃ node sibling, addChild (ks1 ++ ks2) (cs1 ++ c :: cs2) spare ks1.length sep new alone
        (fun up => up ≤ x) = .done (node, sibling) ∧
      Grown (d + 1) lo hi (L1 ++ (M1 ++ (M2 ++ L2))) (alone = true) node sibling := by
  have hkids : Kids (Index d) hi lo (insertAt (ks1 ++ ks2) ks1.length sep)
      (insertAt (cs1 ++ c :: cs2) (ks1.length + 1) new) (L1 ++ (M1 ++ (M2 ++ L2))) := by
    have h := hl.kids (hr.kids_two hsep h1 h2)
    have hcs : cs1 ++ c :: new :: cs2 = insertAt (cs1 ++ c :: cs2) (ks1.length + 1) new := by
      have := insertAt_length (cs1 ++ [c]) cs2 new
      rw [length_append, length_singleton, hl.length_eq, append_assoc] at this
      rw [singleton_append] at this
      rw [this, append_assoc, singleton_append]
    rw [insertAt_length, ← hcs]
    exact h
  have hcsl : (cs1 ++ c :: cs2).length = (ks1 ++ ks2).length + 1 := by
    have := hkids.length_eq
    rw [length_insertAt, length_insertAt] at this
    omega
  rw [addChild]
  split
  · rename_i hfull
    split
    · rename_i haln'
      -- the new node is at the right edge and alone
      obtain rfl := haln haln'
      refine ⟨_, _, rfl, ?_⟩
      rw [insertAt_length] at hkids
      have hcs : insertAt (cs1 ++ c :: cs2) (ks1.length + 1) new = (cs1 ++ c :: cs2) ++ [new] := by
        have := insertAt_length (cs1 ++ c :: cs2) [] new
        rw [hcsl, append_nil, append_nil] at this
        exact this
      rw [hcs] at hkids
      rw [append_nil] at hcsl hlen ⊢
      exact .of_cut hkids hcsl hlen (Nat.zero_le _) fun _ => haln'
    · have hmid : (nent + 1) / 2 - 1 < (ks1 ++ ks2).length := by
        rw [hfull]
        decide
      have hup := getElem?_eq_getElem hmid
      have hiff := goesRight_iff hl hr hx hup
      rw [hup]
      dsimp only
      split
      · rename_i hrt
        have hk : (nent + 1) / 2 ≤ ks1.length := hiff.mp (of_decide_eq_true hrt)
        rw [if_pos hk]
        exact ⟨_, _, rfl, grown_right hkids hfull hup hk⟩
      · rename_i hlf
        have hk : ks1.length < (nent + 1) / 2 := by
          by_contra hge
          exact hlf (decide_eq_true (hiff.mpr (Nat.le_of_not_lt hge)))
        exact ⟨_, _, rfl, grown_left hkids hfull hup hk⟩
  · rename_i hrm
    refine ⟨_, _, rfl, .whole ⟨_, _, _, rfl, ?_, hkids⟩⟩
    rw [length_insertAt]
    omega

/-! ## The insertion -/

/-- The regions after the leaf of `r` has got the new sibling `b`. -/
def splitRegion (r : Region K) (b : ℕ) (sep : K) : List (Region K) :=
  [⟨r.id, r.lo, some sep⟩, ⟨b, some sep, r.hi⟩]

/-- What `InnerInsert` makes of what `LeafInsert` does at the leaf of `r`: nothing
if there is no new leaf, and two regions for one otherwise. -/
structure Inserts (key : K) (d : ℕ) (lo hi : Option K) (node : Node K)
    (La : List (Region K)) (r : Region K) (Lb : List (Region K)) : Prop where
  same : ∀ m m' val, m.leafInsert key r.id = (m', none, val) →
    innerInsert key d m node = .done (m', node, none, val)
  split : ∀ m m' b val sep v rest, m.leafInsert key r.id = (m', some b, val) →
    (m'.leaf b).entries = (sep, v) :: rest → Between r.lo r.hi sep → (rest = [] → Lb = []) →
    ∃ node' sibling, innerInsert key d m node = .done (m', node', sibling, val) ∧
      Grown d lo hi (La ++ (splitRegion r b sep ++ Lb)) (rest = []) node' sibling

lemma innerInsert_one {a : ℕ} {m : Mem K} (hk : childIndex (ks1 ++ ks2) key = ks1.length)
    (hcs : cs1.length = ks1.length) :
    innerInsert key 1 m (.inner (ks1 ++ ks2) (cs1 ++ .leaf a :: cs2) spare) =
      afterLeaf (ks1 ++ ks2) (cs1 ++ .leaf a :: cs2) spare ks1.length (m.leafInsert key a).1
        (m.leafInsert key a).2.2 (m.leafInsert key a).2.1 := by
  rw [innerInsert]
  rw [hk, ← hcs, getElem?_append_length]
  rfl

lemma innerInsert_succ {c' : Node K} {new : Option (Node K)} {m m' : Mem K} {val : ℕ}
    (hk : childIndex (ks1 ++ ks2) key = ks1.length) (hcs : cs1.length = ks1.length)
    (hc : innerInsert key (d + 1) m c = .done (m', c', new, val)) :
    innerInsert key (d + 2) m (.inner (ks1 ++ ks2) (cs1 ++ c :: cs2) spare) =
      afterInner key (ks1 ++ ks2) (cs1 ++ c' :: cs2) spare ks1.length m' val new := by
  rw [innerInsert]
  rw [hk, ← hcs, getElem?_append_length]
  dsimp only
  rw [if_neg (Nat.succ_ne_zero d), hc, Outcome.done_bind]
  rw [set_append_length]

lemma inserts_one {a : ℕ} (hlen : (ks1 ++ ks2).length ≤ nent)
    (hk : childIndex (ks1 ++ ks2) key = ks1.length) (hl : Lefts (Index 0) hi lo' lo ks1 cs1 L1)
    (hr : Rights (Index 0) hi lo' hi' ks2 cs2 L2) :
    Inserts key 1 lo hi (.inner (ks1 ++ ks2) (cs1 ++ .leaf a :: cs2) spare) L1 ⟨a, lo', hi'⟩ L2
      where
  same m m' val hins := by
    rw [innerInsert_one hk hl.length_eq, hins]
    rfl
  split m m' b val sep v rest hins hent hsep hedge := by
    have hrt : rest.isEmpty = true → ks2 = [] := by
      intro hrs
      have hL := hedge (isEmpty_iff.mp hrs)
      subst hL
      exact Rights.eq_nil_of_regions hr
    obtain ⟨node', sibling, hadd, hgr⟩ := addChild_spec hl hr hlen spare hsep ⟨a, rfl, rfl⟩
      ⟨b, rfl, rfl⟩ hsep.inRange rest.isEmpty hrt
    refine ⟨node', sibling, ?_, ?_⟩
    · rw [innerInsert_one hk hl.length_eq, hins]
      rw [afterLeaf, hent]
      dsimp only
      rw [hadd]
      rfl
    · simpa [splitRegion, List.isEmpty_iff] using hgr

lemma Grown.imp {edge edge' : Prop} {sibling : Option (Node K)} (h : edge → edge')
    (hg : Grown d lo hi L edge node sibling) : Grown d lo hi L edge' node sibling := by
  cases hg with
  | whole hi => exact .whole hi
  | split hL hup h1 h2 hedge => exact .split hL hup h1 h2 fun hks => h (hedge hks)

lemma inserts_succ {La Lb : List (Region K)} {r : Region K} (hlen : (ks1 ++ ks2).length ≤ nent)
    (hk : childIndex (ks1 ++ ks2) key = ks1.length) (hkey : InRange lo' hi' key)
    (hl : Lefts (Index (d + 1)) hi lo' lo ks1 cs1 L1)
    (hr : Rights (Index (d + 1)) hi lo' hi' ks2 cs2 L2)
    (ih : Inserts key (d + 1) lo' hi' c La r Lb) :
    Inserts key (d + 2) lo hi (.inner (ks1 ++ ks2) (cs1 ++ c :: cs2) spare) (L1 ++ La) r
      (Lb ++ L2) where
  same m m' val hins := innerInsert_succ hk hl.length_eq (ih.same m m' val hins)
  split m m' b val sep v rest hins hent hsep hedge := by
    have hed' : rest = [] → Lb = [] ∧ L2 = [] := fun hrs =>
      append_eq_nil_iff.mp (hedge hrs)
    obtain ⟨c', new, hchd, hgr⟩ := ih.split m m' b val sep v rest hins hent hsep
      fun hrs => (hed' hrs).1
    have hst : innerInsert key (d + 2) m (.inner (ks1 ++ ks2) (cs1 ++ c :: cs2) spare) = _ :=
      innerInsert_succ hk hl.length_eq hchd
    cases hgr with
    | whole hc =>
      refine ⟨_, none, hst, .whole ⟨_, _, _, rfl, hlen, ?_⟩⟩
      simpa using hl.kids (hr.kids hc)
    | @split ks' cs' up M1 M2 hM hup h1 h2 hed2 =>
      have hrt : ks'.isEmpty = true → ks2 = [] := by
        intro hks
        have hL := (hed' (hed2 (isEmpty_iff.mp hks))).2
        subst hL
        exact Rights.eq_nil_of_regions hr
      obtain ⟨node', sibling, hadd, hg⟩ :=
        addChild_spec hl hr hlen spare hup h1 h2 hkey ks'.isEmpty hrt
      refine ⟨node', sibling, ?_, ?_⟩
      · rw [hst, afterInner, hadd]
        rfl
      · have hrgn : L1 ++ La ++ (splitRegion r b sep ++ (Lb ++ L2)) = L1 ++ (M1 ++ (M2 ++ L2)) := by
          rw [← append_assoc M1, ← hM]
          simp
        rw [hrgn]
        exact hg.imp fun hks => hed2 (isEmpty_iff.mp hks)

lemma Index.inserts (h : Index (d + 1) lo hi node L) (hkey : InRange lo hi key) :
    ∃ La r Lb, L = La ++ r :: Lb ∧ InRange r.lo r.hi key ∧
      BPlusTree.findLeaf key (d + 1) node = .done r.id ∧
      Inserts key (d + 1) lo hi node La r Lb := by
  induction d generalizing lo hi node L with
  | zero =>
    obtain ⟨ks, cs, spare, rfl, hlen, h⟩ := h
    obtain ⟨ks1, ks2, cs1, c, cs2, L1, M, L2, lo', hi', rfl, rfl, rfl, hk, hcs, hkey', hl, hc,
      hr⟩ :=
      Kids.descend h hkey
    obtain ⟨a, rfl, rfl⟩ := hc
    refine ⟨L1, ⟨a, lo', hi'⟩, L2, rfl, hkey', ?_, inserts_one hlen hk hl hr⟩
    rw [BPlusTree.findLeaf, hk, ← hcs, getElem?_append_length]
    rfl
  | succ d ih =>
    obtain ⟨ks, cs, spare, rfl, hlen, h⟩ := h
    obtain ⟨ks1, ks2, cs1, c, cs2, L1, M, L2, lo', hi', rfl, rfl, rfl, hk, hcs, hkey', hl, hc,
      hr⟩ :=
      Kids.descend h hkey
    obtain ⟨La, r, Lb, rfl, hrng, hfd, hins⟩ := ih hc hkey'
    refine ⟨L1 ++ La, r, Lb ++ L2, by simp, hrng, ?_, inserts_succ hlen hk hkey' hl hr hins⟩
    rw [BPlusTree.findLeaf, hk, ← hcs, getElem?_append_length]
    exact hfd

lemma Index.findLeaf (h : Index d lo hi node L) (hkey : InRange lo hi key) :
    ∃ La r Lb, L = La ++ r :: Lb ∧ InRange r.lo r.hi key ∧
      BPlusTree.findLeaf key d node = .done r.id := by
  cases d with
  | zero =>
    obtain ⟨a, rfl, rfl⟩ := h
    exact ⟨[], ⟨a, lo, hi⟩, [], rfl, hkey, rfl⟩
  | succ d =>
    obtain ⟨La, r, Lb, hL, hr, hfd, -⟩ := h.inserts hkey
    exact ⟨La, r, Lb, hL, hr, hfd⟩

end Librdpma.Drtmh.BPlusTree
