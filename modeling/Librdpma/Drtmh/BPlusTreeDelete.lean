import Librdpma.Drtmh.BPlusTreeIter

/-!
# Deletion in the B+ tree (`src/memstore/memstore_uint64bplustree.h`)

`Delete_rtm` goes down to the leaf of the key and removes the first entry that is
not below the key, without a look at the key of the entry. A leaf that gets empty
leaves the list and its parent, and so do inner nodes without children. A new
smallest key of a leaf, or of an inner node, goes up to the separator on its left.

No separator has to be a key of the tree, so that what counts is that it still
divides the leaves: `Spans` says this of a node without naming the bounds of the
leaves.
-/

namespace Librdpma.Drtmh.BPlusTree

open Lib Function List

variable {K : Type} [LinearOrder K]

/-! ## `Delete_rtm` -/

/-- `upKey` is `none` while its first word is `-1`. -/
structure DeleteResult (K : Type) where
  value : ℕ
  freeNode : Bool
  upKey : Option K

/-- The neighbours of an empty leaf are linked to each other. -/
def Mem.unlink (m : Mem K) (a : ℕ) : ℕ → LeafNode K :=
  let leaf := m.leaf a
  let leaves := match leaf.left with
    | some l => update m.leaf l { m.leaf l with right := leaf.right }
    | none => m.leaf
  match leaf.right with
  | some r => update leaves r { leaves r with left := leaf.left }
  | none => leaves

/-- `removeLeafEntry` -/
def Mem.removeLeafEntry (m : Mem K) (a slot : ℕ) : Mem K :=
  { m with leaf := update m.leaf a { m.leaf a with
      entries := (m.leaf a).entries.eraseIdx slot, seq := (m.leaf a).seq + 1 } }

/-- `LeafDelete` -/
def Mem.leafDelete (m : Mem K) (key : K) (a : ℕ) : Option (Mem K × DeleteResult K) :=
  let slot := ((m.leaf a).entries.takeWhile fun e => e.1 < key).length
  match (m.leaf a).entries[slot]? with
  | none => none
  | some (_, value) =>
      let m := m.removeLeafEntry a slot
      match (m.leaf a).entries with
      | [] => some ({ m with leaf := m.unlink a }, ⟨value, true, none⟩)
      | (key', _) :: _ => some (m, ⟨value, false, if slot = 0 then some key' else none⟩)

/-- `removeInnerEntry` -/
def removeInnerEntry (ks : List K) (cs : List (Node K)) (spare : Option K) (slot : ℕ)
    (res : DeleteResult K) : Node K × DeleteResult K :=
  if ks.length = 0 then (.inner ks cs spare, { res with freeNode := true })
  else if slot = ks.length then (.inner ks.dropLast cs.dropLast spare, res)
  else if slot = 0 then (.inner ks.tail cs.tail spare, { res with upKey := ks.head? })
  else (.inner (ks.eraseIdx (slot - 1)) (cs.eraseIdx slot) spare, res)

section

-- the keys whose first word is all ones, which look like no key in `upKey`
variable (noKey : K → Bool)

/-- `InnerDelete`, when the call for the child has returned. -/
def afterDelete (ks : List K) (cs : List (Node K)) (spare : Option K) (slot : ℕ) (child : Node K)
    (res : DeleteResult K) : Node K × DeleteResult K :=
  if res.freeNode then removeInnerEntry ks cs spare slot { res with freeNode := false }
  else
    match res.upKey with
    | none => (.inner ks (cs.set slot child) spare, res)
    | some upKey =>
        if noKey upKey = false ∧ slot ≠ 0 then
          (.inner (ks.set (slot - 1) upKey) (cs.set slot child) spare, { res with upKey := none })
        else (.inner ks (cs.set slot child) spare, res)

/-- `LeafDelete` at level 0, `InnerDelete` above. -/
def nodeDelete (key : K) :
    ℕ → Mem K → Node K → Outcome (Option (Mem K × Node K × DeleteResult K))
  | 0, m, .leaf a =>
      match m.leafDelete key a with
      | none => .done none
      | some (m, res) => .done (some (m, .leaf a, res))
  | 0, _, .inner _ _ _ => .undefined
  | _ + 1, _, .leaf _ => .undefined
  | d + 1, m, .inner ks cs spare =>
      let slot := childIndex ks key
      match cs[slot]? with
      | none => .undefined
      | some child => do
          match ← nodeDelete key d m child with
          | none => return none
          | some (m, child, res) => return some (m, afterDelete noKey ks cs spare slot child res)

/-- `Delete_rtm`: the node of the deleted entry. -/
def Tree.delete (t : Tree K) (key : K) : Outcome (Option ℕ × Tree K) :=
  match t.root with
  | none => .undefined
  | some root => do
      match ← nodeDelete noKey key t.depth t.mem root with
      | none => return (none, t)
      | some (m, node, res) => return (some res.value,
          { t with mem := m, root := if res.freeNode then none else some node })

end

/-! ## Nodes that divide their leaves -/

/-- The node divides the leaves `ids`, whose keys are between the bounds. -/
def Spans (m : Mem K) : ℕ → Option K → Option K → Node K → List ℕ → Prop
  | 0, lo, hi, node, ids => ∃ a, node = .leaf a ∧ ids = [a] ∧
      ∀ e ∈ (m.leaf a).entries, InRange lo hi e.1
  | d + 1, lo, hi, node, ids => ∃ ks cs spare, node = .inner ks cs spare ∧ ks.length ≤ nent ∧
      Kids (Spans m d) hi lo ks cs ids

/-- The regions of the leaves have their keys. -/
def Fits (m : Mem K) (L : List (Region K)) : Prop :=
  ∀ r ∈ L, ∀ e ∈ (m.leaf r.id).entries, InRange r.lo r.hi e.1

section

variable {m m' : Mem K} {d : ℕ} {lo hi lo' hi' : Option K} {node : Node K} {ids : List ℕ}
  {L : List (Region K)} {ks : List K} {cs : List (Node K)} {key : K}

lemma Index.spans (h : Index d lo hi node L) (hft : Fits m L) :
    Spans m d lo hi node (L.map Region.id) := by
  induction d generalizing lo hi node L with
  | zero =>
    obtain ⟨a, rfl, rfl⟩ := h
    exact ⟨a, rfl, rfl, hft _ (mem_singleton_self _)⟩
  | succ d ih =>
    obtain ⟨ks, cs, spare, rfl, hlen, h⟩ := h
    refine ⟨ks, cs, spare, rfl, hlen, ?_⟩
    clear hlen
    -- the children one after the other
    induction ks generalizing lo cs L with
    | nil =>
      obtain ⟨c, rfl, h⟩ := h
      exact .one (ih h hft)
    | cons s ks ihks =>
      obtain ⟨c, cs', L1, L2, rfl, rfl, hs, hc, h⟩ := h
      rw [map_append]
      exact .cons hs (ih hc fun r hr => hft r (mem_append_left _ hr))
        (ihks (fun r hr => hft r (mem_append_right _ hr)) _ h)

lemma Spans.index (h : Spans m d lo hi node ids) :
    ∃ L, Index d lo hi node L ∧ L.map Region.id = ids ∧ Fits m L := by
  induction d generalizing lo hi node ids with
  | zero =>
    obtain ⟨a, rfl, rfl, hft⟩ := h
    refine ⟨[⟨a, lo, hi⟩], ⟨a, rfl, rfl⟩, rfl, fun r hr => ?_⟩
    rw [mem_singleton.mp hr]
    exact hft
  | succ d ih =>
    obtain ⟨ks, cs, spare, rfl, hlen, h⟩ := h
    have hkd : ∃ L, Kids (Index d) hi lo ks cs L ∧ L.map Region.id = ids ∧ Fits m L := by
      clear hlen
      induction ks generalizing lo cs ids with
      | nil =>
        obtain ⟨c, rfl, h⟩ := h
        obtain ⟨L, hL, hids, hft⟩ := ih h
        exact ⟨L, .one hL, hids, hft⟩
      | cons s ks ihks =>
        obtain ⟨c, cs', M1, M2, rfl, rfl, hs, hc, h⟩ := h
        obtain ⟨L1, hL1, rfl, hft1⟩ := ih hc
        obtain ⟨L2, hL2, rfl, hft2⟩ := ihks _ h
        exact ⟨L1 ++ L2, .cons hs hL1 hL2, map_append, fun r hr =>
          (mem_append.mp hr).elim (hft1 r) (hft2 r)⟩
    obtain ⟨L, hL, hids, hft⟩ := hkd
    exact ⟨L, ⟨ks, cs, spare, rfl, hlen, hL⟩, hids, hft⟩

lemma Spans.shrink (h : Spans m d lo hi node ids)
    (hsub : ∀ a, (m'.leaf a).entries ⊆ (m.leaf a).entries) : Spans m' d lo hi node ids := by
  induction d generalizing lo hi node ids with
  | zero =>
    obtain ⟨a, rfl, rfl, hft⟩ := h
    exact ⟨a, rfl, rfl, fun e he => hft e (hsub a he)⟩
  | succ d ih =>
    obtain ⟨ks, cs, spare, rfl, hlen, h⟩ := h
    exact ⟨ks, cs, spare, rfl, hlen, h.imp fun _ _ _ _ => ih⟩

lemma Spans.widen (h : Spans m d lo hi node ids) (hw : Wider lo hi lo' hi') :
    Spans m d lo' hi' node ids := by
  induction d generalizing lo hi lo' hi' node ids with
  | zero =>
    obtain ⟨a, rfl, rfl, hft⟩ := h
    exact ⟨a, rfl, rfl, fun e he => ⟨hw.atLeast _ (hft e he).1, hw.below _ (hft e he).2⟩⟩
  | succ d ih =>
    obtain ⟨ks, cs, spare, rfl, hlen, h⟩ := h
    exact ⟨ks, cs, spare, rfl, hlen, h.widen hw fun _ _ _ _ _ _ hw h => ih h hw⟩

lemma Spans.widen_lo {s : K} (h : Spans m d (some s) hi node ids) (hs : Above lo s) :
    Spans m d lo hi node ids :=
  h.widen ⟨fun _ hx => hs.trans hx, fun _ hx => hs.atLeast.mono hx, fun _ => id⟩

lemma Spans.widen_hi {s : K} (h : Spans m d lo (some s) node ids) (hs : Below hi s) :
    Spans m d lo hi node ids :=
  h.widen ⟨fun _ => id, fun _ => id, fun _ hx => hs.mono (le_of_lt hx)⟩

lemma Spans.ne_nil (h : Spans m d lo hi node ids) : ids ≠ [] := by
  obtain ⟨L, hL, rfl, -⟩ := h.index
  exact fun hnil => hL.ne_nil (map_eq_nil_iff.mp hnil)

end

/-! ## The way up -/

/-- What is left of a node are the leaves `ids`. A key that goes up is a lower
bound of the node. -/
structure Deleted (m : Mem K) (noKey : K → Bool) (d : ℕ) (lo hi : Option K) (ids : List ℕ)
    (out : Node K × DeleteResult K) : Prop where
  free : out.2.freeNode = true ↔ ids = []
  spans : ids ≠ [] → Spans m d lo hi out.1 ids
  up : ∀ u, out.2.upKey = some u → noKey u = false →
    ids ≠ [] ∧ Between lo hi u ∧ Spans m d (some u) hi out.1 ids

section

variable {m : Mem K} {noKey : K → Bool} {d : ℕ} {lo hi lo' hi' : Option K} {ks ks1 ks2 : List K}
  {cs1 cs2 : List (Node K)} {L1 L2 M : List ℕ} {c c' child : Node K} {spare : Option K} {s u : K}
  {res : DeleteResult K}

lemma eraseIdx_append_length {α : Type} (l1 : List α) (x : α) (l2 : List α) :
    (l1 ++ x :: l2).eraseIdx l1.length = l1 ++ l2 := by
  rw [eraseIdx_append_of_length_le (Nat.le_refl _), Nat.sub_self]
  rfl

omit [LinearOrder K] in
/-- A child that is not the first goes with the separator on its left. -/
lemma removeInnerEntry_left (hlen : cs1.length = ks.length) (hcs2 : ks2 = [] → cs2 = []) :
    removeInnerEntry (ks ++ [s] ++ ks2) (cs1 ++ [c'] ++ c :: cs2) spare (ks ++ [s]).length res =
      (.inner (ks ++ ks2) (cs1 ++ c' :: cs2) spare, res) := by
  have hsl : (ks ++ [s]).length = ks.length + 1 := by
    rw [length_append, length_singleton]
  have hcs : (cs1 ++ [c']).length = (ks ++ [s]).length := by
    rw [hsl, length_append, length_singleton, hlen]
  rw [removeInnerEntry, if_neg (by rw [length_append, hsl]; omega)]
  by_cases hla : ks2 = []
  · obtain rfl := hcs2 hla
    subst hla
    rw [append_nil, if_pos rfl, dropLast_concat, dropLast_concat, append_nil]
  · have hpos := length_pos_iff.mpr hla
    rw [if_neg (by simp only [length_append]; omega), if_neg (by omega), ← hcs,
      eraseIdx_append_length, hcs, hsl, Nat.add_sub_cancel, append_assoc,
      singleton_append, eraseIdx_append_length, ← append_cons]

lemma afterDelete_free (hl : Lefts (Spans m d) hi lo' lo ks1 cs1 L1)
    (hr : Rights (Spans m d) hi lo' hi' ks2 cs2 L2) (hlen : (ks1 ++ ks2).length ≤ nent) {key : K}
    (hkey : InRange lo' hi' key) (hdel : Deleted m noKey d lo' hi' [] (child, res))
    (hfr : res.freeNode = true) :
    Deleted m noKey (d + 1) lo hi (L1 ++ L2)
      (afterDelete noKey (ks1 ++ ks2) (cs1 ++ c :: cs2) spare ks1.length child res) := by
  have hup : ∀ u, res.upKey = some u → noKey u = false → False := fun u hu hno =>
    (hdel.up u hu hno).1 rfl
  rw [afterDelete, if_pos hfr]
  rcases eq_nil_or_concat ks1 with rfl | ⟨ks, s, rfl⟩
  · obtain ⟨rfl, rfl, rfl⟩ := hl
    cases ks2 with
    | nil =>
      -- the only child
      obtain ⟨-, rfl, rfl⟩ := hr
      exact ⟨⟨fun _ => rfl, fun _ => rfl⟩, fun h => absurd rfl h, fun u hu hno =>
        (hup u hu hno).elim⟩
    | cons s ks =>
      -- the first child: the next one takes its place
      obtain ⟨-, hs, h⟩ := hr
      have hspn : Spans m (d + 1) (some s) hi (.inner ks cs2 spare) L2 :=
        ⟨ks, cs2, spare, rfl, by rw [nil_append, length_cons] at hlen; omega, h⟩
      refine ⟨⟨nofun, fun h => absurd h hspn.ne_nil⟩, fun _ => hspn.widen_lo hs.1,
        fun u hu hno => ?_⟩
      cases hu
      exact ⟨hspn.ne_nil, hs, hspn⟩
  · -- another child: its left neighbour takes its range
    rw [concat_eq_append] at hl hlen ⊢
    obtain ⟨cs, c', L, M, lo'', rfl, rfl, rfl, hs, hl, hc'⟩ := hl.last
    have hs' : Below hi' s := hkey.2.mono hkey.1
    have hrt : Rights (Spans m d) hi lo'' hi' ks2 cs2 L2 := by
      refine hr.change_lo fun x hx => ?_
      rw [hx] at hs'
      exact hs.1.trans hs'
    have hspn : Spans m (d + 1) lo hi (.inner (ks ++ ks2) (cs ++ c' :: cs2) spare)
        (L ++ M ++ L2) := by
      refine ⟨_, _, spare, rfl, ?_, ?_⟩
      · rw [length_append, length_append] at hlen
        rw [length_append]
        omega
      · rw [append_assoc]
        exact hl.kids (hrt.kids (hc'.widen_hi hs'))
    rw [removeInnerEntry_left hl.length_eq]
    · exact ⟨⟨nofun, fun h => absurd h hspn.ne_nil⟩, fun _ => hspn, fun u hu hno =>
        (hup u hu hno).elim⟩
    · rintro rfl
      exact hr.2.1

lemma afterDelete_kept (hl : Lefts (Spans m d) hi lo' lo ks1 cs1 L1)
    (hr : Rights (Spans m d) hi lo' hi' ks2 cs2 L2) (hlen : (ks1 ++ ks2).length ≤ nent)
    (hM : M ≠ []) (hdel : Deleted m noKey d lo' hi' M (child, res)) (hfr : res.freeNode = false) :
    Deleted m noKey (d + 1) lo hi (L1 ++ (M ++ L2))
      (afterDelete noKey (ks1 ++ ks2) (cs1 ++ c :: cs2) spare ks1.length child res) := by
  have hchd := hdel.spans hM
  have hne : L1 ++ (M ++ L2) ≠ [] := by simp [hM]
  -- the node with the new child and the old separators
  have hsm : Spans m (d + 1) lo hi (.inner (ks1 ++ ks2) (cs1 ++ child :: cs2) spare)
      (L1 ++ (M ++ L2)) := ⟨_, _, spare, rfl, hlen, hl.kids (hr.kids hchd)⟩
  have hfr' : res.freeNode = true ↔ L1 ++ (M ++ L2) = [] := by
    rw [hfr]
    exact ⟨nofun, fun h => absurd h hne⟩
  rw [afterDelete, if_neg (by rw [hfr]; exact Bool.false_ne_true), ← hl.length_eq,
    set_append_length, hl.length_eq]
  cases hu : res.upKey with
  | none => exact ⟨hfr', fun _ => hsm, fun u hu' => by rw [hu] at hu'; cases hu'⟩
  | some u =>
    dsimp only
    split_ifs with hcn
    · obtain ⟨-, hu', hspn⟩ := hdel.up u hu hcn.1
      rcases eq_nil_or_concat ks1 with rfl | ⟨ks, s, rfl⟩
      · exact absurd rfl hcn.2
      rw [concat_eq_append] at hl hlen ⊢
      obtain ⟨cs, c', L, N, lo'', rfl, rfl, rfl, hs, hl, hc'⟩ := hl.last
      have hset : (ks ++ [s] ++ ks2).set ((ks ++ [s]).length - 1) u = ks ++ u :: ks2 := by
        rw [length_append, length_singleton, Nat.add_sub_cancel, append_assoc,
          singleton_append, set_append_length]
      have hrt : Rights (Spans m d) hi lo'' hi' ks2 cs2 L2 := by
        refine hr.change_lo fun x hx => hs.1.trans (lt_trans hu'.1 ?_)
        have := hu'.2
        rw [hx] at this
        exact this
      rw [hset]
      refine ⟨hfr', fun _ => ⟨_, _, spare, rfl, ?_, ?_⟩, nofun⟩
      · simp only [length_append, length_cons, length_nil] at hlen ⊢
        omega
      · rw [append_assoc, append_assoc]
        exact hl.kids (hrt.kids_two ⟨hs.1.trans hu'.1, hu'.2⟩ (hc'.widen_hi hu'.1) hspn)
    · refine ⟨hfr', fun _ => hsm, fun v hv hno => ?_⟩
      obtain rfl : u = v := Option.some.inj (hu.symm.trans hv)
      -- only the first child passes the key on
      have hsl : ks1.length = 0 := by
        by_contra hsl
        exact hcn ⟨hno, hsl⟩
      obtain rfl := length_eq_zero_iff.mp hsl
      obtain ⟨rfl, rfl, rfl⟩ := hl
      obtain ⟨-, hu', hspn⟩ := hdel.up u hu hno
      obtain ⟨hu'', hrt⟩ := hr.cut hu'
      exact ⟨hne, hu'', _, _, spare, rfl, hlen, hrt.kids hspn⟩

lemma Deleted.step (hdel : Deleted m noKey d lo' hi' M (child, res)) (c : Node K)
    (spare : Option K) (hl : Lefts (Spans m d) hi lo' lo ks1 cs1 L1)
    (hr : Rights (Spans m d) hi lo' hi' ks2 cs2 L2) (hlen : (ks1 ++ ks2).length ≤ nent) {key : K}
    (hkey : InRange lo' hi' key) :
    Deleted m noKey (d + 1) lo hi (L1 ++ (M ++ L2))
      (afterDelete noKey (ks1 ++ ks2) (cs1 ++ c :: cs2) spare ks1.length child res) := by
  cases hfr : res.freeNode with
  | true =>
    obtain rfl := hdel.free.mp hfr
    exact afterDelete_free hl hr hlen hkey hdel hfr
  | false =>
    refine afterDelete_kept hl hr hlen (fun hM => ?_) hdel hfr
    rw [hdel.free.mpr hM] at hfr
    cases hfr

end

/-! ## `LeafDelete` -/

section

variable {m m' : Mem K} {key : K} {a : ℕ} {es E1 E2 : List (K × ℕ)} {e : K × ℕ}
  {res : DeleteResult K} {noKey : K → Bool}

section

omit [LinearOrder K]

lemma unlink_entries (c : ℕ) : (m.unlink a c).entries = (m.leaf c).entries := by
  rw [Mem.unlink]
  cases hl : (m.leaf a).left <;> cases hr : (m.leaf a).right <;>
    simp only [update_apply] <;> split_ifs <;> simp_all

lemma unlink_right (c : ℕ) : (m.unlink a c).right =
    if (m.leaf a).left = some c then (m.leaf a).right else (m.leaf c).right := by
  rw [Mem.unlink]
  cases hl : (m.leaf a).left <;> cases hr : (m.leaf a).right <;>
    simp only [update_apply] <;> split_ifs <;> simp_all

lemma unlink_left (c : ℕ) : (m.unlink a c).left =
    if (m.leaf a).right = some c then (m.leaf a).left else (m.leaf c).left := by
  rw [Mem.unlink]
  cases hl : (m.leaf a).left <;> cases hr : (m.leaf a).right <;>
    simp only [update_apply] <;> split_ifs <;> simp_all

lemma removeLeafEntry_links (slot c : ℕ) :
    ((m.removeLeafEntry a slot).leaf c).left = (m.leaf c).left ∧
      ((m.removeLeafEntry a slot).leaf c).right = (m.leaf c).right := by
  by_cases hc : c = a
  · subst hc
    rw [Mem.removeLeafEntry]
    simp only [update_self, and_self]
  · rw [Mem.removeLeafEntry]
    simp only [update_of_ne hc, and_self]

end

/-- The entry `e` of leaf `a` is gone. -/
structure Removes (m m' : Mem K) (a : ℕ) (E : List (K × ℕ)) : Prop where
  entries : (m'.leaf a).entries = E
  other : ∀ c, c ≠ a → (m'.leaf c).entries = (m.leaf c).entries
  fresh : m'.fresh = m.fresh
  dummyval : m'.dummyval = m.dummyval

/-- What `LeafDelete` does, by where the key belongs in the leaf. -/
inductive LeafDeleted (m : Mem K) (key : K) (a : ℕ) : Option (Mem K × DeleteResult K) → Prop
  | absent (hall : ∀ e ∈ (m.leaf a).entries, e.1 < key) : LeafDeleted m key a none
  | kept {E1 E2 E : List (K × ℕ)} {e e' : K × ℕ} {m' : Mem K}
      (hE : (m.leaf a).entries = E1 ++ e :: E2)
      (hbelow : ∀ x ∈ E1, x.1 < key) (he : key ≤ e.1) (hrest : E1 ++ E2 = e' :: E)
      (hm' : Removes m m' a (E1 ++ E2))
      (hlinks : ∀ c, (m'.leaf c).left = (m.leaf c).left ∧ (m'.leaf c).right = (m.leaf c).right) :
      LeafDeleted m key a (some (m', ⟨e.2, false, if E1.length = 0 then some e'.1 else none⟩))
  | emptied {e : K × ℕ} {m' : Mem K} (hE : (m.leaf a).entries = [e]) (he : key ≤ e.1)
      (hm' : Removes m m' a [])
      (hlinks : ∀ c, (m'.leaf c).right =
          (if (m.leaf a).left = some c then (m.leaf a).right else (m.leaf c).right) ∧
        (m'.leaf c).left =
          (if (m.leaf a).right = some c then (m.leaf a).left else (m.leaf c).left)) :
      LeafDeleted m key a (some (m', ⟨e.2, true, none⟩))

omit [LinearOrder K] in
lemma removes_removeLeafEntry (h : (m.leaf a).entries = E1 ++ e :: E2) :
    Removes m (m.removeLeafEntry a E1.length) a (E1 ++ E2) where
  entries := by
    rw [Mem.removeLeafEntry]
    simp only [update_self]
    rw [h, eraseIdx_append_length]
  other c hc := by
    rw [Mem.removeLeafEntry]
    simp only [update_of_ne hc]
  fresh := rfl
  dummyval := rfl

lemma leafDeleted (key : K) (h : Increasing (m.leaf a).entries) :
    LeafDeleted m key a (m.leafDelete key a) := by
  have hp := h.place key
  rw [Mem.leafDelete]
  generalize (m.leaf a).entries.takeWhile (fun e => e.1 < key) = E1 at hp ⊢
  generalize (m.leaf a).entries.dropWhile (fun e => e.1 < key) = E2 at hp
  cases E2 with
  | nil =>
    have hE : (m.leaf a).entries = E1 := hp.eq.trans (append_nil _)
    rw [getElem?_eq_none (by rw [hE])]
    exact .absent (hE ▸ hp.below)
  | cons e E2 =>
    have hget : (m.leaf a).entries[E1.length]? = some e := by
      rw [hp.eq]
      exact getElem?_append_length _ _ _
    have hrem := removes_removeLeafEntry hp.eq
    have hlinks := removeLeafEntry_links (m := m) (a := a) E1.length
    have he := hp.above e mem_cons_self
    rw [hget]
    dsimp only
    rw [hrem.entries]
    cases hrest : E1 ++ E2 with
    | nil =>
      obtain ⟨rfl, rfl⟩ := append_eq_nil_iff.mp hrest
      refine .emptied hp.eq he ⟨?_, fun c hc => ?_, rfl, rfl⟩ fun c => ?_
      · exact (unlink_entries a).trans hrem.entries
      · exact (unlink_entries c).trans (hrem.other c hc)
      · simp only [unlink_right, unlink_left, hlinks, and_self]
    | cons e' E =>
      exact .kept hp.eq hp.below he hrest (hrest ▸ hrem) hlinks

lemma LeafDeleted.sublist {out : Mem K × DeleteResult K} (h : LeafDeleted m key a (some out))
    (c : ℕ) : (out.1.leaf c).entries.Sublist (m.leaf c).entries := by
  by_cases hc : c = a
  · subst hc
    cases h with
    | kept hE _ _ _ hm' _ =>
      rw [hm'.entries, hE]
      exact (Sublist.refl _).append (sublist_cons_self _ _)
    | emptied _ _ hm' _ =>
      rw [hm'.entries]
      exact nil_sublist _
  · cases h with
    | kept _ _ _ _ hm' _ | emptied _ _ hm' _ => rw [hm'.other c hc]

lemma LeafDeleted.deleted {lo hi : Option K} (h : LeafDeleted m key a (some (m', res)))
    (hinc : Increasing (m.leaf a).entries) (hrng : ∀ e ∈ (m.leaf a).entries, InRange lo hi e.1) :
    Deleted m' noKey 0 lo hi (if res.freeNode then [] else [a]) (.leaf a, res) := by
  have hsub := (h.sublist a).subset
  cases h with
  | @kept E1 E2 E e e' _ hE _ _ hrest hm' _ =>
    refine ⟨⟨nofun, nofun⟩, fun _ => ⟨a, rfl, rfl, fun x hx => hrng x (hsub hx)⟩,
      fun u hu _ => ⟨nofun, ?_⟩⟩
    -- the first entry is gone, `e'` is the next one
    split at hu
    · rename_i hnil
      cases hu
      obtain rfl := length_eq_zero_iff.mp hnil
      rw [nil_append] at hE hrest hm'
      rw [hE, hrest] at hinc hrng
      rw [hrest] at hm'
      obtain ⟨hfst, hinc⟩ := pairwise_cons.mp hinc
      have hu : Between lo hi e'.1 :=
        ⟨(hrng e mem_cons_self).1.above (hfst e' mem_cons_self), (hrng e' (by simp)).2⟩
      refine ⟨hu, a, rfl, rfl, fun x hx => ?_⟩
      rw [hm'.entries] at hx
      refine ⟨?_, (hrng x (mem_cons_of_mem _ hx)).2⟩
      rcases mem_cons.mp hx with rfl | hx
      · exact le_refl _
      · exact le_of_lt ((pairwise_cons.mp hinc).1 x hx)
    · cases hu
  | emptied _ _ _ _ => exact ⟨⟨fun _ => rfl, fun _ => rfl⟩, fun h => absurd rfl h, nofun⟩

end

/-! ## The way down -/

section

variable {m m' : Mem K} {noKey : K → Bool} {d : ℕ} {lo hi : Option K} {node : Node K}
  {ids : List ℕ} {key : K} {res : DeleteResult K}

omit [LinearOrder K] in
lemma afterDelete_value (ks : List K) (cs : List (Node K)) (spare : Option K) (slot : ℕ)
    (child : Node K) : (afterDelete noKey ks cs spare slot child res).2.value = res.value := by
  rw [afterDelete, removeInnerEntry]
  split_ifs
  · rfl
  · rfl
  · rfl
  · rfl
  · cases res.upKey with
    | none => rfl
    | some u =>
      dsimp only
      split <;> rfl

/-- The deletion of a key below the node is the deletion in its leaf. -/
lemma Spans.delete (h : Spans m d lo hi node ids) (noKey : K → Bool) (hkey : InRange lo hi key)
    (hinc : ∀ a ∈ ids, Increasing (m.leaf a).entries) :
    ∃ ia a ib, ids = ia ++ a :: ib ∧ findLeaf key d node = .done a ∧
      (m.leafDelete key a = none → nodeDelete noKey key d m node = .done none) ∧
      ∀ m' res, m.leafDelete key a = some (m', res) → ∃ out,
        nodeDelete noKey key d m node = .done (some (m', out)) ∧ out.2.value = res.value ∧
        Deleted m' noKey d lo hi (if res.freeNode then ia ++ ib else ids) out := by
  induction d generalizing lo hi node ids with
  | zero =>
    obtain ⟨a, rfl, rfl, hrng⟩ := h
    refine ⟨[], a, [], rfl, rfl, fun hno => ?_, fun m' res hsome => ?_⟩
    · rw [nodeDelete, hno]
    · have hdel := leafDeleted key (hinc a (mem_singleton_self _))
      rw [hsome] at hdel
      refine ⟨(.leaf a, res), ?_, rfl, hdel.deleted (hinc a (mem_singleton_self _)) hrng⟩
      rw [nodeDelete, hsome]
  | succ d ih =>
    obtain ⟨ks, cs, spare, rfl, hlen, h⟩ := h
    obtain ⟨ks1, ks2, cs1, c, cs2, L1, M, L2, lo', hi', rfl, rfl, rfl, hk, hcs, hkey', hl, hc,
      hr⟩ := Kids.descend h hkey
    have hincM : ∀ a ∈ M, Increasing (m.leaf a).entries := fun a ha => hinc a (by simp [ha])
    obtain ⟨ia, a, ib, rfl, hfd, hno, hsome⟩ := ih hc hkey' hincM
    have hget : (cs1 ++ c :: cs2)[ks1.length]? = some c := by
      rw [← hcs]
      exact getElem?_append_length _ _ _
    refine ⟨L1 ++ ia, a, ib ++ L2, by simp, ?_, fun habs => ?_, fun m' res hres => ?_⟩
    · rw [findLeaf, hk, hget]
      exact hfd
    · simp only [nodeDelete, hk, hget, hno habs, Outcome.done_bind, Outcome.pure_eq]
    · obtain ⟨⟨child, res'⟩, hchd, hval, hdel⟩ := hsome m' res hres
      refine ⟨afterDelete noKey (ks1 ++ ks2) (cs1 ++ c :: cs2) spare ks1.length child res', ?_,
        (afterDelete_value _ _ _ _ _).trans hval, ?_⟩
      · simp only [nodeDelete, hk, hget, hchd, Outcome.done_bind, Outcome.pure_eq]
      · have hlf := leafDeleted key (hincM a (by simp))
        rw [hres] at hlf
        have himp : ∀ lo hi c M, Spans m d lo hi c M → Spans m' d lo hi c M :=
          fun _ _ _ _ h => h.shrink fun c => (hlf.sublist c).subset
        have hst := hdel.step c spare (hl.imp himp) (hr.imp himp) hlen hkey'
        by_cases hfr : res.freeNode = true
        · rw [if_pos hfr] at hst ⊢
          simpa only [append_assoc] using hst
        · rw [if_neg hfr] at hst ⊢
          exact hst

end

/-! ## The links around a leaf that goes -/

section

variable {m m' : Mem K} {prev : Option ℕ} {la lb : List ℕ} {a : ℕ}

omit [LinearOrder K] in
lemma Links.remove (h : Links m prev (la ++ a :: lb)) (hnd : (la ++ a :: lb).Nodup)
    (hpr : ∀ x ∈ la ++ a :: lb, prev ≠ some x)
    (hlinks : ∀ c, (m'.leaf c).right =
        (if (m.leaf a).left = some c then (m.leaf a).right else (m.leaf c).right) ∧
      (m'.leaf c).left = (if (m.leaf a).right = some c then (m.leaf a).left else (m.leaf c).left)) :
    Links m' prev (la ++ lb) := by
  have hlf := h.left_eq
  have hrt := h.right_eq
  have hne : ∀ x, x ∈ la → (m.leaf a).right ≠ some x := by
    intro x hx heq
    rw [hrt] at heq
    exact (nodup_append.mp hnd).2.2 x hx x (mem_cons_of_mem _ (mem_of_head? heq)) rfl
  induction la generalizing prev with
  | nil =>
    obtain ⟨hl, hr, h⟩ := h
    cases lb with
    | nil => trivial
    | cons c lb =>
      obtain ⟨-, hcr, h⟩ := h
      have hc : (m.leaf a).left ≠ some c := hl ▸ hpr c (by simp)
      have hr : (m.leaf a).right = some c := hr
      refine ⟨?_, ?_, h.frame fun x hx => ?_⟩
      · rw [(hlinks c).2, if_pos hr, hl]
      · rw [(hlinks c).1, if_neg hc, hcr]
      · have hxc : c ≠ x := by
          rintro rfl
          exact (nodup_cons.mp (nodup_cons.mp hnd).2).1 hx
        have hx' : (m.leaf a).left ≠ some x := hl ▸ hpr x (by simp [hx])
        rw [(hlinks x).1, (hlinks x).2, if_neg hx', if_neg]
        · exact ⟨rfl, rfl⟩
        · rw [hr]
          exact fun heq => hxc (Option.some.inj heq)
  | cons x la ih =>
    obtain ⟨hl, hr, h⟩ := h
    rw [cons_append, nodup_cons] at hnd
    refine ⟨?_, ?_, ih h hnd.2 (fun y hy heq => ?_) h.left_eq fun y hy =>
      hne y (mem_cons_of_mem _ hy)⟩
    · rw [(hlinks x).2, if_neg (hne x mem_cons_self), hl]
    · rw [(hlinks x).1]
      cases la with
      | nil =>
        have hlf : (m.leaf a).left = some x := hlf
        rw [if_pos hlf, hrt]
        rfl
      | cons y la =>
        rw [if_neg, hr]
        · rfl
        · rw [h.left_eq]
          intro heq
          refine hnd.1 (mem_append_left _ (mem_of_getLast? ?_))
          rw [getLast?_cons] at heq ⊢
          exact heq
    · rw [Option.some.inj heq] at hnd
      exact hnd.1 hy

end

end Librdpma.Drtmh.BPlusTree
