import Librdpma.Drtmh.BPlusTreeIndex

/-!
# The leaves of the B+ tree

The leaves of the regions `L` are linked in the order of the list, the keys in
them increase, and each key is in the leaf of its region. `LeafInsert` keeps
this: it finds the key, or adds it, or adds it and cuts the leaf in two.
-/

namespace Librdpma.Drtmh.BPlusTree

open Lib Function List

variable {K : Type} [LinearOrder K]

/-! ## The regions in their order -/

/-- The regions divide the keys from `lo` to `hi`. -/
inductive Tiles (hi : Option K) : Option K → List (Region K) → Prop
  | one (a : ℕ) (lo : Option K) : Tiles hi lo [⟨a, lo, hi⟩]
  | cons (a : ℕ) {lo : Option K} {s : K} {L : List (Region K)} (hs : Between lo hi s)
      (h : Tiles hi (some s) L) : Tiles hi lo (⟨a, lo, some s⟩ :: L)

/-- Every key of `r` is below every key from the lower bound of `r'` on. -/
def Region.Before (r r' : Region K) : Prop :=
  ∀ x x', InRange r.lo r.hi x → AtLeast r'.lo x' → x < x'

section

variable {d : ℕ} {lo hi : Option K} {node : Node K} {ks : List K} {L L1 L2 : List (Region K)}
  {s x : K} {r : Region K}

lemma Tiles.append (hs : Between lo hi s) (h1 : Tiles (some s) lo L1)
    (h2 : Tiles hi (some s) L2) :
    Tiles hi lo (L1 ++ L2) := by
  induction h1 with
  | one a lo => exact .cons a hs h2
  | cons a hs' _ ih =>
    exact .cons a ⟨hs'.1, hs.2.mono (le_of_lt hs'.2)⟩ (ih ⟨hs'.2, hs.2⟩)

lemma Index.tiles (h : Index d lo hi node L) : Tiles hi lo L := by
  induction d generalizing lo hi node L with
  | zero =>
    obtain ⟨a, -, rfl⟩ := h
    exact .one a lo
  | succ d ih =>
    obtain ⟨ks, cs, spare, -, -, h⟩ := h
    clear node
    -- the tiles of the children, one after the other
    induction ks generalizing lo cs L with
    | nil =>
      obtain ⟨c, -, h⟩ := h
      exact ih h
    | cons s ks ihks =>
      obtain ⟨c, cs', L1, L2, -, rfl, hs, h1, h⟩ := h
      exact .append hs (ih h1) (ihks _ h)

lemma Tiles.atLeast (h : Tiles hi lo L) (hr : r ∈ L) (hx : AtLeast r.lo x) : AtLeast lo x := by
  induction h with
  | one a lo =>
    rw [mem_singleton.mp hr] at hx
    exact hx
  | cons a hs h ih =>
    rcases mem_cons.mp hr with rfl | hr
    · exact hx
    · exact hs.1.atLeast.mono (ih hr)

lemma Tiles.pairwise (h : Tiles hi lo L) : L.Pairwise Region.Before := by
  induction h with
  | one a lo => exact pairwise_singleton _ _
  | cons a hs h ih =>
    refine pairwise_cons.mpr ⟨fun r' hr' x x' hx hx' => ?_, ih⟩
    exact lt_of_lt_of_le hx.2 (h.atLeast hr' hx')

end

/-! ## Links -/

/-- The leaves of the list are linked in both directions, the first one to
`prev`. -/
def Links (m : Mem K) : Option ℕ → List ℕ → Prop
  | _, [] => True
  | prev, a :: l => (m.leaf a).left = prev ∧ (m.leaf a).right = l.head? ∧ Links m (some a) l

section

variable {m m' : Mem K} {prev : Option ℕ} {l la lb : List ℕ} {a b : ℕ}

omit [LinearOrder K]

lemma Links.frame (h : Links m prev l)
    (hfrm : ∀ x ∈ l, (m'.leaf x).left = (m.leaf x).left ∧ (m'.leaf x).right = (m.leaf x).right) :
    Links m' prev l := by
  induction l generalizing prev with
  | nil => trivial
  | cons a l ih =>
    obtain ⟨hl, hr, h⟩ := h
    obtain ⟨hl', hr'⟩ := hfrm a mem_cons_self
    exact ⟨hl'.trans hl, hr'.trans hr, ih h fun x hx => hfrm x (mem_cons_of_mem _ hx)⟩

lemma Links.right_eq (h : Links m prev (la ++ a :: lb)) : (m.leaf a).right = lb.head? := by
  induction la generalizing prev with
  | nil => exact h.2.1
  | cons x la ih => exact ih h.2.2

lemma Links.left_eq (h : Links m prev (la ++ a :: lb)) : (m.leaf a).left = la.getLast?.or prev := by
  induction la generalizing prev with
  | nil => exact h.1
  | cons x la ih =>
    rw [ih h.2.2, getLast?_cons]
    cases la.getLast? <;> rfl

/-- What a new leaf `b` behind `a` does to the links. -/
structure NewLink (m m' : Mem K) (a b : ℕ) : Prop where
  left : (m'.leaf a).left = (m.leaf a).left
  right : (m'.leaf a).right = some b
  newLeft : (m'.leaf b).left = some a
  newRight : (m'.leaf b).right = (m.leaf a).right
  next : ∀ c, (m.leaf a).right = some c → c ≠ a → c ≠ b →
    (m'.leaf c).left = some b ∧ (m'.leaf c).right = (m.leaf c).right
  other : ∀ c, c ≠ a → c ≠ b → (m.leaf a).right ≠ some c →
    (m'.leaf c).left = (m.leaf c).left ∧ (m'.leaf c).right = (m.leaf c).right

lemma Links.insert (h : Links m prev (la ++ a :: lb)) (hnd : (la ++ a :: lb).Nodup)
    (hb : b ∉ la ++ a :: lb) (hnew : NewLink m m' a b) : Links m' prev (la ++ a :: b :: lb) := by
  have hrt := h.right_eq
  induction la generalizing prev with
  | nil =>
    obtain ⟨hl, hr, h⟩ := h
    refine ⟨hnew.left.trans hl, hnew.right, hnew.newLeft, hnew.newRight.trans hr, ?_⟩
    rw [nil_append, nodup_cons] at hnd
    cases lb with
    | nil => trivial
    | cons c lb =>
      obtain ⟨-, hcr, h⟩ := h
      have hca : c ≠ a := fun heq => hnd.1 (heq ▸ mem_cons_self)
      have hcb : c ≠ b := fun heq => hb (heq ▸ by simp)
      obtain ⟨hcl, hcr'⟩ := hnew.next c hr hca hcb
      refine ⟨hcl, hcr'.trans hcr, h.frame fun x hx => hnew.other x ?_ ?_ ?_⟩
      · rintro rfl
        exact hnd.1 (mem_cons_of_mem _ hx)
      · rintro rfl
        exact hb (by simp [hx])
      · rw [hr, head?_cons]
        rintro heq
        rw [← Option.some.inj heq] at hx
        exact (nodup_cons.mp hnd.2).1 hx
  | cons x la ih =>
    obtain ⟨hl, hr, h⟩ := h
    rw [cons_append, nodup_cons] at hnd
    have hx : (m'.leaf x).left = (m.leaf x).left ∧ (m'.leaf x).right = (m.leaf x).right := by
      refine hnew.other x ?_ ?_ ?_
      · rintro rfl
        exact hnd.1 (by simp)
      · rintro rfl
        exact hb (by simp)
      · rw [hrt]
        intro heq
        exact hnd.1 (mem_append_right _ (mem_cons_of_mem _ (mem_of_head? heq)))
    refine ⟨hx.1.trans hl, hx.2.trans (hr.trans ?_), ih h hnd.2
      (fun hmem => hb (mem_cons_of_mem _ hmem))⟩
    cases la with
    | nil => rfl
    | cons y la => rfl

end

/-! ## The invariant -/

/-- The keys of the regions in their order, with their values. -/
def contents (m : Mem K) (L : List (Region K)) : List (K × ℕ) :=
  L.flatMap fun r => (m.leaf r.id).entries

/-- Keys in increasing order. -/
def Increasing (es : List (K × ℕ)) : Prop := es.Pairwise fun e e' => e.1 < e'.1

/-- The leaf of a region. -/
structure LeafOk (m : Mem K) (r : Region K) : Prop where
  fresh : r.id < m.fresh
  increasing : Increasing (m.leaf r.id).entries
  range : ∀ e ∈ (m.leaf r.id).entries, InRange r.lo r.hi e.1
  size : (m.leaf r.id).entries.length ≤ memBtreeM

/-- The leaves of the regions. Only a leaf that is alone can be empty. -/
structure Leaves (m : Mem K) (L : List (Region K)) : Prop where
  nodup : (L.map Region.id).Nodup
  each : ∀ r ∈ L, LeafOk m r
  filled : ∀ r ∈ L, (m.leaf r.id).entries = [] → L = [r]
  links : Links m none (L.map Region.id)

/-- All leaves but `a` keep their keys, their right neighbour and `seq`; the
change of `a` is seen in its `seq`. -/
structure Touches (m m' : Mem K) (a : ℕ) : Prop where
  same : ∀ c, c < m.fresh → c ≠ a → (m'.leaf c).entries = (m.leaf c).entries ∧
    (m'.leaf c).right = (m.leaf c).right ∧ (m'.leaf c).seq = (m.leaf c).seq
  seq : (m'.leaf a).seq = (m.leaf a).seq + 1

/-! ## A place for the key -/

section

variable {es es1 es2 : List (K × ℕ)} {key : K} {e : K × ℕ}

/-- `es1` are the keys below `key`, `es2` the others. -/
structure Place (key : K) (es es1 es2 : List (K × ℕ)) : Prop where
  eq : es = es1 ++ es2
  below : ∀ e ∈ es1, e.1 < key
  above : ∀ e ∈ es2, key ≤ e.1

lemma Increasing.place (h : Increasing es) (key : K) :
    Place key es (es.takeWhile fun e => e.1 < key) (es.dropWhile fun e => e.1 < key) := by
  refine ⟨takeWhile_append_dropWhile.symm, fun e he => ?_, ?_⟩
  · simpa using mem_takeWhile_imp he
  · have hdr : Increasing (es.dropWhile fun e => e.1 < key) := h.sublist (dropWhile_sublist _)
    intro e he
    cases hd : es.dropWhile fun e => e.1 < key with
    | nil =>
      rw [hd] at he
      cases he
    | cons x rest =>
      have hx : key ≤ x.1 := by
        have := head?_dropWhile_not (fun e : K × ℕ => decide (e.1 < key)) es
        rw [hd] at this
        simpa using this
      rw [hd] at he hdr
      rcases mem_cons.mp he with rfl | he
      · exact hx
      · exact le_of_lt (lt_of_le_of_lt hx ((pairwise_cons.mp hdr).1 e he))

lemma Place.increasing (hp : Place key es es1 es2) (h : Increasing es)
    (hnew : ∀ e ∈ es, e.1 ≠ key) (v : ℕ) : Increasing (es1 ++ (key, v) :: es2) := by
  rw [hp.eq] at h hnew
  obtain ⟨h1, h2, h12⟩ := pairwise_append.mp h
  refine pairwise_append.mpr ⟨h1, pairwise_cons.mpr ⟨fun e he => ?_, h2⟩, ?_⟩
  · exact lt_of_le_of_ne (hp.above e he) (hnew e (mem_append_right _ he)).symm
  · intro e he e' he'
    rcases mem_cons.mp he' with rfl | he'
    · exact hp.below e he
    · exact h12 e he e' he'

omit [LinearOrder K] in
/-- A full leaf is cut in two, and the new sibling has one key only at the right
edge. -/
lemma splitEntries_spec (hlen : (es1 ++ es2).length = memBtreeM) (last : Bool) (e : K × ℕ) :
    ∃ l l', splitEntries (es1 ++ es2) last es1.length e = (l, l') ∧ l ++ l' = es1 ++ e :: es2 ∧
      l ≠ [] ∧ l' ≠ [] ∧ l.length ≤ memBtreeM ∧ l'.length ≤ memBtreeM ∧
      (l'.length = 1 → last = true) := by
  have hlen' : (es1 ++ es2).length = 15 := hlen
  have htk : ((es1 ++ es2).take 8).length = 8 := by rw [length_take, hlen']; rfl
  have hdr : ((es1 ++ es2).drop 8).length = 7 := by rw [length_drop, hlen']
  have hbt := take_append_drop 8 (es1 ++ es2)
  unfold memBtreeM
  by_cases hla : (last && decide (es1.length = (es1 ++ es2).length)) = true
  · have hpos := hla
    rw [Bool.and_eq_true, decide_eq_true_eq] at hla
    have hnil : es2 = [] := by
      apply length_eq_zero_iff.mp
      have := hla.2
      rw [length_append] at this
      omega
    refine ⟨es1 ++ es2, [e], if_pos hpos, ?_, ne_nil_of_length_pos (by omega), by simp,
      by omega, by simp, fun _ => hla.1⟩
    rw [hnil, append_nil]
  by_cases hk : 8 ≤ es1.length
  · have hins := length_insertAt (A := (es1 ++ es2).drop 8) (k := es1.length - 8) e
    refine ⟨(es1 ++ es2).take 8, insertAt ((es1 ++ es2).drop 8) (es1.length - 8) e,
      (if_neg hla).trans (if_pos hk), ?_, ne_nil_of_length_pos (by omega),
      ne_nil_of_length_pos (by omega), by omega, by omega, by omega⟩
    have := insertAt_append_right (B := (es1 ++ es2).drop 8) e (htk.trans_le hk)
    rw [hbt, insertAt_length, htk] at this
    exact this.symm
  · have hins := length_insertAt (A := (es1 ++ es2).take 8) (k := es1.length) e
    refine ⟨insertAt ((es1 ++ es2).take 8) es1.length e, (es1 ++ es2).drop 8,
      (if_neg hla).trans (if_neg hk), ?_, ne_nil_of_length_pos (by omega),
      ne_nil_of_length_pos (by omega), by omega, by omega, by omega⟩
    have := insertAt_append_left (A := (es1 ++ es2).take 8) (B := (es1 ++ es2).drop 8)
      (k := es1.length) e (by omega)
    rw [hbt, insertAt_length] at this
    exact this.symm

end

/-! ## `LeafInsert` -/

section

variable {m : Mem K} {key : K} {a : ℕ} {es es1 es2 : List (K × ℕ)}

lemma Increasing.look_found (h : Increasing es) {v : ℕ} (hv : (key, v) ∈ es) :
    es[(es.takeWhile fun e => e.1 < key).length]? = some (key, v) := by
  have hp := h.place key
  generalize es.takeWhile (fun e => e.1 < key) = es1 at hp ⊢
  generalize es.dropWhile (fun e => e.1 < key) = es2 at hp
  obtain ⟨rfl, hbel, habv⟩ := hp
  rw [getElem?_append_right (Nat.le_refl _), Nat.sub_self]
  have hv2 : (key, v) ∈ es2 := by
    rcases mem_append.mp hv with hv | hv
    · exact absurd (hbel _ hv) (lt_irrefl _)
    · exact hv
  cases es2 with
  | nil => cases hv2
  | cons x rest =>
    rcases mem_cons.mp hv2 with rfl | hrs
    · rfl
    · have hx := (pairwise_cons.mp (pairwise_append.mp h).2.1).1 _ hrs
      exact absurd hx (not_lt_of_ge (habv x mem_cons_self))

lemma leafInsert_found (h : Increasing (m.leaf a).entries) {v : ℕ}
    (hv : (key, v) ∈ (m.leaf a).entries) : m.leafInsert key a = (m, none, v) := by
  simp only [Mem.leafInsert, h.look_found hv, if_pos]

lemma leafInsert_new (hnew : ∀ e ∈ (m.leaf a).entries, e.1 ≠ key) : m.leafInsert key a =
      m.leafAdd key a ((m.leaf a).entries.takeWhile fun e => e.1 < key).length := by
  simp only [Mem.leafInsert]
  split
  · rename_i key' val heq
    rw [if_neg (hnew _ (mem_of_getElem? heq))]
  · rfl

lemma LeafNode.get_found {leaf : LeafNode K} (h : Increasing leaf.entries) {v : ℕ}
    (hv : (key, v) ∈ leaf.entries) : leaf.get key = some v := by
  simp only [LeafNode.get, h.look_found hv, if_pos]

lemma LeafNode.get_new {leaf : LeafNode K} (hnew : ∀ e ∈ leaf.entries, e.1 ≠ key) :
    leaf.get key = none := by
  simp only [LeafNode.get]
  split
  · rename_i key' val heq
    rw [if_neg (hnew _ (mem_of_getElem? heq))]
  · rfl

omit [LinearOrder K] in
lemma leafAdd_room (hent : (m.leaf a).entries = es1 ++ es2)
    (hrm : (m.leaf a).entries.length ≠ memBtreeM) :
    m.leafAdd key a es1.length =
      ({ m with
          leaf := update m.leaf a { m.leaf a with
            entries := es1 ++ (key, m.dummyval) :: es2, seq := (m.leaf a).seq + 1 }
          dummyval := m.dummyval + 1 }, none, m.dummyval) := by
  rw [Mem.leafAdd, if_neg hrm, hent, insertAt_length]

omit [LinearOrder K] in
lemma leafAdd_full (key : K) (hent : (m.leaf a).entries = es1 ++ es2)
    (hfu : (m.leaf a).entries.length = memBtreeM) :
    ∃ l l', m.leafAdd key a es1.length =
        ({ leaf := m.linkSibling a m.fresh l l', fresh := m.fresh + 1,
           dummyval := m.dummyval + 1 }, some m.fresh, m.dummyval) ∧
      l ++ l' = es1 ++ (key, m.dummyval) :: es2 ∧ l ≠ [] ∧ l' ≠ [] ∧
      l.length ≤ memBtreeM ∧ l'.length ≤ memBtreeM ∧
      (l'.length = 1 → (m.leaf a).right = none) := by
  obtain ⟨l, l', hspl, happ, hl, hl', hsz, hsz', hone⟩ :=
    splitEntries_spec (hent ▸ hfu) (m.leaf a).right.isNone (key, m.dummyval)
  refine ⟨l, l', ?_, happ, hl, hl', hsz, hsz', fun h => Option.isNone_iff_eq_none.mp (hone h)⟩
  rw [Mem.leafAdd, if_pos hfu, hent, hspl]

section

variable {b : ℕ} {l l' : List (K × ℕ)}

omit [LinearOrder K]

lemma linkSibling_self : m.linkSibling a b l l' a =
    { m.leaf a with entries := l, right := some b, seq := (m.leaf a).seq + 1 } := by
  rw [Mem.linkSibling, update_self]

lemma linkSibling_new (hab : b ≠ a) : m.linkSibling a b l l' b =
    { entries := l', left := some a, right := (m.leaf a).right, seq := 0 } := by
  rw [Mem.linkSibling, update_of_ne hab, update_self]

lemma linkSibling_next {c : ℕ} (hc : (m.leaf a).right = some c) (hca : c ≠ a) (hcb : c ≠ b) :
    m.linkSibling a b l l' c = { m.leaf c with left := some b } := by
  rw [Mem.linkSibling, update_of_ne hca, update_of_ne hcb]
  simp only [hc, update_self]

lemma linkSibling_other {c : ℕ} (hc : (m.leaf a).right ≠ some c) (hca : c ≠ a) (hcb : c ≠ b) :
    m.linkSibling a b l l' c = m.leaf c := by
  rw [Mem.linkSibling, update_of_ne hca, update_of_ne hcb]
  cases hr : (m.leaf a).right with
  | none => rfl
  | some x =>
    have hcx : c ≠ x := by
      rintro rfl
      exact hc hr
    exact update_of_ne hcx _ _

lemma linkSibling_keeps {c : ℕ} (hca : c ≠ a) (hcb : c ≠ b) :
    (m.linkSibling a b l l' c).entries = (m.leaf c).entries ∧
      (m.linkSibling a b l l' c).right = (m.leaf c).right ∧
      (m.linkSibling a b l l' c).seq = (m.leaf c).seq := by
  by_cases hc : (m.leaf a).right = some c
  · rw [linkSibling_next hc hca hcb]
    exact ⟨rfl, rfl, rfl⟩
  · rw [linkSibling_other hc hca hcb]
    exact ⟨rfl, rfl, rfl⟩

lemma newLink_linkSibling (hab : b ≠ a) (f v : ℕ) :
    NewLink m { leaf := m.linkSibling a b l l', fresh := f, dummyval := v } a b := by
  refine ⟨?_, ?_, ?_, ?_, fun c hc hca hcb => ?_, fun c hca hcb hc => ?_⟩
  · simp only [linkSibling_self]
  · simp only [linkSibling_self]
  · simp only [linkSibling_new hab]
  · simp only [linkSibling_new hab]
  · simp only [linkSibling_next hc hca hcb, and_self]
  · simp only [linkSibling_other hc hca hcb, and_self]

end

end

/-! ## The invariant is kept -/

/-- A new key in the leaf `a`, with the next value. The regions may be cut, but
each keeps its leaf and its lower bound. -/
structure Adds (m m' : Mem K) (L L' : List (Region K)) (key : K) (a : ℕ) : Prop where
  leaves : Leaves m' L'
  contents : ∃ A B, contents m L = A ++ B ∧ contents m' L' = A ++ (key, m.dummyval) :: B
  dummyval : m'.dummyval = m.dummyval + 1
  fresh : m.fresh ≤ m'.fresh
  touches : Touches m m' a
  bounds : ∀ r ∈ L, ∃ r' ∈ L', r'.id = r.id ∧ r'.lo = r.lo

section

variable {m m' : Mem K} {La Lb L : List (Region K)} {r r' : Region K} {key : K}
  {es1 es2 : List (K × ℕ)}

lemma Leaves.apart (h : Leaves m (La ++ r :: Lb)) (hr' : r' ∈ La ++ Lb) : r'.id ≠ r.id := by
  have hnd := h.nodup
  rw [map_append, map_cons, nodup_middle, ← map_append, nodup_cons] at hnd
  intro heq
  exact hnd.1 (heq ▸ mem_map_of_mem hr')

omit [LinearOrder K] in
lemma mem_rest (hr' : r' ∈ La ++ Lb) : r' ∈ La ++ r :: Lb :=
  mem_append.mpr ((mem_append.mp hr').imp_right (mem_cons_of_mem _))

lemma LeafOk.frame (h : LeafOk m r) (hfr : m.fresh ≤ m'.fresh)
    (hent : (m'.leaf r.id).entries = (m.leaf r.id).entries) : LeafOk m' r where
  fresh := h.fresh.trans_le hfr
  increasing := hent ▸ h.increasing
  range := hent ▸ h.range
  size := hent ▸ h.size

section

omit [LinearOrder K]

lemma contents_append : contents m (La ++ L) = contents m La ++ contents m L := flatMap_append

lemma contents_cons : contents m (r :: L) = (m.leaf r.id).entries ++ contents m L := flatMap_cons

lemma Touches.contents_eq {a : ℕ} (h : Touches m m' a) (hL : ∀ r ∈ L, r.id < m.fresh ∧ r.id ≠ a) :
    contents m' L = contents m L := by
  induction L with
  | nil => rfl
  | cons r L ih =>
    have hr := hL r mem_cons_self
    rw [contents_cons, contents_cons, (h.same _ hr.1 hr.2).1,
      ih fun r' hr' => hL r' (mem_cons_of_mem _ hr')]

end

lemma Adds.of_contents (h : Leaves m (La ++ r :: Lb)) (htch : Touches m m' r.id)
    (hes : (m.leaf r.id).entries = es1 ++ es2)
    (hL : BPlusTree.contents m' L = es1 ++ (key, m.dummyval) :: es2) :
    ∃ A B, BPlusTree.contents m (La ++ r :: Lb) = A ++ B ∧
      BPlusTree.contents m' (La ++ (L ++ Lb)) = A ++ (key, m.dummyval) :: B := by
  have hrs : ∀ r' ∈ La ++ Lb, r'.id < m.fresh ∧ r'.id ≠ r.id := fun r' hr' =>
    ⟨(h.each r' (mem_rest hr')).fresh, h.apart hr'⟩
  refine ⟨BPlusTree.contents m La ++ es1, es2 ++ BPlusTree.contents m Lb, ?_, ?_⟩
  · rw [contents_append, contents_cons, hes]
    simp only [append_assoc]
  · rw [contents_append, contents_append, hL,
      htch.contents_eq fun r' hr' => hrs r' (mem_append_left _ hr'),
      htch.contents_eq fun r' hr' => hrs r' (mem_append_right _ hr')]
    simp only [append_assoc, cons_append]

/-- The regions `L`, of the old leaf and of new ones, are there for `r`. -/
lemma Leaves.replace (h : Leaves m (La ++ r :: Lb)) (htch : Touches m m' r.id)
    (hfr : m.fresh ≤ m'.fresh)
    (hL : ∀ r' ∈ L, LeafOk m' r' ∧ (m'.leaf r'.id).entries ≠ [] ∧ (r'.id = r.id ∨ m.fresh ≤ r'.id))
    (hids : (L.map Region.id).Nodup)
    (hlk : Links m' none ((La ++ (L ++ Lb)).map Region.id)) : Leaves m' (La ++ (L ++ Lb)) := by
  have hrs : ∀ r' ∈ La ++ Lb, r'.id < m.fresh ∧ r'.id ≠ r.id := fun r' hr' =>
    ⟨(h.each r' (mem_rest hr')).fresh, h.apart hr'⟩
  have hcs : ∀ r' ∈ La ++ (L ++ Lb), r' ∈ L ∨ r' ∈ La ++ Lb := by
    intro r' hr'
    simp only [mem_append] at hr' ⊢
    tauto
  refine ⟨?_, fun r' hr' => ?_, fun r' hr' hnil => ?_, hlk⟩
  · have hperm : (La ++ (L ++ Lb)).Perm (L ++ (La ++ Lb)) := by
      rw [← append_assoc, ← append_assoc]
      exact (perm_append_comm).append_right _
    rw [(hperm.map Region.id).nodup_iff, map_append]
    have hnd := h.nodup
    rw [map_append, map_cons, nodup_middle, ← map_append] at hnd
    refine nodup_append.mpr ⟨hids, (nodup_cons.mp hnd).2, ?_⟩
    intro x hx y hy hxy
    obtain ⟨r1, hr1, rfl⟩ := mem_map.mp hx
    obtain ⟨r2, hr2, rfl⟩ := mem_map.mp hy
    have h2 := hrs r2 hr2
    rcases (hL r1 hr1).2.2 with heq | hge
    · exact h2.2 (hxy ▸ heq)
    · omega
  · rcases hcs r' hr' with hr' | hr'
    · exact (hL r' hr').1
    · have h' := hrs r' hr'
      exact (h.each r' (mem_rest hr')).frame hfr (htch.same _ h'.1 h'.2).1
  · rcases hcs r' hr' with hr' | hr'
    · exact absurd hnil (hL r' hr').2.1
    · have h' := hrs r' hr'
      rw [(htch.same _ h'.1 h'.2).1] at hnil
      -- an empty leaf would be alone, but `r` was there
      have hr : r ∈ [r'] := h.filled r' (mem_rest hr') hnil ▸ mem_append_right _ mem_cons_self
      exact absurd (congrArg Region.id (mem_singleton.mp hr).symm) h'.2

lemma LeafOk.place (h : LeafOk m r) (hkey : InRange r.lo r.hi key)
    (hp : Place key (m.leaf r.id).entries es1 es2)
    (hnew : ∀ e ∈ (m.leaf r.id).entries, e.1 ≠ key) (v : ℕ) :
    Increasing (es1 ++ (key, v) :: es2) ∧ ∀ e ∈ es1 ++ (key, v) :: es2, InRange r.lo r.hi e.1 := by
  refine ⟨hp.increasing h.increasing hnew v, fun e he => ?_⟩
  rcases mem_cons.mp (perm_middle.mem_iff.mp he) with rfl | he
  · exact hkey
  · exact h.range e (hp.eq ▸ he)

lemma Leaves.adds_room (h : Leaves m (La ++ r :: Lb)) (hkey : InRange r.lo r.hi key)
    (hp : Place key (m.leaf r.id).entries es1 es2) (hnew : ∀ e ∈ (m.leaf r.id).entries, e.1 ≠ key)
    (hrm : (m.leaf r.id).entries.length ≠ memBtreeM) :
    Adds m { m with
        leaf := update m.leaf r.id { m.leaf r.id with
          entries := es1 ++ (key, m.dummyval) :: es2, seq := (m.leaf r.id).seq + 1 }
        dummyval := m.dummyval + 1 } (La ++ r :: Lb) (La ++ r :: Lb) key r.id := by
  have hok := h.each r (mem_append_right _ mem_cons_self)
  obtain ⟨hinc, hrng⟩ := hok.place hkey hp hnew m.dummyval
  set m' : Mem K := { m with
    leaf := update m.leaf r.id { m.leaf r.id with
      entries := es1 ++ (key, m.dummyval) :: es2, seq := (m.leaf r.id).seq + 1 }
    dummyval := m.dummyval + 1 }
  have hsf : m'.leaf r.id = { m.leaf r.id with
      entries := es1 ++ (key, m.dummyval) :: es2, seq := (m.leaf r.id).seq + 1 } :=
    update_self _ _ _
  have hoth : ∀ c, c ≠ r.id → m'.leaf c = m.leaf c := fun c hc => update_of_ne hc _ _
  have htch : Touches m m' r.id :=
    ⟨fun c _ hc => by rw [hoth c hc]; exact ⟨rfl, rfl, rfl⟩, by rw [hsf]⟩
  refine ⟨h.replace (L := [r]) htch le_rfl ?_ (nodup_singleton _) ?_,
    Adds.of_contents (L := [r]) h htch hp.eq ?_, rfl, le_rfl, htch,
    fun r' hr' => ⟨r', hr', rfl, rfl⟩⟩
  · intro r' hr'
    rw [mem_singleton.mp hr']
    refine ⟨⟨hok.fresh, ?_, ?_, ?_⟩, ?_, .inl rfl⟩
    · rw [hsf]
      exact hinc
    · rw [hsf]
      exact hrng
    · have hsz := hok.size
      rw [hp.eq, length_append] at hsz hrm
      rw [hsf]
      simp only [length_append, length_cons]
      omega
    · rw [hsf]
      simp
  · refine h.links.frame fun c _ => ?_
    by_cases hc : c = r.id
    · subst hc
      rw [hsf]
      exact ⟨rfl, rfl⟩
    · rw [hoth c hc]
      exact ⟨rfl, rfl⟩
  · rw [contents_cons, hsf]
    exact append_nil _

lemma Leaves.adds_split (h : Leaves m (La ++ r :: Lb)) (hkey : InRange r.lo r.hi key)
    (hp : Place key (m.leaf r.id).entries es1 es2)
    (hnew : ∀ e ∈ (m.leaf r.id).entries, e.1 ≠ key) {l rest : List (K × ℕ)} {sep : K} {v : ℕ}
    (hl : l ≠ []) (happ : l ++ (sep, v) :: rest = es1 ++ (key, m.dummyval) :: es2)
    (hsz : l.length ≤ memBtreeM) (hsz' : ((sep, v) :: rest).length ≤ memBtreeM) :
    Between r.lo r.hi sep ∧
      Adds m { leaf := m.linkSibling r.id m.fresh l ((sep, v) :: rest), fresh := m.fresh + 1,
               dummyval := m.dummyval + 1 }
        (La ++ r :: Lb) (La ++ (splitRegion r m.fresh sep ++ Lb)) key r.id := by
  have hok := h.each r (mem_append_right _ mem_cons_self)
  -- the two halves together are one increasing list of keys of the region
  obtain ⟨hinc, hrng⟩ := hok.place hkey hp hnew m.dummyval
  rw [← happ] at hinc hrng
  obtain ⟨hincl, hincr, hcrs⟩ := pairwise_append.mp hinc
  set m' : Mem K := { leaf := m.linkSibling r.id m.fresh l ((sep, v) :: rest),
                      fresh := m.fresh + 1, dummyval := m.dummyval + 1 } with hm'
  have hsf : (m'.leaf r.id).entries = l := by rw [hm']; simp only [linkSibling_self]
  have hb : (m'.leaf m.fresh).entries = (sep, v) :: rest := by
    rw [hm']
    simp only [linkSibling_new hok.fresh.ne']
  have htch : Touches m m' r.id :=
    ⟨fun c hc hca => linkSibling_keeps hca hc.ne, by rw [hm']; simp only [linkSibling_self]⟩
  have hsep : Between r.lo r.hi sep := by
    obtain ⟨x, hx⟩ := exists_mem_of_ne_nil l hl
    exact ⟨(hrng x (mem_append_left _ hx)).1.above (hcrs x hx _ mem_cons_self),
      (hrng (sep, v) (mem_append_right _ mem_cons_self)).2⟩
  refine ⟨hsep, ⟨h.replace htch (Nat.le_succ _) ?_ ?_ ?_, Adds.of_contents h htch hp.eq ?_, rfl,
    Nat.le_succ _, htch, fun r' hr' => ?_⟩⟩
  · intro r' hr'
    rw [splitRegion, mem_pair] at hr'
    rcases hr' with rfl | rfl
    · refine ⟨⟨Nat.lt_succ_of_lt hok.fresh, hsf ▸ hincl, ?_, hsf ▸ hsz⟩, hsf ▸ hl, .inl rfl⟩
      rw [hsf]
      intro e he
      exact ⟨(hrng e (mem_append_left _ he)).1, hcrs e he _ mem_cons_self⟩
    · refine ⟨⟨Nat.lt_succ_self _, hb ▸ hincr, ?_, hb ▸ hsz'⟩, hb ▸ cons_ne_nil _ _, .inr le_rfl⟩
      rw [hb]
      intro e he
      refine ⟨?_, (hrng e (mem_append_right _ he)).2⟩
      rcases mem_cons.mp he with rfl | he
      · exact le_refl _
      · exact le_of_lt ((pairwise_cons.mp hincr).1 e he)
  · simp [splitRegion, hok.fresh.ne]
  · have hfreshNot : m.fresh ∉ (La ++ r :: Lb).map Region.id := by
      intro hmem
      obtain ⟨r', hr', heq⟩ := mem_map.mp hmem
      exact (heq ▸ (h.each r' hr').fresh).ne rfl
    have hnd := h.nodup
    have hlk := h.links
    simp only [splitRegion, map_append, map_cons] at hfreshNot hnd hlk ⊢
    exact hlk.insert hnd hfreshNot (newLink_linkSibling hok.fresh.ne' _ _)
  · rw [splitRegion, contents_cons, contents_cons, hsf, hb, ← happ]
    simp [contents]
  · rcases mem_cons.mp (perm_middle.mem_iff.mp hr') with rfl | hr'
    · exact ⟨⟨r'.id, r'.lo, some sep⟩, by simp [splitRegion], rfl, rfl⟩
    · exact ⟨r', by simp only [mem_append] at hr' ⊢; tauto, rfl, rfl⟩

/-- `LeafInsert` at the leaf whose region has the key: the key is there; or it is
added; or it is added and the region is cut in two. -/
lemma Leaves.leafInsert (h : Leaves m (La ++ r :: Lb)) (hkey : InRange r.lo r.hi key) :
    (∃ v, (key, v) ∈ (m.leaf r.id).entries ∧ m.leafInsert key r.id = (m, none, v)) ∨
    (∀ e ∈ (m.leaf r.id).entries, e.1 ≠ key) ∧ ∃ m',
      (m.leafInsert key r.id = (m', none, m.dummyval) ∧
        Adds m m' (La ++ r :: Lb) (La ++ r :: Lb) key r.id) ∨
      ∃ b sep v rest, m.leafInsert key r.id = (m', some b, m.dummyval) ∧
        (m'.leaf b).entries = (sep, v) :: rest ∧ Between r.lo r.hi sep ∧ (rest = [] → Lb = []) ∧
        Adds m m' (La ++ r :: Lb) (La ++ (splitRegion r b sep ++ Lb)) key r.id := by
  have hok := h.each r (mem_append_right _ mem_cons_self)
  by_cases hthr : ∃ v, (key, v) ∈ (m.leaf r.id).entries
  · obtain ⟨v, hv⟩ := hthr
    exact .inl ⟨v, hv, leafInsert_found hok.increasing hv⟩
  have hnew : ∀ e ∈ (m.leaf r.id).entries, e.1 ≠ key := by
    rintro ⟨k, v⟩ he rfl
    exact hthr ⟨v, he⟩
  have hp := hok.increasing.place key
  refine .inr ⟨hnew, ?_⟩
  rw [leafInsert_new hnew]
  by_cases hfu : (m.leaf r.id).entries.length = memBtreeM
  · obtain ⟨l, l', hadd, happ, hl, hl', hsz, hsz', hed⟩ := leafAdd_full key hp.eq hfu
    obtain ⟨⟨sep, v⟩, rest, rfl⟩ := exists_cons_of_ne_nil hl'
    obtain ⟨hsep, had⟩ := h.adds_split hkey hp hnew hl happ hsz hsz'
    refine ⟨_, .inr ⟨m.fresh, sep, v, rest, hadd, ?_, hsep, fun hrs => ?_, had⟩⟩
    · simp only [linkSibling_new hok.fresh.ne']
    · have hrt := hed (by rw [hrs]; rfl)
      have hlk := h.links
      rw [map_append, map_cons] at hlk
      rw [hlk.right_eq, head?_eq_none_iff, map_eq_nil_iff] at hrt
      exact hrt
  · exact ⟨_, .inl ⟨leafAdd_room hp.eq hfu, h.adds_room hkey hp hnew hfu⟩⟩

end

end Librdpma.Drtmh.BPlusTree
