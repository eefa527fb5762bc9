import Librdpma.Drtmh.BPlusTreeIter

/-!
# `Seek` and `SeekPrev` (`memstore_uint64bplustree.cc`, `memstore_bplustree.cc`)

The `FindLeaf` of `MemstoreUint64BPlusTree` goes to the left of a separator that
equals the key, and its `Seek` reads the leaf it ends at without a test for
`NULL`. `SeekPrev` moves to the leaf of the previous key, but does not read the
key and the value; if there is no such leaf, it reads from `NULL`.
-/

namespace Librdpma.Drtmh.BPlusTree

open Lib List Outcome

variable {K : Type} [LinearOrder K]

def findLeafUint64 (key : K) : ℕ → Node K → Outcome ℕ
  | 0, .leaf a => .done a
  | 0, .inner _ _ _ => .undefined
  | _ + 1, .leaf _ => .undefined
  | d + 1, .inner ks cs _ =>
      match cs[(ks.takeWhile (· < key)).length]? with
      | none => .undefined
      | some child => findLeafUint64 key d child

def Tree.findLeafUint64 (t : Tree K) (key : K) : Outcome ℕ :=
  match t.root with
  | none => .undefined
  | some root => BPlusTree.findLeafUint64 key t.depth root

def Iterator.seekUint64 (t : Tree K) (key : K) (it : Iterator K) : Outcome (Iterator K) := do
  let a ← t.findLeafUint64 key
  let it := { it with link := some (a, (t.mem.leaf a).seq) }
  let it ← it.land t.mem a ((t.mem.leaf a).entries.takeWhile fun e => e.1 < key).length false
  -- `node_->seq`, without the test of the other tree
  if it.node.isNone then .undefined else return it

/-- `SeekPrev` in the leaf it has found. -/
def Iterator.seekPrevIn (m : Mem K) (key : K) (it : Iterator K) (a : ℕ) : Outcome (Iterator K) :=
  if ((m.leaf a).entries.takeWhile fun e => e.1 < key).length = 0 then
    match (m.leaf a).left with
    | none => .undefined
    | some b => .done { it with
        node := some b
        link := some (b, (m.leaf b).seq)
        leafIndex := (m.leaf b).entries.length - 1 }
  else .done { it with node := some a, link := some (a, (m.leaf a).seq) }

def Iterator.seekPrev (t : Tree K) (key : K) (it : Iterator K) : Outcome (Iterator K) :=
  t.findLeaf key >>= it.seekPrevIn t.mem key

def Iterator.seekPrevUint64 (t : Tree K) (key : K) (it : Iterator K) : Outcome (Iterator K) :=
  t.findLeafUint64 key >>= it.seekPrevIn t.mem key

/-- The largest stored key below `key`, with its value. -/
structure IsPrev (t : Tree K) (key : K) (e : K × ℕ) : Prop where
  stored : t.get e.1 = .done (some e.2)
  lt : e.1 < key
  greatest : ∀ key' v, t.get key' = .done (some v) → key' < key → key' ≤ e.1

/-- What `SeekPrev` is for. -/
def AtPrev (t : Tree K) (key : K) (it : Iterator K) : Prop :=
  (∃ e, IsPrev t key e ∧ it.Valid t.mem ∧ it.cur = some e) ∨
    ((∀ key' v, t.get key' = .done (some v) → key ≤ key') ∧ ¬ it.Valid t.mem)

/-! ## The leaf that is found -/

variable {t : Tree K} {L La Lb : List (Region K)} {r r' : Region K} {d : ℕ} {lo hi : Option K}
  {node : Node K} {key x : K} {it : Iterator K}

lemma Tiles.right_of (h : Tiles hi lo (La ++ r :: Lb)) (hr : r' ∈ Lb) (hx : AtLeast r'.lo x) :
    ∃ s, r.hi = some s ∧ s ≤ x := by
  generalize hL : La ++ r :: Lb = L at h
  induction h generalizing La with
  | one =>
    have hlen := congrArg length hL
    have := length_pos_of_mem hr
    rw [length_append, length_cons, length_singleton] at hlen
    omega
  | cons a hs h ih =>
    cases La with
    | nil =>
      cases hL
      exact ⟨_, rfl, h.atLeast hr hx⟩
    | cons r0 La => exact ih (cons.inj hL).2

lemma Index.findLeafUint64 (h : Index d lo hi node L) (hlo : Above lo key)
    (hhi : ∀ s ∈ hi, key ≤ s) :
    ∃ La r Lb, L = La ++ r :: Lb ∧ Above r.lo key ∧ (∀ s ∈ r.hi, key ≤ s) ∧
      BPlusTree.findLeafUint64 key d node = .done r.id := by
  induction d generalizing lo hi node L with
  | zero =>
    obtain ⟨a, rfl, rfl⟩ := h
    exact ⟨[], _, [], rfl, hlo, hhi, rfl⟩
  | succ d ih =>
    obtain ⟨ks, cs, spare, rfl, -, h⟩ := h
    -- the search stops at the first separator that is not below the key
    rw [← takeWhile_append_dropWhile (p := (· < key)) (l := ks)] at h
    obtain ⟨cs1, c, cs2, L1, M, L2, lo', hi', rfl, rfl, hl, hc, hr⟩ := h.split
    have hlo' : Above lo' key := hl.bound (B := (Above · key)) hlo fun s hs => by
      simpa [Above] using all_eq_true.mp all_takeWhile s hs
    have hhi' : ∀ s ∈ hi', key ≤ s := by
      refine hr.bound (B := fun b => ∀ s ∈ b, key ≤ s) hhi fun s hs => ?_
      have := head?_dropWhile_not (fun s => decide (s < key)) ks
      rw [hs] at this
      simpa using this
    obtain ⟨La, r, Lb, rfl, hlor, hhir, hfd⟩ := ih hc hlo' hhi'
    refine ⟨L1 ++ La, r, Lb ++ L2, by simp, hlor, hhir, ?_⟩
    rw [BPlusTree.findLeafUint64, ← hl.length_eq, getElem?_append_length]
    exact hfd

/-- Both trees find a leaf that divides the keys. -/
lemma Inv.divides (h : Inv t L) (key : K) (find : Outcome ℕ)
    (hfd : find = t.findLeaf key ∨ find = t.findLeafUint64 key) :
    ∃ La r Lb, L = La ++ r :: Lb ∧ find = .done r.id ∧ (∀ e ∈ contents t.mem La, e.1 < key) ∧
      ∀ e ∈ contents t.mem Lb, key ≤ e.1 := by
  rcases hfd with rfl | rfl
  · obtain ⟨La, r, Lb, rfl, hkey, hfd⟩ := h.findLeaf key
    exact ⟨La, r, Lb, rfl, hfd, h.left_of hkey.1, fun e he => (h.right_of hkey e he).le⟩
  · obtain ⟨root, hrt, hidx⟩ := h.index
    obtain ⟨La, r, Lb, rfl, hlo, hhi, hfd⟩ :=
      hidx.findLeafUint64 (show Above none key from trivial) (by simp)
    refine ⟨La, r, Lb, rfl, by rw [Tree.findLeafUint64, hrt]; exact hfd,
      h.left_of hlo.atLeast, fun e he => ?_⟩
    obtain ⟨r', hr', he⟩ := mem_contents.mp he
    obtain ⟨s, hs, hle⟩ := h.tiles.right_of hr' ((h.leaves.each r' (by simp [hr'])).range e he).1
    exact (hhi s hs).trans hle

/-! ## `Seek` -/

lemma Inv.seekUint64 (h : Inv t L) (key : K) (it : Iterator K) :
    (∃ it', it.seekUint64 t key = .done it' ∧ Least t (key ≤ ·) it') ↔
      ∃ key' v, t.get key' = .done (some v) ∧ key ≤ key' := by
  obtain ⟨La, r, Lb, rfl, hfd, hlf, hrt⟩ := h.divides key _ (.inr rfl)
  obtain ⟨it', before, hln, hst, hlst⟩ :=
    h.land_least hlf hrt { it with link := some (r.id, (t.mem.leaf r.id).seq) }
  rw [Iterator.seekUint64, hfd]
  simp only [done_bind, hln]
  cases hlst with
  | none hval hno =>
    -- the number of a node that is not there is read
    have hoff : it'.node = none := by
      cases hst with
      | off hnd _ => exact hnd
      | on _ _ hon => exact absurd hon.valid hval
    refine iff_of_false ?_ ?_
    · rintro ⟨it1, hdn, -⟩
      simp [hoff] at hdn
    · rintro ⟨key', v, hget, hle⟩
      exact hno key' v hget hle
  | @some k v hval hcur hget hP hmin =>
    have hnd : it'.node.isNone = false := by
      obtain ⟨a, ha, -⟩ := hval
      rw [ha]
      rfl
    exact iff_of_true ⟨it', by simp [hnd], .some hval hcur hget hP hmin⟩ ⟨k, v, hget, hP⟩

/-- **`Seek` finds the least key from its argument on exactly if there is one**, in
every tree that is built by insertions. -/
theorem seekUint64_least_iff (calls : List (Call K)) :
    ∃ results t, runCalls calls .empty = .done (results, t) ∧ ∀ key it,
      (∃ it', Iterator.seekUint64 t key it = .done it' ∧ Least t (key ≤ ·) it') ↔
        ∃ key' v, t.get key' = .done (some v) ∧ key ≤ key' := by
  obtain ⟨t, node, ⟨results, hrun, -⟩, L, hinv, -⟩ := after_calls calls
  exact ⟨results, t, hrun, hinv.seekUint64⟩

/-- Behind the only key there is no node to read. -/
theorem seekUint64_behind_last : ∃ results t, runCalls [.insert 5] .empty = .done (results, t) ∧
    Iterator.seekUint64 t 7 .new = .undefined :=
  ⟨_, _, rfl, rfl⟩

/-! ## `SeekPrev` -/

/-- `SeekPrev` ends at a valid node, or there is no key below. The current entry
stays as it was. -/
lemma Inv.seekPrevIn (h : Inv t (La ++ r :: Lb)) (hlf : ∀ e ∈ contents t.mem La, e.1 < key)
    (hrt : ∀ e ∈ contents t.mem Lb, key ≤ e.1) (it : Iterator K) :
    (it.seekPrevIn t.mem key r.id = .undefined ∧ ∀ e ∈ contents t.mem (La ++ r :: Lb), key ≤ e.1) ∨
    ∃ it', it.seekPrevIn t.mem key r.id = .done it' ∧ it'.Valid t.mem ∧ it'.cur = it.cur := by
  have hp := (h.leaves.each r (mem_append_right _ mem_cons_self)).increasing.place key
  rw [Iterator.seekPrevIn]
  split_ifs with hk
  · have hlk := h.leaves.links
    rw [map_append, map_cons] at hlk
    rw [hlk.left_eq, Option.or_none]
    -- no key of the leaf is below `key`, so the leaf to the left is taken
    rcases eq_nil_or_concat La with rfl | ⟨La, r', rfl⟩
    · refine .inl ⟨rfl, fun e he => ?_⟩
      rw [length_eq_zero_iff.mp hk] at hp
      rw [nil_append, contents_cons, hp.eq, nil_append] at he
      exact (mem_append.mp he).elim (hp.above e) (hrt e)
    · rw [concat_eq_append] at h ⊢
      simp only [map_append, map_singleton, getLast?_append, getLast?_singleton, Option.some_or]
      refine .inr ⟨_, rfl, ⟨r'.id, rfl, length_pos_iff.mpr fun hnil => ?_⟩, rfl⟩
      -- only the leaf of an empty tree has no entries
      have := congrArg length (h.leaves.filled r' (by simp) hnil)
      simp only [length_append, length_cons, length_nil] at this
      omega
  · refine .inr ⟨_, rfl, ⟨r.id, rfl, ?_⟩, rfl⟩
    rw [hp.eq, length_append]
    omega

lemma Inv.seekPrev (h : Inv t L) (key : K) (it : Iterator K) (find : Outcome ℕ)
    (hfd : find = t.findLeaf key ∨ find = t.findLeafUint64 key) :
    (∃ it', find >>= it.seekPrevIn t.mem key = .done it' ∧ AtPrev t key it') ↔
      ∃ e, it.cur = some e ∧ IsPrev t key e := by
  obtain ⟨La, r, Lb, rfl, rfl, hlf, hrt⟩ := h.divides key find hfd
  rw [done_bind]
  rcases h.seekPrevIn hlf hrt it with ⟨hund, hno⟩ | ⟨it', hdn, hval, hcur⟩
  · refine iff_of_false ?_ ?_
    · rintro ⟨it', hdn, -⟩
      rw [hund] at hdn
      cases hdn
    · rintro ⟨e, -, he⟩
      exact not_lt_of_ge (hno e (h.get_iff.mp he.stored)) he.lt
  · rw [hdn, ← hcur]
    constructor
    · rintro ⟨_, ⟨⟩, ⟨e, he, -, hcur⟩ | ⟨-, hinv⟩⟩
      · exact ⟨e, hcur, he⟩
      · exact absurd hval hinv
    · rintro ⟨e, hcur, he⟩
      exact ⟨it', rfl, .inl ⟨e, he, hval, hcur⟩⟩

/-- **`SeekPrev` ends at the previous key exactly if the iterator has its key and
its value already**, in both trees. -/
theorem seekPrev_atPrev_iff (calls : List (Call K)) :
    ∃ results t, runCalls calls .empty = .done (results, t) ∧ ∀ key it,
      ((∃ it', Iterator.seekPrev t key it = .done it' ∧ AtPrev t key it') ↔
        ∃ e, it.cur = some e ∧ IsPrev t key e) ∧
      ((∃ it', Iterator.seekPrevUint64 t key it = .done it' ∧ AtPrev t key it') ↔
        ∃ e, it.cur = some e ∧ IsPrev t key e) := by
  obtain ⟨t, node, ⟨results, hrun, -⟩, L, hinv, -⟩ := after_calls calls
  exact ⟨results, t, hrun, fun key it =>
    ⟨hinv.seekPrev key it _ (.inl rfl), hinv.seekPrev key it _ (.inr rfl)⟩⟩

/-- A new iterator is at the leaf of key 5, without its key and value. -/
theorem seekPrev_without_key : ∃ results t it, runCalls [.insert 5] .empty = .done (results, t) ∧
    t.get 5 = .done (some 0) ∧ Iterator.seekPrev t 7 .new = .done it ∧ it.Valid t.mem ∧
    it.cur = none :=
  ⟨_, _, _, rfl, rfl, rfl, ⟨0, rfl, by decide⟩, rfl⟩

end Librdpma.Drtmh.BPlusTree
