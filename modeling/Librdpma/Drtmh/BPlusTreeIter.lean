import Librdpma.Drtmh.BPlusTreeMap

/-!
# The iterator of the B+ tree (`src/memstore/memstore_bplustree.cc`)

An iterator stands at a place of a leaf and remembers the `seq` of the leaf. When
`Next` finds another `seq`, it looks for its key again, from its leaf to the
right: keys that were moved by a split are there, as leaves keep their lower
bounds.
-/

namespace Librdpma.Drtmh.BPlusTree

open Lib List Outcome

variable {K : Type} [LinearOrder K]

/-! ## `MemstoreBPlusTree::Iterator` -/

/-- `cur` is `key_` with `value_`, `link` the leaf of `link_` with `target_`;
they are not set at first. -/
structure Iterator (K : Type) where
  node : Option ℕ
  seq : ℕ
  leafIndex : ℕ
  cur : Option (K × ℕ)
  link : Option (ℕ × ℕ)

def Iterator.new : Iterator K := ⟨none, 0, 0, none, none⟩

def Iterator.Valid (m : Mem K) (it : Iterator K) : Prop :=
  ∃ a, it.node = some a ∧ 0 < (m.leaf a).entries.length

/-- Place `i` of leaf `a` is read. A place without a key would give what an
earlier key has left there. -/
def Iterator.load (m : Mem K) (a i : ℕ) (it : Iterator K) : Outcome (Iterator K) :=
  match (m.leaf a).entries[i]? with
  | none => .undefined
  | some e => .done { it with node := some a, seq := (m.leaf a).seq, leafIndex := i, cur := some e }

/-- The ends of `Seek` and `Next`: behind the last key of a leaf they go to the
next leaf. Only `Next` sets the link then. -/
def Iterator.land (m : Mem K) (a i : ℕ) (relink : Bool) (it : Iterator K) : Outcome (Iterator K) :=
  if i < (m.leaf a).entries.length then it.load m a i
  else
    match (m.leaf a).right with
    | none => .done { it with node := none, leafIndex := 0 }
    | some c => Iterator.load m c 0
        { it with link := if relink then some (c, (m.leaf c).seq) else it.link }

/-- The loop of `Next` that looks for a key above `key`, from leaf `a` on. It
needs as many rounds as there are leaves. -/
def searchRight (m : Mem K) (key : K) : ℕ → ℕ → Outcome (Option (ℕ × ℕ))
  | 0, _ => .loop
  | fuel + 1, a =>
      let k := ((m.leaf a).entries.takeWhile fun e => e.1 ≤ key).length
      if k = (m.leaf a).entries.length then
        match (m.leaf a).right with
        | none => .done none
        | some b => searchRight m key fuel b
      else .done (some (a, k))

/-- `Next`; it returns whether it found the leaf as it was. -/
def Iterator.next (m : Mem K) (it : Iterator K) : Outcome (Bool × Iterator K) :=
  match it.node with
  | none => .undefined
  | some a =>
      if (m.leaf a).seq ≠ it.seq then
        match it.cur with
        | none => .undefined
        | some (key, _) => do
            match ← searchRight m key m.fresh a with
            | none => return (false, { it with node := none })
            | some (b, k) => return (false, ← it.land m b k true)
      else do return (true, ← it.land m a (it.leafIndex + 1) true)

def Iterator.seek (t : Tree K) (key : K) (it : Iterator K) : Outcome (Iterator K) := do
  let a ← t.findLeaf key
  let it := { it with link := some (a, (t.mem.leaf a).seq) }
  it.land t.mem a ((t.mem.leaf a).entries.takeWhile fun e => e.1 < key).length false

/-! ## Where an iterator stands -/

section

variable {m : Mem K} {La Lb L : List (Region K)} {r r' : Region K} {E1 E2 : List (K × ℕ)}
  {e e' : K × ℕ} {it it' : Iterator K} {relink : Bool} {key : K}

/-- The iterator stands at `e` in the leaf of `r`, and has seen the leaf as it
is. -/
structure On (m : Mem K) (r : Region K) (E1 : List (K × ℕ)) (e : K × ℕ) (E2 : List (K × ℕ))
    (it : Iterator K) : Prop where
  entries : (m.leaf r.id).entries = E1 ++ e :: E2
  node : it.node = some r.id
  index : it.leafIndex = E1.length
  cur : it.cur = some e
  seq : it.seq = (m.leaf r.id).seq

/-- The iterator stands at the first of the keys that follow `before`. -/
inductive Stands (m : Mem K) (L : List (Region K)) (before : List (K × ℕ)) (it : Iterator K) : Prop
  | off (hnode : it.node = none) (hall : contents m L = before)
  | on {La Lb : List (Region K)} {r : Region K} {E1 E2 : List (K × ℕ)} {e : K × ℕ}
      (hL : L = La ++ r :: Lb) (hbefore : before = contents m La ++ E1) (h : On m r E1 e E2 it)

section

omit [LinearOrder K]

lemma Iterator.not_valid_of_node (h : it.node = none) : ¬ it.Valid m := by
  rintro ⟨a, ha, -⟩
  rw [h] at ha
  cases ha

lemma On.valid (h : On m r E1 e E2 it) : it.Valid m :=
  ⟨r.id, h.node, by rw [h.entries, length_append]; exact Nat.add_pos_right _ (Nat.succ_pos _)⟩

lemma On.mem (h : On m r E1 e E2 it) : e ∈ (m.leaf r.id).entries := by
  rw [h.entries]
  simp

lemma land_here (it : Iterator K) (relink : Bool) (h : (m.leaf r.id).entries = E1 ++ e :: E2) :
    ∃ it', it.land m r.id E1.length relink = .done it' ∧ On m r E1 e E2 it' ∧
      it'.link = it.link := by
  have hget : (m.leaf r.id).entries[E1.length]? = some e := by rw [h]; simp
  rw [Iterator.land, if_pos (by rw [h]; simp), Iterator.load, hget]
  exact ⟨_, rfl, ⟨h, rfl, rfl, rfl, rfl⟩, rfl⟩

lemma land_next (it : Iterator K) (relink : Bool) (hrt : (m.leaf r.id).right = some r'.id)
    (h : (m.leaf r'.id).entries = e :: E2) :
    ∃ it', it.land m r.id (m.leaf r.id).entries.length relink = .done it' ∧ On m r' [] e E2 it' ∧
      it'.link = if relink then some (r'.id, (m.leaf r'.id).seq) else it.link := by
  have hget : (m.leaf r'.id).entries[0]? = some e := by rw [h]; rfl
  simp only [Iterator.land, if_neg (lt_irrefl _), hrt, Iterator.load, hget]
  exact ⟨_, rfl, ⟨h, rfl, rfl, rfl, rfl⟩, rfl⟩

lemma land_off (it : Iterator K) (relink : Bool) (hrt : (m.leaf r.id).right = none) :
    it.land m r.id (m.leaf r.id).entries.length relink =
      .done { it with node := none, leafIndex := 0 } := by
  simp only [Iterator.land, if_neg (lt_irrefl _), hrt]

end

lemma Leaves.right_eq (h : Leaves m (La ++ r :: Lb)) :
    (m.leaf r.id).right = Lb.head?.map Region.id := by
  have hlk := h.links
  rw [map_append, map_cons] at hlk
  rw [hlk.right_eq, head?_map]

lemma Leaves.first_entry (h : Leaves m (La ++ r :: r' :: Lb)) :
    ∃ e E, (m.leaf r'.id).entries = e :: E := by
  refine exists_cons_of_ne_nil fun hnil => ?_
  have := congrArg length (h.filled r' (by simp) hnil)
  rw [length_append, length_cons, length_cons, length_singleton] at this
  omega

lemma land_stands (it : Iterator K) (relink : Bool) (h : Leaves m (La ++ r :: Lb))
    (hent : (m.leaf r.id).entries = E1 ++ E2) :
    ∃ it', it.land m r.id E1.length relink = .done it' ∧
      Stands m (La ++ r :: Lb) (contents m La ++ E1) it' := by
  cases E2 with
  | cons e E2 =>
    obtain ⟨it', hln, hon, -⟩ := land_here it relink hent
    exact ⟨it', hln, .on rfl rfl hon⟩
  | nil =>
    rw [append_nil] at hent
    have hrt := h.right_eq
    cases Lb with
    | nil =>
      refine ⟨_, hent ▸ land_off it relink hrt, .off rfl ?_⟩
      rw [contents_append, contents_cons, hent]
      exact congrArg _ (append_nil _)
    | cons r' Lb =>
      obtain ⟨e, E, he⟩ := h.first_entry
      obtain ⟨it', hln, hon, -⟩ := land_next it relink hrt he
      refine ⟨it', hent ▸ hln, .on (append_cons _ _ _) ?_ hon⟩
      rw [contents_append, contents_cons, hent]
      simp [contents]

lemma key_in_leaf (m : Mem K) (key : K) (a : ℕ) :
    ((∀ fuel, searchRight m key (fuel + 1) a = match (m.leaf a).right with
        | none => .done none
        | some b => searchRight m key fuel b) ∧ ∀ e ∈ (m.leaf a).entries, e.1 ≤ key) ∨
    ∃ E1 e E2, (m.leaf a).entries = E1 ++ e :: E2 ∧
      (∀ fuel, searchRight m key (fuel + 1) a = .done (some (a, E1.length))) ∧ key < e.1 ∧
      ∀ e ∈ E1, e.1 ≤ key := by
  have happ := takeWhile_append_dropWhile (p := fun e : K × ℕ => decide (e.1 ≤ key))
    (l := (m.leaf a).entries)
  have hle : ∀ e ∈ (m.leaf a).entries.takeWhile fun e => e.1 ≤ key, e.1 ≤ key := fun e he => by
    simpa using mem_takeWhile_imp he
  cases hdr : (m.leaf a).entries.dropWhile fun e => e.1 ≤ key with
  | nil =>
    rw [hdr, append_nil] at happ
    rw [happ] at hle
    refine .inl ⟨fun fuel => ?_, hle⟩
    simp only [searchRight, happ, if_pos]
  | cons e E2 =>
    have hhd := head?_dropWhile_not (fun e : K × ℕ => decide (e.1 ≤ key)) (m.leaf a).entries
    rw [hdr] at happ hhd
    refine .inr ⟨_, e, E2, happ.symm, fun fuel => ?_, by simpa using hhd, hle⟩
    rw [searchRight, if_neg]
    intro hlen
    have := congrArg length happ
    rw [length_append, length_cons] at this
    omega

/-- The loop of `Next` stops at the first leaf with a key above `key`. -/
lemma searchRight_spec {fuel : ℕ} (h : Leaves m (La ++ r :: Lb)) (hfl : Lb.length < fuel)
    (hbel : ∀ e ∈ contents m La, e.1 ≤ key) :
    (searchRight m key fuel r.id = .done none ∧ ∀ e ∈ contents m (La ++ r :: Lb), e.1 ≤ key) ∨
    ∃ La' r' Lb' E1 e E2, La ++ r :: Lb = La' ++ r' :: Lb' ∧
      searchRight m key fuel r.id = .done (some (r'.id, E1.length)) ∧
      (m.leaf r'.id).entries = E1 ++ e :: E2 ∧ key < e.1 ∧
      ∀ e ∈ contents m La' ++ E1, e.1 ≤ key := by
  obtain ⟨fuel, rfl⟩ : ∃ n, fuel = n + 1 := ⟨fuel - 1, by omega⟩
  induction Lb generalizing La r fuel with
  | nil =>
    rcases key_in_leaf m key r.id with ⟨hst, hle⟩ | ⟨E1, e, E2, hE, hst, hlt, hle⟩
    · refine .inl ⟨?_, fun e he => ?_⟩
      · rw [hst, h.right_eq]
        rfl
      · rw [contents_append, contents_cons] at he
        simp only [contents, flatMap_nil, append_nil] at he
        exact (mem_append.mp he).elim (hbel e) (hle e)
    · exact .inr ⟨La, r, [], E1, e, E2, rfl, hst _, hE, hlt, fun e he =>
        (mem_append.mp he).elim (hbel e) (hle e)⟩
  | cons r' Lb ih =>
    rcases key_in_leaf m key r.id with ⟨hst, hle⟩ | ⟨E1, e, E2, hE, hst, hlt, hle⟩
    · rw [hst, h.right_eq]
      rw [length_cons] at hfl
      obtain ⟨n, rfl⟩ : ∃ n, fuel = n + 1 := ⟨fuel - 1, by omega⟩
      have h' : Leaves m ((La ++ [r]) ++ r' :: Lb) := by rwa [← append_cons]
      rw [append_cons]
      refine ih h' (fun e he => ?_) n (by omega)
      rw [contents_append, contents_cons] at he
      simp only [contents, flatMap_nil, append_nil] at he
      exact (mem_append.mp he).elim (hbel e) (hle e)
    · exact .inr ⟨La, r, r' :: Lb, E1, e, E2, rfl, hst _, hE, hlt, fun e he =>
        (mem_append.mp he).elim (hbel e) (hle e)⟩

end

/-! ## The least key -/

/-- The iterator is at the least key of the tree with `P`, with its node, or it
is not valid and there is none. -/
inductive Least (t : Tree K) (P : K → Prop) (it : Iterator K) : Prop
  | none (hvalid : ¬ it.Valid t.mem) (hnone : ∀ key v, t.get key = .done (some v) → ¬ P key)
  | some {key : K} {v : ℕ} (hvalid : it.Valid t.mem) (hcur : it.cur = some (key, v))
      (hget : t.get key = .done (some v)) (hP : P key)
      (hleast : ∀ key' v', t.get key' = .done (some v') → P key' → key ≤ key')

section

variable {t t' : Tree K} {L L' La Lb : List (Region K)} {r : Region K} {it it' : Iterator K}
  {key : K} {before : List (K × ℕ)} {P : K → Prop}

lemma Inv.get_iff (h : Inv t L) {v : ℕ} :
    t.get key = .done (some v) ↔ (key, v) ∈ contents t.mem L := by
  refine ⟨fun hget => ?_, h.get_found⟩
  by_cases hmem : ∃ v', (key, v') ∈ contents t.mem L
  · obtain ⟨v', hv'⟩ := hmem
    rw [h.get_found hv'] at hget
    cases hget
    exact hv'
  · rw [h.get_absent fun v' hv' => hmem ⟨v', hv'⟩] at hget
    cases hget

/-- No key before the place has `P`, and the key at the place has it. -/
lemma Stands.least (hst : Stands t.mem L before it) (h : Inv t L) (hbefore : ∀ e ∈ before, ¬ P e.1)
    (hat : ∀ e rest, contents t.mem L = before ++ e :: rest → P e.1) : Least t P it := by
  cases hst with
  | off hnode hall =>
    exact .none (Iterator.not_valid_of_node hnode) fun key v hget =>
      hbefore _ (hall ▸ h.get_iff.mp hget)
  | @on La Lb r E1 E2 e hL hpre hon =>
    have hcon : contents t.mem L = before ++ e :: (E2 ++ contents t.mem Lb) := by
      rw [hL, contents_append, contents_cons, hon.entries, hpre]
      simp only [append_assoc, cons_append]
    have hinc := h.increasing
    rw [hcon] at hinc
    refine .some hon.valid hon.cur ?_ (hat e _ hcon) fun key' v' hget hP => ?_
    · rw [h.get_iff, hcon]
      exact mem_append_right _ mem_cons_self
    · rw [h.get_iff, hcon] at hget
      rcases mem_append.mp hget with hmem | hmem
      · exact absurd hP (hbefore _ hmem)
      · rcases mem_cons.mp hmem with rfl | hmem
        · exact le_refl _
        · exact le_of_lt ((pairwise_cons.mp (pairwise_append.mp hinc).2.1).1 _ hmem)

lemma Inv.left_of (h : Inv t (La ++ r :: Lb)) (hkey : AtLeast r.lo key) :
    ∀ e ∈ contents t.mem La, e.1 < key := by
  intro e he
  obtain ⟨r', hr', he⟩ := mem_contents.mp he
  have hrng := (h.leaves.each r' (mem_append_left _ hr')).range e he
  exact (pairwise_append.mp h.tiles.pairwise).2.2 r' hr' r mem_cons_self _ _ hrng hkey

lemma Inv.right_of (h : Inv t (La ++ r :: Lb)) (hkey : InRange r.lo r.hi key) :
    ∀ e ∈ contents t.mem Lb, key < e.1 := by
  intro e he
  obtain ⟨r', hr', he⟩ := mem_contents.mp he
  have hrng := (h.leaves.each r' (by simp [hr'])).range e he
  exact (pairwise_cons.mp (pairwise_append.mp h.tiles.pairwise).2.1).1 r' hr' _ _ hkey hrng.1

/-- The end of `Seek`, in a leaf that divides the keys at `key`. -/
lemma Inv.land_least (h : Inv t (La ++ r :: Lb)) (hlf : ∀ e ∈ contents t.mem La, e.1 < key)
    (hrt : ∀ e ∈ contents t.mem Lb, key ≤ e.1) (it : Iterator K) :
    ∃ it' before, it.land t.mem r.id
        ((t.mem.leaf r.id).entries.takeWhile fun e => e.1 < key).length false = .done it' ∧
      Stands t.mem (La ++ r :: Lb) before it' ∧ Least t (key ≤ ·) it' := by
  have hok := h.leaves.each r (mem_append_right _ mem_cons_self)
  have hp := hok.increasing.place key
  obtain ⟨it', hln, hst⟩ := land_stands it false h.leaves hp.eq
  refine ⟨it', _, hln, hst, hst.least h (fun e he => ?_) fun e rest heq => ?_⟩
  · rcases mem_append.mp he with he | he
    · exact not_le_of_gt (hlf e he)
    · exact not_le_of_gt (hp.below e he)
  · -- what follows the place is in this leaf or to its right
    have hall : contents t.mem (La ++ r :: Lb) = (contents t.mem La ++
        (t.mem.leaf r.id).entries.takeWhile fun e => e.1 < key) ++
        (((t.mem.leaf r.id).entries.dropWhile fun e => e.1 < key) ++ contents t.mem Lb) := by
      rw [contents_append, contents_cons, ← append_assoc, append_assoc (contents _ La),
        append_assoc (contents _ La), ← append_assoc (takeWhile _ _), ← hp.eq]
    have hrs := append_cancel_left (hall.symm.trans heq)
    have hmem : e ∈ e :: rest := mem_cons_self
    rw [← hrs] at hmem
    rcases mem_append.mp hmem with he | he
    · exact hp.above e he
    · exact hrt e he

lemma Inv.seek (h : Inv t L) (key : K) (it : Iterator K) :
    ∃ it' before, it.seek t key = .done it' ∧ Stands t.mem L before it' ∧
      Least t (key ≤ ·) it' := by
  obtain ⟨La, r, Lb, rfl, hkey, hfd⟩ := h.findLeaf key
  rw [Iterator.seek, hfd]
  exact h.land_least (h.left_of hkey.1) (fun e he => (h.right_of hkey e he).le) _

/-! ## Between the calls -/

/-- The iterator is in the leaf of a region, not to the right of its key, and if
the leaf has not changed, it stands at its key. -/
def Follows (m : Mem K) (L : List (Region K)) (it : Iterator K) : Prop :=
  ∀ a, it.node = some a → ∃ r ∈ L, r.id = a ∧ ∃ e, it.cur = some e ∧ AtLeast r.lo e.1 ∧
    it.seq ≤ (m.leaf a).seq ∧ (it.seq = (m.leaf a).seq → ∃ E1 E2, On m r E1 e E2 it)

lemma Stands.follows (hst : Stands t.mem L before it) (h : Inv t L) : Follows t.mem L it := by
  intro a ha
  cases hst with
  | off hnode _ =>
    rw [hnode] at ha
    cases ha
  | @on La Lb r E1 E2 e hL _ hon =>
    have hr : r ∈ L := hL ▸ mem_append_right _ mem_cons_self
    rw [hon.node] at ha
    cases ha
    exact ⟨r, hr, rfl, e, hon.cur, ((h.leaves.each r hr).range e hon.mem).1, hon.seq.le,
      fun _ => ⟨E1, E2, hon⟩⟩

/-- A new key in the leaf of the iterator is seen in `seq`, others leave the leaf
as it is. -/
lemma Follows.adds {c : ℕ} (h : Follows t.mem L it) (hinv : Inv t L)
    (had : Adds t.mem t'.mem L L' key c) : Follows t'.mem L' it := by
  intro a ha
  obtain ⟨r, hr, rfl, e, hcur, hlo, hseq, hsm⟩ := h a ha
  obtain ⟨r', hr', hid, hlo'⟩ := had.bounds r hr
  refine ⟨r', hr', hid, e, hcur, hlo' ▸ hlo, ?_⟩
  by_cases hc : r.id = c
  · subst hc
    have hbump := had.touches.seq
    exact ⟨by omega, fun heq => by omega⟩
  · obtain ⟨hent, -, hseq'⟩ := had.touches.same r.id (hinv.leaves.each r hr).fresh hc
    rw [hseq']
    refine ⟨hseq, fun heq => ?_⟩
    obtain ⟨E1, E2, hon⟩ := hsm heq
    exact ⟨E1, E2, hid ▸ hent.trans hon.entries, hid ▸ hon.node, hon.index, hon.cur,
      by rw [hid, hseq']; exact hon.seq⟩

lemma Leaves.length_le {m : Mem K} (h : Leaves m L) : L.length ≤ m.fresh := by
  have hsub : L.map Region.id ⊆ range m.fresh := by
    intro a ha
    obtain ⟨r, hr, rfl⟩ := mem_map.mp ha
    exact mem_range.mpr (h.each r hr).fresh
  have := (h.nodup.subperm hsub).length_le
  rwa [length_map, length_range] at this

lemma Inv.next_search (h : Inv t (La ++ r :: Lb)) {e : K × ℕ} (hnode : it.node = some r.id)
    (hcur : it.cur = some e) (hlo : AtLeast r.lo e.1) (hseq : (t.mem.leaf r.id).seq ≠ it.seq) :
    ∃ it' before, it.next t.mem = .done (false, it') ∧ Stands t.mem (La ++ r :: Lb) before it' ∧
      Least t (e.1 < ·) it' := by
  have hfl : Lb.length < t.mem.fresh := by
    have := h.leaves.length_le
    rw [length_append, length_cons] at this
    omega
  rw [Iterator.next, hnode]
  dsimp only
  rw [if_pos hseq, hcur]
  rcases searchRight_spec h.leaves hfl fun e' he' => (h.left_of hlo e' he').le with
    ⟨hsr, hall⟩ | ⟨La', r', Lb', E1, e', E2, hL, hsr, hent, hlt, hle⟩
  · refine ⟨{ it with node := none }, _, ?_, .off rfl rfl, ?_⟩
    · simp only [hsr, done_bind, pure_eq, hcur]
    · exact .none (Iterator.not_valid_of_node rfl) fun key v hget =>
        not_lt_of_ge (hall _ (h.get_iff.mp hget))
  · obtain ⟨it', hln, hon, -⟩ := land_here it true hent
    have hst : Stands t.mem (La ++ r :: Lb) (contents t.mem La' ++ E1) it' := .on hL rfl hon
    refine ⟨it', _, ?_, hst, hst.least h (fun x hx => not_lt_of_ge (hle x hx)) fun x rest heq => ?_⟩
    · simp only [hsr, done_bind, hln, pure_eq]
    · rw [hL, contents_append, contents_cons, hent] at heq
      simp only [append_assoc, cons_append] at heq
      have hrs := append_cancel_left (append_cancel_left heq)
      rw [← (cons.inj hrs).1]
      exact hlt

lemma Inv.next_same (h : Inv t (La ++ r :: Lb)) {E1 E2 : List (K × ℕ)} {e : K × ℕ}
    (hon : On t.mem r E1 e E2 it) :
    ∃ it' before, it.next t.mem = .done (true, it') ∧ Stands t.mem (La ++ r :: Lb) before it' ∧
      Least t (e.1 < ·) it' := by
  have hok := h.leaves.each r (mem_append_right _ mem_cons_self)
  have hent : (t.mem.leaf r.id).entries = (E1 ++ [e]) ++ E2 := by
    rw [hon.entries, append_cons]
  obtain ⟨it', hln, hst⟩ := land_stands it true h.leaves hent
  rw [length_append, length_singleton] at hln
  refine ⟨it', _, ?_, hst, hst.least h (fun x hx => ?_) fun x rest heq => ?_⟩
  · rw [Iterator.next, hon.node]
    dsimp only
    rw [if_neg (not_not.mpr hon.seq.symm), hon.index, hln]
    rfl
  · rcases mem_append.mp hx with hx | hx
    · exact not_lt_of_ge (h.left_of (hok.range e hon.mem).1 x hx).le
    · rcases mem_append.mp hx with hx | hx
      · have hinc := hok.increasing
        rw [hon.entries] at hinc
        exact not_lt_of_ge ((pairwise_append.mp hinc).2.2 x hx e mem_cons_self).le
      · rw [mem_singleton.mp hx]
        exact lt_irrefl _
  · have hinc := h.increasing
    rw [heq] at hinc
    exact (pairwise_append.mp hinc).2.2 e (by simp) x mem_cons_self

lemma Inv.next (h : Inv t L) (hfol : Follows t.mem L it) (hvalid : it.Valid t.mem) :
    ∃ b it' before e, it.cur = some e ∧ it.next t.mem = .done (b, it') ∧
      Stands t.mem L before it' ∧ Least t (e.1 < ·) it' := by
  obtain ⟨a, hnode, -⟩ := hvalid
  obtain ⟨r, hr, rfl, e, hcur, hlo, -, hsm⟩ := hfol a hnode
  obtain ⟨La, Lb, rfl⟩ := append_of_mem hr
  by_cases hseq : it.seq = (t.mem.leaf r.id).seq
  · obtain ⟨E1, E2, hon⟩ := hsm hseq
    obtain ⟨it', before, hnext, hst, hleast⟩ := h.next_same hon
    exact ⟨true, it', before, e, hcur, hnext, hst, hleast⟩
  · obtain ⟨it', before, hnext, hst, hleast⟩ :=
      h.next_search hnode hcur hlo fun heq => hseq heq.symm
    exact ⟨false, it', before, e, hcur, hnext, hst, hleast⟩

end

/-! ## Interleavings -/

/-- The states of a tree and one iterator: insertions are made at any time,
`Next` is called on a valid iterator. -/
inductive Reaches : Tree K → Iterator K → Prop
  | new : Reaches .empty .new
  | insert {t t' : Tree K} {it : Iterator K} {key : K} {v : ℕ} (h : Reaches t it)
      (hins : t.insert key = .done (v, t')) : Reaches t' it
  | seek {t : Tree K} {it it' : Iterator K} {key : K} (h : Reaches t it)
      (hseek : it.seek t key = .done it') : Reaches t it'
  | next {t : Tree K} {it it' : Iterator K} {b : Bool} (h : Reaches t it)
      (hvalid : it.Valid t.mem) (hnext : it.next t.mem = .done (b, it')) : Reaches t it'

lemma Reaches.follows {t : Tree K} {it : Iterator K} (h : Reaches t it) :
    ∃ L, Inv t L ∧ Follows t.mem L it := by
  induction h with
  | new => exact ⟨_, Inv.empty, nofun⟩
  | @insert t t' it key v _ hins ih =>
    obtain ⟨L, hinv, hfol⟩ := ih
    have hstep := hinv.insert key
    rw [hins] at hstep
    cases hstep with
    | found _ => exact ⟨L, hinv, hfol⟩
    | added _ _ had hinv' => exact ⟨_, hinv', hfol.adds hinv had⟩
  | seek _ hseek ih =>
    obtain ⟨L, hinv, -⟩ := ih
    obtain ⟨it', before, hsk', hst, -⟩ := hinv.seek _ _
    rw [hseek] at hsk'
    cases hsk'
    exact ⟨L, hinv, hst.follows hinv⟩
  | next _ hvalid hnext ih =>
    obtain ⟨L, hinv, hfol⟩ := ih
    obtain ⟨b, it', before, e, -, hnx', hst, -⟩ := hinv.next hfol hvalid
    rw [hnext] at hnx'
    cases hnx'
    exact ⟨L, hinv, hst.follows hinv⟩

/-- In every interleaving, `Seek` returns at the least key from its argument on,
and `Next` at the least key above the current one. -/
theorem iterator_at_least_key (t : Tree K) (it : Iterator K) (h : Reaches t it) :
    (∀ key, ∃ it', it.seek t key = .done it' ∧ Least t (key ≤ ·) it') ∧
      (it.Valid t.mem → ∃ b it' key v, it.cur = some (key, v) ∧
        it.next t.mem = .done (b, it') ∧ Least t (key < ·) it') := by
  obtain ⟨L, hinv, hfol⟩ := h.follows
  refine ⟨fun key => ?_, fun hvalid => ?_⟩
  · obtain ⟨it', -, hseek, -, hleast⟩ := hinv.seek key it
    exact ⟨it', hseek, hleast⟩
  · obtain ⟨b, it', -, ⟨key, v⟩, hcur, hnext, -, hleast⟩ := hinv.next hfol hvalid
    exact ⟨b, it', key, v, hcur, hnext, hleast⟩

/-- An iterator at key 5, when 7 has been inserted after `Seek`. -/
theorem iterator_at_least_key_five :
    ∃ (t : Tree ℕ) (it : Iterator ℕ), Reaches t it ∧ it.Valid t.mem ∧
      (∀ key, ∃ it', it.seek t key = .done it' ∧ Least t (key ≤ ·) it') ∧
      (it.Valid t.mem → ∃ b it' key v, it.cur = some (key, v) ∧
        it.next t.mem = .done (b, it') ∧ Least t (key < ·) it') := by
  have hrch := ((Reaches.new.insert (show Tree.empty.insert 5 = .done (0, _) from rfl)).seek
    (show Iterator.new.seek _ 3 = .done _ from rfl)).insert
      (show Tree.insert _ 7 = .done _ from rfl)
  exact ⟨_, _, hrch, ⟨0, rfl, by decide⟩, iterator_at_least_key _ _ hrch⟩

end Librdpma.Drtmh.BPlusTree
