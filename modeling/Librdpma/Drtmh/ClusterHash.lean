import Librdpma.Lib.Chain
import Librdpma.Lib.Outcome

/-!
# The cluster hash table (`src/memstore/cluster_chaining.hpp`)

A table of `logical_num_` header nodes is followed in memory by a pool of
indirect nodes. Every node has `DRTM_CLUSTER_NUM` keys with a data slot each, and
the number of the indirect node that continues its bucket, 0 if there is none;
so indirect node 0 is never used. A key whose bucket is full gets the next node
of the pool.

The hash function is any function. A data slot is named by its node and its
place in the node, from which its address follows.
-/

namespace Librdpma.Drtmh

open Lib Function List Outcome

/-- `Key`, two bit fields of one word. -/
structure HashKey where
  valid : Bool
  key : BitVec 63

structure HeaderNode where
  keys : ℕ → HashKey
  next : ℕ

/-- All nodes are zero. -/
def HeaderNode.zero : HeaderNode := ⟨fun _ => ⟨false, 0#63⟩, 0⟩

structure ClusterHash where
  clusterNum : ℕ
  logicalNum : ℕ
  indirectNum : ℕ
  freeIndirectNum : ℕ
  nodes : ℕ → HeaderNode

/-- A data slot: the number of its node and the place in it. -/
abbrev DataSlot := ℕ × ℕ

namespace ClusterHash

/-- The initial value of `indirect_num_`. -/
def poolSize (clusterNum : ℕ) (expectedData : ℤ) : ℤ :=
  if expectedData ≤ clusterNum then expectedData else expectedData / clusterNum

/-- The constructor. The number of nodes is computed as an `int`. -/
def construct (clusterNum : ℕ) (expectedData : ℤ) : Outcome ClusterHash :=
  if clusterNum = 0 then .undefined
  else if ¬ 0 < poolSize clusterNum expectedData then .exit
  else if 2 ^ 31 ≤ poolSize clusterNum expectedData + expectedData then .undefined
  else .done
    { clusterNum := clusterNum
      logicalNum := expectedData.toNat
      indirectNum := (poolSize clusterNum expectedData).toNat
      freeIndirectNum := 1
      nodes := fun _ => HeaderNode.zero }

/-- `get_indirect_node`, as the number of the node. -/
def getIndirectNode (t : ClusterHash) (i : ℕ) : ℕ := i + t.logicalNum

/-- The loop over the nodes of a bucket that `get` and `insert` have in common:
it ends at the first node with a place that `test` finds, or at the last node. -/
def walk (t : ClusterHash) (test : HeaderNode → Option ℕ) : ℕ → ℕ → Outcome (ℕ × Option ℕ)
  | 0, _ => .loop
  | fuel + 1, node =>
      match test (t.nodes node) with
      | some i => .done (node, some i)
      | none =>
          if (t.nodes node).next ≠ 0 then
            walk t test fuel (t.getIndirectNode (t.nodes node).next)
          else .done (node, none)

/-- The place of the key in a node. -/
def findKey (t : ClusterHash) (key : BitVec 64) (node : HeaderNode) : Option ℕ :=
  (range t.clusterNum).find? fun i =>
    (node.keys i).key.setWidth 64 = key && (node.keys i).valid

/-- The first free place of a node. -/
def findFree (t : ClusterHash) (node : HeaderNode) : Option ℕ :=
  (range t.clusterNum).find? fun i => !(node.keys i).valid

section

variable (murmurHash64a : BitVec 64 → BitVec 64)

def getHash (t : ClusterHash) (key : BitVec 64) : ℕ := (murmurHash64a key).toNat % t.logicalNum

def get (t : ClusterHash) (key : BitVec 64) : Outcome (Option DataSlot) := do
  let (node, place) ← t.walk (t.findKey key) (t.indirectNum + 1) (t.getHash murmurHash64a key)
  return place.map fun i => (node, i)

/-- The key goes to a place of a node. -/
def setKey (t : ClusterHash) (node i : ℕ) (key : BitVec 64) : ClusterHash :=
  let keys := update (t.nodes node).keys i ⟨true, key.setWidth 63⟩
  { t with nodes := update t.nodes node { t.nodes node with keys := keys } }

/-- Behind `ALLOC_NEW`: the pool's next node, with the key in its first place,
is linked behind `node`. -/
def allocNew (t : ClusterHash) (node : ℕ) (key : BitVec 64) : ClusterHash :=
  let new := t.getIndirectNode t.freeIndirectNum
  let t := { t with nodes := update t.nodes new HeaderNode.zero }
  let t := t.setKey new 0 key
  { t with
    nodes := update t.nodes node { t.nodes node with next := t.freeIndirectNum }
    freeIndirectNum := t.freeIndirectNum + 1 }

def insert (t : ClusterHash) (key : BitVec 64) : Outcome (DataSlot × ClusterHash) := do
  let (node, place) ← t.walk t.findFree (t.indirectNum + 1) (t.getHash murmurHash64a key)
  match place with
  | some i => return ((node, i), t.setKey node i key)
  | none =>
      if ¬ t.freeIndirectNum < t.indirectNum then .exit
      else return ((t.getIndirectNode t.freeIndirectNum, 0), t.allocNew node key)

def getWithInsert (t : ClusterHash) (key : BitVec 64) : Outcome (DataSlot × ClusterHash) := do
  match ← t.get murmurHash64a key with
  | some res => return (res, t)
  | none => t.insert murmurHash64a key

/-- The calls of a user of the table. -/
inductive Call : Type where
  | get (key : BitVec 64)
  | getWithInsert (key : BitVec 64)
deriving DecidableEq

def Call.key : Call → BitVec 64
  | .get key => key
  | .getWithInsert key => key

def Call.run (t : ClusterHash) : Call → Outcome (Option DataSlot × ClusterHash)
  | .get key => do return (← t.get murmurHash64a key, t)
  | .getWithInsert key => do
      let (slot, t) ← t.getWithInsert murmurHash64a key
      return (some slot, t)

/-- One call after the other, with what they return. -/
def runCalls : List Call → ClusterHash → Outcome (List (Option DataSlot) × ClusterHash)
  | [], t => .done ([], t)
  | c :: calls, t => do
      let (res, t) ← c.run murmurHash64a t
      let (results, t) ← runCalls calls t
      return (res :: results, t)

end

/-! ## Buckets -/

/-- The link function of the pool. -/
def next (t : ClusterHash) (i : ℕ) : ℕ := (t.nodes (t.getIndirectNode i)).next

/-- The nodes of bucket `b`, whose indirect nodes are `l`. -/
def bucketNodes (t : ClusterHash) (b : ℕ) (l : List ℕ) : List ℕ := b :: l.map t.getIndirectNode

/-- `chain` lists the indirect nodes of every bucket. -/
structure Shape (t : ClusterHash) (chain : ℕ → List ℕ) : Prop where
  cluster : 0 < t.clusterNum
  logical : 0 < t.logicalNum
  free : 1 ≤ t.freeIndirectNum ∧ t.freeIndirectNum ≤ t.indirectNum
  linked : ∀ b < t.logicalNum, Linked t.next (t.nodes b).next (chain b)
  used : ∀ b < t.logicalNum, ∀ i ∈ chain b, i < t.freeIndirectNum
  apart : ∀ b < t.logicalNum, ∀ b' < t.logicalNum, ∀ i ∈ chain b, i ∈ chain b' → b = b'

/-- `m` knows the data slot of every key in the table. -/
def Represents (murmurHash64a : BitVec 64 → BitVec 64) (t : ClusterHash) (chain : ℕ → List ℕ)
    (m : BitVec 64 → Option DataSlot) : Prop :=
  ∀ key slot, m key = some slot ↔
    slot.1 ∈ t.bucketNodes (t.getHash murmurHash64a key) (chain (t.getHash murmurHash64a key)) ∧
      slot.2 < t.clusterNum ∧ ((t.nodes slot.1).keys slot.2).valid = true ∧
      ((t.nodes slot.1).keys slot.2).key.setWidth 64 = key

variable {murmurHash64a : BitVec 64 → BitVec 64} {t : ClusterHash} {chain : ℕ → List ℕ}
  {m : BitVec 64 → Option DataSlot} {key : BitVec 64}

lemma Shape.getHash_lt (h : Shape t chain) (murmurHash64a : BitVec 64 → BitVec 64)
    (key : BitVec 64) : t.getHash murmurHash64a key < t.logicalNum := Nat.mod_lt _ h.logical

variable {b p i : ℕ} {node : HeaderNode}

lemma mem_bucketNodes {l : List ℕ} :
    p ∈ t.bucketNodes b l ↔ p = b ∨ ∃ i ∈ l, p = i + t.logicalNum := by
  rw [bucketNodes, mem_cons, mem_map]
  exact or_congr_right (exists_congr fun i => and_congr_right fun _ => eq_comm)

lemma Shape.bucket_unique (h : Shape t chain) {b' : ℕ} (hb : b < t.logicalNum)
    (hb' : b' < t.logicalNum) (hp : p ∈ t.bucketNodes b (chain b))
    (hp' : p ∈ t.bucketNodes b' (chain b')) : b = b' := by
  rcases mem_bucketNodes.mp hp with rfl | ⟨i, hi, rfl⟩
  · rcases mem_bucketNodes.mp hp' with hp' | ⟨j, hj, hp'⟩
    · exact hp'
    · omega
  · rcases mem_bucketNodes.mp hp' with hp' | ⟨j, hj, hp'⟩
    · omega
    · obtain rfl : i = j := by omega
      exact h.apart b hb b' hb' i hi hj

lemma Shape.length_lt (h : Shape t chain) (hb : b < t.logicalNum) :
    (chain b).length < t.indirectNum + 1 := by
  have hsub : chain b ⊆ range t.indirectNum := fun i hi =>
    mem_range.mpr (Nat.lt_of_lt_of_le (h.used b hb i hi) h.free.2)
  have hlen := (subperm_of_subset (h.linked b hb).nodup hsub).length_le
  rw [length_range] at hlen
  omega

lemma walk_cases (test : HeaderNode → Option ℕ) {fuel : ℕ} {l : List ℕ}
    (hl : Linked t.next (t.nodes p).next l) (hfl : l.length < fuel) :
    (∃ q ∈ t.bucketNodes p l, ∃ i, test (t.nodes q) = some i ∧
      t.walk test fuel p = .done (q, some i)) ∨
    ((∀ q ∈ t.bucketNodes p l, test (t.nodes q) = none) ∧
      t.walk test fuel p = .done ((t.bucketNodes p l).getLast (cons_ne_nil _ _), none)) := by
  induction l generalizing p fuel with
  | nil =>
    obtain ⟨fuel, rfl⟩ := Nat.exists_eq_add_one_of_ne_zero (Nat.ne_of_gt hfl)
    rw [walk]
    cases hts : test (t.nodes p) with
    | some i => exact .inl ⟨p, mem_cons_self, i, hts, rfl⟩
    | none =>
      refine .inr ⟨fun q hq => ?_, ?_⟩
      · rw [mem_singleton.mp hq]
        exact hts
      · rw [if_neg (not_not.mpr hl.zero_of_nil)]
        rfl
  | cons j l ih =>
    obtain ⟨fuel, rfl⟩ := Nat.exists_eq_add_one_of_ne_zero (Nat.ne_of_gt (Nat.zero_lt_of_lt hfl))
    obtain ⟨hnx, hne, hl⟩ := hl
    rw [walk]
    cases hts : test (t.nodes p) with
    | some i => exact .inl ⟨p, mem_cons_self, i, hts, rfl⟩
    | none =>
      rw [hnx, if_pos hne]
      have hfl' : l.length < fuel := by
        rw [length_cons] at hfl
        omega
      rcases ih hl hfl' with ⟨q, hq, i, hts', hwl⟩ | ⟨hno, hwl⟩
      · exact .inl ⟨q, mem_cons_of_mem _ hq, i, hts', hwl⟩
      · refine .inr ⟨fun q hq => ?_, hwl⟩
        rcases mem_cons.mp hq with rfl | hq
        · exact hts
        · exact hno q hq

/-! ## Looking up -/

lemma findKey_some (h : t.findKey key node = some i) :
    i < t.clusterNum ∧ (node.keys i).valid = true ∧ (node.keys i).key.setWidth 64 = key := by
  have hts := find?_some h
  rw [Bool.and_eq_true, decide_eq_true_eq] at hts
  exact ⟨mem_range.mp (mem_of_find?_eq_some h), hts.2, hts.1⟩

lemma findKey_none (h : t.findKey key node = none) (hi : i < t.clusterNum)
    (hval : (node.keys i).valid = true) :
    (node.keys i).key.setWidth 64 ≠ key := by
  intro heq
  have hts := find?_eq_none.mp h i (mem_range.mpr hi)
  rw [Bool.and_eq_true, decide_eq_true_eq] at hts
  exact hts ⟨heq, hval⟩

lemma get_eq (h : Shape t chain) (hm : Represents murmurHash64a t chain m) :
    t.get murmurHash64a key = .done (m key) := by
  have hb := h.getHash_lt murmurHash64a key
  rw [get]
  rcases walk_cases (t.findKey key) (h.linked _ hb) (h.length_lt hb) with
    ⟨q, hq, i, hts, hwl⟩ | ⟨hno, hwl⟩
  · obtain ⟨hi, hval, hkey⟩ := findKey_some hts
    rw [hwl, (hm key (q, i)).mpr ⟨hq, hi, hval, hkey⟩]
    rfl
  · rw [hwl]
    cases hsl : m key with
    | none => rfl
    | some slot =>
      obtain ⟨hmem, hi, hval, hkey⟩ := (hm key slot).mp hsl
      exact absurd hkey (findKey_none (hno _ hmem) hi hval)

/-! ## A free place in a node -/

lemma setKey_next (node i p : ℕ) : ((t.setKey node i key).nodes p).next = (t.nodes p).next := by
  rw [setKey]
  dsimp only
  by_cases hp : p = node
  · rw [hp, update_self]
  · rw [update_of_ne hp]

lemma Shape.setKey (h : Shape t chain) (node i : ℕ) : Shape (t.setKey node i key) chain where
  cluster := h.cluster
  logical := h.logical
  free := h.free
  linked b hb := by
    rw [setKey_next]
    exact (h.linked b hb).frame fun j _ => setKey_next node i _
  used := h.used
  apart := h.apart

lemma setKey_keys_self (node i : ℕ) :
    ((t.setKey node i key).nodes node).keys i = ⟨true, key.setWidth 63⟩ := by
  rw [ClusterHash.setKey]
  dsimp only
  rw [update_self]
  exact update_self ..

lemma setKey_keys_of_ne {node j : ℕ} (hne : (p, j) ≠ (node, i)) :
    ((t.setKey node i key).nodes p).keys j = (t.nodes p).keys j := by
  rw [ClusterHash.setKey]
  dsimp only
  by_cases hp : p = node
  · subst hp
    rw [update_self]
    exact update_of_ne (fun hj => hne (by rw [hj])) _ _
  · rw [update_of_ne hp]

lemma setWidth_key (hkey : key.toNat < 2 ^ 63) : (key.setWidth 63).setWidth 64 = key := by
  apply BitVec.eq_of_toNat_eq
  rw [BitVec.toNat_setWidth, BitVec.toNat_setWidth]
  omega

lemma Represents.setKey (hm : Represents murmurHash64a t chain m) (hkey : key.toNat < 2 ^ 63)
    {node : ℕ}
    (hnd : node ∈ t.bucketNodes (t.getHash murmurHash64a key) (chain (t.getHash murmurHash64a key)))
    (hi : i < t.clusterNum) (hfr : ((t.nodes node).keys i).valid = false) (hnew : m key = none) :
    Represents murmurHash64a (t.setKey node i key) chain (update m key (some (node, i))) := by
  intro key' slot
  by_cases hsl : slot = (node, i)
  · subst hsl
    rw [setKey_keys_self, setWidth_key hkey]
    by_cases hk : key' = key
    · rw [hk, update_self]
      exact ⟨fun _ => ⟨hnd, hi, rfl, rfl⟩, fun _ => rfl⟩
    · rw [update_of_ne hk]
      refine ⟨fun hold => ?_, fun hold => absurd hold.2.2.2.symm hk⟩
      have := ((hm key' (node, i)).mp hold).2.2.1
      rw [hfr] at this
      cases this
  · rw [setKey_keys_of_ne hsl]
    by_cases hk : key' = key
    · rw [hk, update_self]
      refine ⟨fun heq => absurd (Option.some.inj heq).symm hsl, fun hold => ?_⟩
      rw [(hm key slot).mpr hold] at hnew
      cases hnew
    · rw [update_of_ne hk]
      exact hm key' slot

lemma findFree_some (h : t.findFree node = some i) :
    i < t.clusterNum ∧ (node.keys i).valid = false := by
  have hts := find?_some h
  exact ⟨mem_range.mp (mem_of_find?_eq_some h), by simpa using hts⟩

/-! ## A new node -/

lemma allocNew_next (node p : ℕ) : ((t.allocNew node key).nodes p).next =
    if p = node then t.freeIndirectNum
    else if p = t.getIndirectNode t.freeIndirectNum then 0 else (t.nodes p).next := by
  rw [allocNew]
  dsimp only
  split
  · rename_i hp
    rw [hp, update_self]
    rfl
  · rename_i hp
    rw [update_of_ne hp, setKey_next]
    dsimp only
    split_ifs with hnew
    · rw [hnew, update_self]
      rfl
    · rw [update_of_ne hnew]

section

variable {node : ℕ} (hne : node ≠ t.getIndirectNode t.freeIndirectNum)
include hne

lemma allocNew_keys_new (i : ℕ) :
    ((t.allocNew node key).nodes (t.getIndirectNode t.freeIndirectNum)).keys i =
      if i = 0 then ⟨true, key.setWidth 63⟩ else ⟨false, 0#63⟩ := by
  rw [allocNew]
  dsimp only
  rw [update_of_ne (Ne.symm hne)]
  split_ifs with hi
  · rw [hi, setKey_keys_self]
  · rw [setKey_keys_of_ne (by simp [hi])]
    dsimp only
    rw [update_self]
    rfl

lemma allocNew_keys_of_ne {p : ℕ} (hp : p ≠ t.getIndirectNode t.freeIndirectNum) (i : ℕ) :
    ((t.allocNew node key).nodes p).keys i = (t.nodes p).keys i := by
  rw [allocNew]
  dsimp only
  by_cases hpn : p = node
  · rw [hpn, update_self]
    rw [setKey_keys_of_ne (by simp [hne])]
    dsimp only
    rw [update_of_ne hne]
  · rw [update_of_ne hpn, setKey_keys_of_ne (by simp [hp])]
    dsimp only
    rw [update_of_ne hp]

end

variable {b node : ℕ} {calls : List Call}

lemma Shape.ne_new (h : Shape t chain) {p : ℕ} (hb : b < t.logicalNum)
    (hp : p ∈ t.bucketNodes b (chain b)) : p ≠ t.getIndirectNode t.freeIndirectNum := by
  rw [getIndirectNode]
  rcases mem_bucketNodes.mp hp with rfl | ⟨i, hi, rfl⟩
  · omega
  · have := h.used b hb i hi
    omega

/-- The chains with the new node behind bucket `b`. -/
def extend (t : ClusterHash) (chain : ℕ → List ℕ) (b : ℕ) : ℕ → List ℕ :=
  update chain b (chain b ++ [t.freeIndirectNum])

lemma mem_bucketNodes_extend {b' p : ℕ} :
    p ∈ t.bucketNodes b' (t.extend chain b b') ↔ p ∈ t.bucketNodes b' (chain b') ∨
      (b' = b ∧ p = t.getIndirectNode t.freeIndirectNum) := by
  rw [extend]
  by_cases hb : b' = b
  · subst hb
    rw [update_self, mem_bucketNodes, mem_bucketNodes]
    simp only [mem_append, mem_singleton, or_and_right, exists_or, exists_eq_left]
    rw [or_assoc, getIndirectNode]
    simp
  · rw [update_of_ne hb]
    simp [hb]

lemma next_allocNew (node i : ℕ) : (t.allocNew node key).next i =
    if i + t.logicalNum = node then t.freeIndirectNum
    else if i = t.freeIndirectNum then 0 else t.next i := by
  have hiff : i + t.logicalNum = t.freeIndirectNum + t.logicalNum ↔ i = t.freeIndirectNum := by
    omega
  have h : ((t.allocNew node key).nodes (i + t.logicalNum)).next = _ := allocNew_next node _
  rw [getIndirectNode] at h
  simp only [hiff] at h
  exact h

lemma Shape.linked_other (h : Shape t chain) {b' : ℕ} (hb : b < t.logicalNum)
    (hb' : b' < t.logicalNum) (hne : b' ≠ b) (hmem : node ∈ t.bucketNodes b (chain b)) :
    Linked (t.allocNew node key).next ((t.allocNew node key).nodes b').next (chain b') := by
  have hout : node ∉ t.bucketNodes b' (chain b') := fun hmem' =>
    hne (h.bucket_unique hb' hb hmem' hmem)
  rw [mem_bucketNodes, not_or, not_exists] at hout
  have hhd : ((t.allocNew node key).nodes b').next = (t.nodes b').next := by
    rw [allocNew_next, if_neg (Ne.symm hout.1), if_neg]
    rw [getIndirectNode]
    omega
  rw [hhd]
  refine (h.linked b' hb').frame fun i hi => ?_
  rw [next_allocNew, if_neg fun heq => hout.2 i ⟨hi, heq.symm⟩, if_neg]
  exact Nat.ne_of_lt (h.used b' hb' i hi)

lemma Shape.linked_extend (h : Shape t chain) (hb : b < t.logicalNum)
    (hnd : (t.bucketNodes b (chain b)).getLast (cons_ne_nil _ _) = node) :
    Linked (t.allocNew node key).next ((t.allocNew node key).nodes b).next
      (chain b ++ [t.freeIndirectNum]) := by
  have hlk := h.linked b hb
  have hpos : t.freeIndirectNum ≠ 0 := Nat.ne_of_gt h.free.1
  have hnew : t.freeIndirectNum + t.logicalNum ≠ node →
      (t.allocNew node key).next t.freeIndirectNum = 0 := by
    intro hne
    rw [next_allocNew, if_neg hne, if_pos rfl]
  rcases eq_nil_or_concat (chain b) with hnil | ⟨l, j, hch⟩
  · -- the header is the last node
    have hnd' : node = b := by
      rw [← hnd]
      simp [bucketNodes, hnil]
    rw [hnil, nil_append, allocNew_next, if_pos hnd'.symm]
    exact ⟨rfl, hpos, hnew (by omega)⟩
  · rw [concat_eq_append] at hch
    have hnd' : node = j + t.logicalNum := by
      rw [← hnd]
      simp [bucketNodes, hch, getIndirectNode]
    have hj := h.used b hb j (by rw [hch]; simp)
    have hhd : ((t.allocNew node key).nodes b).next = (t.nodes b).next := by
      rw [allocNew_next, if_neg (by omega), if_neg]
      rw [getIndirectNode]
      omega
    rw [hhd, hch]
    rw [hch] at hlk
    refine hlk.snoc hpos (hnew (by omega)) ?_ fun i hi => ?_
    · rw [next_allocNew, if_pos hnd'.symm]
    · have hne : i ≠ j := by
        rintro rfl
        exact (nodup_append.mp hlk.nodup).2.2 i hi i (mem_singleton_self i) rfl
      have hi' := h.used b hb i (by rw [hch]; exact mem_append_left _ hi)
      rw [next_allocNew, if_neg (by omega), if_neg (by omega)]

lemma Shape.allocNew (h : Shape t chain) (hb : b < t.logicalNum)
    (hfr : t.freeIndirectNum < t.indirectNum)
    (hnd : (t.bucketNodes b (chain b)).getLast (cons_ne_nil _ _) = node) :
    Shape (t.allocNew node key) (t.extend chain b) := by
  have hmem : node ∈ t.bucketNodes b (chain b) := by
    rw [← hnd]
    exact getLast_mem _
  -- a node of an old chain is used, the new one is not
  have hch : ∀ b' < t.logicalNum, ∀ i ∈ t.extend chain b b',
      (i ∈ chain b' ∧ i < t.freeIndirectNum) ∨ (b' = b ∧ i = t.freeIndirectNum) := by
    intro b' hb' i hi
    rw [extend] at hi
    by_cases heq : b' = b
    · subst heq
      rw [update_self, mem_append, mem_singleton] at hi
      exact hi.imp (fun hi => ⟨hi, h.used b' hb' i hi⟩) fun hi => ⟨rfl, hi⟩
    · rw [update_of_ne heq] at hi
      exact .inl ⟨hi, h.used b' hb' i hi⟩
  refine ⟨h.cluster, h.logical, ⟨Nat.le_succ_of_le h.free.1, hfr⟩, fun b' hb' => ?_,
    fun b' hb' i hi => ?_, fun b1 hb1 b2 hb2 i hi1 hi2 => ?_⟩
  · rw [extend]
    by_cases heq : b' = b
    · subst heq
      rw [update_self]
      exact h.linked_extend hb' hnd
    · rw [update_of_ne heq]
      exact h.linked_other hb hb' heq hmem
  · rcases hch b' hb' i hi with ⟨-, hlt⟩ | ⟨-, rfl⟩
    · exact Nat.lt_succ_of_lt hlt
    · exact Nat.lt_succ_self _
  · rcases hch b1 hb1 i hi1 with ⟨hi1, hlt1⟩ | ⟨hb1', hi1⟩
    · rcases hch b2 hb2 i hi2 with ⟨hi2, -⟩ | ⟨-, hi2⟩
      · exact h.apart b1 hb1 b2 hb2 i hi1 hi2
      · omega
    · rcases hch b2 hb2 i hi2 with ⟨-, hlt2⟩ | ⟨hb2', -⟩
      · omega
      · exact hb1'.trans hb2'.symm

lemma Represents.allocNew (h : Shape t chain) (hm : Represents murmurHash64a t chain m)
    (hkey : key.toNat < 2 ^ 63) (hne : node ≠ t.getIndirectNode t.freeIndirectNum)
    (hnew : m key = none) :
    Represents murmurHash64a (t.allocNew node key) (t.extend chain (t.getHash murmurHash64a key))
      (update m key (some (t.getIndirectNode t.freeIndirectNum, 0))) := by
  intro key' slot
  have hbck : slot.1 ∈ (t.allocNew node key).bucketNodes
      ((t.allocNew node key).getHash murmurHash64a key')
      (t.extend chain (t.getHash murmurHash64a key)
        ((t.allocNew node key).getHash murmurHash64a key')) ↔ _ :=
    @mem_bucketNodes_extend t chain (t.getHash murmurHash64a key) (t.getHash murmurHash64a key')
      slot.1
  rw [hbck]
  by_cases hsl : slot.1 = t.getIndirectNode t.freeIndirectNum
  · -- the new node has the key in its first place and nothing else
    rw [hsl, allocNew_keys_new hne]
    have hold : t.getIndirectNode t.freeIndirectNum ∉ t.bucketNodes
        (t.getHash murmurHash64a key') (chain (t.getHash murmurHash64a key')) := fun hmem =>
      h.ne_new (h.getHash_lt murmurHash64a key') hmem rfl
    have hm' : m key' ≠ some slot := by
      intro hs
      have := ((hm key' slot).mp hs).1
      rw [hsl] at this
      exact hold this
    by_cases hk : key' = key
    · subst hk
      rw [update_self]
      constructor
      · intro heq
        cases heq
        exact ⟨.inr ⟨rfl, rfl⟩, h.cluster, rfl, setWidth_key hkey⟩
      · rintro ⟨-, -, hval, -⟩
        split at hval
        · rename_i hz
          rw [← hsl, ← hz]
        · cases hval
    · rw [update_of_ne hk]
      refine ⟨fun hs => absurd hs hm', ?_⟩
      rintro ⟨-, -, hval, hkey'⟩
      split at hkey'
      · rw [setWidth_key hkey] at hkey'
        exact absurd hkey'.symm hk
      · rename_i hz
        rw [if_neg hz] at hval
        cases hval
  · rw [allocNew_keys_of_ne hne hsl, or_iff_left fun hand => hsl hand.2]
    by_cases hk : key' = key
    · subst hk
      rw [update_self]
      refine ⟨fun heq => absurd (congrArg Prod.fst (Option.some.inj heq)).symm hsl, fun hold =>
        ?_⟩
      rw [(hm key' slot).mpr hold] at hnew
      cases hnew
    · rw [update_of_ne hk]
      exact hm key' slot

/-! ## The calls refine a map -/

/-- The table is in shape and holds the slots of `m`. -/
def Models (murmurHash64a : BitVec 64 → BitVec 64) (t : ClusterHash)
    (m : BitVec 64 → Option DataSlot) : Prop :=
  ∃ chain, Shape t chain ∧ Represents murmurHash64a t chain m

lemma insert_models (h : Models murmurHash64a t m) (hkey : key.toNat < 2 ^ 63)
    (hnew : m key = none) :
    t.insert murmurHash64a key = .exit ∨
      ∃ slot t', t.insert murmurHash64a key = .done (slot, t') ∧ t'.clusterNum = t.clusterNum ∧
        Models murmurHash64a t' (update m key (some slot)) := by
  obtain ⟨chain, h, hm⟩ := h
  have hb := h.getHash_lt murmurHash64a key
  rw [insert]
  rcases walk_cases t.findFree (h.linked _ hb) (h.length_lt hb) with
    ⟨q, hq, i, hts, hwl⟩ | ⟨-, hwl⟩
  · obtain ⟨hi, hfr⟩ := findFree_some hts
    rw [hwl]
    exact .inr ⟨(q, i), t.setKey q i key, rfl, rfl, chain, h.setKey q i,
      hm.setKey hkey hq hi hfr hnew⟩
  · rw [hwl, done_bind]
    dsimp only
    split
    · exact .inl rfl
    · rename_i hfr
      refine .inr ⟨_, _, rfl, rfl, _, h.allocNew hb (not_not.mp hfr) rfl,
        hm.allocNew h hkey ?_ hnew⟩
      exact h.ne_new hb (getLast_mem _)

lemma getWithInsert_models (h : Models murmurHash64a t m) (hkey : key.toNat < 2 ^ 63) :
    t.getWithInsert murmurHash64a key = .exit ∨
      ∃ slot t', t.getWithInsert murmurHash64a key = .done (slot, t') ∧
        t'.clusterNum = t.clusterNum ∧ (∀ s, m key = some s → s = slot) ∧
        Models murmurHash64a t' (update m key (some slot)) := by
  obtain ⟨chain, hshp, hm⟩ := h
  rw [getWithInsert, get_eq hshp hm, done_bind]
  cases hkys : m key with
  | some slot =>
    refine .inr ⟨slot, t, rfl, rfl, fun s hs => (Option.some.inj hs).symm, ?_⟩
    rw [← hkys, update_eq_self]
    exact ⟨chain, hshp, hm⟩
  | none =>
    rcases insert_models ⟨chain, hshp, hm⟩ hkey hkys with hex | ⟨slot, t', hins, hc, hm'⟩
    · exact .inl hex
    · exact .inr ⟨slot, t', hins, hc, nofun, hm'⟩

/-- What the calls return in a run from the slots `m` to the slots `m'`: an
insertion the slot of its key, a `get` the slot if the key is there already. -/
structure Answers (m m' : BitVec 64 → Option DataSlot) (calls : List Call)
    (results : List (Option DataSlot)) : Prop where
  kept : ∀ key slot, m key = some slot → m' key = some slot
  inserted : ∀ (i : ℕ) key, calls[i]? = some (.getWithInsert key) →
    ∃ slot, m' key = some slot ∧ results[i]? = some (some slot)
  found : ∀ (i : ℕ) key, calls[i]? = some (.get key) →
    (m key ≠ none ∨ .getWithInsert key ∈ calls.take i) → results[i]? = some (m' key)
  absent : ∀ (i : ℕ) key, calls[i]? = some (.get key) → m key = none →
    .getWithInsert key ∉ calls.take i → results[i]? = some none

lemma Answers.get {m' : BitVec 64 → Option DataSlot} {results : List (Option DataSlot)}
    (h : Answers m m' calls results) (key : BitVec 64) :
    Answers m m' (.get key :: calls) (m key :: results) where
  kept := h.kept
  inserted i key' hi := by
    cases i with
    | zero => cases hi
    | succ i => exact h.inserted i key' hi
  found i key' hi hkn := by
    cases i with
    | zero =>
      cases hi
      rcases hkn with hne | hmem
      · obtain ⟨slot, hsl⟩ := Option.ne_none_iff_exists'.mp hne
        rw [h.kept key slot hsl, hsl]
        rfl
      · cases hmem
    | succ i =>
      refine h.found i key' hi (hkn.imp_right fun hmem => ?_)
      rw [take_succ_cons] at hmem
      exact (mem_cons.mp hmem).resolve_left nofun
  absent i key' hi hno hout := by
    cases i with
    | zero =>
      cases hi
      rw [hno]
      rfl
    | succ i => exact h.absent i key' hi hno fun hmem => hout (mem_cons_of_mem _ hmem)

lemma Answers.getWithInsert {m' : BitVec 64 → Option DataSlot} {results : List (Option DataSlot)}
    {slot : DataSlot} (key : BitVec 64) (hsm : ∀ s, m key = some s → s = slot)
    (h : Answers (update m key (some slot)) m' calls results) :
    Answers m m' (.getWithInsert key :: calls) (some slot :: results) where
  kept key' s hs := by
    refine h.kept key' s ?_
    by_cases hk : key' = key
    · subst hk
      rw [update_self, hsm s hs]
    · rw [update_of_ne hk]
      exact hs
  inserted i key' hi := by
    cases i with
    | zero =>
      cases hi
      exact ⟨slot, h.kept key slot (update_self ..), rfl⟩
    | succ i => exact h.inserted i key' hi
  found i key' hi hkn := by
    cases i with
    | zero => cases hi
    | succ i =>
      refine h.found i key' hi ?_
      by_cases hk : key' = key
      · refine .inl ?_
        rw [hk, update_self]
        nofun
      · rw [update_of_ne hk]
        refine hkn.imp_right fun hmem => ?_
        rw [take_succ_cons] at hmem
        exact (mem_cons.mp hmem).resolve_left fun heq => hk (Call.getWithInsert.inj heq)
  absent i key' hi hno hout := by
    cases i with
    | zero => cases hi
    | succ i =>
      rw [take_succ_cons, mem_cons, not_or] at hout
      refine h.absent i key' hi ?_ hout.2
      rw [update_of_ne fun hk => hout.1 (by rw [hk])]
      exact hno

lemma runCalls_models (h : Models murmurHash64a t m) (hks : ∀ c ∈ calls, c.key.toNat < 2 ^ 63) :
    runCalls murmurHash64a calls t = .exit ∨
      ∃ results t' m', runCalls murmurHash64a calls t = .done (results, t') ∧
        t'.clusterNum = t.clusterNum ∧ Models murmurHash64a t' m' ∧
        Answers m m' calls results := by
  induction calls generalizing t m with
  | nil =>
    exact .inr ⟨[], t, m, rfl, rfl, h, ⟨fun _ _ => id, nofun, nofun, nofun⟩⟩
  | cons c calls ih =>
    have hrs : ∀ c ∈ calls, c.key.toNat < 2 ^ 63 := fun c hc =>
      hks c (mem_cons_of_mem _ hc)
    rw [runCalls]
    cases c with
    | get key =>
      obtain ⟨chain, hshp, hm⟩ := h
      rw [Call.run, get_eq hshp hm]
      rcases ih ⟨chain, hshp, hm⟩ hrs with hex | ⟨results, t', m', hrun, hc, hm', hans⟩
      · refine .inl ?_
        simp only [done_bind, pure_eq, hex, exit_bind]
      · refine .inr ⟨m key :: results, t', m', ?_, hc, hm', hans.get key⟩
        simp only [done_bind, pure_eq, hrun]
    | getWithInsert key =>
      rw [Call.run]
      rcases getWithInsert_models h (hks _ mem_cons_self) with
        hex | ⟨slot, t1, hins, hc1, hsm, hm1⟩
      · refine .inl ?_
        simp only [Call.key] at hex
        simp only [hex, exit_bind]
      · simp only [Call.key] at hins hsm hm1
        rcases ih hm1 hrs with hex | ⟨results, t', m', hrun, hc, hm', hans⟩
        · refine .inl ?_
          simp only [hins, done_bind, pure_eq, hex, exit_bind]
        · refine .inr ⟨some slot :: results, t', m', ?_, hc.trans hc1, hm',
            hans.getWithInsert key hsm⟩
          simp only [hins, done_bind, pure_eq, hrun]

lemma construct_models (murmurHash64a : BitVec 64 → BitVec 64) {clusterNum : ℕ}
    {expectedData : ℤ} (h : construct clusterNum expectedData = .done t) :
    t.clusterNum = clusterNum ∧ Models murmurHash64a t fun _ => none := by
  rw [construct] at h
  split at h
  · cases h
  · rename_i hclu
    split at h
    · cases h
    · rename_i hpos
      have hpl : 0 < poolSize clusterNum expectedData := not_not.mp hpos
      have hdt : 0 < expectedData := by
        rw [poolSize] at hpl
        split at hpl
        · exact hpl
        · omega
      split at h
      · cases h
      · cases h
        refine ⟨rfl, fun _ => [], ⟨Nat.pos_of_ne_zero hclu, ?_, ⟨Nat.le_refl 1, ?_⟩,
          fun _ _ => rfl, nofun, nofun⟩, ?_⟩
        · exact Int.lt_toNat.mpr hdt
        · exact Int.lt_toNat.mpr hpl
        · intro key slot
          refine ⟨nofun, ?_⟩
          rintro ⟨-, -, hval, -⟩
          cases hval

/-! ## Addresses -/

/-- Where the parts of a table of nodes with `clusterNum` places are in memory. -/
structure Layout (clusterNum : ℕ) where
  dataPtr : ℕ
  /-- `sizeof(HeaderNode)` -/
  nodeSize : ℕ
  /-- the offset of `datas` -/
  dataOff : ℕ
  /-- `sizeof(Data)` -/
  dataSize : ℕ
  fits : dataOff + clusterNum * dataSize ≤ nodeSize

/-- The address that is returned for a slot. -/
def Layout.address {clusterNum : ℕ} (l : Layout clusterNum) (slot : DataSlot) : ℕ :=
  l.dataPtr + slot.1 * l.nodeSize + l.dataOff + slot.2 * l.dataSize

/-- The slots share no byte. -/
def Layout.Apart {clusterNum : ℕ} (l : Layout clusterNum) (slot slot' : DataSlot) : Prop :=
  l.address slot + l.dataSize ≤ l.address slot' ∨ l.address slot' + l.dataSize ≤ l.address slot

lemma Layout.apart_of_ne {clusterNum : ℕ} (l : Layout clusterNum) {slot slot' : DataSlot}
    (h : slot.2 < clusterNum) (h' : slot'.2 < clusterNum) (hne : slot ≠ slot') :
    l.Apart slot slot' := by
  -- a slot with a smaller node, or a smaller place in the same node, ends before
  have hbef : ∀ a b : DataSlot, a.2 < clusterNum → (a.1 < b.1 ∨ (a.1 = b.1 ∧ a.2 < b.2)) →
      l.address a + l.dataSize ≤ l.address b := by
    intro a b ha hlt
    rw [address, address]
    rcases hlt with hlt | ⟨heq, hlt⟩
    · have hnd : (a.1 + 1) * l.nodeSize ≤ b.1 * l.nodeSize := Nat.mul_le_mul_right _ hlt
      have hpl : (a.2 + 1) * l.dataSize ≤ clusterNum * l.dataSize := Nat.mul_le_mul_right _ ha
      have := l.fits
      rw [Nat.add_mul, Nat.one_mul] at hnd hpl
      omega
    · have hpl : (a.2 + 1) * l.dataSize ≤ b.2 * l.dataSize := Nat.mul_le_mul_right _ hlt
      rw [Nat.add_mul, Nat.one_mul] at hpl
      rw [heq]
      omega
  have hcs : (slot.1 < slot'.1 ∨ (slot.1 = slot'.1 ∧ slot.2 < slot'.2)) ∨
      (slot'.1 < slot.1 ∨ (slot'.1 = slot.1 ∧ slot'.2 < slot.2)) := by
    have : ¬ (slot.1 = slot'.1 ∧ slot.2 = slot'.2) := fun heq => hne (Prod.ext heq.1 heq.2)
    omega
  exact hcs.imp (hbef slot slot' h) (hbef slot' slot h')

/-! ## The table -/

/-- Every insertion of a key returns the slot of the key, a `get` returns it
exactly if the key has been inserted before, and the slots of different keys are
apart in memory. -/
structure RefinesMap {clusterNum : ℕ} (l : Layout clusterNum) (calls : List Call)
    (results : List (Option DataSlot)) (slot : BitVec 64 → DataSlot) : Prop where
  insert : ∀ (i : ℕ) key, calls[i]? = some (.getWithInsert key) →
    results[i]? = some (some (slot key))
  get : ∀ (i : ℕ) key, calls[i]? = some (.get key) →
    results[i]? = some (if .getWithInsert key ∈ calls.take i then some (slot key) else none)
  apart : ∀ key key', .getWithInsert key ∈ calls → .getWithInsert key' ∈ calls → key ≠ key' →
    l.Apart (slot key) (slot key')

/-- Any calls on a new table, as long as the pool is not used up. -/
theorem calls_refine_map (murmurHash64a : BitVec 64 → BitVec 64) (clusterNum : ℕ)
    (expectedData : ℤ) (t0 : ClusterHash) (ht : construct clusterNum expectedData = .done t0)
    (calls : List Call) (hkeys : ∀ c ∈ calls, c.key.toNat < 2 ^ 63)
    (hpool : runCalls murmurHash64a calls t0 ≠ .exit) (l : Layout clusterNum) :
    ∃ results t slot, runCalls murmurHash64a calls t0 = .done (results, t) ∧
      RefinesMap l calls results slot := by
  obtain ⟨hclu, hmod⟩ := construct_models murmurHash64a ht
  rcases runCalls_models hmod hkeys with hex | ⟨results, t, m, hrun, hc, hm, hans⟩
  · exact absurd hex hpool
  have hsl : ∀ key, .getWithInsert key ∈ calls → ∃ slot, m key = some slot := by
    intro key hmem
    obtain ⟨i, hi⟩ := mem_iff_getElem?.mp hmem
    obtain ⟨slot, hsl, -⟩ := hans.inserted i key hi
    exact ⟨slot, hsl⟩
  refine ⟨results, t, fun key => (m key).getD (0, 0), hrun, fun i key hi => ?_, fun i key hi => ?_,
    fun key key' hmem hmem' hne => ?_⟩
  · obtain ⟨slot, hs, hres⟩ := hans.inserted i key hi
    rw [hres, hs]
    rfl
  · split_ifs with hmem
    · obtain ⟨slot, hs⟩ := hsl key (mem_of_mem_take hmem)
      rw [hans.found i key hi (.inr hmem), hs]
      rfl
    · exact hans.absent i key hi rfl hmem
  · obtain ⟨slot, hs⟩ := hsl key hmem
    obtain ⟨slot', hs'⟩ := hsl key' hmem'
    obtain ⟨chain, -, hrep⟩ := hm
    obtain ⟨-, hlt, -, hkey⟩ := (hrep key slot).mp hs
    obtain ⟨-, hlt', -, hkey'⟩ := (hrep key' slot').mp hs'
    rw [hs, hs']
    refine l.apart_of_ne (by rw [← hclu, ← hc]; exact hlt)
      (by rw [← hclu, ← hc]; exact hlt') fun heq => hne ?_
    have heq : slot = slot' := heq
    rw [← hkey, ← hkey', heq]

/-- Two keys in a table of two nodes with one place each. -/
theorem calls_refine_map_two : ∃ t0, construct 1 2 = .done t0 ∧ ∃ results t slot,
      runCalls id [.getWithInsert 2#64, .getWithInsert 4#64, .get 2#64, .get 6#64] t0 =
        .done (results, t) ∧
      RefinesMap (⟨0, 32, 8, 16, by decide⟩ : Layout 1)
        [.getWithInsert 2#64, .getWithInsert 4#64, .get 2#64, .get 6#64] results slot := by
  refine ⟨_, rfl, calls_refine_map id 1 2 _ rfl _ (by decide) ?_ _⟩
  exact nofun

/-! ## Reserved memory -/

/-- `expected_size`: the sum is an `int`, and the product is returned as one. -/
def expectedSize (clusterNum nodeSize num : ℕ) : Outcome ℤ :=
  if clusterNum = 0 ∨ 2 ^ 31 ≤ num / clusterNum + num then .undefined
  else .done (Int.bmod ((num / clusterNum + num) * nodeSize : ℕ) (2 ^ 32))

/-- `size_`, the bytes the constructor sets to 0. -/
def size (t : ClusterHash) (nodeSize : ℕ) : ℕ :=
  (t.indirectNum + t.logicalNum) * nodeSize % 2 ^ 64

/-- Zeroing, buckets and the indirect nodes that can be used stay in the
bytes that `expected_size` reserves. -/
def FitsReserved (clusterNum nodeSize num : ℕ) : Prop :=
  ∃ t reserved, construct clusterNum num = .done t ∧
    expectedSize clusterNum nodeSize num = .done reserved ∧ t.size nodeSize ≤ reserved ∧
    (∀ p < t.logicalNum, ((p + 1) * nodeSize : ℕ) ≤ reserved) ∧
    ∀ i < t.indirectNum, t.freeIndirectNum ≤ i →
      ((t.getIndirectNode i + 1) * nodeSize : ℕ) ≤ reserved

variable {clusterNum nodeSize num : ℕ}

lemma poolSize_eq (hclu : 0 < clusterNum) (hnum : 0 < num) :
    ∃ pool : ℕ, poolSize clusterNum num = pool ∧ 0 < pool ∧ num / clusterNum ≤ pool ∧
      pool ≤ num ∧ (pool = num / clusterNum ↔ clusterNum < num ∨ clusterNum = 1) := by
  have hle := Nat.div_le_self num clusterNum
  by_cases h : num ≤ clusterNum
  · refine ⟨num, if_pos (by omega), hnum, hle, Nat.le_refl _, ?_⟩
    rw [eq_comm, Nat.div_eq_self]
    omega
  · refine ⟨num / clusterNum, if_neg (by omega), Nat.div_pos (by omega) hclu, Nat.le_refl _,
      hle, iff_of_true rfl (.inl (by omega))⟩

/-- **A table fits exactly if its pool is as large as `expected_size` counts
it**, which leaves out the tables with few buckets, and the size is an `int`. -/
theorem fitsReserved_iff (hcluster : 0 < clusterNum) (hnode : 0 < nodeSize) (hnum : 0 < num) :
    FitsReserved clusterNum nodeSize num ↔
      (clusterNum < num ∨ clusterNum = 1) ∧ (num / clusterNum + num) * nodeSize < 2 ^ 31 := by
  obtain ⟨pool, hpl, hpos, hge, hle, hiff⟩ := poolSize_eq hcluster hnum
  have hcnt : (num / clusterNum + num) * nodeSize ≤ (pool + num) * nodeSize :=
    Nat.mul_le_mul_right _ (by omega)
  rw [← hiff]
  constructor
  · rintro ⟨t, reserved, ht, hr, hsz, hbck, -⟩
    rw [construct, hpl, if_neg (by omega), if_neg (by omega), ite_eq_iff] at ht
    rw [expectedSize, ite_eq_iff] at hr
    obtain rfl := Outcome.done.inj (ht.resolve_left fun h => nomatch h.2).2
    obtain rfl := Outcome.done.inj (hr.resolve_left fun h => nomatch h.2).2
    have hmax : Int.bmod ((num / clusterNum + num) * nodeSize : ℕ) (2 ^ 32) < 2 ^ 31 :=
      Int.bmod_lt (by decide)
    -- the last bucket bounds the size of a node, so that `size_` does not wrap
    have hla := hbck (num - 1) (by simp; omega)
    have htwc : (pool + num) * nodeSize ≤ 2 * (num * nodeSize) := by
      rw [← Nat.mul_assoc]
      exact Nat.mul_le_mul_right _ (by omega)
    rw [Nat.sub_add_cancel hnum] at hla
    simp only [size, Int.toNat_natCast] at hsz
    rw [Nat.mod_eq_of_lt (by omega)] at hsz
    have hint : (num / clusterNum + num) * nodeSize < 2 ^ 31 := by omega
    rw [Int.bmod_eq_of_le (by omega) (by omega)] at hsz
    refine ⟨Nat.le_antisymm ?_ hge, hint⟩
    have := Nat.le_of_mul_le_mul_right (Int.ofNat_le.mp hsz) hnode
    omega
  · rintro ⟨rfl, hint⟩
    have hns := Nat.le_mul_of_pos_right (num / clusterNum + num) hnode
    have hr : expectedSize clusterNum nodeSize num =
        .done ((num / clusterNum + num) * nodeSize : ℕ) := by
      rw [expectedSize, if_neg (by omega), Int.bmod_eq_of_le (by omega) (by omega)]
    rw [FitsReserved, construct, hpl, if_neg (by omega), if_neg (by omega), if_neg (by omega)]
    refine ⟨_, _, rfl, hr, ?_⟩
    simp only [size, Int.toNat_natCast, Int.ofNat_le, getIndirectNode]
    refine ⟨Nat.mod_le _ _, fun p hp => ?_, fun i hi _ => ?_⟩
    · exact Nat.mul_le_mul_right _ (by omega)
    · exact Nat.mul_le_mul_right _ (by omega)

/-- Five buckets of four places, with nodes of 72 bytes. -/
theorem fitsReserved_iff_five : FitsReserved 4 72 5 :=
  (fitsReserved_iff (by decide) (by decide) (by decide)).mpr (by decide)

/-- One bucket: `expected_size` counts one node, the constructor sets two to 0. -/
theorem not_fitsReserved_one : expectedSize 4 72 1 = .done 72 ∧
    (∃ t, construct 4 1 = .done t ∧ t.size 72 = 144) ∧ ¬ FitsReserved 4 72 1 := by
  refine ⟨rfl, ⟨_, rfl, rfl⟩, ?_⟩
  rintro ⟨t, _, ⟨⟩, ⟨⟩, hsz, -⟩
  revert hsz
  decide

end ClusterHash
end Librdpma.Drtmh
