import Librdpma.Lib.Outcome
import Librdpma.Lib.Separators

/-!
# The B+ tree (`src/memstore/memstore_bplustree.h`)

`MemstoreBPlusTree` and `MemstoreUint64BPlusTree` are one tree for two types of
keys; here the keys are any linear order. Leaves are linked to their neighbours
and are found by their number in memory. Inner nodes are only reached from above
and are kept as trees of the nodes below them. `depth` says how far the leaves
are, and a node that is not of the kind its depth says is a wrong cast.

`num_keys` is the length of the list of keys. The separator that a split passes
to the level above goes through the last slot of the new node's keys.

A region guarded by hardware transactional memory is one step; the regions
themselves are not modelled, so it does not show that `Get` returns from an empty
leaf (line 219) without ending its region. Every insertion
of a new key adds 1 to the `seq` of a leaf; as there are 2^64 keys, it does not
wrap round between two looks at it.
-/

namespace Librdpma.Drtmh.BPlusTree

open Lib Function

/-- `MEM_BTREE_M`, the places of a leaf. -/
def memBtreeM : ℕ := 15

/-- `NENT`, the keys of an inner node. -/
def nent : ℕ := 15

/-- Keys with their values, which are numbers of `MemNode`s. -/
structure LeafNode (K : Type) where
  entries : List (K × ℕ)
  left : Option ℕ
  right : Option ℕ
  seq : ℕ

/-- `spare` is `keys[NENT - 1]` of a node that a split has made. -/
inductive Node (K : Type) : Type where
  | leaf (id : ℕ)
  | inner (keys : List K) (children : List (Node K)) (spare : Option K)

/-- The leaves, the number of the next new one, and the thread's `dummyval_`. -/
structure Mem (K : Type) where
  leaf : ℕ → LeafNode K
  fresh : ℕ
  dummyval : ℕ

structure Tree (K : Type) where
  mem : Mem K
  root : Option (Node K)
  depth : ℕ

/-- The loops that move the entries from place `k` on by one. -/
def insertAt {α : Type} (l : List α) (k : ℕ) (x : α) : List α := l.take k ++ x :: l.drop k

section

variable {K : Type} [LinearOrder K]

/-- The constructor: an empty leaf. -/
def Tree.empty : Tree K :=
  { mem := { leaf := fun _ => ⟨[], none, none, 0⟩, fresh := 1, dummyval := 0 }
    root := some (.leaf 0)
    depth := 0 }

/-! ## Leaves -/

/-- The entries of a full leaf and of its new sibling, with the new entry at
place `k`. -/
def splitEntries (entries : List (K × ℕ)) (last : Bool) (k : ℕ) (e : K × ℕ) :
    List (K × ℕ) × List (K × ℕ) :=
  let threshold := (memBtreeM + 1) / 2
  if last && k = entries.length then (entries, [e])
  else if threshold ≤ k then
    (entries.take threshold, insertAt (entries.drop threshold) (k - threshold) e)
  else (insertAt (entries.take threshold) k e, entries.drop threshold)

/-- The new sibling `b` goes between `a` and its right neighbour. -/
def Mem.linkSibling (m : Mem K) (a b : ℕ) (es es' : List (K × ℕ)) : ℕ → LeafNode K :=
  let leaf := m.leaf a
  let leaves := match leaf.right with
    | some c => update m.leaf c { m.leaf c with left := some b }
    | none => m.leaf
  let leaves := update leaves b { entries := es', left := some a, right := leaf.right, seq := 0 }
  update leaves a { leaf with entries := es, right := some b, seq := leaf.seq + 1 }

/-- The second half of `LeafInsert`, for a key that is not there. -/
def Mem.leafAdd (m : Mem K) (key : K) (a k : ℕ) : Mem K × Option ℕ × ℕ :=
  let leaf := m.leaf a
  let e := (key, m.dummyval)
  if leaf.entries.length = memBtreeM then
    let (es, es') := splitEntries leaf.entries leaf.right.isNone k e
    ({ leaf := m.linkSibling a m.fresh es es', fresh := m.fresh + 1, dummyval := m.dummyval + 1 },
      some m.fresh, m.dummyval)
  else
    let leaf := { leaf with entries := insertAt leaf.entries k e, seq := leaf.seq + 1 }
    ({ m with leaf := update m.leaf a leaf, dummyval := m.dummyval + 1 }, none, m.dummyval)

/-- `LeafInsert`: the new sibling and the value of the key. -/
def Mem.leafInsert (m : Mem K) (key : K) (a : ℕ) : Mem K × Option ℕ × ℕ :=
  let k := ((m.leaf a).entries.takeWhile fun e => e.1 < key).length
  match (m.leaf a).entries[k]? with
  | some (key', val) => if key' = key then (m, none, val) else m.leafAdd key a k
  | none => m.leafAdd key a k

/-! ## Inner nodes -/

/-- What `InnerInsert` does with a new node to the right of child `k`, at both
kinds of levels. `alone` is its test for a node at the right edge, `goesRight`
its test on the separator that goes up. -/
def addChild (ks : List K) (cs : List (Node K)) (spare : Option K) (k : ℕ) (sep : K)
    (new : Node K) (alone : Bool) (goesRight : K → Bool) : Outcome (Node K × Option (Node K)) :=
  let threshold := (nent + 1) / 2
  if ks.length = nent then
    if alone then .done (.inner ks cs spare, some (.inner [] [new] (some sep)))
    else
      match ks[threshold - 1]? with
      | none => .undefined
      | some upKey =>
          if goesRight upKey then
            let k := if threshold ≤ k then k - threshold else 0
            .done (.inner (ks.take (threshold - 1)) (cs.take threshold) spare,
              some (.inner (insertAt (ks.drop threshold) k sep)
                (insertAt (cs.drop threshold) (k + 1) new) (some upKey)))
          else
            .done (.inner (insertAt (ks.take (threshold - 1)) k sep)
                (insertAt (cs.take threshold) (k + 1) new) spare,
              some (.inner (ks.drop threshold) (cs.drop threshold) (some upKey)))
  else .done (.inner (insertAt ks k sep) (insertAt cs (k + 1) new) spare, none)

/-- The child that the descent takes for the key. -/
def childIndex (ks : List K) (key : K) : ℕ := (ks.takeWhile (· ≤ key)).length

/-- `InnerInsert` at level 1, when `LeafInsert` has returned. -/
def afterLeaf (ks : List K) (cs : List (Node K)) (spare : Option K) (k : ℕ) (m : Mem K) (val : ℕ) :
    Option ℕ → Outcome (Mem K × Node K × Option (Node K) × ℕ)
  | none => .done (m, .inner ks cs spare, none, val)
  | some b =>
      match (m.leaf b).entries with
      | [] => .undefined
      | (sep, _) :: rest => do
          let (node, sibling) ←
            addChild ks cs spare k sep (.leaf b) rest.isEmpty (fun up => up ≤ sep)
          return (m, node, sibling, val)

/-- `InnerInsert` at a higher level, when the call below has returned. -/
def afterInner (key : K) (ks : List K) (cs : List (Node K)) (spare : Option K) (k : ℕ) (m : Mem K)
    (val : ℕ) : Option (Node K) → Outcome (Mem K × Node K × Option (Node K) × ℕ)
  | none => .done (m, .inner ks cs spare, none, val)
  | some (.leaf _) => .undefined
  | some (.inner _ _ none) => .undefined
  | some (.inner ks' cs' (some sep)) => do
      let (node, sibling) ←
        addChild ks cs spare k sep (.inner ks' cs' (some sep)) ks'.isEmpty (fun up => up ≤ key)
      return (m, node, sibling, val)

/-- `InnerInsert` at level `d`: the node, its new sibling, and the value. -/
def innerInsert (key : K) : ℕ → Mem K → Node K → Outcome (Mem K × Node K × Option (Node K) × ℕ)
  | 0, _, _ => .undefined
  | _ + 1, _, .leaf _ => .undefined
  | d + 1, m, .inner ks cs spare =>
      let k := childIndex ks key
      match cs[k]? with
      | none => .undefined
      | some child =>
          if d = 0 then
            match child with
            | .inner _ _ _ => .undefined
            | .leaf a =>
                let (m, new, val) := m.leafInsert key a
                afterLeaf ks cs spare k m val new
          else do
            let (m, child, new, val) ← innerInsert key d m child
            afterInner key ks (cs.set k child) spare k m val new

/-! ## Trees -/

/-- A tree without a root gets an empty leaf. -/
def Tree.ensureRoot (t : Tree K) : Tree K :=
  match t.root with
  | some _ => t
  | none =>
      { mem := { t.mem with
          leaf := update t.mem.leaf t.mem.fresh ⟨[], none, none, 0⟩
          fresh := t.mem.fresh + 1 }
        root := some (.leaf t.mem.fresh)
        depth := 0 }

/-- The new root above a node and its sibling. -/
def growRoot (node sibling : Node K) (upKey : K) : Node K := .inner [upKey] [node, sibling] none

/-- `Insert_rtm`, as `GetWithInsert` and `Put` call it: the value of the key. -/
def Tree.insert (t : Tree K) (key : K) : Outcome (ℕ × Tree K) :=
  let t := t.ensureRoot
  match t.root with
  | none => .undefined
  | some root =>
      if t.depth = 0 then
        match root with
        | .inner _ _ _ => .undefined
        | .leaf a =>
            match t.mem.leafInsert key a with
            | (m, none, val) => .done (val, { t with mem := m })
            | (m, some b, val) =>
                match (m.leaf b).entries with
                | [] => .undefined
                | (sep, _) :: _ => .done (val,
                    { mem := m, root := some (growRoot root (.leaf b) sep), depth := t.depth + 1 })
      else
        match innerInsert key t.depth t.mem root with
        | .done (m, node, none, val) => .done (val, { t with mem := m, root := some node })
        | .done (m, node, some (.inner ks cs (some upKey)), val) => .done (val,
            { mem := m
              root := some (growRoot node (.inner ks cs (some upKey)) upKey)
              depth := t.depth + 1 })
        | .done (_, _, some (.inner _ _ none), _) => .undefined
        | .done (_, _, some (.leaf _), _) => .undefined
        | .exit => .exit
        | .undefined => .undefined
        | .loop => .loop

/-- `FindLeaf` -/
def findLeaf (key : K) : ℕ → Node K → Outcome ℕ
  | 0, .leaf a => .done a
  | 0, .inner _ _ _ => .undefined
  | _ + 1, .leaf _ => .undefined
  | d + 1, .inner ks cs _ =>
      match cs[childIndex ks key]? with
      | none => .undefined
      | some child => findLeaf key d child

def Tree.findLeaf (t : Tree K) (key : K) : Outcome ℕ :=
  match t.root with
  | none => .undefined
  | some root => BPlusTree.findLeaf key t.depth root

/-- The value of the key in a leaf, if it is there. -/
def LeafNode.get (leaf : LeafNode K) (key : K) : Option ℕ :=
  let k := (leaf.entries.takeWhile fun e => e.1 < key).length
  match leaf.entries[k]? with
  | some (key', val) => if key' = key then some val else none
  | none => none

/-- `Get` -/
def Tree.get (t : Tree K) (key : K) : Outcome (Option ℕ) := do
  let a ← t.findLeaf key
  return (t.mem.leaf a).get key

/-- The first child at every level, as `SeekToFirst` and `PrintList` follow it. -/
def leftmost : ℕ → Node K → Outcome ℕ
  | 0, .leaf a => .done a
  | 0, .inner _ _ _ => .undefined
  | _ + 1, .leaf _ => .undefined
  | d + 1, .inner _ cs _ =>
      match cs[0]? with
      | none => .undefined
      | some child => leftmost d child

end

end Librdpma.Drtmh.BPlusTree
