import Librdpma.Drtmh.BPlusTreeLeaves

/-!
# The B+ tree is a map

The tree keeps its keys in increasing order in the leaves, and an insertion adds
one key or finds it. So a run of insertions and `Get`s on a new tree answers like
a map from keys to nodes.
-/

namespace Librdpma.Drtmh.BPlusTree

open Lib Function List Outcome

variable {K : Type} [LinearOrder K]

/-! ## The invariant of the tree -/

/-- The inner nodes lead to the leaves of the regions `L`; the values are those
given so far. -/
structure Inv (t : Tree K) (L : List (Region K)) : Prop where
  index : ∃ root, t.root = some root ∧ Index t.depth none none root L
  leaves : Leaves t.mem L
  given : ∀ e ∈ contents t.mem L, e.2 < t.mem.dummyval
  distinct : ((contents t.mem L).map Prod.snd).Nodup

section

variable {t t' : Tree K} {L L' La Lb : List (Region K)} {r : Region K} {key : K}

omit [LinearOrder K] in
lemma mem_contents {m : Mem K} {e : K × ℕ} :
    e ∈ contents m L ↔ ∃ r ∈ L, e ∈ (m.leaf r.id).entries := mem_flatMap

lemma Inv.tiles (h : Inv t L) : Tiles none none L := by
  obtain ⟨root, -, hidx⟩ := h.index
  exact hidx.tiles

lemma Inv.increasing (h : Inv t L) : Increasing (contents t.mem L) := by
  refine pairwise_flatMap.mpr ⟨fun r hr => (h.leaves.each r hr).increasing, ?_⟩
  refine h.tiles.pairwise.imp_of_mem ?_
  intro r r' hr hr' hbef e he e' he'
  exact hbef _ _ ((h.leaves.each r hr).range e he) ((h.leaves.each r' hr').range e' he').1

lemma Inv.mem_contents_iff (h : Inv t (La ++ r :: Lb)) (hkey : InRange r.lo r.hi key) (v : ℕ) :
    (key, v) ∈ contents t.mem (La ++ r :: Lb) ↔ (key, v) ∈ (t.mem.leaf r.id).entries := by
  have hr : r ∈ La ++ r :: Lb := mem_append_right _ mem_cons_self
  refine ⟨fun hall => ?_, fun he => mem_contents.mpr ⟨r, hr, he⟩⟩
  obtain ⟨r', hr', he⟩ := mem_contents.mp hall
  have hrng := (h.leaves.each r' hr').range _ he
  obtain ⟨-, hb, ha⟩ := pairwise_append.mp h.tiles.pairwise
  rcases mem_append.mp hr' with hr' | hr'
  · exact absurd (ha r' hr' r mem_cons_self _ _ hrng hkey.1) (lt_irrefl _)
  · rcases mem_cons.mp hr' with rfl | hr'
    · exact he
    · exact absurd ((pairwise_cons.mp hb).1 r' hr' _ _ hkey hrng.1) (lt_irrefl _)

lemma Inv.findLeaf (h : Inv t L) (key : K) :
    ∃ La r Lb, L = La ++ r :: Lb ∧ InRange r.lo r.hi key ∧ t.findLeaf key = .done r.id := by
  obtain ⟨root, hrt, hidx⟩ := h.index
  obtain ⟨La, r, Lb, hL, hkey, hfd⟩ := hidx.findLeaf
    (show InRange none none key from ⟨trivial, trivial⟩)
  refine ⟨La, r, Lb, hL, hkey, ?_⟩
  rw [Tree.findLeaf, hrt]
  exact hfd

lemma Inv.get_found (h : Inv t L) {v : ℕ} (hv : (key, v) ∈ contents t.mem L) :
    t.get key = .done (some v) := by
  obtain ⟨La, r, Lb, rfl, hkey, hfd⟩ := h.findLeaf key
  rw [h.mem_contents_iff hkey] at hv
  have hok := h.leaves.each r (mem_append_right _ mem_cons_self)
  rw [Tree.get, hfd, done_bind, LeafNode.get_found hok.increasing hv, pure_eq]

lemma Inv.get_absent (h : Inv t L) (hnew : ∀ v, (key, v) ∉ contents t.mem L) :
    t.get key = .done none := by
  obtain ⟨La, r, Lb, rfl, hkey, hfd⟩ := h.findLeaf key
  have hno : ∀ e ∈ (t.mem.leaf r.id).entries, e.1 ≠ key := by
    rintro ⟨k, v⟩ he rfl
    exact hnew v ((h.mem_contents_iff hkey v).mpr he)
  rw [Tree.get, hfd, done_bind, LeafNode.get_new hno, pure_eq]

/-! ## Insertion -/

lemma Inv.of_adds {a : ℕ} {root : Node K} (h : Inv t L) (hadds : Adds t.mem t'.mem L L' key a)
    (hrt : t'.root = some root) (hidx : Index t'.depth none none root L') : Inv t' L' := by
  obtain ⟨A, B, hold, hnew⟩ := hadds.contents
  have hperm : (contents t'.mem L').Perm ((key, t.mem.dummyval) :: contents t.mem L) := by
    rw [hold, hnew]
    exact perm_middle
  refine ⟨⟨root, hrt, hidx⟩, hadds.leaves, fun e he => ?_, ?_⟩
  · rw [hadds.dummyval]
    rcases mem_cons.mp (hperm.mem_iff.mp he) with rfl | he
    · exact Nat.lt_succ_self _
    · exact Nat.lt_succ_of_lt (h.given e he)
  · rw [(hperm.map Prod.snd).nodup_iff, map_cons]
    refine nodup_cons.mpr ⟨fun hmem => ?_, h.distinct⟩
    obtain ⟨e, he, heq⟩ := mem_map.mp hmem
    exact (h.given e he).ne heq

/-- What an insertion does to the tree. -/
inductive Inserted (t : Tree K) (L : List (Region K)) (key : K) : Outcome (ℕ × Tree K) → Prop
  | found {v : ℕ} (hv : (key, v) ∈ contents t.mem L) : Inserted t L key (.done (v, t))
  | added {t' : Tree K} {L' : List (Region K)} {a : ℕ} (hnew : ∀ v, (key, v) ∉ contents t.mem L)
      (ha : t.findLeaf key = .done a) (hadds : Adds t.mem t'.mem L L' key a) (h : Inv t' L') :
      Inserted t L key (.done (t.mem.dummyval, t'))

lemma Inv.insert_leaf {m : Mem K} {root : Node K} (h : Inv ⟨m, some root, 0⟩ L) :
    Inserted ⟨m, some root, 0⟩ L key (Tree.insert ⟨m, some root, 0⟩ key) := by
  obtain ⟨_, heq, a, ha, rfl⟩ := h.index
  obtain rfl : root = .leaf a := (Option.some.inj heq).trans ha
  have hkey : InRange (none : Option K) none key := ⟨trivial, trivial⟩
  have hnil : Inv ⟨m, some (.leaf a), 0⟩ ([] ++ ⟨a, none, none⟩ :: []) := h
  have hmem := hnil.mem_contents_iff hkey
  simp only [Tree.insert, Tree.ensureRoot, if_pos]
  rcases hnil.leaves.leafInsert hkey with
    ⟨v, hv, hins⟩ | ⟨hnew, m', hm'⟩
  · simp only at hins
    rw [hins]
    exact .found ((hmem v).mpr hv)
  have hnew : ∀ v, (key, v) ∉ contents m [⟨a, none, none⟩] := fun v hv =>
    hnew _ ((hmem v).mp hv) rfl
  rcases hm' with ⟨hins, hadds⟩ | ⟨b, sep, v, rest, hins, hb, hsep, -, hadds⟩
  · simp only at hins
    rw [hins]
    exact .added hnew rfl hadds (h.of_adds hadds rfl ⟨a, rfl, rfl⟩)
  · simp only at hins
    rw [hins]
    dsimp only
    rw [hb]
    have hkd : Kids (Index 0) none none [sep] [.leaf a, .leaf b]
        ([⟨a, none, some sep⟩] ++ [⟨b, some sep, none⟩]) :=
      .cons hsep ⟨a, rfl, rfl⟩ (.one ⟨b, rfl, rfl⟩)
    exact .added hnew rfl hadds
      (h.of_adds hadds rfl ⟨[sep], _, none, rfl, Nat.le_add_left 1 14, hkd⟩)

lemma Inv.insert_inner {m : Mem K} {root : Node K} {d : ℕ} (h : Inv ⟨m, some root, d + 1⟩ L) :
    Inserted ⟨m, some root, d + 1⟩ L key (Tree.insert ⟨m, some root, d + 1⟩ key) := by
  obtain ⟨root', heq, hidx⟩ := h.index
  obtain rfl : root = root' := Option.some.inj heq
  obtain ⟨La, r, Lb, rfl, hkey, hlf, hinserts⟩ := hidx.inserts
    (show InRange none none key from ⟨trivial, trivial⟩)
  have hmem := h.mem_contents_iff hkey
  simp only [Tree.insert, Tree.ensureRoot]
  rcases h.leaves.leafInsert hkey with ⟨v, hv, hins⟩ | ⟨hnew, m', hm'⟩
  · rw [hinserts.same _ _ _ hins]
    exact .found ((hmem v).mpr hv)
  have hnew : ∀ v, (key, v) ∉ contents m (La ++ r :: Lb) := fun v hv =>
    hnew _ ((hmem v).mp hv) rfl
  rcases hm' with ⟨hins, hadds⟩ | ⟨b, sep, v, rest, hins, hb, hsep, hed, hadds⟩
  · rw [hinserts.same _ _ _ hins]
    exact .added hnew hlf hadds (h.of_adds hadds rfl hidx)
  · obtain ⟨node, sibling, hinn, hgr⟩ := hinserts.split _ _ _ _ _ _ _ hins hb hsep hed
    rw [hinn]
    cases hgr with
    | whole hnd => exact .added hnew hlf hadds (h.of_adds hadds rfl hnd)
    | split hL hup h1 h2 _ =>
      refine .added hnew hlf hadds (h.of_adds hadds rfl ?_)
      rw [hL]
      exact ⟨[_], _, none, rfl, Nat.le_add_left 1 14, .cons hup h1 (.one h2)⟩

lemma Inv.insert (h : Inv t L) (key : K) : Inserted t L key (t.insert key) := by
  obtain ⟨m, root, d⟩ := t
  obtain ⟨root, rfl, -⟩ := h.index
  cases d with
  | zero => exact h.insert_leaf
  | succ d => exact h.insert_inner

lemma Inv.empty : Inv (Tree.empty : Tree K) [⟨0, none, none⟩] where
  index := ⟨_, rfl, 0, rfl, rfl⟩
  leaves :=
    { nodup := nodup_singleton _
      each := fun r hr => by
        rw [mem_singleton.mp hr]
        exact ⟨Nat.one_pos, Pairwise.nil, nofun, Nat.zero_le _⟩
      filled := fun r hr _ => by rw [mem_singleton.mp hr]
      links := ⟨rfl, rfl, trivial⟩ }
  given := nofun
  distinct := nodup_nil

end

/-! ## The leaves of the tree -/

/-- The leaf `a` is `d` levels below the node. -/
inductive Node.HasLeaf : Node K → ℕ → ℕ → Prop
  | leaf (a : ℕ) : HasLeaf (.leaf a) 0 a
  | inner {keys : List K} {children : List (Node K)} {spare : Option K} {child : Node K} {d a : ℕ}
      (hmem : child ∈ children) (h : HasLeaf child d a) :
      HasLeaf (.inner keys children spare) (d + 1) a

section

variable {lo hi : Option K} {node : Node K} {L : List (Region K)} {d : ℕ}

lemma Kids.mem_regions {ks : List K} {cs : List (Node K)}
    {P : Option K → Option K → Node K → List (Region K) → Prop} (h : Kids P hi lo ks cs L)
    {c : Node K} (hc : c ∈ cs) : ∃ lo hi M, P lo hi c M ∧ ∀ r ∈ M, r ∈ L := by
  induction ks generalizing lo cs L with
  | nil =>
    obtain ⟨c', rfl, h⟩ := h
    rw [mem_singleton.mp hc]
    exact ⟨_, _, _, h, fun _ => id⟩
  | cons s ks ih =>
    obtain ⟨c', cs', L1, L2, rfl, rfl, -, h1, h⟩ := h
    rcases mem_cons.mp hc with rfl | hc
    · exact ⟨_, _, _, h1, fun r => mem_append_left _⟩
    · obtain ⟨lo, hi, M, hM, hsub⟩ := ih h hc
      exact ⟨lo, hi, M, hM, fun r hr => mem_append_right _ (hsub r hr)⟩

lemma Index.hasLeaf (h : Index d lo hi node L) {d' a : ℕ} (hlf : node.HasLeaf d' a) :
    d' = d ∧ ∃ r ∈ L, r.id = a := by
  induction hlf generalizing d lo hi L with
  | leaf a =>
    cases d with
    | zero =>
      obtain ⟨b, hb, rfl⟩ := h
      cases hb
      exact ⟨rfl, _, mem_singleton_self _, rfl⟩
    | succ d =>
      obtain ⟨ks, cs, spare, heq, -⟩ := h
      cases heq
  | inner hmem _ ih =>
    cases d with
    | zero =>
      obtain ⟨b, hb, -⟩ := h
      cases hb
    | succ d =>
      obtain ⟨ks, cs, spare, heq, -, h⟩ := h
      cases heq
      obtain ⟨lo, hi, M, hM, hsub⟩ := Kids.mem_regions h hmem
      obtain ⟨hd, r, hr, ha⟩ := ih hM
      exact ⟨congrArg (· + 1) hd, r, hsub r hr, ha⟩

lemma Index.leftmost (h : Index d lo hi node L) :
    ∃ r L', L = r :: L' ∧ BPlusTree.leftmost d node = .done r.id := by
  induction d generalizing lo hi node L with
  | zero =>
    obtain ⟨a, rfl, rfl⟩ := h
    exact ⟨_, [], rfl, rfl⟩
  | succ d ih =>
    obtain ⟨ks, cs, spare, rfl, -, h⟩ := h
    have hfst : ∃ c cs' lo' hi' M L', cs = c :: cs' ∧ Index d lo' hi' c M ∧ L = M ++ L' := by
      cases ks with
      | nil =>
        obtain ⟨c, rfl, h⟩ := h
        exact ⟨c, [], _, _, L, [], rfl, h, (append_nil _).symm⟩
      | cons s ks =>
        obtain ⟨c, cs', L1, L2, rfl, rfl, -, h1, -⟩ := h
        exact ⟨c, cs', _, _, L1, L2, rfl, h1, rfl⟩
    obtain ⟨c, cs', lo', hi', M, L', rfl, hM, rfl⟩ := hfst
    obtain ⟨r, M', rfl, hlf⟩ := ih hM
    exact ⟨r, M' ++ L', rfl, hlf⟩

end

/-! ## Runs -/

inductive Call (K : Type) : Type where
  | get (key : K)
  | insert (key : K)
deriving DecidableEq

def Call.run (t : Tree K) : Call K → Outcome (Option ℕ × Tree K)
  | .get key => do return (← t.get key, t)
  | .insert key => do
      let (val, t) ← t.insert key
      return (some val, t)

/-- One call after the other, with what they return. -/
def runCalls : List (Call K) → Tree K → Outcome (List (Option ℕ) × Tree K)
  | [], t => .done ([], t)
  | c :: calls, t => do
      let (res, t) ← c.run t
      let (results, t) ← runCalls calls t
      return (res :: results, t)

lemma runCalls_snoc {calls : List (Call K)} {c : Call K} {t t1 t2 : Tree K}
    {results : List (Option ℕ)} {res : Option ℕ} (h : runCalls calls t = .done (results, t1))
    (hc : c.run t1 = .done (res, t2)) :
    runCalls (calls ++ [c]) t = .done (results ++ [res], t2) := by
  induction calls generalizing t results with
  | nil =>
    cases h
    simp only [nil_append, runCalls, hc, done_bind, pure_eq]
  | cons c' calls ih =>
    rw [runCalls, bind_eq_done] at h
    obtain ⟨⟨res', t'⟩, hc', h⟩ := h
    rw [bind_eq_done] at h
    obtain ⟨⟨results', t''⟩, hrs, h⟩ := h
    cases h
    simp only [cons_append, runCalls, hc', done_bind, ih hrs, pure_eq]

/-- What a map answers: an insertion the node of the key, a `Get` the node if the
key was inserted before. -/
def Call.answer (node : K → ℕ) (before : List (Call K)) : Call K → Option ℕ
  | .insert key => some (node key)
  | .get key => if .insert key ∈ before then some (node key) else none

/-- Every call is answered as by a map in which every key has a node of its
own. -/
structure RefinesMap (calls : List (Call K)) (results : List (Option ℕ)) (node : K → ℕ) : Prop where
  length : results.length = calls.length
  answers : ∀ (i : ℕ) c, calls[i]? = some c → results[i]? = some (c.answer node (calls.take i))
  own : ∀ key key', .insert key ∈ calls → .insert key' ∈ calls → node key = node key' → key = key'

/-- The leaves `ids` are linked in both directions from the leftmost one on, all
leaves of the tree are among them, at one depth, and their keys increase and are
those of `stored`. -/
structure Enumerates (t : Tree K) (ids : List ℕ) (stored : K → ℕ → Prop) : Prop where
  depth : ∀ root, t.root = some root → ∀ d a, root.HasLeaf d a → d = t.depth ∧ a ∈ ids
  first : ∃ root a, t.root = some root ∧ leftmost t.depth root = .done a ∧ ids.head? = some a
  links : ids.Nodup ∧ Links t.mem none ids
  increasing : Increasing (ids.flatMap fun a => (t.mem.leaf a).entries)
  keys : ∀ key val, (key, val) ∈ ids.flatMap (fun a => (t.mem.leaf a).entries) ↔ stored key val

lemma Inv.enumerates {t : Tree K} {L : List (Region K)} (h : Inv t L) :
    Enumerates t (L.map Region.id) fun key val => (key, val) ∈ contents t.mem L := by
  obtain ⟨root, hrt, hidx⟩ := h.index
  have hcon : (L.map Region.id).flatMap (fun a => (t.mem.leaf a).entries) = contents t.mem L := by
    rw [contents, flatMap_map]
  refine ⟨fun root' hrt' d a hlf => ?_, ?_, ⟨h.leaves.nodup, h.leaves.links⟩, ?_, fun key val => ?_⟩
  · obtain rfl : root' = root := Option.some.inj (hrt'.symm.trans hrt)
    obtain ⟨hd, r, hr, rfl⟩ := hidx.hasLeaf hlf
    exact ⟨hd, mem_map_of_mem hr⟩
  · obtain ⟨r, L', rfl, hleft⟩ := hidx.leftmost
    exact ⟨root, r.id, hrt, hleft, rfl⟩
  · rw [hcon]
    exact h.increasing
  · rw [hcon]

/-! ## The map -/

section

variable {calls : List (Call K)} {results : List (Option ℕ)} {node node' : K → ℕ} {c : Call K}

lemma Call.answer_congr {before : List (Call K)}
    (h : ∀ key, .insert key ∈ before ∨ c = .insert key → node' key = node key) :
    c.answer node' before = c.answer node before := by
  cases c with
  | insert key => exact congrArg some (h key (.inr rfl))
  | get key =>
    rw [answer, answer]
    split_ifs with hmem
    · rw [h key (.inl hmem)]
    · rfl

lemma RefinesMap.snoc (h : RefinesMap calls results node)
    (hagr : ∀ key, .insert key ∈ calls → node' key = node key)
    (hown : ∀ key key', .insert key ∈ calls ++ [c] → .insert key' ∈ calls ++ [c] →
      node' key = node' key' → key = key') :
    RefinesMap (calls ++ [c]) (results ++ [c.answer node' calls]) node' := by
  refine ⟨?_, fun i c' hi => ?_, hown⟩
  · rw [length_append, length_append, h.length, length_singleton, length_singleton]
  · rcases lt_or_ge i calls.length with hlt | hge
    · rw [getElem?_append_left hlt] at hi
      rw [getElem?_append_left (h.length ▸ hlt), h.answers i c' hi, take_append_of_le_length hlt.le]
      refine congrArg some (Call.answer_congr fun key hkey => (hagr key ?_).symm)
      rcases hkey with hmem | rfl
      · exact mem_of_mem_take hmem
      · exact mem_of_getElem? hi
    · rw [getElem?_append_right hge] at hi
      obtain ⟨hi0, hc⟩ := List.getElem?_eq_some_iff.mp hi
      obtain rfl : i = calls.length := by
        rw [length_singleton] at hi0
        omega
      simp only [Nat.sub_self, getElem_cons_zero] at hc
      subst hc
      rw [getElem?_append_right h.length.le, h.length, Nat.sub_self, take_left]
      rfl

end

/-- The state after some calls on a new tree. -/
structure After (calls : List (Call K)) (t : Tree K) (node : K → ℕ) : Prop where
  results : ∃ results, runCalls calls .empty = .done (results, t) ∧ RefinesMap calls results node
  inv : ∃ L, Inv t L ∧ ∀ key val, (key, val) ∈ contents t.mem L ↔
    .insert key ∈ calls ∧ val = node key

lemma After.get {calls : List (Call K)} {t : Tree K} {node : K → ℕ} (h : After calls t node)
    (key : K) : After (calls ++ [.get key]) t node := by
  obtain ⟨⟨results, hrun, href⟩, L, hinv, hks⟩ := h
  have hmem : ∀ key', Call.insert key' ∈ calls ++ [.get key] ↔ Call.insert key' ∈ calls := by
    simp
  refine ⟨⟨_, runCalls_snoc hrun ?_, href.snoc (fun _ _ => rfl) fun k k' hk hk' =>
    href.own k k' ((hmem k).mp hk) ((hmem k').mp hk')⟩, L, hinv, fun k v => ?_⟩
  · rw [Call.run, Call.answer]
    split_ifs with hin
    · rw [hinv.get_found ((hks key _).mpr ⟨hin, rfl⟩)]
      rfl
    · rw [hinv.get_absent fun v hv => hin ((hks key v).mp hv).1]
      rfl
  · rw [hks, hmem]

lemma After.insert_again {calls : List (Call K)} {t : Tree K} {node : K → ℕ}
    (h : After calls t node) {key : K} (hin : .insert key ∈ calls) :
    t.insert key = .done (node key, t) ∧ After (calls ++ [.insert key]) t node := by
  obtain ⟨⟨results, hrun, href⟩, L, hinv, hks⟩ := h
  have hmem : ∀ key', Call.insert key' ∈ calls ++ [.insert key] ↔ Call.insert key' ∈ calls := by
    intro key'
    simp only [mem_append, mem_singleton, Call.insert.injEq, or_iff_left_iff_imp]
    rintro rfl
    exact hin
  have hins : t.insert key = .done (node key, t) := by
    have hst := hinv.insert key
    generalize t.insert key = out at hst
    cases hst with
    | found hv => rw [((hks key _).mp hv).2]
    | added hnew _ _ _ => exact absurd ((hks key _).mpr ⟨hin, rfl⟩) (hnew _)
  refine ⟨hins, ⟨_, runCalls_snoc hrun ?_, href.snoc (fun _ _ => rfl) fun k k' hk hk' =>
    href.own k k' ((hmem k).mp hk) ((hmem k').mp hk')⟩, L, hinv, fun k v => ?_⟩
  · rw [Call.run, hins]
    rfl
  · rw [hks, hmem]

lemma After.insert_new {calls : List (Call K)} {t : Tree K} {node : K → ℕ}
    (h : After calls t node) {key : K} (hout : .insert key ∉ calls) :
    ∃ t' node', After (calls ++ [.insert key]) t' node' := by
  obtain ⟨⟨results, hrun, href⟩, L, hinv, hks⟩ := h
  have hst := hinv.insert key
  generalize hins : t.insert key = out at hst
  cases hst with
  | found hv => exact absurd ((hks key _).mp hv).1 hout
  | @added t' L' a hnew _ hadds hinv' =>
    have hne : ∀ key', .insert key' ∈ calls → key' ≠ key := by
      rintro key' hmem rfl
      exact hout hmem
    have hgvn : ∀ key', .insert key' ∈ calls → node key' ≠ t.mem.dummyval := fun key' hmem =>
      (hinv.given _ ((hks key' _).mpr ⟨hmem, rfl⟩)).ne
    have hmem : ∀ key', Call.insert key' ∈ calls ++ [.insert key] ↔
        Call.insert key' ∈ calls ∨ key' = key := by
      simp
    refine ⟨t', update node key t.mem.dummyval,
      ⟨_, runCalls_snoc hrun ?_, href.snoc (fun key' hk => ?_) fun k k' hk hk' => ?_⟩, L', hinv',
      fun k v => ?_⟩
    · rw [Call.run, hins, Call.answer, update_self]
      rfl
    · exact update_of_ne (hne key' hk) _ _
    · rcases (hmem k).mp hk with hk | hk <;> rcases (hmem k').mp hk' with hk' | hk'
      · rw [update_of_ne (hne k hk), update_of_ne (hne k' hk')]
        exact href.own k k' hk hk'
      · rw [hk', update_of_ne (hne k hk), update_self]
        exact fun heq => absurd heq (hgvn k hk)
      · rw [hk, update_of_ne (hne k' hk'), update_self]
        exact fun heq => absurd heq.symm (hgvn k' hk')
      · exact fun _ => hk.trans hk'.symm
    · obtain ⟨A, B, hold, hcon⟩ := hadds.contents
      rw [hcon, perm_middle.mem_iff, mem_cons, ← hold, hks, hmem, Prod.mk.injEq]
      constructor
      · rintro (⟨rfl, rfl⟩ | ⟨hk, rfl⟩)
        · exact ⟨.inr rfl, by rw [update_self]⟩
        · exact ⟨.inl hk, (update_of_ne (hne k hk) _ _).symm⟩
      · rintro ⟨hk | rfl, rfl⟩
        · rw [update_of_ne (hne k hk)]
          exact .inr ⟨hk, rfl⟩
        · exact .inl ⟨rfl, update_self _ _ _⟩

lemma after_calls (calls : List (Call K)) : ∃ t node, After calls t node := by
  induction calls using reverseRecOn with
  | nil =>
    refine ⟨.empty, fun _ => 0, ⟨[], rfl, rfl, nofun, nofun⟩, _, Inv.empty, fun key val => ?_⟩
    refine ⟨nofun, ?_⟩
    rintro ⟨hmem, -⟩
    cases hmem
  | append_singleton calls c ih =>
    obtain ⟨t, node, h⟩ := ih
    cases c with
    | get key => exact ⟨t, node, h.get key⟩
    | insert key =>
      by_cases hin : .insert key ∈ calls
      · exact ⟨t, node, (h.insert_again hin).2⟩
      · exact h.insert_new hin

/-- Any calls on a new tree are answered as by a map, and the leaves of the tree
enumerate it. An insertion of a key that is there returns its node and leaves the
tree as it is. -/
theorem calls_refine_ordered_map (calls : List (Call K)) :
    ∃ results t node ids, runCalls calls .empty = .done (results, t) ∧
      RefinesMap calls results node ∧
      Enumerates t ids (fun key val => .insert key ∈ calls ∧ val = node key) ∧
      ∀ key, .insert key ∈ calls → t.insert key = .done (node key, t) := by
  obtain ⟨t, node, h⟩ := after_calls calls
  have hag : ∀ key, .insert key ∈ calls → t.insert key = .done (node key, t) := fun key hin =>
    (h.insert_again hin).1
  obtain ⟨⟨results, hrun, href⟩, L, hinv, hks⟩ := h
  obtain ⟨hdpt, hfst, hlk, hinc, hmem⟩ := hinv.enumerates
  exact ⟨results, t, node, _, hrun, href,
    ⟨hdpt, hfst, hlk, hinc, fun key val => (hmem key val).trans (hks key val)⟩, hag⟩

end Librdpma.Drtmh.BPlusTree
