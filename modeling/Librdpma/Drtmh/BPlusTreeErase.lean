import Librdpma.Drtmh.BPlusTreeDelete

/-!
# Which keys a deletion removes

`Delete_rtm` takes one entry from the tree and leaves the rest: the entry of the
key if the key is in the tree. If it is not, the entry of the next key goes when
that is in the same leaf.
-/

namespace Librdpma.Drtmh.BPlusTree

open Lib List

variable {K : Type} [LinearOrder K]

/-- The tree holds the key with its node. -/
def Tree.Holds (t : Tree K) (key : K) (v : ℕ) : Prop :=
  ∃ root d a, t.root = some root ∧ root.HasLeaf d a ∧ (key, v) ∈ (t.mem.leaf a).entries

section

variable {m m' : Mem K} {t t' : Tree K} {d : ℕ} {lo hi : Option K} {node : Node K}
  {L L' : List (Region K)} {r : Region K} {key : K} {v : ℕ} {ia ib : List ℕ} {a : ℕ}
  {res : DeleteResult K}

lemma Index.hasLeaf_of_mem (h : Index d lo hi node L) (hr : r ∈ L) : node.HasLeaf d r.id := by
  induction d generalizing lo hi node L with
  | zero =>
    obtain ⟨a, rfl, rfl⟩ := h
    rw [mem_singleton.mp hr]
    exact .leaf a
  | succ d ih =>
    obtain ⟨ks, cs, spare, rfl, -, h⟩ := h
    have hchd : ∃ c ∈ cs, Node.HasLeaf c d r.id := by
      induction ks generalizing lo cs L with
      | nil =>
        obtain ⟨c, rfl, h⟩ := h
        exact ⟨c, mem_singleton_self _, ih h hr⟩
      | cons s ks ihks =>
        obtain ⟨c, cs', L1, L2, rfl, rfl, -, hc, h⟩ := h
        rcases mem_append.mp hr with hr | hr
        · exact ⟨c, mem_cons_self, ih hc hr⟩
        · obtain ⟨c', hc', hlf⟩ := ihks hr _ h
          exact ⟨c', mem_cons_of_mem _ hc', hlf⟩
    obtain ⟨c, hc, hlf⟩ := hchd
    exact .inner hc hlf

lemma Inv.holds_iff (h : Inv t L) : t.Holds key v ↔ (key, v) ∈ contents t.mem L := by
  obtain ⟨root, hrt, hidx⟩ := h.index
  rw [mem_contents]
  constructor
  · rintro ⟨root', d, a, hrt', hlf, he⟩
    obtain rfl : root' = root := Option.some.inj (hrt'.symm.trans hrt)
    obtain ⟨-, r, hr, rfl⟩ := hidx.hasLeaf hlf
    exact ⟨r, hr, he⟩
  · rintro ⟨r, hr, he⟩
    exact ⟨root, _, _, hrt, hidx.hasLeaf_of_mem hr, he⟩

omit [LinearOrder K] in
lemma not_holds_of_root (h : t.root = none) : ¬ t.Holds key v := by
  rintro ⟨root, d, a, hrt, -⟩
  rw [h] at hrt
  cases hrt

/-! ## The leaves after a deletion -/

omit [LinearOrder K] in
lemma contents_eq : contents m L = (L.map Region.id).flatMap fun a => (m.leaf a).entries := by
  rw [contents, flatMap_map]

lemma Leaves.deleted (h : Leaves m L) (hids : L.map Region.id = ia ++ a :: ib)
    (hdel : LeafDeleted m key a (some (m', res)))
    (hids' : L'.map Region.id = if res.freeNode then ia ++ ib else L.map Region.id)
    (hft : Fits m' L') : Leaves m' L' := by
  have hnd := h.nodup
  have hlk := h.links
  rw [hids] at hnd hlk hids'
  have hsub : (L'.map Region.id).Sublist (ia ++ a :: ib) := by
    rw [hids']
    split
    · exact (Sublist.refl _).append (sublist_cons_self _ _)
    · exact Sublist.refl _
  have hold : ∀ r' ∈ L', ∃ r ∈ L, r.id = r'.id := by
    intro r' hr'
    have hmem := hsub.subset (mem_map_of_mem hr')
    rw [← hids] at hmem
    exact mem_map.mp hmem
  have hfr : m'.fresh = m.fresh := by
    cases hdel with
    | kept _ _ _ _ hm' _ | emptied _ _ hm' _ => exact hm'.fresh
  refine ⟨hnd.sublist hsub, fun r' hr' => ?_, fun r' hr' hnil => ?_, ?_⟩
  · obtain ⟨r, hr, hid⟩ := hold r' hr'
    have hok := h.each r hr
    have hsht := hdel.sublist r'.id
    rw [← hid] at hsht
    refine ⟨?_, ?_, hft r' hr', ?_⟩
    · rw [hfr, ← hid]
      exact hok.fresh
    · rw [← hid]
      exact hok.increasing.sublist hsht
    · rw [← hid]
      exact hsht.length_le.trans hok.size
  · -- a leaf without keys has been taken out
    exfalso
    obtain ⟨r, hr, hid⟩ := hold r' hr'
    have hlone : r.id ≠ a → (m.leaf r.id).entries ≠ [] := by
      intro hne hemp
      have := congrArg (map Region.id) (h.filled r hr hemp)
      rw [hids] at this
      have ha : a ∈ ia ++ a :: ib := by simp
      rw [this] at ha
      exact hne (mem_singleton.mp ha).symm
    cases hdel with
    | kept _ _ _ hrs hm' _ =>
      by_cases hne : r'.id = a
      · rw [hne, hm'.entries, hrs] at hnil
        cases hnil
      · rw [hm'.other _ hne, ← hid] at hnil
        exact hlone (hid ▸ hne) hnil
    | emptied _ _ hm' _ =>
      have hne : r'.id ≠ a := by
        rintro rfl
        have hmem : r'.id ∈ L'.map Region.id := mem_map_of_mem hr'
        rw [hids', if_pos rfl] at hmem
        exact (nodup_cons.mp (nodup_middle.mp hnd)).1 hmem
      rw [hm'.other _ hne, ← hid] at hnil
      exact hlone (hid ▸ hne) hnil
  · cases hdel with
    | kept _ _ _ _ _ hsm =>
      rw [hids']
      exact hlk.frame fun c _ => hsm c
    | emptied _ _ _ hun =>
      rw [hids']
      exact hlk.remove hnd nofun hun

lemma LeafDeleted.contents_eq (hdel : LeafDeleted m key a (some (m', res))) (L' : List (Region K))
    (hids : L.map Region.id = ia ++ a :: ib) (hnd : (L.map Region.id).Nodup)
    (hids' : L'.map Region.id = if res.freeNode then ia ++ ib else L.map Region.id) :
    ∃ A e B, contents m L = A ++ e :: B ∧ contents m' L' = A ++ B ∧ e ∈ (m.leaf a).entries ∧
      key ≤ e.1 ∧ (∀ x ∈ (m.leaf a).entries, key ≤ x.1 → x ∈ e :: B) ∧ res.value = e.2 := by
  rw [hids] at hnd hids'
  have hia : a ∉ ia := fun ha => (nodup_append.mp hnd).2.2 a ha a mem_cons_self rfl
  have hib : a ∉ ib := (nodup_cons.mp (nodup_append.mp hnd).2.1).1
  have hsm : ∀ l : List ℕ, a ∉ l → (∀ c, c ≠ a → (m'.leaf c).entries = (m.leaf c).entries) →
      (l.flatMap fun a => (m'.leaf a).entries) = l.flatMap fun a => (m.leaf a).entries := by
    intro l hl hoth
    induction l with
    | nil => rfl
    | cons c l ih =>
      rw [mem_cons, not_or] at hl
      rw [flatMap_cons, flatMap_cons, hoth c (Ne.symm hl.1), ih hl.2]
  rw [BPlusTree.contents_eq, BPlusTree.contents_eq, hids, hids']
  cases hdel with
  | @kept E1 E2 E e e' _ hE hbel hge hrs hm' _ =>
    refine ⟨(ia.flatMap fun a => (m.leaf a).entries) ++ E1, e,
      E2 ++ ib.flatMap fun a => (m.leaf a).entries, ?_, ?_, ?_, hge, fun x hx hxge => ?_, rfl⟩
    · simp only [flatMap_append, flatMap_cons, hE, append_assoc, cons_append]
    · simp only [Bool.false_eq_true, if_false, flatMap_append, flatMap_cons,
        hm'.entries, hsm ia hia hm'.other, hsm ib hib hm'.other, append_assoc]
    · rw [hE]
      simp
    · rw [hE] at hx
      rcases mem_append.mp hx with hx | hx
      · exact absurd (hbel x hx) (not_lt_of_ge hxge)
      · rw [← cons_append]
        exact mem_append_left _ hx
  | @emptied e _ hE hge hm' _ =>
    refine ⟨ia.flatMap fun a => (m.leaf a).entries, e, ib.flatMap fun a => (m.leaf a).entries,
      ?_, ?_, ?_, hge, fun x hx _ => ?_, rfl⟩
    · simp only [flatMap_append, flatMap_cons, hE, cons_append, nil_append]
    · simp only [if_true, flatMap_append, hsm ia hia hm'.other, hsm ib hib hm'.other]
    · rw [hE]
      exact mem_singleton_self _
    · rw [hE] at hx
      rw [mem_singleton.mp hx]
      exact mem_cons_self

end

/-! ## The tree after a deletion -/

/-- A tree without a root holds nothing. -/
def Tree.Good (t : Tree K) (C : List (K × ℕ)) : Prop :=
  (t.root = none ∧ C = []) ∨ ∃ L, Inv t L ∧ contents t.mem L = C

/-- What a deletion does: nothing, or it removes the entry `e`, the first from
`key` on. -/
inductive Erased (t : Tree K) (C : List (K × ℕ)) (key : K) : Outcome (Option ℕ × Tree K) → Prop
  | absent {a : ℕ} (hfind : t.findLeaf key = .done a)
      (hall : ∀ e ∈ (t.mem.leaf a).entries, e.1 < key) :
      Erased t C key (.done (none, t))
  | removed {a : ℕ} {A B : List (K × ℕ)} {e : K × ℕ} {t' : Tree K}
      (hfind : t.findLeaf key = .done a) (he : e ∈ (t.mem.leaf a).entries) (hge : key ≤ e.1)
      (hfirst : ∀ x ∈ (t.mem.leaf a).entries, key ≤ x.1 → x ∈ e :: B) (hC : C = A ++ e :: B)
      (hgood : t'.Good (A ++ B)) : Erased t C key (.done (some e.2, t'))

section

variable {t t' : Tree K} {L : List (Region K)} {C : List (K × ℕ)} {key : K} {v : ℕ}
  {noKey : K → Bool}

lemma Inv.fits (h : Inv t L) : Fits t.mem L := fun r hr => (h.leaves.each r hr).range

lemma Inv.delete (h : Inv t L) (noKey : K → Bool) (key : K) :
    Erased t (contents t.mem L) key (t.delete noKey key) := by
  obtain ⟨root, hrt, hidx⟩ := h.index
  have hinc : ∀ a ∈ L.map Region.id, Increasing (t.mem.leaf a).entries := by
    intro a ha
    obtain ⟨r, hr, rfl⟩ := mem_map.mp ha
    exact (h.leaves.each r hr).increasing
  have hkey : InRange none none key := ⟨trivial, trivial⟩
  obtain ⟨ia, a, ib, hids, hlf, hno, hsome⟩ := (hidx.spans h.fits).delete noKey hkey hinc
  have hfind : t.findLeaf key = .done a := by
    rw [Tree.findLeaf, hrt]
    exact hlf
  have hdel := leafDeleted key (hinc a (by rw [hids]; simp))
  rw [Tree.delete, hrt]
  cases hout : t.mem.leafDelete key a with
  | none =>
    rw [hout] at hdel
    cases hdel with
    | absent hall =>
      simp only [hno hout, Outcome.done_bind, Outcome.pure_eq]
      exact .absent hfind hall
  | some out =>
    obtain ⟨m', res⟩ := out
    rw [hout] at hdel
    obtain ⟨⟨node, res'⟩, hnd, hval, hdlt⟩ := hsome m' res hout
    simp only [hnd, Outcome.done_bind, Outcome.pure_eq]
    by_cases hnil : (if res.freeNode then ia ++ ib else L.map Region.id) = []
    · -- the last key
      obtain ⟨A, e, B, hold, hnew, he, hge, hfirst, hres⟩ :=
        hdel.contents_eq [] hids h.leaves.nodup hnil.symm
      rw [hval, hres, if_pos (hdlt.free.mpr hnil)]
      exact .removed hfind he hge hfirst hold (.inl ⟨rfl, hnew.symm⟩)
    · obtain ⟨L', hidx', hids', hft'⟩ := (hdlt.spans hnil).index
      obtain ⟨A, e, B, hold, hnew, he, hge, hfirst, hres⟩ :=
        hdel.contents_eq L' hids h.leaves.nodup hids'
      have hfr : ¬ res'.freeNode = true := fun hfr => hnil (hdlt.free.mp hfr)
      rw [hval, hres, if_neg hfr]
      refine .removed hfind he hge hfirst hold (.inr ⟨L', ⟨⟨node, rfl, hidx'⟩,
        h.leaves.deleted hids hdel hids' hft', fun x hx => ?_, ?_⟩, hnew⟩)
      · have hdmy : m'.dummyval = t.mem.dummyval := by
          cases hdel with
          | kept _ _ _ _ hm' _ | emptied _ _ hm' _ => exact hm'.dummyval
        rw [hnew] at hx
        rw [hdmy]
        refine h.given x ?_
        rw [hold]
        exact (mem_append.mp hx).elim (mem_append_left _) fun hx =>
          mem_append_right _ (mem_cons_of_mem _ hx)
      · have hdis := h.distinct
        rw [hold] at hdis
        rw [hnew]
        exact hdis.sublist (((Sublist.refl A).append (sublist_cons_self e B)).map Prod.snd)

lemma Inv.ensureRoot (hrt : t.root = none) : Inv t.ensureRoot [⟨t.mem.fresh, none, none⟩] := by
  rw [Tree.ensureRoot, hrt]
  refine ⟨⟨_, rfl, _, rfl, rfl⟩, ⟨nodup_singleton _, fun r hr => ?_, fun r hr _ => ?_, ?_⟩, ?_, ?_⟩
  · rw [mem_singleton.mp hr]
    refine ⟨Nat.lt_succ_self _, ?_, ?_, ?_⟩ <;> simp only [Function.update_self]
    · exact Pairwise.nil
    · simp
    · exact Nat.zero_le _
  · rw [mem_singleton.mp hr]
  · simp [Links]
  · simp [contents]
  · simp [contents]

lemma Tree.insert_ensureRoot (t : Tree K) (key : K) : t.ensureRoot.insert key = t.insert key := by
  have hag : t.ensureRoot.ensureRoot = t.ensureRoot := by
    cases hrt : t.root with
    | none | some root => simp only [Tree.ensureRoot, hrt]
  rw [Tree.insert, Tree.insert, hag]

/-! ## Insertions and deletions -/

/-- The trees that insertions and deletions make. -/
inductive Made (noKey : K → Bool) : Tree K → Prop
  | new : Made noKey .empty
  | insert {t t' : Tree K} {key : K} {v : ℕ} (h : Made noKey t)
      (hins : t.insert key = .done (v, t')) : Made noKey t'
  | delete {t t' : Tree K} {key : K} {res : Option ℕ} (h : Made noKey t)
      (hdel : t.delete noKey key = .done (res, t')) : Made noKey t'

lemma Inv.good_insert (h : Inv t L) (hins : t.insert key = .done (v, t')) : ∃ C, t'.Good C := by
  have hst := h.insert key
  rw [hins] at hst
  cases hst with
  | found _ => exact ⟨_, .inr ⟨L, h, rfl⟩⟩
  | added _ _ _ h' => exact ⟨_, .inr ⟨_, h', rfl⟩⟩

lemma Made.good (h : Made noKey t) : ∃ C, t.Good C := by
  induction h with
  | new => exact ⟨_, .inr ⟨_, Inv.empty, rfl⟩⟩
  | @insert t t' key v _ hins ih =>
    obtain ⟨C, ⟨hrt, -⟩ | ⟨L, hinv, -⟩⟩ := ih
    · rw [← Tree.insert_ensureRoot] at hins
      exact (Inv.ensureRoot hrt).good_insert hins
    · exact hinv.good_insert hins
  | @delete t t' key res _ hdel ih =>
    obtain ⟨C, ⟨hrt, -⟩ | ⟨L, hinv, -⟩⟩ := ih
    · rw [Tree.delete, hrt] at hdel
      cases hdel
    · have hst := hinv.delete noKey key
      rw [hdel] at hst
      cases hst with
      | absent _ _ => exact ⟨_, .inr ⟨L, hinv, rfl⟩⟩
      | removed _ _ _ _ _ hgood => exact ⟨_, hgood⟩

lemma Tree.Good.holds_iff (h : t.Good C) : t.Holds key v ↔ (key, v) ∈ C := by
  rcases h with ⟨hrt, rfl⟩ | ⟨L, hinv, rfl⟩
  · exact ⟨fun hh => absurd hh (not_holds_of_root hrt), nofun⟩
  · exact hinv.holds_iff

end

lemma mem_removed_iff {A B : List (K × ℕ)} {e x : K × ℕ}
    (h : (A ++ e :: B).Pairwise fun d e => d.1 < e.1) :
    x ∈ A ++ B ↔ x ∈ A ++ e :: B ∧ x.1 ≠ e.1 := by
  obtain ⟨-, hrt, hcrs⟩ := pairwise_append.mp h
  rw [perm_middle.mem_iff, mem_cons]
  constructor
  · intro hx
    refine ⟨.inr hx, ?_⟩
    rcases mem_append.mp hx with hx | hx
    · exact (hcrs x hx e mem_cons_self).ne
    · exact ((pairwise_cons.mp hrt).1 x hx).ne'
  · rintro ⟨rfl | hx, hne⟩
    · exact absurd rfl hne
    · exact hx

lemma mem_entry_iff {A B : List (K × ℕ)} {e : K × ℕ} {v : ℕ}
    (h : (A ++ e :: B).Pairwise fun d e => d.1 < e.1) :
    (e.1, v) ∈ A ++ e :: B ↔ e.2 = v := by
  constructor
  · intro hmem
    by_contra hne
    have hoth : (e.1, v) ∈ A ++ B := by
      rw [perm_middle.mem_iff, mem_cons] at hmem
      refine hmem.resolve_left fun heq => hne ?_
      rw [← heq]
    exact ((mem_removed_iff h).mp hoth).2 rfl
  · rintro rfl
    exact mem_append_right _ mem_cons_self

/-- `Delete_rtm` on a tree that holds a key is the deletion of exactly `key` if
and only if the tree holds `key`, or the leaf of `key` has no greater key. -/
theorem delete_exact_iff (noKey : K → Bool) (t : Tree K) (h : Made noKey t)
    (hne : ∃ key v, t.Holds key v) (key : K) :
    (∃ res t', t.delete noKey key = .done (res, t') ∧ (∀ v, res = some v ↔ t.Holds key v) ∧
      ∀ key' v, t'.Holds key' v ↔ t.Holds key' v ∧ key' ≠ key) ↔
    (∃ v, t.Holds key v) ∨
      ∃ a, t.findLeaf key = .done a ∧ ∀ e ∈ (t.mem.leaf a).entries, e.1 < key := by
  obtain ⟨C, ⟨hrt, -⟩ | ⟨L, hinv, rfl⟩⟩ := h.good
  · obtain ⟨key, v, hhld⟩ := hne
    exact absurd hhld (not_holds_of_root hrt)
  obtain ⟨La, r, Lb, hL, hkey, hfind⟩ := hinv.findLeaf key
  have hlf : ∀ v, t.Holds key v ↔ (key, v) ∈ (t.mem.leaf r.id).entries := by
    intro v
    subst hL
    rw [hinv.holds_iff, hinv.mem_contents_iff hkey]
  have hst := hinv.delete noKey key
  generalize t.delete noKey key = out at hst
  cases hst with
  | @absent a hfd' hall =>
    rw [hfind] at hfd'
    cases hfd'
    have hnot : ∀ v, ¬ t.Holds key v := fun v hv =>
      lt_irrefl _ (hall _ ((hlf v).mp hv))
    refine ⟨fun _ => .inr ⟨r.id, hfind, hall⟩,
      fun _ => ⟨none, t, rfl, fun v => ?_, fun key' v => ?_⟩⟩
    · exact ⟨nofun, fun hv => absurd hv (hnot v)⟩
    · refine ⟨fun hh => ⟨hh, ?_⟩, fun hh => hh.1⟩
      rintro rfl
      exact hnot v hh
  | @removed a A B e t' hfd' he hge hfirst hC hgood =>
    rw [hfind] at hfd'
    cases hfd'
    have hinc := hinv.increasing
    rw [hC] at hinc
    have hrs := (pairwise_cons.mp (pairwise_append.mp hinc).2.1).1
    constructor
    · -- a node has been returned, so the key is in the tree
      rintro ⟨res, t'', heq, hres, -⟩
      cases heq
      exact .inl ⟨e.2, (hres e.2).mp rfl⟩
    · intro hcn
      have hekey : e.1 = key := by
        rcases hcn with ⟨v, hv⟩ | ⟨a, ha, hall⟩
        · have hmem := hfirst _ ((hlf v).mp hv) (le_refl key)
          rcases mem_cons.mp hmem with heq | hmem
          · rw [← heq]
          · exact absurd (hrs _ hmem) (not_lt_of_ge hge)
        · rw [hfind] at ha
          cases ha
          exact absurd (hall e he) (not_lt_of_ge hge)
      subst hekey
      refine ⟨some e.2, t', rfl, fun v => ?_, fun key' v => ?_⟩
      · rw [hinv.holds_iff, hC, mem_entry_iff hinc, Option.some.injEq]
      · rw [hgood.holds_iff, hinv.holds_iff, hC]
        exact mem_removed_iff hinc

lemma Made.holds_of_mem {noKey : K → Bool} {t : Tree K} {key : K} {a v : ℕ} (h : Made noKey t)
    (hfind : t.findLeaf key = .done a) (hmem : (key, v) ∈ (t.mem.leaf a).entries) :
    t.Holds key v := by
  obtain ⟨C, ⟨hrt, -⟩ | ⟨L, hinv, rfl⟩⟩ := h.good
  · rw [Tree.findLeaf, hrt] at hfind
    cases hfind
  · obtain ⟨La, r, Lb, hL, hkey, hfd⟩ := hinv.findLeaf key
    cases hfd.symm.trans hfind
    subst hL
    rwa [hinv.holds_iff, hinv.mem_contents_iff hkey]

/-- Insertions one after the other. -/
def Tree.insertAll (t : Tree K) (keys : List K) : Outcome (Tree K) :=
  keys.foldlM (fun t key => t.insert key >>= fun r => .done r.2) t

lemma Made.insertAll {noKey : K → Bool} {keys : List K} {t t' : Tree K} (h : Made noKey t)
    (hrun : t.insertAll keys = .done t') : Made noKey t' := by
  induction keys generalizing t with
  | nil =>
    cases hrun
    exact h
  | cons key keys ih =>
    rw [Tree.insertAll, foldlM_cons] at hrun
    obtain ⟨t1, ht1, hrun⟩ := Outcome.bind_eq_done.mp hrun
    obtain ⟨r, hins, heq⟩ := Outcome.bind_eq_done.mp ht1
    cases heq
    exact ih (h.insert hins) hrun

/-- The keys 0 to 19, in two leaves. -/
theorem delete_exact_iff_twenty : ∃ t : Tree ℕ, Made (fun _ => false) t ∧
      t.findLeaf 5 ≠ t.findLeaf 19 ∧ t.Holds 5 5 ∧ t.Holds 19 19 ∧
      ∃ res t', t.delete (fun _ => false) 5 = .done (res, t') ∧ (∀ v, res = some v ↔ t.Holds 5 v) ∧
        ∀ key' v, t'.Holds key' v ↔ t.Holds key' v ∧ key' ≠ 5 := by
  obtain ⟨t, hdn, a, ha, b, hb, hab, hfive, hlast⟩ :
      ∃ t, (Tree.empty : Tree ℕ).insertAll (range 20) = .done t ∧
        ∃ a, t.findLeaf 5 = .done a ∧ ∃ b, t.findLeaf 19 = .done b ∧ a ≠ b ∧
          (5, 5) ∈ (t.mem.leaf a).entries ∧ (19, 19) ∈ (t.mem.leaf b).entries := by
    decide +kernel
  have hmd : Made (fun _ => false) t := Made.new.insertAll hdn
  have hhld := hmd.holds_of_mem ha hfive
  refine ⟨t, hmd, ?_, hhld, hmd.holds_of_mem hb hlast,
    (delete_exact_iff _ t hmd ⟨5, 5, hhld⟩ 5).mpr (.inl ⟨5, hhld⟩)⟩
  rw [ha, hb]
  exact fun heq => hab (Outcome.done.inj heq)

/-- The deletion of 3, which is not in the tree, removes 5. -/
theorem delete_removes_other :
    ∃ (t t' : Tree ℕ), Made (fun _ => false) t ∧ t.Holds 5 0 ∧ (∀ v, ¬ t.Holds 3 v) ∧
      t.delete (fun _ => false) 3 = .done (some 0, t') ∧ ¬ t'.Holds 5 0 := by
  refine ⟨_, _, .insert .new (show Tree.empty.insert 5 = .done (0, _) from rfl),
    ⟨_, 0, 0, rfl, .leaf 0, mem_singleton_self _⟩, ?_, rfl,
    not_holds_of_root rfl⟩
  rintro v ⟨root, d, a, hrt, hlf, hmem⟩
  cases hrt
  cases hlf
  cases hmem with
  | tail _ hmem => cases hmem

end Librdpma.Drtmh.BPlusTree
