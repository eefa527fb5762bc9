import Mathlib

/-!
# Trees of names

A catalogue binds keys to a kind, and lists for the keys that are directories
the names in them together with their kinds. It is a tree when a key is listed
in its parent exactly if it is bound, under the kind it is bound to. Adding and
removing a key together with its name keep it so.

The keys in question form a set that is closed under `parent` and in which
parent and name determine a key.
-/

namespace Librdpma.Lib

open List Function

variable {κ ν : Type}

structure KeySet (S : Set κ) (root : κ) (parent : κ → κ) (name : κ → ν) : Prop where
  root_mem : root ∈ S
  parent_mem : ∀ k ∈ S, k ≠ root → parent k ∈ S
  parent_ne : ∀ k ∈ S, k ≠ root → parent k ≠ k
  inj : ∀ k ∈ S, k ≠ root → ∀ k' ∈ S, k' ≠ root → parent k = parent k' → name k = name k' → k = k'

structure Catalogue (κ ν : Type) where
  /-- `true` for a directory -/
  kind : κ → Option Bool
  list : κ → Option (List (ν × Bool))

namespace Catalogue

variable {S : Set κ} {root : κ} {parent : κ → κ} {name : κ → ν} {t t' : Catalogue κ ν}
  {k : κ} {l : List (ν × Bool)} {b : Bool}

structure Tree (S : Set κ) (root : κ) (parent : κ → κ) (name : κ → ν)
    (t : Catalogue κ ν) : Prop where
  top : t.kind root = some true
  dir : ∀ k ∈ S, (∃ l, t.list k = some l) ↔ t.kind k = some true
  listed : ∀ k ∈ S, k ≠ root → ∀ b,
    t.kind k = some b ↔ ∃ l, t.list (parent k) = some l ∧ (name k, b) ∈ l
  nodup : ∀ k ∈ S, ∀ l, t.list k = some l → (l.map Prod.fst).Nodup

lemma Tree.congr (hS : KeySet S root parent name) (h : Tree S root parent name t)
    (hkn : ∀ k ∈ S, t'.kind k = t.kind k) (hls : ∀ k ∈ S, t'.list k = t.list k) :
    Tree S root parent name t' := by
  refine ⟨?_, fun k hk => ?_, fun k hk hne b => ?_, fun k hk l hl => ?_⟩
  · rw [hkn root hS.root_mem]
    exact h.top
  · rw [hkn k hk, hls k hk]
    exact h.dir k hk
  · rw [hkn k hk, hls (parent k) (hS.parent_mem k hk hne)]
    exact h.listed k hk hne b
  · rw [hls k hk] at hl
    exact h.nodup k hk l hl

lemma Tree.single (hS : KeySet S root parent name) (htop : t.kind root = some true)
    (hls : t.list root = some []) (hkn : ∀ k ∈ S, k ≠ root → t.kind k = none)
    (hno : ∀ k ∈ S, k ≠ root → t.list k = none) : Tree S root parent name t := by
  refine ⟨htop, fun k hk => ?_, fun k hk hne b => ?_, fun k hk l hl => ?_⟩
  · by_cases hne : k = root
    · rw [hne, htop, hls]
      exact ⟨fun _ => rfl, fun _ => ⟨[], rfl⟩⟩
    · rw [hkn k hk hne, hno k hk hne]
      exact ⟨nofun, nofun⟩
  · rw [hkn k hk hne]
    refine ⟨nofun, ?_⟩
    rintro ⟨l, hl, hmem⟩
    by_cases hp : parent k = root
    · rw [hp, hls] at hl
      cases hl
      cases hmem
    · rw [hno _ (hS.parent_mem k hk hne) hp] at hl
      cases hl
  · by_cases hne : k = root
    · rw [hne, hls] at hl
      cases hl
      exact nodup_nil
    · rw [hno k hk hne] at hl
      cases hl

lemma Tree.not_listed (h : Tree S root parent name t) (hk : k ∈ S) (hne : k ≠ root)
    (hnew : t.kind k = none) (hl : t.list (parent k) = some l) (b : Bool) :
    (name k, b) ∉ l := by
  intro hmem
  have := (h.listed k hk hne b).mpr ⟨l, hl, hmem⟩
  rw [hnew] at this
  cases this

section Update

variable [DecidableEq κ]

/-- Bind `k` and list its name `n` behind the names `l` of directory `q`. -/
def add (t : Catalogue κ ν) (k q : κ) (l : List (ν × Bool)) (n : ν) (b : Bool) :
    Catalogue κ ν where
  kind := update t.kind k (some b)
  list := update (update t.list q (some (l ++ [(n, b)]))) k (if b then some [] else none)

/-- Unbind `k` and take the name `n` out of directory `q`. -/
def remove [DecidableEq ν] (t : Catalogue κ ν) (k q : κ) (l : List (ν × Bool)) (n : ν) :
    Catalogue κ ν where
  kind := update t.kind k none
  list := update (update t.list q (some (l.filter fun e => e.1 ≠ n))) k none

/-- The key and its line in the parent change together; a list that `k` had is
empty. -/
lemma Tree.rebind (hS : KeySet S root parent name) (h : Tree S root parent name t) (hk : k ∈ S)
    (hne : k ≠ root) (hl : t.list (parent k) = some l) (hnil : ∀ l', t.list k = some l' → l' = [])
    {o : Option Bool} {m : List (ν × Bool)} (hkn : t'.kind = update t.kind k o)
    (hls : t'.list = update (update t.list (parent k) (some m)) k
      (if o = some true then some [] else none))
    (hown : ∀ b, (name k, b) ∈ m ↔ o = some b)
    (hoth : ∀ n b, n ≠ name k → ((n, b) ∈ m ↔ (n, b) ∈ l)) (hnd : (m.map Prod.fst).Nodup) :
    Tree S root parent name t' := by
  have hpne := hS.parent_ne k hk hne
  have hpk : t.kind (parent k) = some true := (h.dir _ (hS.parent_mem k hk hne)).mp ⟨l, hl⟩
  have hlistk : t'.list k = if o = some true then some [] else none := by
    rw [hls, update_self]
  have hlistp : t'.list (parent k) = some m := by
    rw [hls, update_of_ne hpne, update_self]
  have hlst : ∀ j, j ≠ k → j ≠ parent k → t'.list j = t.list j := fun j hjk hjp => by
    rw [hls, update_of_ne hjk, update_of_ne hjp]
  have hknd : ∀ j, j ≠ k → t'.kind j = t.kind j := fun j hjk => by
    rw [hkn, update_of_ne hjk]
  have hkindk : t'.kind k = o := by
    rw [hkn, update_self]
  refine ⟨?_, fun j hj => ?_, fun j hj hjne b => ?_, fun j hj l' hl' => ?_⟩
  · exact (hknd root hne.symm).trans h.top
  · by_cases hjk : j = k
    · rw [hjk, hlistk, hkindk]
      simp
    · by_cases hjp : j = parent k
      · rw [hjp, hlistp, hknd _ hpne, hpk]
        simp
      · rw [hlst j hjk hjp, hknd j hjk]
        exact h.dir j hj
  · by_cases hjk : j = k
    · rw [hjk, hkindk, hlistp, ← hown]
      simp
    · rw [hknd j hjk, h.listed j hj hjne b]
      by_cases hpj : parent j = k
      · -- nothing is listed in `k`, before and after
        rw [hpj, hlistk]
        constructor
        · rintro ⟨l', hl', hmem⟩
          rw [hnil l' hl'] at hmem
          cases hmem
        · simp
      · by_cases hpp : parent j = parent k
        · have hnms : name j ≠ name k := fun heq =>
            hjk (hS.inj j hj hjne k hk hne hpp heq)
          rw [hpp, hl, hlistp]
          simp [hoth _ b hnms]
        · rw [hlst _ hpj hpp]
  · by_cases hjk : j = k
    · rw [hjk, hlistk] at hl'
      split at hl' <;> cases hl'
      exact nodup_nil
    · by_cases hjp : j = parent k
      · rw [hjp, hlistp] at hl'
        cases hl'
        exact hnd
      · rw [hlst j hjk hjp] at hl'
        exact h.nodup j hj l' hl'

lemma Tree.add (hS : KeySet S root parent name) (h : Tree S root parent name t) (hk : k ∈ S)
    (hne : k ≠ root) (hnew : t.kind k = none) (hl : t.list (parent k) = some l) (b : Bool) :
    Tree S root parent name (t.add k (parent k) l (name k) b) := by
  have hfr := h.not_listed hk hne hnew hl
  refine h.rebind hS hk hne hl (fun l' hl' => ?_) rfl ?_ ?_ ?_ ?_
    (o := some b) (m := l ++ [(name k, b)])
  · have hdir := (h.dir k hk).mp ⟨l', hl'⟩
    rw [hnew] at hdir
    cases hdir
  · simp [Catalogue.add]
  · simp [hfr, eq_comm]
  · intro n b' hn
    simp [hn]
  · rw [map_append, map_singleton]
    refine nodup_append.mpr ⟨h.nodup _ (hS.parent_mem k hk hne) l hl, nodup_singleton _, ?_⟩
    rintro n hn n' hn' rfl
    obtain ⟨⟨n', b'⟩, he, rfl⟩ := mem_map.mp hn
    rw [mem_singleton] at hn'
    dsimp only at hn'
    rw [hn'] at he
    exact hfr b' he

lemma Tree.remove [DecidableEq ν] (hS : KeySet S root parent name)
    (h : Tree S root parent name t) (hk : k ∈ S) (hne : k ≠ root) (hl : t.list (parent k) = some l)
    (hnil : ∀ l', t.list k = some l' → l' = []) :
    Tree S root parent name (t.remove k (parent k) l (name k)) := by
  refine h.rebind hS hk hne hl hnil rfl rfl ?_ ?_ ?_ (o := none)
  · simp
  · intro n b hn
    simp [hn]
  · exact (filter_sublist.map _).nodup (h.nodup _ (hS.parent_mem k hk hne) l hl)

end Update

/-- A key is bound exactly if its name stands once in its parent, and under
the same kind. -/
lemma Tree.bound_iff [BEq ν] [LawfulBEq ν] (hS : KeySet S root parent name)
    (h : Tree S root parent name t) (hk : k ∈ S) (hne : k ≠ root) (b : Bool) :
    t.kind k = some b ↔ ∃ l, t.list (parent k) = some l ∧
      (l.map Prod.fst).count (name k) = 1 ∧ (name k, b) ∈ l := by
  constructor
  · intro hb
    obtain ⟨l, hl, hmem⟩ := (h.listed k hk hne b).mp hb
    have hnd := h.nodup _ (hS.parent_mem k hk hne) l hl
    exact ⟨l, hl, count_eq_one_of_mem hnd (mem_map.mpr ⟨_, hmem, rfl⟩), hmem⟩
  · rintro ⟨l, hl, -, hmem⟩
    exact (h.listed k hk hne b).mpr ⟨l, hl, hmem⟩

end Catalogue

end Librdpma.Lib
