import Librdpma.Lib.Chain
import Librdpma.Lib.FreeList
import Librdpma.Octopus.HashTable

/-!
# The shape of the hash table's chains

`Shape` is the invariant on the array of chained items: every bucket starts
an index chain, the items of a chain hash to its bucket and hold distinct
keys, and the free chain lists the items in no chain. Every operation changes
one chain, which is what `Shape.replace` is about; `Represents` adds the map
that the chains stand for.
-/

namespace Librdpma.Octopus

open Lib Function List

namespace HashTable

/-- The link function of the item array. -/
def next (t : HashTable) (i : ℕ) : ℕ := (t.itemsChained i).indexNext

def key (t : HashTable) (i : ℕ) : UniqueHash := (t.itemsChained i).hashUnique

/-- `chain` lists the items of every bucket of the table `t` of `n` items. -/
structure Shape (addr : UniqueHash → AddressHash) (n : ℕ) (t : HashTable)
    (chain : AddressHash → List ℕ) : Prop where
  total : t.bitmapChainedItems.varCountTotal = n
  linked : ∀ a, Linked t.next (t.itemsHash a) (chain a)
  hashed : ∀ a, ∀ i ∈ chain a, addr (t.key i) = a
  distinct : ∀ a, ∀ i ∈ chain a, ∀ j ∈ chain a, t.key i = t.key j → i = j
  bounded : ∀ a, ∀ i ∈ chain a, i < n
  free : FreeExact (fun i => 1 ≤ i ∧ i < n) (fun i => ∃ a, i ∈ chain a) t.headFreeBit

/-- The map `m` holds exactly the entries of the items in the chains. -/
def Represents (addr : UniqueHash → AddressHash) (t : HashTable)
    (chain : AddressHash → List ℕ) (m : Entries) : Prop :=
  ∀ k v, m k = some v ↔ ∃ i ∈ chain (addr k), t.key i = k ∧ (t.itemsChained i).entry = v

variable {addr : UniqueHash → AddressHash} {n : ℕ} {t t' : HashTable} {chain : AddressHash → List ℕ}
  {m : Entries} {a : AddressHash} {k : UniqueHash} {i : ℕ}

/-! ## Chains -/

section

variable (h : Shape addr n t chain)

include h

lemma Shape.bucket_unique {b : AddressHash} (hi : i ∈ chain a) (hj : i ∈ chain b) : a = b :=
  (h.hashed a i hi).symm.trans (h.hashed b i hj)

lemma Shape.length_le (a : AddressHash) : (chain a).length ≤ n := by
  have hsub : chain a ⊆ range n := fun i hi =>
    mem_range.mpr (h.bounded a i hi)
  have hlen := (subperm_of_subset (h.linked a).nodup hsub).length_le
  rwa [length_range] at hlen

lemma Shape.ne_zero (hi : i ∈ chain a) : i ≠ 0 := (h.linked a).ne_zero_of_mem hi

lemma Shape.chain_eq_nil (hhd : t.itemsHash a = 0) : chain a = [] := by
  have hl := h.linked a
  rw [hhd] at hl
  exact hl.nil_of_zero

lemma Shape.head_free {rest : List ℕ} (hfr : t.headFreeBit = i :: rest) :
    (1 ≤ i ∧ i < n) ∧ ∀ a, i ∉ chain a := by
  have hex := h.free
  rw [hfr] at hex
  obtain ⟨hrng, hnot⟩ := hex.head_free
  exact ⟨hrng, fun a ha => hnot ⟨a, ha⟩⟩

/-- The rule for an operation on bucket `a`: its chain becomes `l`, the items
of the other chains are untouched. -/
lemma Shape.replace (a : AddressHash) (l : List ℕ)
    (htot : t'.bitmapChainedItems.varCountTotal = n)
    (hhd : ∀ b, b ≠ a → t'.itemsHash b = t.itemsHash b)
    (hits : ∀ b, b ≠ a → ∀ i ∈ chain b, t'.itemsChained i = t.itemsChained i)
    (hlk : Linked t'.next (t'.itemsHash a) l) (hhsh : ∀ i ∈ l, addr (t'.key i) = a)
    (hdis : ∀ i ∈ l, ∀ j ∈ l, t'.key i = t'.key j → i = j) (hbnd : ∀ i ∈ l, i < n)
    (hfr : FreeExact (fun i => 1 ≤ i ∧ i < n)
      (fun i => ∃ b, i ∈ update chain a l b) t'.headFreeBit) :
    Shape addr n t' (update chain a l) := by
  have hks : ∀ b, b ≠ a → ∀ i ∈ chain b, t'.key i = t.key i := fun b hb i hi => by
    unfold key
    rw [hits b hb i hi]
  refine ⟨htot, fun b => ?_, fun b => ?_, fun b => ?_, fun b => ?_, hfr⟩
  all_goals by_cases hb : b = a
  · subst hb
    rw [update_self]
    exact hlk
  · rw [update_of_ne hb, hhd b hb]
    refine (h.linked b).frame fun i hi => ?_
    unfold next
    rw [hits b hb i hi]
  · subst hb
    rw [update_self]
    exact hhsh
  · rw [update_of_ne hb]
    intro i hi
    rw [hks b hb i hi]
    exact h.hashed b i hi
  · subst hb
    rw [update_self]
    exact hdis
  · rw [update_of_ne hb]
    intro i hi j hj
    rw [hks b hb i hi, hks b hb j hj]
    exact h.distinct b i hi j hj
  · subst hb
    rw [update_self]
    exact hbnd
  · rw [update_of_ne hb]
    exact h.bounded b

end

/-- The same rule for the map: a key of another bucket keeps its value, the
keys of bucket `a` are read off the new chain. -/
lemma Represents.replace (h : Represents addr t chain m) {m' : Entries} (a : AddressHash)
    (l : List ℕ) (hits : ∀ b, b ≠ a → ∀ i ∈ chain b, t'.itemsChained i = t.itemsChained i)
    (hoth : ∀ k, addr k ≠ a → m' k = m k)
    (hsm : ∀ k v, addr k = a → (m' k = some v ↔
      ∃ i ∈ l, t'.key i = k ∧ (t'.itemsChained i).entry = v)) :
    Represents addr t' (update chain a l) m' := by
  intro k v
  by_cases hk : addr k = a
  · rw [hsm k v hk, hk, update_self]
  · rw [hoth k hk, h k v, update_of_ne hk]
    refine exists_congr fun i => and_congr_right fun hi => ?_
    unfold key
    rw [hits _ hk i hi]

lemma Represents.some_of_mem (h : Represents addr t chain m)
    (hi : i ∈ chain (addr k)) (hk : t.key i = k) :
    m k = some (t.itemsChained i).entry :=
  (h k _).mpr ⟨i, hi, hk, rfl⟩

lemma Represents.none_of_absent (h : Represents addr t chain m)
    (habs : ∀ i ∈ chain (addr k), t.key i ≠ k) : m k = none := by
  cases hm : m k with
  | none => rfl
  | some v =>
    obtain ⟨i, hi, hk, -⟩ := (h k v).mp hm
    exact absurd hk (habs i hi)

/-! ## Traversal -/

/-- Over a chain the loop stops, at the first item with the key or behind the
last item. -/
lemma traverse_cases (k : UniqueHash) (before : ℕ) {fuel cur : ℕ}
    {l : List ℕ} (h : Linked t.next cur l) (hcur : cur ≠ 0) (hfl : l.length ≤ fuel) :
    (∃ p b i q, before :: l = p ++ b :: i :: q ∧ t.key i = k ∧
        traverse t.itemsChained k fuel before cur = .done (b, i)) ∨
      ∃ p b, l = p ++ [b] ∧ (∀ j ∈ l, t.key j ≠ k) ∧
        traverse t.itemsChained k fuel before cur = .done (b, 0) := by
  induction fuel generalizing before cur l with
  | zero =>
    obtain ⟨rest, rfl, -⟩ := h.head_cases hcur
    simp at hfl
  | succ fuel ih =>
    obtain ⟨rest, rfl, hrs⟩ := h.head_cases hcur
    rw [traverse]
    by_cases hkey : (t.itemsChained cur).hashUnique = k
    · rw [if_pos hkey]
      exact .inl ⟨[], before, cur, rest, rfl, hkey, rfl⟩
    · rw [if_neg hkey]
      by_cases hnx : t.next cur = 0
      · rw [hnx] at hrs
        have hnil := hrs.nil_of_zero
        subst hnil
        refine .inr ⟨[], cur, rfl, ?_, if_pos hnx⟩
        intro j hj
        rw [mem_singleton.mp hj]
        exact hkey
      · have hlen : rest.length ≤ fuel := by
          simpa using hfl
        rw [show (t.itemsChained cur).indexNext = t.next cur from rfl]
        rw [if_neg hnx]
        rcases ih cur hrs hnx hlen with
          ⟨p, b, i, q, hspl, hi, heq⟩ | ⟨p, b, hspl, habs, heq⟩
        · refine .inl ⟨before :: p, b, i, q, ?_, hi, heq⟩
          rw [hspl]
          rfl
        · refine .inr ⟨cur :: p, b, ?_, ?_, heq⟩
          · rw [hspl]
            rfl
          · intro j hj
            rcases mem_cons.mp hj with rfl | hj
            · exact hkey
            · exact habs j hj

/-- What the loop of `get` and `put` finds in the bucket of `k`. -/
lemma Shape.traverse_cases (h : Shape addr n t chain) (hhd : t.itemsHash (addr k) ≠ 0) :
    (∃ b, ∃ i ∈ chain (addr k), t.key i = k ∧
        traverse t.itemsChained k t.bitmapChainedItems.countTotal 0
          (t.itemsHash (addr k)) = .done (b, i)) ∨
      ∃ p b, chain (addr k) = p ++ [b] ∧ (∀ j ∈ chain (addr k), t.key j ≠ k) ∧
        traverse t.itemsChained k t.bitmapChainedItems.countTotal 0
          (t.itemsHash (addr k)) = .done (b, 0) := by
  have hfl : (chain (addr k)).length ≤ t.bitmapChainedItems.countTotal := by
    rw [Bitmap.countTotal, h.total]
    exact h.length_le _
  rcases HashTable.traverse_cases k 0 (h.linked (addr k)) hhd hfl with
    ⟨p, b, i, q, hspl, hi, heq⟩ | hnot
  · refine .inl ⟨b, i, ?_, hi, heq⟩
    have hmem : i ∈ (0 :: chain (addr k)).tail := by
      rw [hspl]
      cases p with
      | nil => exact mem_cons_self
      | cons x p => simp
    exact hmem
  · exact .inr hnot

/-! ## One chain changes -/

/-- The table `t` of `n` items stands for the map `m`. -/
def Models (addr : UniqueHash → AddressHash) (n : ℕ) (t : HashTable)
    (m : Entries) : Prop :=
  ∃ chain, Shape addr n t chain ∧ Represents addr t chain m

lemma mem_update_iff (chain : AddressHash → List ℕ) (a : AddressHash) (l : List ℕ) (j : ℕ) :
    (∃ b, j ∈ update chain a l b) ↔ j ∈ l ∨ ∃ b, b ≠ a ∧ j ∈ chain b := by
  constructor
  · rintro ⟨b, hj⟩
    by_cases hb : b = a
    · subst hb
      rw [update_self] at hj
      exact .inl hj
    · rw [update_of_ne hb] at hj
      exact .inr ⟨b, hb, hj⟩
  · rintro (hj | ⟨b, hb, hj⟩)
    · exact ⟨a, by rwa [update_self]⟩
    · exact ⟨b, by rwa [update_of_ne hb]⟩

lemma mem_snoc {j : ℕ} {l : List ℕ} : j ∈ l ++ [i] ↔ j ∈ l ∨ j = i := by
  rw [mem_append, mem_singleton]

/-- A write that leaves the links and keys of all items alone, and the entries
of all but item `i`, rebinds the key of `i`. -/
lemma Shape.overwrite (h : Shape addr n t chain) (hm : Represents addr t chain m)
    (hi : i ∈ chain (addr k)) (hk : t.key i = k) (v : ℕ × Bool) :
    Models addr n { t with
      itemsChained := update t.itemsChained i
        { t.itemsChained i with indexMeta := v.1, isDirectory := v.2 } }
      (update m k (some v)) := by
  set t' : HashTable := { t with
    itemsChained := update t.itemsChained i
      { t.itemsChained i with indexMeta := v.1, isDirectory := v.2 } } with ht'
  have hat : t'.itemsChained i = { t.itemsChained i with indexMeta := v.1, isDirectory := v.2 } :=
    update_self ..
  have hne : ∀ j, j ≠ i → t'.itemsChained j = t.itemsChained j := fun j hj =>
    update_of_ne hj ..
  have hks : t'.key = t.key := by
    funext j
    unfold key
    by_cases hj : j = i
    · subst hj
      rw [hat]
    · rw [hne j hj]
  have hnx : t'.next = t.next := by
    funext j
    unfold next
    by_cases hj : j = i
    · subst hj
      rw [hat]
    · rw [hne j hj]
  have hshp : Shape addr n t' chain := by
    refine ⟨h.total, ?_, ?_, ?_, h.bounded, h.free⟩
    · rw [hnx]
      exact h.linked
    · rw [hks]
      exact h.hashed
    · rw [hks]
      exact h.distinct
  refine ⟨chain, hshp, fun k' w => ?_⟩
  rw [hks]
  by_cases hkk : k' = k
  · subst hkk
    rw [update_self]
    constructor
    · intro hw
      refine ⟨i, hi, hk, ?_⟩
      rw [hat]
      exact Option.some.inj hw
    · rintro ⟨j, hj, hkj, hw⟩
      have hji : j = i := h.distinct _ j hj i hi (hkj.trans hk.symm)
      rw [hji, hat] at hw
      exact congrArg some hw
  · rw [update_of_ne hkk, hm k' w]
    refine exists_congr fun j => and_congr_right fun _ => and_congr_right fun hkj => ?_
    have hji : j ≠ i := fun hji => hkk (by rw [← hkj, hji, hk])
    rw [hne j hji]

/-- The map after an item has been linked behind the chain of a new key. -/
lemma Represents.append (hm : Represents addr t chain m)
    (hits : ∀ b, b ≠ addr k → ∀ j ∈ chain b, t'.itemsChained j = t.itemsChained j)
    (hks : ∀ j ∈ chain (addr k), t'.key j = t.key j)
    (hent : ∀ j ∈ chain (addr k), (t'.itemsChained j).entry = (t.itemsChained j).entry)
    (hi : t'.key i = k) (habs : ∀ j ∈ chain (addr k), t.key j ≠ k) :
    Represents addr t' (update chain (addr k) (chain (addr k) ++ [i]))
      (update m k (some (t'.itemsChained i).entry)) := by
  refine hm.replace (addr k) _ hits ?_ ?_
  · intro k' hk'
    exact update_of_ne (fun hkk => hk' (by rw [hkk])) ..
  · intro k' v hk'
    by_cases hkk : k' = k
    · subst hkk
      rw [update_self]
      constructor
      · intro hv
        exact ⟨i, mem_snoc.mpr (.inr rfl), hi, Option.some.inj hv⟩
      · rintro ⟨j, hj, hkj, hv⟩
        rcases mem_snoc.mp hj with hj | rfl
        · rw [hks j hj] at hkj
          exact absurd hkj (habs j hj)
        · exact congrArg some hv
    · rw [update_of_ne hkk, hm k' v, hk']
      constructor
      · rintro ⟨j, hj, hkj, hv⟩
        exact ⟨j, mem_snoc.mpr (.inl hj), (hks j hj).trans hkj, (hent j hj).trans hv⟩
      · rintro ⟨j, hj, hkj, hv⟩
        rcases mem_snoc.mp hj with hj | rfl
        · exact ⟨j, hj, (hks j hj).symm.trans hkj, (hent j hj).symm.trans hv⟩
        · exact absurd (hkj.symm.trans hi) hkk

lemma Shape.free_append (h : Shape addr n t chain) (a : AddressHash) {rest : List ℕ}
    (hfr : t.headFreeBit = i :: rest) :
    FreeExact (fun i => 1 ≤ i ∧ i < n)
      (fun j => ∃ b, j ∈ update chain a (chain a ++ [i]) b) rest := by
  have hex := h.free
  rw [hfr] at hex
  refine hex.take.congr fun j _ => ?_
  rw [mem_update_iff, mem_snoc]
  constructor
  · rintro (rfl | ⟨b, hb⟩)
    · exact .inl (.inr rfl)
    · by_cases hba : b = a
      · exact .inl (.inl (hba ▸ hb))
      · exact .inr ⟨b, hba, hb⟩
  · rintro ((hj | rfl) | ⟨b, -, hb⟩)
    · exact .inr ⟨_, hj⟩
    · exact .inl rfl
    · exact .inr ⟨b, hb⟩

lemma Shape.append (h : Shape addr n t chain) (hm : Represents addr t chain m) (t' : HashTable)
    (hfr : t.headFreeBit = i :: t'.headFreeBit) (htot : t'.bitmapChainedItems.varCountTotal = n)
    (hhd : ∀ b, b ≠ addr k → t'.itemsHash b = t.itemsHash b)
    (hits : ∀ b, b ≠ addr k → ∀ j ∈ chain b, t'.itemsChained j = t.itemsChained j)
    (hks : ∀ j ∈ chain (addr k), t'.key j = t.key j)
    (hent : ∀ j ∈ chain (addr k), (t'.itemsChained j).entry = (t.itemsChained j).entry)
    (hlk : Linked t'.next (t'.itemsHash (addr k)) (chain (addr k) ++ [i])) (hi : t'.key i = k)
    (habs : ∀ j ∈ chain (addr k), t.key j ≠ k) :
    Models addr n t' (update m k (some (t'.itemsChained i).entry)) := by
  refine ⟨_, h.replace (addr k) (chain (addr k) ++ [i]) htot hhd hits
    hlk ?_ ?_ ?_ (h.free_append (addr k) hfr),
    hm.append hits hks hent hi habs⟩
  · intro j hj
    rcases mem_snoc.mp hj with hj | rfl
    · rw [hks j hj]
      exact h.hashed _ j hj
    · rw [hi]
  · intro j hj j' hj' heq
    rcases mem_snoc.mp hj with hold | hnew <;> rcases mem_snoc.mp hj' with hold' | hnew'
    · rw [hks j hold, hks j' hold'] at heq
      exact h.distinct _ j hold j' hold' heq
    · rw [hks j hold, hnew', hi] at heq
      exact absurd heq (habs j hold)
    · rw [hks j' hold', hnew, hi] at heq
      exact absurd heq.symm (habs j' hold')
    · exact hnew.trans hnew'.symm
  · intro j hj
    rcases mem_snoc.mp hj with hj | rfl
    · exact h.bounded _ j hj
    · exact (h.head_free hfr).1.2

lemma Represents.remove (hm : Represents addr t chain m) (h : Shape addr n t chain) {l : List ℕ}
    (hi : i ∈ chain (addr k)) (hk : t.key i = k) (hmem : ∀ j, j ∈ l ↔ j ∈ chain (addr k) ∧ j ≠ i)
    (hits : ∀ b, b ≠ addr k → ∀ j ∈ chain b, t'.itemsChained j = t.itemsChained j)
    (hks : ∀ j, t'.key j = t.key j)
    (hent : ∀ j, (t'.itemsChained j).entry = (t.itemsChained j).entry) :
    Represents addr t' (update chain (addr k) l) (update m k none) := by
  refine hm.replace (addr k) _ hits ?_ ?_
  · intro k' hk'
    exact update_of_ne (fun hkk => hk' (by rw [hkk])) ..
  · intro k' v hk'
    by_cases hkk : k' = k
    · subst hkk
      rw [update_self]
      constructor
      · intro hv
        cases hv
      · rintro ⟨j, hj, hkj, -⟩
        obtain ⟨hj, hne⟩ := (hmem j).mp hj
        rw [hks j] at hkj
        exact absurd (h.distinct _ j hj i hi (hkj.trans hk.symm)) hne
    · rw [update_of_ne hkk, hm k' v, hk']
      refine exists_congr fun j => ?_
      rw [hks j, hent j, hmem]
      constructor
      · rintro ⟨hj, hkj, hv⟩
        refine ⟨⟨hj, ?_⟩, hkj, hv⟩
        rintro rfl
        exact hkk (hkj.symm.trans hk)
      · rintro ⟨⟨hj, -⟩, hkj, hv⟩
        exact ⟨hj, hkj, hv⟩

lemma Shape.free_remove (h : Shape addr n t chain) {l : List ℕ} (hi : i ∈ chain a)
    (hmem : ∀ j, j ∈ l ↔ j ∈ chain a ∧ j ≠ i) :
    FreeExact (fun i => 1 ≤ i ∧ i < n) (fun j => ∃ b, j ∈ update chain a l b)
      (i :: t.headFreeBit) := by
  have hrng : 1 ≤ i ∧ i < n := ⟨Nat.one_le_iff_ne_zero.mpr (h.ne_zero hi), h.bounded _ i hi⟩
  refine (h.free.give hrng ⟨_, hi⟩).congr fun j _ => ?_
  rw [mem_update_iff, hmem]
  constructor
  · rintro ⟨hne, b, hb⟩
    by_cases hba : b = a
    · exact .inl ⟨hba ▸ hb, hne⟩
    · exact .inr ⟨b, hba, hb⟩
  · rintro (⟨hj, hne⟩ | ⟨b, hba, hb⟩)
    · exact ⟨hne, _, hj⟩
    · refine ⟨?_, b, hb⟩
      rintro rfl
      exact hba (h.bucket_unique hb hi)

lemma Shape.remove (h : Shape addr n t chain) (hm : Represents addr t chain m) (t' : HashTable)
    {p q : List ℕ} (hspl : chain (addr k) = p ++ i :: q) (hk : t.key i = k)
    (hfr : t'.headFreeBit = i :: t.headFreeBit) (htot : t'.bitmapChainedItems.varCountTotal = n)
    (hhd : ∀ b, b ≠ addr k → t'.itemsHash b = t.itemsHash b)
    (hits : ∀ b, b ≠ addr k → ∀ j ∈ chain b, t'.itemsChained j = t.itemsChained j)
    (hks : ∀ j, t'.key j = t.key j)
    (hent : ∀ j, (t'.itemsChained j).entry = (t.itemsChained j).entry)
    (hlk : Linked t'.next (t'.itemsHash (addr k)) (p ++ q)) :
    Models addr n t' (update m k none) := by
  have hi : i ∈ chain (addr k) := by
    rw [hspl]
    exact mem_append_right _ mem_cons_self
  have hmem : ∀ j, j ∈ p ++ q ↔ j ∈ chain (addr k) ∧ j ≠ i := by
    have hl := h.linked (addr k)
    rw [hspl] at hl ⊢
    exact fun j => hl.mem_unlinked
  refine ⟨_, h.replace (addr k) (p ++ q) htot hhd hits hlk ?_ ?_ ?_ ?_,
    hm.remove h hi hk hmem hits hks hent⟩
  · intro j hj
    rw [hks j]
    exact h.hashed _ j ((hmem j).mp hj).1
  · intro j hj j' hj' heq
    rw [hks j, hks j'] at heq
    exact h.distinct _ j ((hmem j).mp hj).1 j' ((hmem j').mp hj').1 heq
  · intro j hj
    exact h.bounded _ j ((hmem j).mp hj).1
  · rw [hfr]
    exact h.free_remove hi hmem

end HashTable

end Librdpma.Octopus
