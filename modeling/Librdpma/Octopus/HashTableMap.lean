import Librdpma.Octopus.HashTableShape

/-!
# The hash table refines a finite map

`get` reads the map off the chain of its bucket; `put` and `del` overwrite,
append or unlink one item of it. `run_refinesMap` follows by induction on the
calls from the table the constructor leaves.
-/

namespace Librdpma.Octopus

open Lib Function List Outcome

namespace HashTable

variable {addr : UniqueHash → AddressHash} {n : ℕ} {t : HashTable} {chain : AddressHash → List ℕ}
  {m : Entries} {a : AddressHash} {k : UniqueHash} {i : ℕ}

/-! ## The operations -/

section

variable (h : Shape addr n t chain)

include h

lemma get_eq (hm : Represents addr t chain m) (k : UniqueHash) : t.get addr k = .done (m k) := by
  unfold get
  by_cases hhd : t.itemsHash (addr k) = 0
  · rw [if_pos hhd, hm.none_of_absent (by simp [h.chain_eq_nil hhd])]
  · rw [if_neg hhd]
    rcases h.traverse_cases hhd with ⟨b, i, hi, hk, heq⟩ | ⟨p, b, -, habs, heq⟩
    · rw [heq, hm.some_of_mem hi hk]
      simp [h.ne_zero hi]
    · rw [heq, hm.none_of_absent habs]
      simp

lemma putFree_cons {rest : List ℕ} (hfr : t.headFreeBit = i :: rest)
    (link : ℕ → HashTable → HashTable) (item : ChainedItem) :
    ∃ bitmapChainedItems, bitmapChainedItems.varCountTotal = n ∧
      putFree link item t = (true, link i { t with
        bitmapChainedItems
        headFreeBit := rest
        itemsChained := update t.itemsChained i item }) := by
  have hlt : i < t.bitmapChainedItems.varCountTotal := by
    rw [h.total]
    exact (h.head_free hfr).1.2
  have hfst := Bitmap.set_fst hlt
  have htot := Bitmap.set_total t.bitmapChainedItems i
  unfold putFree
  rw [hfr]
  dsimp only
  cases hset : t.bitmapChainedItems.set i with
  | mk ok bitmapChainedItems =>
    rw [hset] at hfst htot
    subst hfst
    exact ⟨bitmapChainedItems, htot.trans h.total, rfl⟩

/-- An item of a chain can be given back: its bit is within the bitmap. -/
lemma delFree_eq (hi : i ∈ chain a) (unlink : HashTable → HashTable) :
    ∃ bitmapChainedItems, bitmapChainedItems.varCountTotal = n ∧
      delFree unlink i t = (true, unlink { t with
        bitmapChainedItems
        headFreeBit := i :: t.headFreeBit }) := by
  have hlt : i < t.bitmapChainedItems.varCountTotal := by
    rw [h.total]
    exact h.bounded a i hi
  have hfst := Bitmap.clear_fst hlt
  have htot := Bitmap.clear_total t.bitmapChainedItems i
  unfold delFree
  cases hclr : t.bitmapChainedItems.clear i with
  | mk ok bitmapChainedItems =>
    rw [hclr] at hfst htot
    subst hfst
    exact ⟨bitmapChainedItems, htot.trans h.total, rfl⟩

/-- An item of a nonempty bucket goes behind the last item `b` of its chain. -/
lemma putFree_linkNext (hm : Represents addr t chain m) {p : List ℕ} {b : ℕ}
    (hspl : chain (addr k) = p ++ [b]) (habs : ∀ j ∈ chain (addr k), t.key j ≠ k) {rest : List ℕ}
    (hfr : t.headFreeBit = i :: rest) (v : ℕ × Bool) :
    ∃ t', putFree (linkNext b) ⟨0, v.1, v.2, k⟩ t = (true, t') ∧
      Models addr n t' (update m k (some v)) := by
  obtain ⟨hrng, hout⟩ := h.head_free hfr
  obtain ⟨bm, hbm, heq⟩ := putFree_cons h hfr (linkNext b) ⟨0, v.1, v.2, k⟩
  rw [heq]
  refine ⟨_, rfl, ?_⟩
  set t' : HashTable := linkNext b i _ with ht'
  have hb : b ∈ chain (addr k) := by
    rw [hspl]
    exact mem_append_right _ (mem_singleton.mpr rfl)
  have hib : i ≠ b := fun h => hout _ (h ▸ hb)
  have hmid : ∀ j, j ≠ i → update t.itemsChained i ⟨0, v.1, v.2, k⟩ j = t.itemsChained j :=
    fun j hj => update_of_ne hj ..
  have hat : t'.itemsChained i = ⟨0, v.1, v.2, k⟩ := (update_of_ne hib ..).trans (update_self ..)
  have hatb : t'.itemsChained b = { t.itemsChained b with indexNext := i } := by
    refine (update_self ..).trans ?_
    dsimp only
    rw [hmid b hib.symm]
  have hne : ∀ j, j ≠ i → j ≠ b → t'.itemsChained j = t.itemsChained j :=
    fun j hji hjb => (update_of_ne hjb ..).trans (hmid j hji)
  have hold : ∀ j ∈ chain (addr k), t'.key j = t.key j ∧
      (t'.itemsChained j).entry = (t.itemsChained j).entry := by
    intro j hj
    unfold key
    by_cases hjb : j = b
    · rw [hjb, hatb]
      exact ⟨rfl, rfl⟩
    · rw [hne j (fun hji => hout _ (hji ▸ hj)) hjb]
      exact ⟨rfl, rfl⟩
  have hlk : Linked t'.next (t'.itemsHash (addr k)) (chain (addr k) ++ [i]) := by
    have hl := h.linked (addr k)
    have hnd := hl.nodup
    rw [hspl] at hl hnd ⊢
    refine hl.snoc (by omega) ?_ ?_ ?_
    · show (t'.itemsChained i).indexNext = 0
      rw [hat]
    · show (t'.itemsChained b).indexNext = i
      rw [hatb]
    · intro j hj
      have hjb : j ≠ b := by
        rintro rfl
        exact (nodup_append.mp hnd).2.2 j hj j (mem_singleton.mpr rfl) rfl
      have hji : j ≠ i := by
        rintro rfl
        exact hout (addr k) (by rw [hspl]; exact mem_append_left _ hj)
      unfold next
      rw [hne j hji hjb]
  have hmod := h.append hm t' hfr hbm (fun _ _ => rfl) (fun c hc j hj => ?_)
    (fun j hj => (hold j hj).1) (fun j hj => (hold j hj).2) hlk
    (by unfold key; rw [hat]) habs
  · rw [hat] at hmod
    exact hmod
  · refine hne j (fun hji => hout c (hji ▸ hj)) ?_
    rintro rfl
    exact hc (h.bucket_unique hj hb)

lemma putFree_linkHead (hm : Represents addr t chain m) (hnil : chain (addr k) = [])
    {rest : List ℕ} (hfr : t.headFreeBit = i :: rest) (v : ℕ × Bool) :
    ∃ t', putFree (linkHead (addr k)) ⟨0, v.1, v.2, k⟩ t = (true, t') ∧
      Models addr n t' (update m k (some v)) := by
  obtain ⟨hrng, hout⟩ := h.head_free hfr
  obtain ⟨bm, hbm, heq⟩ := putFree_cons h hfr (linkHead (addr k)) ⟨0, v.1, v.2, k⟩
  rw [heq]
  refine ⟨_, rfl, ?_⟩
  set t' : HashTable := linkHead (addr k) i _ with ht'
  have hat : t'.itemsChained i = ⟨0, v.1, v.2, k⟩ := update_self ..
  have hne : ∀ b, ∀ j ∈ chain b, t'.itemsChained j = t.itemsChained j := by
    intro b j hj
    refine update_of_ne ?_ ..
    rintro rfl
    exact hout b hj
  have hlk : Linked t'.next (t'.itemsHash (addr k)) (chain (addr k) ++ [i]) := by
    rw [hnil]
    refine ⟨update_self .., by omega, ?_⟩
    show (t'.itemsChained i).indexNext = 0
    rw [hat]
  have hmod := h.append hm t' hfr hbm (fun b hb => update_of_ne hb ..) (fun b _ => hne b)
    (by simp [hnil]) (by simp [hnil]) hlk (by unfold key; rw [hat])
    (by simp [hnil])
  rw [hat] at hmod
  exact hmod

end

/-- **`put`** returns, binds the key when it succeeds, and fails only when no
free item is left. -/
lemma put_models (h : Models addr n t m) (k : UniqueHash) (v : ℕ × Bool) :
    (∃ t', t.put addr k v.1 v.2 = .done (true, t') ∧ Models addr n t' (update m k (some v))) ∨
      (t.put addr k v.1 v.2 = .done (false, t) ∧ t.headFreeBit = []) := by
  obtain ⟨chain, h, hm⟩ := h
  unfold put
  by_cases hhd : t.itemsHash (addr k) = 0
  · rw [if_pos hhd]
    cases hfr : t.headFreeBit with
    | nil => exact .inr ⟨by simp [putFree, hfr], rfl⟩
    | cons i rest =>
      obtain ⟨t', heq, hmod⟩ := putFree_linkHead h hm (h.chain_eq_nil hhd) hfr v
      exact .inl ⟨t', congrArg done heq, hmod⟩
  · rw [if_neg hhd]
    rcases h.traverse_cases hhd with
      ⟨b, i, hi, hk, heq⟩ | ⟨p, b, hspl, habs, heq⟩
    · rw [heq]
      simp only [done_bind, h.ne_zero hi, if_false]
      exact .inl ⟨_, rfl, h.overwrite hm hi hk v⟩
    · rw [heq]
      simp only [done_bind, if_true]
      cases hfr : t.headFreeBit with
      | nil => exact .inr ⟨by simp [putFree, hfr], rfl⟩
      | cons i rest =>
        obtain ⟨t', heq, hmod⟩ := putFree_linkNext h hm hspl habs hfr v
        exact .inl ⟨t', congrArg done heq, hmod⟩

/-- The head of a chain is deleted by moving the bucket to the next item. -/
lemma delFree_linkHead (h : Shape addr n t chain) (hm : Represents addr t chain m)
    (hhd : t.itemsHash (addr k) = i) (hi : i ≠ 0) (hk : t.key i = k) :
    ∃ t', delFree (linkHead (addr k) (t.itemsChained i).indexNext) i t = (true, t') ∧
      Models addr n t' (update m k none) := by
  have hl := h.linked (addr k)
  rw [hhd] at hl
  obtain ⟨rest, hspl, hrs⟩ := hl.head_cases hi
  have hmem : i ∈ chain (addr k) := by
    rw [hspl]
    exact mem_cons_self
  obtain ⟨bm, hbm, heq⟩ := delFree_eq h hmem (linkHead (addr k) (t.itemsChained i).indexNext)
  rw [heq]
  refine ⟨_, rfl, ?_⟩
  set t' : HashTable := linkHead (addr k) (t.itemsChained i).indexNext _ with ht'
  have hlk : Linked t'.next (t'.itemsHash (addr k)) ([] ++ rest) := by
    rw [show t'.itemsHash (addr k) = t.next i from update_self ..]
    exact hrs
  exact h.remove hm t' hspl hk rfl hbm (fun b hb => update_of_ne hb ..)
    (fun _ _ _ _ => rfl) (fun _ => rfl) (fun _ => rfl) hlk

/-- Another item is deleted by linking the item before it to the one behind. -/
lemma delFree_linkNext (h : Shape addr n t chain) (hm : Represents addr t chain m) {p q : List ℕ}
    {b : ℕ} (hspl : chain (addr k) = p ++ b :: i :: q) (hk : t.key i = k) :
    ∃ t', delFree (linkNext b (t.itemsChained i).indexNext) i t = (true, t') ∧
      Models addr n t' (update m k none) := by
  have hmem : ∀ j ∈ b :: i :: q, j ∈ chain (addr k) := by
    intro j hj
    rw [hspl]
    exact mem_append_right _ hj
  have hb : b ∈ chain (addr k) := hmem b mem_cons_self
  obtain ⟨bm, hbm, heq⟩ := delFree_eq h (hmem i (mem_cons_of_mem _ mem_cons_self))
    (linkNext b (t.itemsChained i).indexNext)
  rw [heq]
  refine ⟨_, rfl, ?_⟩
  set t' : HashTable := linkNext b (t.itemsChained i).indexNext _ with ht'
  have hatb : t'.itemsChained b = { t.itemsChained b with indexNext := t.next i } := update_self ..
  have hne : ∀ j, j ≠ b → t'.itemsChained j = t.itemsChained j := fun j hj =>
    update_of_ne hj ..
  have hold : ∀ j, t'.key j = t.key j ∧ (t'.itemsChained j).entry = (t.itemsChained j).entry := by
    intro j
    unfold key
    by_cases hjb : j = b
    · rw [hjb, hatb]
      exact ⟨rfl, rfl⟩
    · rw [hne j hjb]
      exact ⟨rfl, rfl⟩
  have hlk : Linked t'.next (t'.itemsHash (addr k)) ((p ++ [b]) ++ q) := by
    have hl := h.linked (addr k)
    have hnd := hl.nodup
    rw [hspl] at hl hnd
    rw [append_assoc]
    refine hl.unlink ?_ ?_
    · show (t'.itemsChained b).indexNext = t.next i
      rw [hatb]
    · intro j hj
      have hjb : j ≠ b := by
        rintro rfl
        refine (nodup_cons.mp (nodup_middle.mp hnd)).1 ?_
        rcases mem_append.mp hj with hj | hj
        · exact mem_append_left _ hj
        · exact mem_append_right _ (mem_cons_of_mem _ hj)
      unfold next
      rw [hne j hjb]
  have hspl' : chain (addr k) = (p ++ [b]) ++ i :: q := by
    rw [hspl, append_assoc]
    rfl
  refine h.remove hm t' hspl' hk rfl hbm (fun _ _ => rfl) ?_
    (fun j => (hold j).1) (fun j => (hold j).2) hlk
  intro c hc j hj
  refine hne j ?_
  rintro rfl
  exact hc (h.bucket_unique hj hb)

lemma update_none_of_absent (hm : Represents addr t chain m)
    (habs : ∀ i ∈ chain (addr k), t.key i ≠ k) : update m k none = m := by
  rw [← hm.none_of_absent habs]
  exact update_eq_self ..

/-- In a bucket with a chain `del` succeeds, whether the key is in the chain or not. -/
lemma del_chain (h : Models addr n t m) {k : UniqueHash} (hhd : t.itemsHash (addr k) ≠ 0) :
    ∃ t', t.del addr k = .done (true, t') ∧ Models addr n t' (update m k none) := by
  obtain ⟨chain, h, hm⟩ := h
  unfold del
  rw [if_neg hhd]
  by_cases hkey : (t.itemsChained (t.itemsHash (addr k))).hashUnique = k
  · rw [if_pos hkey]
    obtain ⟨t', heq, hmod⟩ := delFree_linkHead h hm rfl hhd hkey
    exact ⟨t', congrArg done heq, hmod⟩
  rw [if_neg hkey]
  obtain ⟨rest, hspl, hrs⟩ := (h.linked (addr k)).head_cases hhd
  have hkp : (∀ j ∈ rest, t.key j ≠ k) → Models addr n t (update m k none) := by
    intro habs
    refine ⟨chain, h, ?_⟩
    rw [update_none_of_absent hm]
    · exact hm
    · intro j hj
      rw [hspl] at hj
      rcases mem_cons.mp hj with rfl | hj
      · exact hkey
      · exact habs j hj
  unfold traverseRest
  by_cases hnx : (t.itemsChained (t.itemsHash (addr k))).indexNext = 0
  · have hnil : rest = [] := by
      unfold next at hrs
      rw [hnx] at hrs
      exact hrs.nil_of_zero
    rw [if_pos hnx]
    exact ⟨t, rfl, hkp (by simp [hnil])⟩
  · have hfl : rest.length ≤ t.bitmapChainedItems.countTotal := by
      have hlen := h.length_le (addr k)
      rw [hspl, length_cons] at hlen
      rw [Bitmap.countTotal, h.total]
      omega
    rw [if_neg hnx]
    rcases traverse_cases k (t.itemsHash (addr k)) hrs hnx hfl with
      ⟨p, b, i, q, hfnd, hi, heq⟩ | ⟨p, b, -, habs, heq⟩
    · have hmem : i ∈ chain (addr k) := by
        rw [hspl, hfnd]
        simp
      obtain ⟨t', heq', hmod⟩ := delFree_linkNext h hm (hspl.trans hfnd) hi
      unfold next at heq
      rw [heq]
      simp only [done_bind, h.ne_zero hmem, if_false]
      exact ⟨t', congrArg done heq', hmod⟩
    · unfold next at heq
      rw [heq]
      simp only [done_bind, if_true]
      exact ⟨t, rfl, hkp habs⟩

lemma del_empty (k : UniqueHash) (hhd : t.itemsHash (addr k) = 0) :
    t.del addr k = .done (false, t) := if_pos hhd

/-- **`del`** returns and leaves the key unbound; when it fails the key was not
bound before. -/
lemma del_models (h : Models addr n t m) (k : UniqueHash) :
    (∃ t', t.del addr k = .done (true, t') ∧ Models addr n t' (update m k none)) ∨
      (t.del addr k = .done (false, t) ∧ m k = none) := by
  by_cases hhd : t.itemsHash (addr k) = 0
  · obtain ⟨chain, hshp, hm⟩ := h
    refine .inr ⟨del_empty k hhd, hm.none_of_absent ?_⟩
    simp [hshp.chain_eq_nil hhd]
  · exact .inl (del_chain h hhd)

/-! ## Whole runs -/

lemma step_models (sha256 : List (BitVec 8) → UniqueHash) (h : Models addr n t m) (op : Op) :
    ∃ t' m', step sha256 addr (t, m) op = .done (t', m') ∧ Models addr n t' m' := by
  cases op with
  | get key =>
    obtain ⟨chain, hshp, hm⟩ := h
    refine ⟨t, m, ?_, chain, hshp, hm⟩
    simp only [step, get_eq hshp hm, done_bind, pure_eq]
  | put key indexMeta isDirectory =>
    rcases put_models h (key.hashUnique sha256) (indexMeta, isDirectory) with
      ⟨t', heq, hmod⟩ | ⟨heq, -⟩
    · refine ⟨t', _, ?_, hmod⟩
      simp only [step, heq, done_bind, pure_eq, if_true]
    · refine ⟨t, m, ?_, h⟩
      simp [step, heq]
  | del key =>
    rcases del_models h (key.hashUnique sha256) with ⟨t', heq, hmod⟩ | ⟨heq, -⟩
    · refine ⟨t', _, ?_, hmod⟩
      simp only [step, heq, done_bind, pure_eq, if_true]
    · refine ⟨t, m, ?_, h⟩
      simp [step, heq]

lemma run_models (sha256 : List (BitVec 8) → UniqueHash) (h : Models addr n t m) (ops : List Op) :
    ∃ t' m', run sha256 addr (t, m) ops = .done (t', m') ∧ Models addr n t' m' := by
  induction ops generalizing t m with
  | nil => exact ⟨t, m, rfl, h⟩
  | cons op ops ih =>
    obtain ⟨t1, m1, hst, h1⟩ := step_models sha256 h op
    obtain ⟨t2, m2, hrun, h2⟩ := ih h1
    refine ⟨t2, m2, ?_, h2⟩
    rw [run, hst, done_bind, hrun]

/-! ## The constructor -/

lemma mem_freeChain {c : ℕ} : i ∈ freeChain c ↔ 1 ≤ i ∧ i < c := by
  induction c with
  | zero => simp [freeChain]
  | succ c ih =>
    rw [freeChain]
    by_cases hc : c = 0
    · rw [if_pos hc, hc]
      simp only [not_mem_nil, false_iff]
      omega
    · rw [if_neg hc, mem_cons, ih]
      omega

lemma nodup_freeChain (c : ℕ) : (freeChain c).Nodup := by
  induction c with
  | zero => exact nodup_nil
  | succ c ih =>
    rw [freeChain]
    by_cases hc : c = 0
    · rw [if_pos hc]
      exact nodup_nil
    · rw [if_neg hc]
      refine nodup_cons.mpr ⟨fun hmem => ?_, ih⟩
      have := (mem_freeChain.mp hmem).2
      omega

lemma readWord_zero (offset : ℕ) : readWord (fun _ => 0#8) offset = 0 := by
  simp [readWord, range, range.loop]

lemma construct_models (h : construct n (fun _ => 0#8) = .done t) :
    Models addr n t (fun _ => none) := by
  obtain ⟨bm, hbm, h⟩ := bind_eq_done.mp h
  obtain ⟨-, -, -, htl⟩ := Bitmap.construct_eq_done hbm
  have htot := Bitmap.set_total bm 0
  cases hset : bm.set 0 with
  | mk ok bm' =>
    rw [hset] at h htot
    cases ok with
    | false => cases h
    | true =>
      cases h
      refine ⟨fun _ => [], ⟨htot.trans htl, fun a => readWord_zero (a * 16 + 8), by simp,
        by simp, by simp, nodup_freeChain _, fun i => ?_⟩, by simp [Represents]⟩
      rw [mem_freeChain, Bitmap.countTotal, htot.trans htl]
      simp

lemma construct_zero_done (h8 : n % 8 = 0) (hpos : 0 < n) (hlt : n / 8 < 2 ^ 32) :
    ∃ t, construct n (fun _ => 0#8) = .done t := by
  unfold construct Bitmap.construct
  rw [if_pos h8, if_pos hlt, done_bind]
  cases hset : Bitmap.set ⟨fun _ => 0#8, Bitmap.clearBits (fun _ => 0#8) (n / 8), n⟩ 0 with
  | mk ok bm =>
    have hfst := Bitmap.set_fst
      (m := ⟨fun _ => 0#8, Bitmap.clearBits (fun _ => 0#8) (n / 8), n⟩) hpos
    rw [hset] at hfst
    subst hfst
    exact ⟨_, rfl⟩

/-! ## The refinement -/

/-- What a caller can rely on of a table of `n` items that stands for `m`. -/
structure RefinesMap (addr : UniqueHash → AddressHash) (n : ℕ) (t : HashTable)
    (m : Entries) : Prop where
  get_eq : ∀ k, t.get addr k = .done (m k)
  chains : ∃ chain : AddressHash → List ℕ,
    (∀ a, Linked t.next (t.itemsHash a) (chain a) ∧ (chain a).Nodup) ∧
    (∀ a b, a ≠ b → (chain a).Disjoint (chain b)) ∧
    FreeExact (fun i => 1 ≤ i ∧ i < n) (fun i => ∃ a, i ∈ chain a) t.headFreeBit
  put_fails : ∀ k indexMeta isDirectory t',
    t.put addr k indexMeta isDirectory = .done (false, t') → t.headFreeBit = []
  del_fails : ∀ k t', t.del addr k = .done (false, t') → m k = none

lemma Models.refinesMap (h : Models addr n t m) : RefinesMap addr n t m := by
  have hmod := h
  obtain ⟨chain, hshp, hm⟩ := h
  refine ⟨get_eq hshp hm, ⟨chain, fun a => ⟨hshp.linked a, (hshp.linked a).nodup⟩,
    ?_, hshp.free⟩, ?_, ?_⟩
  · intro a b hab i hi hj
    exact hab (hshp.bucket_unique hi hj)
  · intro k indexMeta isDirectory t' hput
    rcases put_models hmod k (indexMeta, isDirectory) with ⟨t'', heq, -⟩ | ⟨-, hnil⟩
    · rw [heq] at hput
      cases hput
    · exact hnil
  · intro k t' hdel
    rcases del_models hmod k with ⟨t'', heq, -⟩ | ⟨-, hno⟩
    · rw [heq] at hdel
      cases hdel
    · exact hno

/-- **The hash table refines a finite map**, for every assignment of hashes to
buckets and along every sequence of calls. -/
theorem run_refinesMap (sha256 : List (BitVec 8) → UniqueHash) (addr : UniqueHash → AddressHash)
    (n : ℕ) (t0 : HashTable) (h : construct n (fun _ => 0#8) = .done t0) (ops : List Op) :
    ∃ t m, run sha256 addr (t0, fun _ => none) ops = .done (t, m) ∧ RefinesMap addr n t m := by
  obtain ⟨t, m, hrun, hmod⟩ := run_models sha256 (construct_models h) ops
  exact ⟨t, m, hrun, hmod.refinesMap⟩

theorem run_refinesMap_eight : ∃ t0, construct 8 (fun _ => 0#8) = .done t0 ∧
      ∃ t m, run (fun _ => ⟨1, 2, 3, 4⟩) getAddressHash (t0, fun _ => none)
          [.put (.path []) 5 true, .put (.hash ⟨1, 0, 0, 0⟩) 6 false,
            .del (.path [])] = .done (t, m) ∧
        RefinesMap getAddressHash 8 t m := by
  obtain ⟨t0, ht0⟩ := construct_zero_done (n := 8) (by decide) (by decide) (by decide)
  exact ⟨t0, ht0, run_refinesMap _ _ 8 t0 ht0 _⟩

/-! ## The result of `del` -/

def Present (addr : UniqueHash → AddressHash) (t : HashTable) (k : UniqueHash) : Prop :=
  ∃ v, t.get addr k = .done (some v)

/-- `del` returns whether the key was present, and a `del` that fails changes nothing. -/
def DelTruthful (addr : UniqueHash → AddressHash) (t : HashTable) (k : UniqueHash) : Prop :=
  ∃ ok t', t.del addr k = .done (ok, t') ∧ (ok = true ↔ Present addr t k) ∧ (ok = false → t' = t)

/-- **When the result of `del` is true to the table**: for a key that is present, and
for a key whose bucket is empty. A key that is missing from a chain counts as deleted. -/
theorem del_truthful_iff (sha256 : List (BitVec 8) → UniqueHash)
    (addr : UniqueHash → AddressHash) (n : ℕ) (t0 : HashTable)
    (h : construct n (fun _ => 0#8) = .done t0) (ops : List Op) (t : HashTable) (m : Entries)
    (hrun : run sha256 addr (t0, fun _ => none) ops = .done (t, m)) (key : HashKey) :
    DelTruthful addr t (key.hashUnique sha256) ↔
      Present addr t (key.hashUnique sha256) ∨ t.itemsHash (addr (key.hashUnique sha256)) = 0 := by
  obtain ⟨t', m', hrun', hmod⟩ := run_models sha256 (construct_models h) ops
  rw [hrun] at hrun'
  cases hrun'
  generalize key.hashUnique sha256 = k
  by_cases hhd : t.itemsHash (addr k) = 0
  · refine ⟨fun _ => .inr hhd, fun _ => ⟨false, t, del_empty k hhd, ?_, fun _ => rfl⟩⟩
    have hget : t.get addr k = .done none := if_pos hhd
    unfold Present
    rw [hget]
    simp
  · obtain ⟨t', hdel, -⟩ := del_chain hmod hhd
    constructor
    · rintro ⟨ok, t'', hdel', htr, -⟩
      rw [hdel] at hdel'
      cases hdel'
      exact .inl (htr.mp rfl)
    · rintro (hprs | hz)
      · exact ⟨true, t', hdel, iff_of_true rfl hprs, nofun⟩
      · exact absurd hz hhd

theorem del_truthful_present : ∃ t0 t m, construct 8 (fun _ => 0#8) = .done t0 ∧
      run (fun _ => ⟨1, 2, 3, 4⟩) getAddressHash (t0, fun _ => none)
        [.put (.hash ⟨1, 0, 0, 0⟩) 5 true] = .done (t, m) ∧
      (DelTruthful getAddressHash t ⟨1, 0, 0, 0⟩ ↔
        Present getAddressHash t ⟨1, 0, 0, 0⟩ ∨ t.itemsHash (getAddressHash ⟨1, 0, 0, 0⟩) = 0) := by
  obtain ⟨t0, ht0⟩ := construct_zero_done (n := 8) (by decide) (by decide) (by decide)
  have hmod : Models getAddressHash 8 t0 fun _ => none := construct_models ht0
  obtain ⟨t, m, hrun, -⟩ := run_models (fun _ => ⟨1, 2, 3, 4⟩) hmod
    [.put (.hash ⟨1, 0, 0, 0⟩) 5 true]
  exact ⟨t0, t, m, ht0, hrun, del_truthful_iff _ _ 8 t0 ht0 _ t m hrun (.hash ⟨1, 0, 0, 0⟩)⟩

/-- Two hashes share a bucket; one of them is put, the other one is deleted. -/
theorem del_absent_true : ∃ t0 t m t', construct 8 (fun _ => 0#8) = .done t0 ∧
      run (fun _ => ⟨1, 2, 3, 4⟩) getAddressHash (t0, fun _ => none)
        [.put (.hash ⟨1, 0, 0, 0⟩) 5 true] = .done (t, m) ∧
      t.get getAddressHash ⟨1, 7, 0, 0⟩ = .done none ∧
      t.del getAddressHash ⟨1, 7, 0, 0⟩ = .done (true, t') := by
  obtain ⟨t0, ht0, ⟨t, m⟩, hrun, hget, ⟨ok, t'⟩, hdel, rfl⟩ :
      ∃ t0, construct 8 (fun _ => 0#8) = .done t0 ∧
        ∃ s, run (fun _ => ⟨1, 2, 3, 4⟩) getAddressHash (t0, fun _ => none)
          [.put (.hash ⟨1, 0, 0, 0⟩) 5 true] = .done s ∧
        s.1.get getAddressHash ⟨1, 7, 0, 0⟩ = .done none ∧
        ∃ x, s.1.del getAddressHash ⟨1, 7, 0, 0⟩ = .done x ∧ x.1 = true := by
    decide +kernel
  exact ⟨t0, t, m, t', ht0, hrun, hget, hdel⟩

end HashTable

end Librdpma.Octopus
