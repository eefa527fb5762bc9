import Librdpma.LevelKv.Requests

/-!
# The numbers of the buckets (`levelkv/src/dpu/dpu.cpp`)

The start ids of the levels are `int64_t`, the capacities `size_t`, and the
constructor shifts an `int`. `Numbers` has these five members of `Dpu` as words
of 64 bits. For the levels 3 to 29 and as long as the capacities stay below
`2 ^ 60`, nothing wraps around, and the words are the natural numbers of
`Control`.
-/

namespace Librdpma.LevelKv

open List BitVec

/-- The start ids and the capacities of a `Dpu`. -/
structure Numbers where
  blStartBucketId : BitVec 64
  tlStartBucketId : BitVec 64
  nextStartBucketId : BitVec 64
  addrCapacity : BitVec 64
  blCapacity : BitVec 64

namespace Numbers

/-- `1 << n`, an `int` -/
def shifted (n : ℕ) : BitVec 32 := 1#32 <<< n

/-- The constructor. -/
def init (level : ℕ) : Numbers where
  addrCapacity := (shifted level).signExtend 64
  blCapacity := (shifted (level - 1)).signExtend 64
  blStartBucketId := (shifted (level - 1) - 4#32).signExtend 64
  tlStartBucketId := (shifted level - 4#32).signExtend 64
  nextStartBucketId := (shifted (level + 1) - 4#32).signExtend 64

/-- The assignments at the end of `Expand`. -/
def expand (c : Numbers) : Numbers where
  addrCapacity := c.addrCapacity * 2#64
  blCapacity := c.blCapacity * 2#64
  blStartBucketId := c.tlStartBucketId
  tlStartBucketId := c.nextStartBucketId
  nextStartBucketId := c.nextStartBucketId + c.addrCapacity * 2#64

def get4Buckets (c : Numbers) (hash1 hash2 : BitVec 64) : List (BitVec 64) :=
  let idx1 := hash1 % (c.addrCapacity / 2#64)
  let idx2 := c.addrCapacity / 2#64 + hash2 % (c.addrCapacity / 2#64)
  let idx3 := hash1 % (c.addrCapacity / 4#64)
  let idx4 := c.addrCapacity / 4#64 + hash2 % (c.addrCapacity / 4#64)
  [c.addrCapacity - 4#64 + idx1, c.addrCapacity - 4#64 + idx2,
    c.blCapacity - 4#64 + idx3, c.blCapacity - 4#64 + idx4]

def getExpandBucketIds (c : Numbers) (hash1 hash2 : BitVec 64) : BitVec 64 × BitVec 64 :=
  (c.tlStartBucketId + c.addrCapacity + hash1 % c.addrCapacity,
    c.tlStartBucketId + c.addrCapacity * 2#64 + hash2 % c.addrCapacity)

/-- The words, read as natural numbers, are the parameters of the table. -/
structure Shows (n : Numbers) (c : Control) : Prop where
  blStart : n.blStartBucketId.toNat = c.blStartBucketId
  tlStart : n.tlStartBucketId.toNat = c.tlStartBucketId
  nextStart : n.nextStartBucketId.toNat = c.nextStartBucketId
  addrCapacity : n.addrCapacity.toNat = c.addrCapacity
  blCapacity : n.blCapacity.toNat = c.blCapacity

/-! ## No wrap-around -/

section Words

variable {x y : BitVec 64}

lemma toNat_sub_four (h : 4 ≤ x.toNat) : (x - 4#64).toNat = x.toNat - 4 := by
  rw [toNat_sub, toNat_ofNat]
  omega

lemma toNat_double (h : x.toNat < 2 ^ 63) : (x * 2#64).toNat = x.toNat * 2 := by
  rw [toNat_mul, toNat_ofNat]
  omega

lemma toNat_widen {x : BitVec 32} (h : x.toNat < 2 ^ 31) : (x.signExtend 64).toNat = x.toNat := by
  have hmsb : x.msb = false := by
    rw [msb_eq_decide]
    exact decide_eq_false (by omega)
  rw [signExtend_eq_setWidth_of_msb_false hmsb, toNat_setWidth]
  omega

lemma toNat_shifted {n : ℕ} (h : n < 32) : (shifted n).toNat = 2 ^ n := by
  have hlt : 2 ^ n < 2 ^ 32 := Nat.pow_lt_pow_right (by decide) h
  rw [shifted, toNat_shiftLeft, Nat.shiftLeft_eq]
  change 1 * 2 ^ n % 2 ^ 32 = _
  omega

end Words

variable {n : Numbers} {c : Control} {q : ℕ}

lemma init_shows {level : ℕ} (hlo : 3 ≤ level) (hhi : level ≤ 29)
    (hc : Geometry c (2 ^ (level - 3))) : (init level).Shows c := by
  obtain ⟨k, rfl⟩ := Nat.exists_eq_add_of_le hlo
  have hk : 2 ^ k ≤ 2 ^ 26 := Nat.pow_le_pow_right (by decide) (by omega)
  have hpos : 1 ≤ 2 ^ k := Nat.one_le_two_pow
  rw [Nat.add_sub_cancel_left] at hc
  have h2 : (shifted (3 + k - 1)).toNat = 4 * 2 ^ k := by
    rw [toNat_shifted (by omega), show 3 + k - 1 = 2 + k by omega, Nat.pow_add]
  have h3 : (shifted (3 + k)).toNat = 8 * 2 ^ k := by
    rw [toNat_shifted (by omega), Nat.pow_add]
  have h₄ : (shifted (3 + k + 1)).toNat = 16 * 2 ^ k := by
    rw [toNat_shifted (by omega), show 3 + k + 1 = 4 + k by omega, Nat.pow_add]
  have hsub : ∀ {x : BitVec 32} {m : ℕ}, x.toNat = m → 4 ≤ m → m ≤ 16 * 2 ^ 26 →
      ((x - 4#32).signExtend 64).toNat = m - 4 := by
    intro x m hx hge hle
    have hx4 : (x - 4#32).toNat = m - 4 := by
      rw [toNat_sub, toNat_ofNat]
      omega
    rw [toNat_widen (by omega), hx4]
  have ⟨_, _, _, hbl, htl, hnx, _⟩ := hc
  constructor
  · rw [init, hsub h2 (by omega) (by omega)]
    omega
  · rw [init, hsub h3 (by omega) (by omega)]
    omega
  · rw [init, hsub h₄ (by omega) (by omega)]
    omega
  · rw [init, toNat_widen (by omega), h3, hc.addrCapacity]
  · rw [init, toNat_widen (by omega), h2, hc.blCapacity]

lemma Shows.expand {c' : Control} (h : n.Shows c) (hc : Geometry c q)
    (hq : c.addrCapacity < 2 ^ 60) (hadd : c'.addrCapacity = c.addrCapacity * 2)
    (hcap : c'.blCapacity = c.blCapacity * 2) (hbl : c'.blStartBucketId = c.tlStartBucketId)
    (htl : c'.tlStartBucketId = c.nextStartBucketId)
    (hnx : c'.nextStartBucketId = c.nextStartBucketId + c.addrCapacity * 2) :
    n.expand.Shows c' := by
  have ⟨_, hcap0, hadd0, _, _, hnx0, _⟩ := hc
  have hdbl : (n.addrCapacity * 2#64).toNat = c.addrCapacity * 2 := by
    rw [toNat_double (by rw [h.addrCapacity]; omega), h.addrCapacity]
  refine ⟨by rw [hbl]; exact h.tlStart, by rw [htl]; exact h.nextStart, ?_, ?_, ?_⟩
  · rw [Numbers.expand, toNat_add_of_lt (by rw [hdbl, h.nextStart]; omega), hdbl, h.nextStart, hnx]
  · rw [Numbers.expand, hdbl, hadd]
  · rw [Numbers.expand, toNat_double (by rw [h.blCapacity]; omega), h.blCapacity, hcap]

lemma toNat_pair {cap half : BitVec 64} {m g : ℕ} (hash : BitVec 64) (hcap : cap.toNat = m)
    (hhl : half.toNat = g) (hg : 0 < g) (h4 : 4 ≤ m) (hm : m + 2 * g < 2 ^ 64) :
    (cap - 4#64 + hash % half).toNat = m - 4 + hash.toNat % g ∧
      (cap - 4#64 + (half + hash % half)).toNat = m - 4 + (g + hash.toNat % g) := by
  have hmod := Nat.mod_lt hash.toNat hg
  have hst : (cap - 4#64).toNat = m - 4 := by
    rw [toNat_sub_four (by omega), hcap]
  have hidx : (hash % half).toNat = hash.toNat % g := by
    rw [toNat_umod, hhl]
  have hsnd : (half + hash % half).toNat = g + hash.toNat % g := by
    rw [toNat_add_of_lt (by omega), hhl, hidx]
  constructor
  · rw [toNat_add_of_lt (by omega), hst, hidx]
  · rw [toNat_add_of_lt (by omega), hst, hsnd]

lemma Shows.get4Buckets (h : n.Shows c) (hc : Geometry c q) (hq : c.addrCapacity < 2 ^ 62)
    (hash1 hash2 : BitVec 64) :
    (n.get4Buckets hash1 hash2).map BitVec.toNat = c.get4Buckets hash1.toNat hash2.toNat := by
  have ⟨hpos, hcap, hadd, _, _, _, _⟩ := hc
  have htwo : (n.addrCapacity / 2#64).toNat = c.addrCapacity / 2 := by
    rw [BitVec.toNat_udiv, h.addrCapacity]
    rfl
  have hfour : (n.addrCapacity / 4#64).toNat = c.addrCapacity / 4 := by
    rw [BitVec.toNat_udiv, h.addrCapacity]
    rfl
  have top (hash : BitVec 64) := toNat_pair hash h.addrCapacity htwo (by omega)
    (by omega) (by omega)
  have bottom (hash : BitVec 64) := toNat_pair hash h.blCapacity hfour (by omega)
    (by omega) (by omega)
  unfold Numbers.get4Buckets Control.get4Buckets
  simp only [map_cons, map_nil]
  rw [(top hash1).1, (top hash2).2, (bottom hash1).1, (bottom hash2).2]

lemma Shows.getExpandBucketIds (h : n.Shows c) (hc : Geometry c q)
    (hq : c.addrCapacity < 2 ^ 60) (hash1 hash2 : BitVec 64) :
    (n.getExpandBucketIds hash1 hash2).1.toNat = (c.getExpandBucketIds hash1.toNat hash2.toNat).1 ∧
      (n.getExpandBucketIds hash1 hash2).2.toNat
        = (c.getExpandBucketIds hash1.toNat hash2.toNat).2 := by
  have ⟨hpos, _, hadd, _, htl, _, _⟩ := hc
  have m1 := Nat.mod_lt hash1.toNat (show 0 < c.addrCapacity by omega)
  have m2 := Nat.mod_lt hash2.toNat (show 0 < c.addrCapacity by omega)
  have e1 : (hash1 % n.addrCapacity).toNat = hash1.toNat % c.addrCapacity := by
    rw [toNat_umod, h.addrCapacity]
  have e2 : (hash2 % n.addrCapacity).toNat = hash2.toNat % c.addrCapacity := by
    rw [toNat_umod, h.addrCapacity]
  have hdbl : (n.addrCapacity * 2#64).toNat = c.addrCapacity * 2 := by
    rw [toNat_double (by rw [h.addrCapacity]; omega), h.addrCapacity]
  have s1 : (n.tlStartBucketId + n.addrCapacity).toNat = c.tlStartBucketId + c.addrCapacity := by
    rw [toNat_add_of_lt (by rw [h.tlStart, h.addrCapacity]; omega), h.tlStart, h.addrCapacity]
  have s2 : (n.tlStartBucketId + n.addrCapacity * 2#64).toNat
      = c.tlStartBucketId + c.addrCapacity * 2 := by
    rw [toNat_add_of_lt (by rw [h.tlStart, hdbl]; omega), h.tlStart, hdbl]
  unfold Numbers.getExpandBucketIds Control.getExpandBucketIds
  constructor
  · rw [toNat_add_of_lt (by omega), s1, e1]
  · rw [toNat_add_of_lt (by omega), s2, e2]

end Numbers

/-! ## One table and the next -/

/-- The parameters after an expansion. -/
def Control.expanded (c : Control) : Control :=
  { c with
    addrCapacity := c.addrCapacity * 2
    blCapacity := c.blCapacity * 2
    level := c.level + 1
    blStartBucketId := c.tlStartBucketId
    tlStartBucketId := c.nextStartBucketId
    nextStartBucketId := c.nextStartBucketId + c.addrCapacity * 2 }

namespace Geometry

variable {c c' : Control} {q : ℕ}

/-- The top buckets of a key lie in the top level, the bottom buckets in the
bottom level. -/
lemma get4Buckets_levels (h : Geometry c q) (h1 h2 : ℕ) :
    (∀ b ∈ (c.get4Buckets h1 h2).take 2, c.tlStartBucketId ≤ b ∧ b < c.nextStartBucketId) ∧
      ∀ b ∈ (c.get4Buckets h1 h2).drop 2, c.blStartBucketId ≤ b ∧ b < c.tlStartBucketId := by
  have ⟨hpos, hcap, hadd, hbl, htl, hnx, _⟩ := h
  have m1 := Nat.mod_lt h1 (show 0 < c.addrCapacity / 2 by omega)
  have m2 := Nat.mod_lt h2 (show 0 < c.addrCapacity / 2 by omega)
  have m3 := Nat.mod_lt h1 (show 0 < c.addrCapacity / 4 by omega)
  have m4 := Nat.mod_lt h2 (show 0 < c.addrCapacity / 4 by omega)
  constructor
  · intro b hb
    simp only [Control.get4Buckets, take_succ_cons, take_zero, mem_cons,
      not_mem_nil, or_false] at hb
    omega
  · intro b hb
    simp only [Control.get4Buckets, drop_succ_cons, drop_zero, mem_cons,
      not_mem_nil, or_false] at hb
    omega

/-- An expansion makes the top buckets of a key its bottom buckets, and the
buckets it was split to its top buckets. -/
lemma get4Buckets_doubled (h : Geometry c q) (hcap : c'.blCapacity = c.blCapacity * 2)
    (hadd : c'.addrCapacity = c.addrCapacity * 2) (h1 h2 : ℕ) :
    (c'.get4Buckets h1 h2).drop 2 = (c.get4Buckets h1 h2).take 2 ∧
      (c'.get4Buckets h1 h2).take 2
        = [(c.getExpandBucketIds h1 h2).1, (c.getExpandBucketIds h1 h2).2] := by
  have ⟨hpos, hcap0, hadd0, _, htl, _, _⟩ := h
  have htwo : c'.addrCapacity / 2 = c.addrCapacity := by omega
  have hfour : c'.addrCapacity / 4 = c.addrCapacity / 2 := by omega
  unfold Control.get4Buckets Control.getExpandBucketIds
  rw [htwo, hfour]
  simp only [take_succ_cons, take_zero, drop_succ_cons, drop_zero, cons.injEq, and_true]
  omega

end Geometry

/-! ## Any number of expansions -/

namespace Numbers

/-- The numbering of the buckets at one time: the three ranges, the places of a
key, and what an expansion makes of them. -/
structure Numbered (n : Numbers) : Prop where
  bottom : n.tlStartBucketId.toNat = n.blStartBucketId.toNat + n.blCapacity.toNat
  top : n.nextStartBucketId.toNat = n.tlStartBucketId.toNat + n.addrCapacity.toNat
  next : (n.nextStartBucketId + 2#64 * n.addrCapacity).toNat
    = n.nextStartBucketId.toNat + 2 * n.addrCapacity.toNat
  positive : n.nextStartBucketId.toNat + 2 * n.addrCapacity.toNat < 2 ^ 63
  distinct : ∀ hash1 hash2, (n.get4Buckets hash1 hash2).Nodup
  topIds : ∀ hash1 hash2, ∀ b ∈ (n.get4Buckets hash1 hash2).take 2,
    n.tlStartBucketId ≤ b ∧ b < n.nextStartBucketId
  bottomIds : ∀ hash1 hash2, ∀ b ∈ (n.get4Buckets hash1 hash2).drop 2,
    n.blStartBucketId ≤ b ∧ b < n.tlStartBucketId
  stable : ∀ hash1 hash2,
    (n.expand.get4Buckets hash1 hash2).drop 2 = (n.get4Buckets hash1 hash2).take 2
  split : ∀ hash1 hash2, (n.expand.get4Buckets hash1 hash2).take 2
    = [(n.getExpandBucketIds hash1 hash2).1, (n.getExpandBucketIds hash1 hash2).2]

variable {n : Numbers} {c c' : Control} {q : ℕ}

lemma map_toNat_injective : Function.Injective (map (BitVec.toNat (w := 64))) :=
  map_injective_iff.mpr fun _ _ => eq_of_toNat_eq

lemma Shows.numbered (h : n.Shows c) (hc : Geometry c q) (hq : c.addrCapacity < 2 ^ 60)
    (h' : n.expand.Shows c') (hc' : Geometry c' (2 * q)) : n.Numbered := by
  have ⟨_, hcap, hadd, hbl, htl, hnx, _⟩ := hc
  have hcap' := hc'.blCapacity
  have hadd' := hc'.addrCapacity
  have hget := h.get4Buckets hc (by omega)
  have hget' := h'.get4Buckets hc' (by omega)
  refine ⟨?_, ?_, ?_, ?_, fun hash1 hash2 => ?_, fun hash1 hash2 b hb => ?_,
    fun hash1 hash2 b hb => ?_, fun hash1 hash2 => ?_, fun hash1 hash2 => ?_⟩
  · rw [h.tlStart, h.blStart, h.blCapacity]
    omega
  · rw [h.nextStart, h.tlStart, h.addrCapacity]
    omega
  · have hdbl : (2#64 * n.addrCapacity).toNat = 2 * c.addrCapacity := by
      rw [BitVec.mul_comm, toNat_double (by rw [h.addrCapacity]; omega), h.addrCapacity]
      omega
    rw [toNat_add_of_lt (by rw [h.nextStart, hdbl]; omega), hdbl, h.addrCapacity]
  · rw [h.nextStart, h.addrCapacity]
    omega
  · refine Nodup.of_map BitVec.toNat ?_
    rw [hget]
    exact (hc.get4Buckets_spec _ _).1
  · have hb' : b.toNat ∈ (c.get4Buckets hash1.toNat hash2.toNat).take 2 := by
      rw [← hget, ← map_take]
      exact mem_map_of_mem hb
    rw [BitVec.le_def, BitVec.lt_def, h.tlStart, h.nextStart]
    exact (hc.get4Buckets_levels _ _).1 _ hb'
  · have hb' : b.toNat ∈ (c.get4Buckets hash1.toNat hash2.toNat).drop 2 := by
      rw [← hget, ← map_drop]
      exact mem_map_of_mem hb
    rw [BitVec.le_def, BitVec.lt_def, h.blStart, h.tlStart]
    exact (hc.get4Buckets_levels _ _).2 _ hb'
  · apply map_toNat_injective
    rw [map_drop, map_take, hget, hget']
    exact (hc.get4Buckets_doubled (by omega) (by omega) _ _).1
  · apply map_toNat_injective
    obtain ⟨e1, e2⟩ := h.getExpandBucketIds hc hq hash1 hash2
    rw [map_take, hget', map_cons, map_cons, map_nil, e1, e2]
    exact (hc.get4Buckets_doubled (by omega) (by omega) _ _).2

lemma Shows.finishExpand {K V : Type} [Inhabited K] [Inhabited V] {s : Dpu K V}
    (h : n.Shows s.toControl) (hs : Geometry s.toControl q) (hq : s.addrCapacity < 2 ^ 60) :
    n.expand.Shows s.finishExpand.toControl :=
  h.expand hs hq rfl rfl rfl rfl rfl

/-- The words after `k` expansions are the parameters of a table of that size. -/
lemma iterate_shows {level : ℕ} (hlo : 3 ≤ level) (hhi : level ≤ 29) {k : ℕ}
    (hk : 2 ^ (level + k) < 2 ^ 61) :
    ∃ c, (expand^[k] (init level)).Shows c ∧ Geometry c (2 ^ (level + k - 3)) ∧
      c.addrCapacity = 2 ^ (level + k) := by
  induction k with
  | zero =>
    have hc := Dpu.init_geometry (K := Unit) (V := Unit) hlo
    exact ⟨_, init_shows hlo hhi hc, hc, rfl⟩
  | succ k ih =>
    have hpow : 2 ^ (level + (k + 1)) = 2 ^ (level + k) * 2 := by
      rw [← add_assoc, pow_succ]
    obtain ⟨c, hn, hc, hcap⟩ := ih (by omega)
    have hq : 2 * 2 ^ (level + k - 3) = 2 ^ (level + (k + 1) - 3) := by
      rw [show level + (k + 1) - 3 = level + k - 3 + 1 by omega, pow_succ, mul_comm]
    rw [Function.iterate_succ_apply']
    refine ⟨c.expanded, hn.expand hc (by omega) rfl rfl rfl rfl rfl, ?_,
      (congrArg (· * 2) hcap).trans hpow.symm⟩
    rw [← hq]
    exact hc.doubled rfl rfl rfl rfl rfl hc.clients

/-- **The numbers of the buckets are stable.** -/
theorem bucket_numbering_stable (level k : ℕ) (hlo : 3 ≤ level) (hhi : level ≤ 29)
    (hk : 2 ^ (level + k) < 2 ^ 60) : (expand^[k] (init level)).Numbered := by
  obtain ⟨c, hn, hc, hcap⟩ := iterate_shows hlo hhi (k := k) (by omega)
  have hn' : (expand^[k] (init level)).expand.Shows c.expanded :=
    hn.expand hc (by omega) rfl rfl rfl rfl rfl
  exact hn.numbered hc (by omega) hn' (hc.doubled rfl rfl rfl rfl rfl hc.clients)

theorem bucket_numbering_stable_once : (expand^[1] (init 3)).Numbered :=
  bucket_numbering_stable 3 1 (by decide) (by decide) (by decide)

end Numbers

end Librdpma.LevelKv
