import Mathlib

/-!
# Memory of bytes

Ranges of bytes are read from and written to a memory as lists, and numbers
are stored in them with the lowest byte first.
-/

namespace Librdpma.Lib

open List

/-! ## Numbers -/

/-- The lowest `k` bytes of a number. -/
def leBytes : ℕ → ℕ → List (BitVec 8)
  | 0, _ => []
  | k + 1, n => BitVec.ofNat 8 n :: leBytes k (n / 256)

def leNat : List (BitVec 8) → ℕ
  | [] => 0
  | b :: bs => b.toNat + 256 * leNat bs

@[simp] lemma length_leBytes (k n : ℕ) : (leBytes k n).length = k := by
  induction k generalizing n with
  | zero => rfl
  | succ k ih => rw [leBytes, length_cons, ih]

lemma leNat_leBytes (k n : ℕ) : leNat (leBytes k n) = n % 256 ^ k := by
  induction k generalizing n with
  | zero => rw [leBytes, leNat, pow_zero, Nat.mod_one]
  | succ k ih =>
    have hpow : 256 ^ (k + 1) = 256 * 256 ^ k := Nat.pow_succ'
    rw [leBytes, leNat, ih, BitVec.toNat_ofNat, hpow, Nat.mod_mul]

lemma leNat_leBytes_of_lt {k n : ℕ} (h : n < 256 ^ k) : leNat (leBytes k n) = n := by
  rw [leNat_leBytes, Nat.mod_eq_of_lt h]

/-! ## Ranges -/

abbrev Memory := ℕ → BitVec 8

namespace Memory

/-- `len` bytes from address `a` on. -/
def read (m : Memory) (a len : ℕ) : List (BitVec 8) := (range len).map fun i => m (a + i)

def write (m : Memory) (a : ℕ) (bs : List (BitVec 8)) : Memory := fun b =>
  if a ≤ b ∧ b < a + bs.length then bs.getD (b - a) 0#8 else m b

variable {m : Memory} {a : ℕ} {bs : List (BitVec 8)}

@[simp] lemma length_read (m : Memory) (a len : ℕ) : (m.read a len).length = len := by
  simp [read]

variable {len b a len' : ℕ}

lemma read_congr {m' : Memory} (h : ∀ i < len, m' (a + i) = m (a + i)) :
    m'.read a len = m.read a len :=
  map_congr_left fun i hi => h i (mem_range.mp hi)

lemma write_of_lt (h : b < a) : m.write a bs b = m b := if_neg fun hin => absurd hin.1 (by omega)

lemma write_byte (m : Memory) (a : ℕ) (x : BitVec 8) : m.write a [x] a = x := by
  simp [write]

lemma write_read_apply (m src : Memory) (a b len x : ℕ) :
    m.write a (src.read b len) x = if a ≤ x ∧ x < a + len then src (b + (x - a)) else m x := by
  unfold write
  rw [length_read]
  split_ifs with hx
  · have hlt : x - a < len := by omega
    simp [read, hlt]
  · rfl

lemma read_write (m : Memory) (a : ℕ) (bs : List (BitVec 8)) :
    (m.write a bs).read a bs.length = bs := by
  refine ext_getElem (by simp) fun i _ hi => ?_
  have hin : a ≤ a + i ∧ a + i < a + bs.length := by omega
  simp only [read, getElem_map, getElem_range, write]
  rw [if_pos hin, Nat.add_sub_cancel_left]
  simp [hi]

/-- Two ranges without a common byte. -/
def Apart (a len b len' : ℕ) : Prop := a + len ≤ b ∨ b + len' ≤ a

instance (a len b len' : ℕ) : Decidable (Apart a len b len') := inferInstanceAs (Decidable (_ ∨ _))

lemma Apart.symm (h : Apart a len b len') : Apart b len' a len := Or.symm h

lemma Apart.word {d : ℕ} (h : Apart a len b len') (hd : d + 8 ≤ len) : Apart (a + d) 8 b len' := by
  unfold Apart at h ⊢
  omega

lemma Apart.of_le {k k' : ℕ} (h : Apart a len b len') (hk : k ≤ len) (hk' : k' ≤ len') :
    Apart a k b k' := by
  unfold Apart at h ⊢
  omega

lemma read_write_apart (h : Apart b len a bs.length) :
    (m.write a bs).read b len = m.read b len := by
  refine map_congr_left fun i hi => ?_
  have hi' := mem_range.mp hi
  refine if_neg ?_
  rcases h with h | h <;> omega

/-! ## Words of 8 bytes -/

def u64 (m : Memory) (a : ℕ) : BitVec 64 := BitVec.ofNat 64 (leNat (m.read a 8))

def putU64 (m : Memory) (a : ℕ) (w : BitVec 64) : Memory := m.write a (leBytes 8 w.toNat)

lemma u64_putU64 (m : Memory) (a : ℕ) (w : BitVec 64) : (m.putU64 a w).u64 a = w := by
  have hrd := read_write m a (leBytes 8 w.toNat)
  rw [length_leBytes] at hrd
  rw [u64, putU64, hrd, leNat_leBytes_of_lt w.isLt, BitVec.ofNat_toNat, BitVec.setWidth_eq]

lemma u64_write_apart (h : Apart b 8 a bs.length) : (m.write a bs).u64 b = m.u64 b := by
  rw [u64, u64, read_write_apart h]

lemma u64_putU64_apart {w : BitVec 64} (h : Apart b 8 a 8) : (m.putU64 a w).u64 b = m.u64 b := by
  refine u64_write_apart ?_
  rw [length_leBytes]
  exact h

end Memory

end Librdpma.Lib
