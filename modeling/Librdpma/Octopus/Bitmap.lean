import Librdpma.Lib.Outcome

/-!
# The bitmap of Octopus (`src/fs/bitmap.cpp`)

The byte array is a function from byte index to byte; bit `pos` is bit
`7 - pos % 8` of byte `pos / 8`. `varCountFree` is the counter the class
keeps beside the array.
-/

namespace Librdpma.Octopus

open Lib Function

/-- `1 << (7 - offset)`, the mask of a bit inside its byte. -/
def bitMask (offset : ℕ) : BitVec 8 := 1#8 <<< (7 - offset)

/-- The test `(bytes[index] & (1 << (7 - offset))) != 0` at position `pos`. -/
def bitSet (bytes : ℕ → BitVec 8) (pos : ℕ) : Bool :=
  (bytes (pos / 8) &&& bitMask (pos % 8)) != 0#8

structure Bitmap where
  bytes : ℕ → BitVec 8
  varCountFree : ℕ
  varCountTotal : ℕ

namespace Bitmap

/-- `none` is the failing return, `some status` a successful one. -/
def get (m : Bitmap) (pos : ℕ) : Option Bool :=
  if pos < m.varCountTotal then some (bitSet m.bytes pos) else none

def set (m : Bitmap) (pos : ℕ) : Bool × Bitmap :=
  if pos < m.varCountTotal then
    if bitSet m.bytes pos then (true, m)
    else
      (true, { m with
        bytes := update m.bytes (pos / 8) (m.bytes (pos / 8) ||| bitMask (pos % 8))
        varCountFree := m.varCountFree - 1 })
  else (false, m)

def clear (m : Bitmap) (pos : ℕ) : Bool × Bitmap :=
  if pos < m.varCountTotal then
    if bitSet m.bytes pos then
      (true, { m with
        bytes := update m.bytes (pos / 8) (m.bytes (pos / 8) &&& ~~~(bitMask (pos % 8)))
        varCountFree := m.varCountFree + 1 })
    else (true, m)
  else (false, m)

def countTotal (m : Bitmap) : ℕ := m.varCountTotal

/-- The clear bits the constructor counts, byte by byte. -/
def clearBits (bytes : ℕ → BitVec 8) (countBytes : ℕ) : ℕ :=
  (List.range countBytes).foldl (fun free index =>
    (List.range 8).foldl (fun free offset =>
      if (bytes index &&& bitMask offset) = 0#8 then free + 1 else free) free) 0

/-- `Bitmap::Bitmap`. The counting loop runs over `unsigned int index`
against a 64-bit bound, so it never ends once the bound is `2 ^ 32` or more. -/
def construct (count : ℕ) (buffer : ℕ → BitVec 8) : Outcome Bitmap :=
  if count % 8 = 0 then
    if count / 8 < 2 ^ 32 then
      .done { bytes := buffer, varCountTotal := count,
              varCountFree := clearBits buffer (count / 8) }
    else .loop
  else .exit

/-! ## One bit at a time -/

lemma and_mask_eq_zero (x : BitVec 8) {o : ℕ} (ho : o < 8) :
    (x &&& bitMask o = 0#8) ↔ x.getLsbD (7 - o) = false := by
  have key : ∀ (x : BitVec 8) (o : Fin 8), (x &&& bitMask o = 0#8) ↔ x.getLsbD (7 - o) = false := by
    decide +kernel
  exact key x ⟨o, ho⟩

lemma bitSet_eq_getLsbD (bytes : ℕ → BitVec 8) (pos : ℕ) :
    bitSet bytes pos = (bytes (pos / 8)).getLsbD (7 - pos % 8) := by
  have h := and_mask_eq_zero (bytes (pos / 8)) (Nat.mod_lt pos (by omega))
  unfold bitSet
  cases hb : (bytes (pos / 8)).getLsbD (7 - pos % 8) with
  | false => simpa using h.mpr hb
  | true =>
    rw [bne_iff_ne]
    intro hz
    rw [h.mp hz] at hb
    cases hb

@[simp] lemma bitSet_zero (pos : ℕ) : bitSet (fun _ => 0#8) pos = false := by
  simp [bitSet]

lemma mask_getLsbD {o p : ℕ} (ho : o < 8) (hp : p < 8) :
    (bitMask o).getLsbD (7 - p) = decide (p = o) := by
  have key : ∀ o p : Fin 8, (bitMask o).getLsbD (7 - p) = decide ((p : ℕ) = o) := by
    decide +kernel
  exact key ⟨o, ho⟩ ⟨p, hp⟩

lemma pos_eq_iff (p q : ℕ) : p = q ↔ p / 8 = q / 8 ∧ p % 8 = q % 8 := by
  omega

lemma bitSet_or (bytes : ℕ → BitVec 8) (p q : ℕ) :
    bitSet (update bytes (p / 8) (bytes (p / 8) ||| bitMask (p % 8))) q
      = (decide (q = p) || bitSet bytes q) := by
  rw [bitSet_eq_getLsbD, bitSet_eq_getLsbD]
  by_cases hby : q / 8 = p / 8
  · rw [hby, update_self, BitVec.getLsbD_or,
      mask_getLsbD (Nat.mod_lt p (by omega)) (Nat.mod_lt q (by omega)),
      Bool.or_comm]
    congr 1
    rw [decide_eq_decide, pos_eq_iff q p]
    simp [hby]
  · have hne : q ≠ p := fun h => hby (by rw [h])
    rw [update_of_ne hby]
    simp [hne]

lemma bitSet_and_not (bytes : ℕ → BitVec 8) (p q : ℕ) :
    bitSet (update bytes (p / 8) (bytes (p / 8) &&& ~~~(bitMask (p % 8)))) q
      = (!decide (q = p) && bitSet bytes q) := by
  rw [bitSet_eq_getLsbD, bitSet_eq_getLsbD]
  by_cases hby : q / 8 = p / 8
  · have hlt : 7 - q % 8 < 8 := by omega
    rw [hby, update_self, BitVec.getLsbD_and, BitVec.getLsbD_not,
      mask_getLsbD (Nat.mod_lt p (by omega)) (Nat.mod_lt q (by omega)),
      Bool.and_comm]
    have hoff : decide (q % 8 = p % 8) = decide (q = p) := by
      rw [decide_eq_decide, pos_eq_iff q p]
      simp [hby]
    simp [hlt, hoff]
  · have hne : q ≠ p := fun h => hby (by rw [h])
    rw [update_of_ne hby]
    simp [hne]

/-! ## What the operations do to the bits -/

variable {m : Bitmap} {pos : ℕ}

lemma get_of_lt (h : pos < m.varCountTotal) : m.get pos = some (bitSet m.bytes pos) := if_pos h

lemma get_of_ge (h : m.varCountTotal ≤ pos) : m.get pos = none := if_neg (Nat.not_lt.mpr h)

lemma set_fst (h : pos < m.varCountTotal) : (m.set pos).1 = true := by
  unfold set
  rw [if_pos h]
  split <;> rfl

@[simp] lemma set_total (m : Bitmap) (pos : ℕ) : (m.set pos).2.varCountTotal = m.varCountTotal := by
  unfold set
  split
  · split <;> rfl
  · rfl

lemma set_bits (h : pos < m.varCountTotal) (q : ℕ) :
    bitSet (m.set pos).2.bytes q = (decide (q = pos) || bitSet m.bytes q) := by
  unfold set
  rw [if_pos h]
  by_cases hbit : bitSet m.bytes pos = true
  · rw [if_pos hbit]
    by_cases hq : q = pos
    · subst hq
      simp [hbit]
    · simp [hq]
  · rw [if_neg hbit]
    exact bitSet_or m.bytes pos q

lemma clear_fst (h : pos < m.varCountTotal) : (m.clear pos).1 = true := by
  unfold clear
  rw [if_pos h]
  split <;> rfl

@[simp] lemma clear_total (m : Bitmap) (pos : ℕ) :
    (m.clear pos).2.varCountTotal = m.varCountTotal := by
  unfold clear
  split
  · split <;> rfl
  · rfl

lemma clear_bits (h : pos < m.varCountTotal) (q : ℕ) :
    bitSet (m.clear pos).2.bytes q = (!decide (q = pos) && bitSet m.bytes q) := by
  unfold clear
  rw [if_pos h]
  by_cases hbit : bitSet m.bytes pos = true
  · rw [if_pos hbit]
    exact bitSet_and_not m.bytes pos q
  · rw [if_neg hbit]
    by_cases hq : q = pos
    · subst hq
      simpa using hbit
    · simp [hq]

lemma construct_eq_done {count : ℕ} {buffer : ℕ → BitVec 8}
    (h : construct count buffer = .done m) :
    count % 8 = 0 ∧ count / 8 < 2 ^ 32 ∧ m.bytes = buffer ∧ m.varCountTotal = count := by
  unfold construct at h
  split at h
  · split at h
    · cases h
      exact ⟨‹_›, ‹_›, rfl, rfl⟩
    · cases h
  · cases h

end Bitmap

end Librdpma.Octopus
