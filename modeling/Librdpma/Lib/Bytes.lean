import Mathlib

/-!
# Byte arrays and C strings

Arrays of a fixed number of bytes, the `memcpy` that fills one from a pointer,
and the string that starts at a pointer. A pointer is the memory from it on.
-/

namespace Librdpma.Lib

open List

abbrev Bytes (n : ℕ) := List.Vector UInt8 n

/-- The C string at the start of a piece of memory. -/
def cstr (mem : List UInt8) : List UInt8 := mem.takeWhile (· ≠ 0)

/-- `memcpy` of `n` bytes out of `mem`. What stands behind the end of `mem`
is not known to the caller; it is read as 0. -/
def memcpy (n : ℕ) (mem : List UInt8) : Bytes n :=
  ⟨(mem ++ replicate n 0).take n, by simp⟩

lemma cstr_cons_zero (l : List UInt8) : cstr (0 :: l) = [] := by
  simp [cstr]

lemma cstr_cons_ne {x : UInt8} (hx : x ≠ 0) (l : List UInt8) : cstr (x :: l) = x :: cstr l := by
  simp [cstr, hx]

lemma cstr_append_of_mem {l : List UInt8} (h : 0 ∈ l) (r : List UInt8) :
    cstr (l ++ r) = cstr l := by
  induction l with
  | nil => cases h
  | cons x l ih =>
    rw [cons_append]
    by_cases hx : x = 0
    · rw [hx, cstr_cons_zero, cstr_cons_zero]
    · rw [cstr_cons_ne hx, cstr_cons_ne hx, ih (mem_of_ne_of_mem (Ne.symm hx) h)]

lemma cstr_terminated {mem : List UInt8} (h : 0 ∈ mem) : ∃ rest, mem = cstr mem ++ 0 :: rest := by
  induction mem with
  | nil => cases h
  | cons x mem ih =>
    by_cases hx : x = 0
    · rw [hx, cstr_cons_zero]
      exact ⟨mem, rfl⟩
    · obtain ⟨rest, hrs⟩ := ih (mem_of_ne_of_mem (Ne.symm hx) h)
      refine ⟨rest, ?_⟩
      rw [cstr_cons_ne hx, cons_append, ← hrs]

lemma memcpy_append {n : ℕ} (w : Bytes n) (r : List UInt8) : memcpy n (w.toList ++ r) = w := by
  apply List.Vector.eq
  show (w.toList ++ r ++ replicate n 0).take n = w.toList
  rw [append_assoc]
  exact take_left' w.toList_length

lemma memcpy_self {n : ℕ} (w : Bytes n) : memcpy n w.toList = w := by
  have h := memcpy_append w []
  rwa [append_nil] at h

lemma length_cstr_lt {mem : List UInt8} (h : 0 ∈ mem) : (cstr mem).length < mem.length := by
  obtain ⟨rest, hrs⟩ := cstr_terminated h
  conv_rhs => rw [hrs]
  rw [length_append, length_cons]
  omega

end Librdpma.Lib
