import Librdpma.Lib.Bytes

/-!
# Keys and values of the key-value service (`levelkv/src/common/type.hpp`)

`GenericType<N>` is an array of `N` bytes, padded with NUL.
-/

namespace Librdpma.LevelKv

open Lib

abbrev FixedKey := Bytes 16

abbrev FixedValue := Bytes 15

/-- `GenericType::ToString`: the bytes up to the first NUL. -/
def toString {n : ℕ} (data : Bytes n) : List UInt8 := cstr data.toList

lemma toString_eq_toList_iff {n : ℕ} (w : Bytes n) : w.toList = toString w ↔ 0 ∉ w.toList := by
  unfold toString cstr
  rw [eq_comm, List.takeWhile_eq_self_iff]
  constructor
  · intro h hmem
    exact absurd (h 0 hmem) (by decide)
  · intro h x hx
    rw [decide_eq_true_eq]
    rintro rfl
    exact h hx

end Librdpma.LevelKv
