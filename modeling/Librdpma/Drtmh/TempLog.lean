import Librdpma.Lib.Outcome

/-!
# The log of a transaction (`TempLog` of `src/util/temp_log.h`)

The buffer is a function from offset to byte, and `current_` and `end_` are
offsets from `mem_start_`. `resize` counts the reserved bytes before the log,
the test of `log_size_round_up` does not.
-/

namespace Librdpma.Drtmh

open Lib Outcome

structure TempLog where
  memory : ℕ → BitVec 8
  allocedSize : ℕ
  current : ℕ
  /-- `end_`, and so `get_mem_size()` -/
  memSize : ℕ

namespace TempLog

/-- The calls after `open`, and the stores into entries between them. -/
inductive Call where
  | appendEntry (size : ℕ)
  | write (offset : ℕ) (byte : BitVec 8)
  | closeEntry
  | logSizeRoundUp

/-- The loop of `resize`. `alloced_size_` has 32 bits; once it is 0 it stays so,
and the loop does not end. -/
def grow (need : ℕ) : ℕ → ℕ → Outcome ℕ
  | 0, _ => .loop
  | fuel + 1, alloced =>
      if need ≤ alloced then .done alloced else grow need fuel (alloced * 2 % 2 ^ 32)

section

variable (reserved : ℕ) (fresh : ℕ → BitVec 8)

/-- `fresh` is what stands in memory that was just allocated. -/
def resize (t : TempLog) (size : ℕ) : Outcome TempLog :=
  if t.memSize + size ≤ t.allocedSize then .done t
  else do
    let allocedSize ← grow (t.memSize + size) 32 t.allocedSize
    return { t with
      memory := fun i => if i < t.memSize then t.memory i else fresh i
      allocedSize, current := t.memSize }

def opened : TempLog := ⟨fresh, 512, reserved + 8, reserved + 8⟩

def step (t : TempLog) : Call → Outcome TempLog
  | .appendEntry size =>
      if t.current ≠ t.memSize then .exit
      else do
        let t ← t.resize fresh size
        return { t with memSize := t.memSize + size }
  | .write offset byte => .done { t with memory := Function.update t.memory offset byte }
  | .closeEntry => .done { t with current := t.memSize }
  | .logSizeRoundUp =>
      if t.current ≠ t.memSize then .exit
      else
        let logSize := t.memSize - reserved
        if logSize % 8 = 0 then .done t
        else do
          let delta := 8 - logSize % 8
          let t ← if t.allocedSize < logSize + delta then t.resize fresh delta else .done t
          return { t with current := t.memSize + delta, memSize := t.memSize + delta }

end

/-- After any calls the log is inside its buffer, and `resize` keeps its bytes. -/
def StaysInside (reserved : ℕ) : Prop :=
  ∀ fresh (calls : List Call) t,
    calls.foldlM (step reserved fresh) (.opened reserved fresh) = .done t →
    t.memSize ≤ t.allocedSize ∧ ∀ size t', t.resize fresh size = .done t' →
      ∀ i < t.memSize, t'.memory i = t.memory i

variable {reserved size need fuel alloced alloced' : ℕ} {fresh : ℕ → BitVec 8}
  {t t' : TempLog} {c : Call}

lemma grow_eq_done (h : grow need fuel alloced = .done alloced') :
    need ≤ alloced' ∧ (8 ∣ alloced → 8 ∣ alloced') := by
  induction fuel generalizing alloced with
  | zero => cases h
  | succ fuel ih =>
    rw [grow] at h
    split_ifs at h with hle
    · cases h
      exact ⟨hle, id⟩
    · exact ⟨(ih h).1, fun ha => (ih h).2 (by omega)⟩

lemma resize_eq_done (h : t.resize fresh size = .done t') : t'.memSize = t.memSize ∧
    t.memSize + size ≤ t'.allocedSize ∧ (8 ∣ t.allocedSize → 8 ∣ t'.allocedSize) ∧
    ∀ i < t.memSize, t'.memory i = t.memory i := by
  rw [resize] at h
  split_ifs at h with hle
  · cases h
    exact ⟨rfl, hle, id, fun _ _ => rfl⟩
  · obtain ⟨a, hgr, h⟩ := bind_eq_done.mp h
    cases h
    exact ⟨rfl, (grow_eq_done hgr).1, (grow_eq_done hgr).2, fun i hi => if_pos hi⟩

/-- The log is inside the buffer, whose size is aligned. -/
structure Inside (reserved : ℕ) (t : TempLog) : Prop where
  le : t.memSize ≤ t.allocedSize
  aligned : 8 ∣ t.allocedSize
  reserved_le : reserved ≤ t.memSize

lemma Inside.step (hr : 8 ∣ reserved) (h : Inside reserved t)
    (hs : t.step reserved fresh c = .done t') : Inside reserved t' := by
  obtain ⟨hle, ha, hres⟩ := h
  cases c with
  | appendEntry size =>
    rw [TempLog.step] at hs
    split_ifs at hs
    obtain ⟨t1, h1, hs⟩ := bind_eq_done.mp hs
    cases hs
    obtain ⟨hm, hle1, ha1, -⟩ := resize_eq_done h1
    exact ⟨by dsimp only; omega, ha1 ha, by dsimp only; omega⟩
  | write offset byte =>
    cases hs
    exact ⟨hle, ha, hres⟩
  | closeEntry =>
    cases hs
    exact ⟨hle, ha, hres⟩
  | logSizeRoundUp =>
    rw [TempLog.step] at hs
    dsimp only at hs
    split_ifs at hs with _ hmod
    · cases hs
      exact ⟨hle, ha, hres⟩
    all_goals
      obtain ⟨t1, h1, hs⟩ := bind_eq_done.mp hs
      cases hs
    · obtain ⟨hm, hle1, ha1, -⟩ := resize_eq_done h1
      exact ⟨by dsimp only; omega, ha1 ha, by dsimp only; omega⟩
    · -- the size of the buffer is a multiple of 8, and so the rounded size is not above it
      cases h1
      exact ⟨by dsimp only; omega, ha, by dsimp only; omega⟩

lemma Inside.run (hr : 8 ∣ reserved) (h : Inside reserved t) {calls : List Call}
    (hs : calls.foldlM (TempLog.step reserved fresh) t = .done t') : Inside reserved t' := by
  induction calls generalizing t with
  | nil =>
    cases hs
    exact h
  | cons c calls ih =>
    obtain ⟨t1, h1, hs⟩ := bind_eq_done.mp (List.foldlM_cons.symm.trans hs)
    exact ih (h.step hr h1) hs

/-- **The log stays inside its buffer exactly if the reserved size is a multiple
of 8.** Else a log that fills the buffer is rounded up past its end. -/
theorem staysInside_iff (hres : reserved ≤ 504) : StaysInside reserved ↔ 8 ∣ reserved := by
  constructor
  · intro h
    by_contra hr
    have hapn : step reserved (fun _ => 0) (.opened reserved fun _ => 0)
        (.appendEntry (504 - reserved)) = .done ⟨fun _ => 0, 512, reserved + 8, 512⟩ := by
      have hfl : reserved + 8 + (504 - reserved) = 512 := by omega
      simp [step, resize, opened, hfl]
    have hrnd : step reserved (fun _ => 0) ⟨fun _ => 0, 512, 512, 512⟩ .logSizeRoundUp =
        .done ⟨fun _ => 0, 512, 512 + reserved % 8, 512 + reserved % 8⟩ := by
      have hmod : (512 - reserved) % 8 ≠ 0 := by omega
      have hdlt : 8 - (512 - reserved) % 8 = reserved % 8 := by omega
      have hle : ¬ 512 < 512 - reserved + reserved % 8 := by omega
      simp [step, hmod, hdlt, hle]
    have hrun : [.appendEntry (504 - reserved), .closeEntry, .logSizeRoundUp].foldlM
        (step reserved fun _ => 0) (.opened reserved fun _ => 0) =
          .done ⟨fun _ => 0, 512, 512 + reserved % 8, 512 + reserved % 8⟩ := by
      rw [List.foldlM_cons, hapn, done_bind, List.foldlM_cons, step, done_bind,
        List.foldlM_cons, hrnd]
      rfl
    have := (h _ _ _ hrun).1
    dsimp only at this
    omega
  · intro hr fresh calls t hrun
    have hopen : Inside reserved (.opened reserved fresh) :=
      ⟨show reserved + 8 ≤ 512 by omega, show 8 ∣ 512 by decide, Nat.le_add_right _ _⟩
    exact ⟨(hopen.run hr hrun).le, fun size t' h => (resize_eq_done h).2.2.2⟩

/-- Eight reserved bytes. -/
theorem staysInside_eight : StaysInside 8 := (staysInside_iff (by decide)).mpr (by decide)

/-- Four reserved bytes, and an entry of 500 bytes. -/
theorem not_staysInside_four : ∃ t, [.appendEntry 500, .closeEntry, .logSizeRoundUp].foldlM
    (step 4 fun _ => 0) (.opened 4 fun _ => 0) = .done t ∧ t.allocedSize = 512 ∧ t.memSize = 516 :=
  ⟨⟨fun _ => 0, 512, 516, 516⟩, by simp [step, resize, opened], rfl, rfl⟩

end TempLog
end Librdpma.Drtmh
