import Librdpma.LevelHash.Refinement
import Librdpma.LevelKv.Types

/-!
# The message front end (`levelhashing_dpu.cpp`, `levelhashing_host.cpp`)

`LevelHashingDpu` sends each operation to the host and waits; the host calls
the C level hash and answers. The operations of the wire format are `SEARCH`
and `INSERT`.

The host passes pointers into the received message on to the C functions, so
a key argument is the memory of `key_`, of `value_` behind it and of what
follows the message. Bytes that no code writes are a parameter.
-/

namespace Librdpma.FrontEnd

open Lib LevelHash
open LevelKv (FixedKey FixedValue toString toString_eq_toList_iff)

inductive OprationType : Type where
  | search
  | insert

structure ComchMsgOperation where
  opType : OprationType
  key : Bytes 16
  value : Bytes 15

structure ComchMsgOperationResult where
  success : Bool
  searchResult : Bytes 15

/-- Memory that is sent or read without having been written: the `value_` of a
search request, the bytes behind a message, and the `search_result_` of a
reply that carries none. -/
structure Unwritten where
  value : Bytes 15
  behind : List UInt8
  searchResult : Bytes 15

section Host

variable (H : Hashes) (fresh : ℕ → Buckets) (junk : Unwritten)

/-- `(uint8_t *)&msg->op_msg_.key_` -/
def keyPointer (msg : ComchMsgOperation) : List UInt8 :=
  msg.key.toList ++ msg.value.toList ++ junk.behind

/-- `(uint8_t *)&msg->op_msg_.value_` -/
def valuePointer (msg : ComchMsgOperation) : List UInt8 :=
  msg.value.toList ++ junk.behind

/-- The receive callback of the host for an operation. The reply to an `INSERT`
carries the return value of `level_insert` as its flag. -/
def hostRecv (fuel : ℕ) (level : Level) (msg : ComchMsgOperation) :
    Outcome (ComchMsgOperationResult × Level) :=
  match msg.opType with
  | .insert => do
      let (res, level) ← level.levelInsert H fresh fuel (keyPointer junk msg)
        (valuePointer junk msg)
      return (⟨res ≠ 0, junk.searchResult⟩, level)
  | .search =>
      match level.levelStaticQuery H (keyPointer junk msg) with
      | some res => .done (⟨true, memcpy 15 res.toList⟩, level)
      | none => .done (⟨false, junk.searchResult⟩, level)

end Host

/-! ## The DPU side -/

structure LevelHashingDpu where
  searchedValue : Bytes 15
  success : Bool

/-- The receive callback of the DPU. -/
def LevelHashingDpu.recv (dpu : LevelHashingDpu) (msg : ComchMsgOperationResult) :
    LevelHashingDpu :=
  if msg.success then ⟨memcpy 15 msg.searchResult.toList, true⟩
  else { dpu with success := false }

inductive Call : Type where
  | search (key : FixedKey)
  | insert (key : FixedKey) (value : FixedValue)

/-- The request of a call. -/
def Call.request (junk : Unwritten) : Call → ComchMsgOperation
  | .search key => ⟨.search, key, junk.value⟩
  | .insert key value => ⟨.insert, key, value⟩

structure System where
  level : Level
  dpu : LevelHashingDpu

/-- What is observed of a call: the flag of the reply, and for a search what
the callback is given. -/
structure Answer where
  success : Bool
  delivered : Option (List UInt8)

/-- `LevelHashingDpu::Search` and `Insert`: send, wait for the reply, deliver
all `VALUE_LEN` bytes of the value to the callback, and reset. -/
def System.call (H : Hashes) (fresh : ℕ → Buckets) (junk : Unwritten) (fuel : ℕ)
    (s : System) (c : Call) : Outcome (Answer × System) := do
  let (reply, level) ← hostRecv H fresh junk fuel s.level (c.request junk)
  let dpu := s.dpu.recv reply
  match c with
  | .search _ =>
      return (⟨reply.success,
          if dpu.success then some dpu.searchedValue.toList else none⟩,
        ⟨level, ⟨memcpy 15 [], false⟩⟩)
  | .insert _ _ =>
      return (⟨reply.success, none⟩, ⟨level, { dpu with success := false }⟩)

/-! ## What the front end should deliver -/

/-- The host's `level_*` call for `c` did what it was asked to. -/
def Performed (H : Hashes) (fresh : ℕ → Buckets) (junk : Unwritten) (s : System)
    (c : Call) : Prop :=
  match c with
  | .search _ =>
      (s.level.levelStaticQuery H (keyPointer junk (c.request junk))).isSome
  | .insert _ _ => ∃ fuel level, s.level.levelInsert H fresh fuel
      (keyPointer junk (c.request junk)) (valuePointer junk (c.request junk)) = .done (0, level)

/-- One call with the state it met and the answer it got. -/
structure Exchange where
  before : System
  call : Call
  answer : Answer

/-- The flag says whether the operation was performed, and a found value is
delivered as `Dpu::Search` delivers it. -/
def Exchange.Faithful (H : Hashes) (fresh : ℕ → Buckets) (junk : Unwritten)
    (x : Exchange) : Prop :=
  (x.answer.success = true ↔ Performed H fresh junk x.before x.call) ∧
    match x.call with
    | .search _ => ∀ w, x.before.level.levelStaticQuery H
        (keyPointer junk (x.call.request junk)) = some w → x.answer.delivered = some (toString w)
    | .insert _ _ => True

/-- A search that finds nothing or a value of 15 non-NUL bytes. -/
def Exchange.FullSearch (H : Hashes) (junk : Unwritten) (x : Exchange) : Prop :=
  match x.call with
  | .search _ => ∀ w, x.before.level.levelStaticQuery H
      (keyPointer junk (x.call.request junk)) = some w → 0 ∉ w.toList
  | .insert _ _ => False

/-- The calls made on a system, each answered before the next. -/
inductive Trace (H : Hashes) (fresh : ℕ → Buckets) (junk : Unwritten) :
    System → List Exchange → Prop where
  | nil (s : System) : Trace H fresh junk s []
  | cons {s s' : System} {c : Call} {fuel : ℕ} {answer : Answer} {rest : List Exchange} :
      s.call H fresh junk fuel c = .done (answer, s') →
      Trace H fresh junk s' rest →
      Trace H fresh junk s (⟨s, c, answer⟩ :: rest)

variable {H : Hashes} {fresh : ℕ → Buckets} {junk : Unwritten} {s s' : System}
  {fuel : ℕ} {answer : Answer}

lemma levelInsert_returns_zero {level level' : Level} {key value : List UInt8} {ret : UInt8}
    (h : level.levelInsert H fresh fuel key value = .done (ret, level')) :
    ret = 0 := by
  induction fuel generalizing level with
  | zero => exact absurd h (by simp [Level.levelInsert])
  | succ fuel ih =>
    rw [Level.levelInsert] at h
    split at h
    · cases h
      rfl
    · obtain ⟨expanded, -, hrs⟩ := Outcome.bind_eq_done.mp h
      exact ih hrs

/-- An answered insertion was performed, and its flag says it was not. -/
lemma insert_answer {key : FixedKey} {value : FixedValue}
    (h : s.call H fresh junk fuel (.insert key value) = .done (answer, s')) :
    answer.success = false ∧ Performed H fresh junk s (.insert key value) := by
  unfold System.call at h
  obtain ⟨⟨reply, level⟩, hrc, hdn⟩ := Outcome.bind_eq_done.mp h
  obtain ⟨⟨res, level1⟩, hins, hrep⟩ := Outcome.bind_eq_done.mp hrc
  have hz := levelInsert_returns_zero hins
  subst hz
  cases hrep
  cases hdn
  exact ⟨rfl, fuel, level, hins⟩

lemma search_answer {key : FixedKey}
    (h : s.call H fresh junk fuel (.search key) = .done (answer, s')) :
    (answer.success = true ↔ Performed H fresh junk s (.search key)) ∧
      ∀ w, s.level.levelStaticQuery H
        (keyPointer junk ((Call.search key).request junk)) = some w →
          answer.delivered = some w.toList := by
  unfold System.call hostRecv at h
  unfold Performed
  dsimp only [Call.request] at h ⊢
  cases hqry : s.level.levelStaticQuery H (keyPointer junk ⟨.search, key, junk.value⟩) with
  | none =>
    rw [hqry] at h
    cases h
    refine ⟨by simp, fun w hw => absurd hw (by simp)⟩
  | some v =>
    rw [hqry] at h
    cases h
    refine ⟨by simp, fun w hw => ?_⟩
    cases hw
    simp only [LevelHashingDpu.recv, memcpy_self, if_true]

lemma faithful_iff_fullSearch {c : Call} (h : s.call H fresh junk fuel c = .done (answer, s')) :
    Exchange.Faithful H fresh junk ⟨s, c, answer⟩ ↔ Exchange.FullSearch H junk ⟨s, c, answer⟩ := by
  cases c with
  | search key =>
    obtain ⟨hfl, hdlv⟩ := search_answer h
    constructor
    · rintro ⟨-, hstr⟩ w hw
      have heq := (hdlv w hw).symm.trans (hstr w hw)
      exact (toString_eq_toList_iff w).mp (Option.some.inj heq)
    · intro hfu
      refine ⟨hfl, fun w hw => ?_⟩
      have heq := (toString_eq_toList_iff w).mpr (hfu w hw)
      rw [← heq]
      exact hdlv w hw
  | insert key value =>
    obtain ⟨hfl, hperf⟩ := insert_answer h
    constructor
    · rintro ⟨hiff, -⟩
      have htr := hiff.mpr hperf
      rw [show (Exchange.mk s (.insert key value) answer).answer = answer from rfl, hfl] at htr
      cases htr
    · intro hfu
      exact hfu.elim

/-- **The front end is faithful exactly on searches for full values.** Along
every sequence of calls, all answers are as the table's own exactly when every
call is a search that finds nothing or a value of 15 non-NUL bytes. -/
theorem trace_faithful_iff (H : Hashes) (fresh : ℕ → Buckets) (junk : Unwritten)
    (s : System) (trace : List Exchange) (h : Trace H fresh junk s trace) :
    (∀ x ∈ trace, x.Faithful H fresh junk) ↔ ∀ x ∈ trace, x.FullSearch H junk := by
  induction h with
  | nil s => simp
  | cons hcl _ ih =>
    rw [List.forall_mem_cons, List.forall_mem_cons, ih, faithful_iff_fullSearch hcl]

/-! ## A search, and an insertion that is denied -/

/-- The host table of `LEVEL_START` 5 over zero-filled memory. -/
def startLevel : Level where
  buckets := fun _ => zeroed
  levelItemNum := fun _ => 0
  addrCapacity := 2 ^ 5
  totalCapacity := 2 ^ 5 + 2 ^ 4
  levelSize := 5
  levelExpandTime := 0
  allocated := 2

lemma startLevel_eq : Level.levelInit (fun _ => zeroed) 5 = .done startLevel := by
  have hsz : Allocatable (2 ^ 5) := by decide
  simp only [Level.levelInit, if_pos hsz, ite_self, startLevel]

def startSystem : System := ⟨startLevel, ⟨memcpy 15 [], false⟩⟩

def zeroJunk : Unwritten := ⟨memcpy 15 [], [], memcpy 15 []⟩

/-- A search that finds a value of 15 bytes. -/
theorem search_trace_faithful : ∃ s1 s2 : System,
      startSystem.call constHashes (fun _ => zeroed) zeroJunk 1
          (.insert (memcpy 16 [97]) (memcpy 15 (List.replicate 15 98)))
        = .done (⟨false, none⟩, s1) ∧
      s1.call constHashes (fun _ => zeroed) zeroJunk 1 (.search (memcpy 16 [97]))
        = .done (⟨true, some (List.replicate 15 98)⟩, s2) ∧
      ∀ x ∈ [(⟨s1, .search (memcpy 16 [97]), ⟨true, some (List.replicate 15 98)⟩⟩ : Exchange)],
        x.Faithful constHashes (fun _ => zeroed) zeroJunk := by
  obtain ⟨s1, hins⟩ : ∃ s1, startSystem.call constHashes (fun _ => zeroed) zeroJunk 1
      (.insert (memcpy 16 [97]) (memcpy 15 (List.replicate 15 98))) = .done (⟨false, none⟩, s1) :=
    ⟨_, rfl⟩
  have hptr : s1.level.levelStaticQuery constHashes (keyPointer zeroJunk
      ((Call.search (memcpy 16 [97])).request zeroJunk))
        = some (memcpy 15 (List.replicate 15 98)) := by
    cases hins
    decide +kernel
  obtain ⟨s2, hsr⟩ : ∃ s2, s1.call constHashes (fun _ => zeroed) zeroJunk 1
      (.search (memcpy 16 [97])) = .done (⟨true, some (List.replicate 15 98)⟩, s2) := by
    unfold System.call hostRecv
    dsimp only [Call.request] at hptr ⊢
    rw [hptr]
    exact ⟨_, rfl⟩
  refine ⟨s1, s2, hins, hsr,
    (trace_faithful_iff _ _ _ _ _ (Trace.cons hsr (Trace.nil s2))).mpr ?_⟩
  intro x hx
  rw [List.mem_singleton.mp hx]
  intro w hw
  cases hptr.symm.trans hw
  decide

/-- The host inserts `("a", "b")` into the empty table and answers that it did
not; a search then delivers `"b"` with 14 NUL bytes. -/
theorem insert_answer_denied : ∃ s1 s2 : System, ∃ delivered : List UInt8,
      Level.levelInit (fun _ => zeroed) 5 = .done startLevel ∧
      startSystem.call constHashes (fun _ => zeroed) zeroJunk 1
          (.insert (memcpy 16 [97]) (memcpy 15 [98]))
        = .done (⟨false, none⟩, s1) ∧
      s1.level.levelStaticQuery constHashes [97, 0] = some (memcpy 15 [98]) ∧
      s1.call constHashes (fun _ => zeroed) zeroJunk 1 (.search (memcpy 16 [97]))
        = .done (⟨true, some delivered⟩, s2) ∧
      delivered.length = 15 ∧ toString (memcpy 15 [98]) = [98] ∧
      ¬ Exchange.Faithful constHashes (fun _ => zeroed) zeroJunk
        ⟨startSystem, .insert (memcpy 16 [97]) (memcpy 15 [98]), ⟨false, none⟩⟩ ∧
      ¬ Exchange.Faithful constHashes (fun _ => zeroed) zeroJunk
        ⟨s1, .search (memcpy 16 [97]), ⟨true, some delivered⟩⟩ := by
  obtain ⟨s1, hins⟩ : ∃ s1, startSystem.call constHashes (fun _ => zeroed) zeroJunk 1
      (.insert (memcpy 16 [97]) (memcpy 15 [98])) = .done (⟨false, none⟩, s1) :=
    ⟨_, rfl⟩
  have hqry : s1.level.levelStaticQuery constHashes [97, 0] = some (memcpy 15 [98]) := by
    cases hins
    decide +kernel
  have hptr : s1.level.levelStaticQuery constHashes (keyPointer zeroJunk
      ((Call.search (memcpy 16 [97])).request zeroJunk)) = some (memcpy 15 [98]) := by
    cases hins
    decide +kernel
  obtain ⟨s2, hsr⟩ : ∃ s2, s1.call constHashes (fun _ => zeroed) zeroJunk 1
      (.search (memcpy 16 [97])) = .done (⟨true, some (memcpy 15 [98]).toList⟩, s2) := by
    unfold System.call hostRecv
    dsimp only [Call.request] at hptr ⊢
    rw [hptr]
    exact ⟨_, rfl⟩
  refine ⟨s1, s2, (memcpy 15 [98]).toList, startLevel_eq, hins, hqry, hsr, rfl, by decide, ?_, ?_⟩
  · rw [faithful_iff_fullSearch hins]
    exact id
  · rw [faithful_iff_fullSearch hsr]
    intro hfu
    exact hfu _ hptr (by decide)

end Librdpma.FrontEnd
