import Librdpma.Lib.Outcome

/-!
# Where logs are placed (`rtx/log_mem_manager.hpp`)

A thread writes its logs to a ring at another machine. The writer and the receiver
have a counter each, of 64 bits, for the bytes so far. A ring is followed by room
for one more entry, so that an entry is never split.
-/

namespace Librdpma.Drtmh

open List Function Lib

def rtxLogEntrySize : ℕ := 2048

/-- The members that do not change. The counters are passed to the calls. -/
structure LogMemManager : Type where
  macNum : ℕ
  threadNum : ℕ
  threadBufSize : ℕ
  localBuffer : ℕ
  baseOffset : ℕ

/-- `remote_tailers_` or `local_headers_`, one counter for each machine. -/
abbrev Counters := ℕ → BitVec 64

namespace LogMemManager

/-- The constructor asserts that `size` is at least one entry. -/
def construct (localP ms ts size baseOff : ℕ) : LogMemManager :=
  ⟨ms, ts, size + rtxLogEntrySize, localP, baseOff⟩

variable (l : LogMemManager)

def totalMacLogSize : ℕ := l.threadNum * l.threadBufSize

def totalLogSize : ℕ := l.totalMacLogSize * l.macNum

def ringSize : ℕ := l.threadBufSize - rtxLogEntrySize

/-- Where the buffer of a thread of a machine starts. -/
def bufOffset (fromMac fromTid : ℕ) : ℕ :=
  fromTid * l.threadBufSize + fromMac * l.totalMacLogSize

def getRemoteLogOffset (fromMac fromTid : ℕ) (tailers : Counters) (toMid logSize : ℕ) :
    ℕ × Counters :=
  (l.bufOffset fromMac fromTid + (tailers toMid).toNat % l.ringSize + l.baseOffset,
    update tailers toMid (tailers toMid + BitVec.ofNat 64 logSize))

def getPreviousRemoteOffset (fromMac fromTid : ℕ) (tailers : Counters) (toMid logSize : ℕ) :
    Outcome ℕ :=
  if (tailers toMid).toNat < logSize then .exit
  else .done (l.bufOffset fromMac fromTid +
    (tailers toMid - BitVec.ofNat 64 logSize).toNat % l.ringSize + l.baseOffset)

def getNextLog (fromTid : ℕ) (headers : Counters) (fromMac size : ℕ) : ℕ × Counters :=
  (l.bufOffset fromMac fromTid + (headers fromMac).toNat % l.ringSize + l.localBuffer,
    update headers fromMac (headers fromMac + BitVec.ofNat 64 size))

/-- What the calls for `mac` return, in a run of calls for any machines. -/
def logs (call : Counters → ℕ → ℕ → ℕ × Counters) (mac : ℕ) :
    Counters → List (ℕ × ℕ) → List ℕ × Counters
  | c, [] => ([], c)
  | c, (m, size) :: calls =>
      let rest := logs call mac (call c m size).2 calls
      (if m = mac then (call c m size).1 :: rest.1 else rest.1, rest.2)

/-- The sizes of the logs for `mac`. -/
def sizes (mac : ℕ) (calls : List (ℕ × ℕ)) : List ℕ := (calls.filter (·.1 = mac)).map Prod.snd

/-- The places in a ring of `n` bytes, from a value of the counter on. -/
def places (n : ℕ) : BitVec 64 → List ℕ → List ℕ
  | _, [] => []
  | c, size :: sizes => c.toNat % n :: places n (c + BitVec.ofNat 64 size) sizes

variable {l} {mac n : ℕ} {ss : List ℕ} {c : BitVec 64} {call : Counters → ℕ → ℕ → ℕ × Counters}
  {address : ℕ → ℕ}

/-- The calls for `mac` see only their own counter. -/
lemma logs_eq (hcl : ∀ c m size, (call c m size).2 = update c m (c m + BitVec.ofNat 64 size) ∧
      (m = mac → (call c m size).1 = address ((c m).toNat % n)))
    (calls : List (ℕ × ℕ)) (c : Counters) :
    (logs call mac c calls).1 = (places n (c mac) (sizes mac calls)).map address ∧
      (logs call mac c calls).2 mac = c mac + BitVec.ofNat 64 (sizes mac calls).sum := by
  induction calls generalizing c with
  | nil => simp [logs, sizes, places]
  | cons d calls ih =>
    obtain ⟨m, size⟩ := d
    obtain ⟨hctr, had⟩ := hcl c m size
    have := ih (call c m size).2
    by_cases hm : m = mac
    · subst hm
      simpa [logs, sizes, places, hctr, had, BitVec.ofNat_add, BitVec.add_assoc] using this
    · simpa [logs, sizes, hm, hctr, update_of_ne (Ne.symm hm)] using this

lemma lt_of_mem_places {x : ℕ} (hn : 0 < n) (hx : x ∈ places n c ss) : x < n := by
  induction ss generalizing c with
  | nil => cases hx
  | cons s ss ih =>
    rcases mem_cons.mp hx with rfl | hx
    · exact Nat.mod_lt _ hn
    · exact ih hx

lemma places_concat (s : ℕ) : places n c (ss ++ [s]) =
    places n c ss ++ [(c + BitVec.ofNat 64 ss.sum).toNat % n] := by
  induction ss generalizing c with
  | nil => simp [places]
  | cons s' ss ih => simp [places, ih, BitVec.ofNat_add, BitVec.add_assoc]

lemma index_lt {ts A A' t : ℕ} (t' : ℕ) (hA : A < A') (ht : t < ts) :
    A * ts + t < A' * ts + t' := by
  have := Nat.mul_le_mul_right ts hA
  rw [Nat.succ_mul] at this
  omega

lemma bufOffset_add_le {A t A' t' : ℕ} (h : A * l.threadNum + t < A' * l.threadNum + t') :
    l.bufOffset A t + l.threadBufSize ≤ l.bufOffset A' t' := by
  have := Nat.mul_le_mul_right l.threadBufSize h
  rw [Nat.succ_mul, Nat.add_mul, Nat.add_mul] at this
  simp only [bufOffset, totalMacLogSize, ← Nat.mul_assoc]
  omega

/-- The calls of the writer, with new counters. -/
lemma logs_remote (l : LogMemManager) (A t B : ℕ) (out : List (ℕ × ℕ)) :
    (logs (l.getRemoteLogOffset A t) B (fun _ => 0) out).1 =
        (places l.ringSize 0 (sizes B out)).map (l.bufOffset A t + · + l.baseOffset) ∧
      (logs (l.getRemoteLogOffset A t) B (fun _ => 0) out).2 B =
        0 + BitVec.ofNat 64 (sizes B out).sum :=
  logs_eq (fun _ _ _ => ⟨rfl, fun _ => rfl⟩) out _

/-- **Log placement**, for thread `t` of machine `A` that logs to machine `B`: both
sides compute the same places, an entry is inside the buffer, and buffers are apart
and inside the area. The previous offset is found unless the counter has just
wrapped around. -/
theorem log_placement {ms ts size A B t : ℕ} (hsize : rtxLogEntrySize ≤ size) (hA : A < ms)
    (ht : t < ts) (p p' base base' : ℕ) (out inc : List (ℕ × ℕ)) (hsame : sizes A inc = sizes B out)
    (hmax : ∀ s ∈ sizes B out, s ≤ rtxLogEntrySize) :
    let l := construct p ms ts size base
    let sent := logs (l.getRemoteLogOffset A t) B (fun _ => 0) out
    let next := logs ((construct p' ms ts size base').getNextLog t) A (fun _ => 0) inc
    sent.1.map (· - base) = next.1.map (· - p') ∧
    (∀ x ∈ sent.1.zip (sizes B out), l.bufOffset A t ≤ x.1 - base ∧
      x.1 - base + x.2 ≤ l.bufOffset A t + l.threadBufSize) ∧
    l.bufOffset A t + l.threadBufSize ≤ l.totalLogSize ∧
    (∀ A' t', t' < ts → (A', t') ≠ (A, t) → l.bufOffset A t + l.threadBufSize ≤ l.bufOffset A' t' ∨
      l.bufOffset A' t' + l.threadBufSize ≤ l.bufOffset A t) ∧
    ∀ ss s, sizes B out = ss ++ [s] → ∃ last, sent.1.getLast? = some last ∧
      (l.getPreviousRemoteOffset A t sent.2 B s = .done last ↔ ss.sum % 2 ^ 64 + s < 2 ^ 64) := by
  intro l sent next
  have hrn : l.ringSize = size := Nat.add_sub_cancel ..
  obtain ⟨hsn, htl⟩ : sent.1 = (places l.ringSize 0 (sizes B out)).map
      (l.bufOffset A t + · + base) ∧ sent.2 B = 0 + BitVec.ofNat 64 (sizes B out).sum :=
    logs_remote l A t B out
  have hnx : next.1 = (places l.ringSize 0 (sizes A inc)).map (l.bufOffset A t + · + p') :=
    (logs_eq (fun _ _ _ => ⟨rfl, fun h => h ▸ rfl⟩) inc _).1
  refine ⟨?_, fun x hx => ?_, ?_, fun A' t' ht' hne => ?_, fun ss s hss => ?_⟩
  · rw [hsn, hnx, hsame]
    simp [Function.comp_def]
  · rw [hsn] at hx
    obtain ⟨hx1, hx2⟩ := of_mem_zip hx
    obtain ⟨q, hq, heq⟩ := mem_map.mp hx1
    -- behind the ring there is room for the last entry
    have hbuf : l.threadBufSize = l.ringSize + rtxLogEntrySize := by rw [hrn]; rfl
    have := lt_of_mem_places (hrn ▸ Nat.lt_of_lt_of_le (by decide) hsize) hq
    have := hmax _ hx2
    omega
  · -- the area ends where the buffers of machine `ms` would start
    have hle : _ ≤ l.bufOffset ms 0 := bufOffset_add_le (index_lt 0 hA ht)
    rwa [bufOffset.eq_def l ms, Nat.zero_mul, Nat.zero_add, Nat.mul_comm] at hle
  · rcases Nat.lt_trichotomy A A' with hlt | rfl | hlt
    · exact .inl (bufOffset_add_le (index_lt t' hlt ht))
    · rcases Nat.lt_or_gt_of_ne fun h : t = t' => hne (h ▸ rfl) with hlt | hlt
      · exact .inl (bufOffset_add_le (Nat.add_lt_add_left hlt _))
      · exact .inr (bufOffset_add_le (Nat.add_lt_add_left hlt _))
    · exact .inr (bufOffset_add_le (index_lt t hlt ht'))
  · have hs : s ≤ 2048 := hmax s (by simp [hss])
    rw [hss, places_concat] at hsn
    refine ⟨l.bufOffset A t + (0 + BitVec.ofNat 64 ss.sum).toNat % l.ringSize + base,
      by rw [hsn]; simp, ?_⟩
    -- without the last size the counter is the one of the last call
    have hsub : sent.2 B - BitVec.ofNat 64 s = 0 + BitVec.ofNat 64 ss.sum := by
      rw [htl, hss, sum_append, sum_singleton, BitVec.ofNat_add, ← BitVec.add_assoc]
      exact BitVec.add_sub_cancel _ _
    have hto : (sent.2 B).toNat = (ss.sum + s) % 2 ^ 64 := by simp [htl, hss]
    rw [getPreviousRemoteOffset, hsub, hto]
    split_ifs with hlt
    · exact iff_of_false nofun (by omega)
    · exact iff_of_true rfl (by omega)

/-- One machine with one thread, at offset 8 of the memory. -/
def single : LogMemManager := construct 64 1 1 4096 8

theorem log_placement_two :
    (logs (single.getRemoteLogOffset 0 0) 0 (fun _ => 0) [(0, 100), (0, 2048)]).1.map (· - 8) =
      (logs (single.getNextLog 0) 0 (fun _ => 0) [(0, 100), (0, 2048)]).1.map (· - 64) :=
  (log_placement (by decide) Nat.one_pos Nat.one_pos 64 64 8 8 _ _ rfl (by decide)).1

/-- After `2 ^ 53` logs of 2048 bytes the counter is 0. -/
theorem previous_offset_wrapped : single.getPreviousRemoteOffset 0 0 (logs
    (single.getRemoteLogOffset 0 0) 0 (fun _ => 0) (replicate (2 ^ 53) (0, 2048))).2 0 2048 =
      .exit := by
  have hsum : (sizes 0 (replicate (2 ^ 53) (0, 2048))).sum = 2 ^ 64 := by
    rw [sizes, filter_replicate_of_pos (by decide), map_replicate, sum_replicate]
    rfl
  rw [getPreviousRemoteOffset, (logs_remote single 0 0 0 _).2, hsum]
  rfl

end LogMemManager

end Librdpma.Drtmh
