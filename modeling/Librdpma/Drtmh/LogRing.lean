import Mathlib

/-!
# The log ring (`DBLogger::log_setup`, `BackupBenchWorker::run`)

A writer appends logs to a ring at its backup; the backup cleans them in order and
reports how far it is once an eighth of the ring is cleaned. The writer keeps a
lower bound of the free space and waits for a report only if the bound is too low.
While it waits, a report that equals its own offset counts as a full ring. This
does no harm: reports are so far apart that none is equal to the offset when the
bound is low.

A log is given by its `get_log_size`, without the word in front of it and the one
behind it.
-/

namespace Librdpma.Drtmh.LogRing

open List

/-! ## Constants -/

def maxServers : ℕ := 32

def threadAreaSize : ℕ := 16 * 1024 * 1024

def threadMetaSize : ℕ := 8 * maxServers

def threadPaddingSize : ℕ := 32 * 1024

def threadBufSize : ℕ := threadAreaSize - threadMetaSize - threadPaddingSize

def logHole : ℕ := 1024

/-- `LOG_THRSHOLD` -/
def logThrshold : ℕ := threadBufSize / 8

/-! ## The writer and the backup -/

/-- The ring of one writer at one backup. -/
structure State where
  /-- `remain_sizes_` -/
  remainSize : ℕ
  /-- `remote_offsets_` -/
  remoteOffset : ℕ
  /-- The log with which `log_setup` is in its waiting loop. -/
  waiting : Option ℕ
  /-- The word of the writer's meta area that the backup writes. -/
  remoteHeader : ℕ
  /-- The logs in the ring. -/
  logs : List ℕ
  tailOffset : ℕ
  headOffset : ℕ
  /-- Reports of the backup that have not arrived. -/
  posted : List ℕ

def init : State where
  remainSize := threadBufSize
  remoteOffset := 0
  waiting := none
  remoteHeader := 0
  logs := []
  tailOffset := 0
  headOffset := 0
  posted := []

/-- `get_total_size` -/
def totalSize (logSize : ℕ) : ℕ := logSize + 8

/-- `whole_temp_log_size` -/
def wholeSize (logSize : ℕ) : ℕ := totalSize logSize + 8

/-- The end of `log_setup`, and the log is in the ring. -/
def State.place (s : State) (logSize : ℕ) : State :=
  { s with
    remainSize := s.remainSize - wholeSize logSize
    remoteOffset := (s.remoteOffset + wholeSize logSize) % threadBufSize
    waiting := none
    logs := s.logs ++ [logSize] }

/-- `log_setup` up to its waiting loop, or to its end. -/
def State.logSetup (s : State) (logSize : ℕ) : State :=
  if s.remainSize < wholeSize logSize + logHole then { s with waiting := some logSize }
  else s.place logSize

/-- `remain_log_size` -/
def remainLogSize (remoteOffset remoteHeader : ℕ) : ℕ :=
  if remoteOffset > remoteHeader then threadBufSize - remoteOffset + remoteHeader
  else remoteHeader - remoteOffset

/-- One round of the waiting loop. -/
def State.poll (s : State) (logSize : ℕ) : State :=
  let remain := remainLogSize s.remoteOffset s.remoteHeader
  if remain < wholeSize logSize + logHole then s
  else { s with remainSize := remain }.place logSize

/-- `processed_log_size` -/
def processedLogSize (headOffset tailOffset : ℕ) : ℕ :=
  if tailOffset ≥ headOffset then tailOffset - headOffset
  else threadBufSize - headOffset + tailOffset

/-- One visit of `BackupBenchWorker::run` to the ring. -/
def State.clean (s : State) : State :=
  match s.logs with
  | [] => s
  | msgSize :: logs =>
      let tailOffset := (s.tailOffset + msgSize + 8 + 8) % threadBufSize
      let s := { s with logs := logs, tailOffset := tailOffset }
      if processedLogSize s.headOffset tailOffset ≥ logThrshold then
        { s with posted := s.posted ++ [tailOffset], headOffset := tailOffset }
      else s

/-- The writer and the backup take turns in any order, and reports take any time.
`log_setup` asserts that the log fits into the padding. -/
inductive Step : State → State → Prop where
  | logSetup {s : State} {logSize : ℕ} (hidle : s.waiting = none)
      (hsize : totalSize logSize ≤ threadPaddingSize) : Step s (s.logSetup logSize)
  | poll {s : State} {logSize : ℕ} (hwait : s.waiting = some logSize) : Step s (s.poll logSize)
  | clean {s : State} : Step s s.clean
  | report {s : State} {header : ℕ} {posted : List ℕ} (hposted : s.posted = header :: posted) :
      Step s { s with remoteHeader := header, posted := posted }

inductive Reached : State → Prop where
  | init : Reached init
  | step {s s' : State} (h : Reached s) (hstep : Step s s') : Reached s'

/-! ## Offsets and positions

A position counts all bytes from the start; an offset is a position modulo the size
of the ring. -/

/-- Every log takes at most this much of the ring. -/
def maxWhole : ℕ := threadPaddingSize + 8

lemma wholeSize_le {logSize : ℕ} (h : totalSize logSize ≤ threadPaddingSize) :
    wholeSize logSize ≤ maxWhole :=
  Nat.add_le_add_right h 8

variable {a b c : ℕ}

/-- The loop computes the free space, except that it takes an empty ring for a full one. -/
lemma remainLogSize_eq (hab : a ≤ b) (hba : b < a + threadBufSize) :
    remainLogSize (b % threadBufSize) (a % threadBufSize)
      = if a = b then 0 else threadBufSize - (b - a) := by
  have hsize : threadBufSize = 16744192 := rfl
  unfold remainLogSize
  rw [hsize] at hba ⊢
  split <;> split <;> omega

lemma processedLogSize_eq (hab : a ≤ b) (hba : b < a + threadBufSize) :
    processedLogSize (a % threadBufSize) (b % threadBufSize) = b - a := by
  have hsize : threadBufSize = 16744192 := rfl
  unfold processedLogSize
  rw [hsize] at hba ⊢
  split <;> omega

lemma eq_of_offset_eq (hab : a ≤ b) (hba : b < a + threadBufSize)
    (h : a % threadBufSize = b % threadBufSize) : a = b := by
  have hsize : threadBufSize = 16744192 := rfl
  rw [hsize] at hba h
  omega

/-- From report to report the backup cleans an eighth of the ring and less than one
log more. -/
def Spaced (a b : ℕ) : Prop :=
  ∃ n, a + n * logThrshold ≤ b ∧ b ≤ a + n * (logThrshold + maxWhole)

lemma Spaced.refl (a : ℕ) : Spaced a a := ⟨0, by omega, by omega⟩

lemma Spaced.le (h : Spaced a b) : a ≤ b := by
  obtain ⟨n, hle, -⟩ := h
  omega

lemma Spaced.one (hle : a + logThrshold ≤ b) (hlt : b ≤ a + (logThrshold + maxWhole)) :
    Spaced a b :=
  ⟨1, by omega, by omega⟩

lemma Spaced.trans (hab : Spaced a b) (hbc : Spaced b c) : Spaced a c := by
  obtain ⟨m, hm, hm'⟩ := hab
  obtain ⟨n, hn, hn'⟩ := hbc
  refine ⟨m + n, ?_, ?_⟩
  · rw [Nat.add_mul]
    omega
  · rw [Nat.add_mul]
    omega

/-- Within one round a report leaves more room than any log needs: seven reports do
not reach the end of the ring, and the eighth is behind it. -/
lemma Spaced.room (h : Spaced a b) (hlt : b < a + threadBufSize) :
    b + (maxWhole + logHole) ≤ a + threadBufSize := by
  obtain ⟨n, hle, hge⟩ := h
  have hsize : threadBufSize = 16744192 := rfl
  have hth : logThrshold = 2093024 := rfl
  have hmax : maxWhole = 32776 := rfl
  have hhole : logHole = 1024 := rfl
  rw [hsize] at hlt ⊢
  rw [hth] at hle hge
  rw [hmax] at hge ⊢
  rw [hhole]
  omega

/-! ## The invariant -/

/-- The reports on the way from position `a` to position `b`. -/
def OnTheWay : ℕ → List ℕ → ℕ → Prop
  | a, [], b => a = b
  | a, r :: rs, b => ∃ c, r = c % threadBufSize ∧ a < c ∧ Spaced a c ∧ OnTheWay c rs b

lemma OnTheWay.spaced {rs : List ℕ} (h : OnTheWay a rs b) : Spaced a b := by
  induction rs generalizing a with
  | nil =>
    cases h
    exact .refl _
  | cons r rs ih =>
    obtain ⟨c, -, -, hspc, hrs⟩ := h
    exact hspc.trans (ih hrs)

lemma OnTheWay.snoc {rs : List ℕ} (h : OnTheWay a rs b) (hlt : b < c)
    (hspc : Spaced b c) : OnTheWay a (rs ++ [c % threadBufSize]) c := by
  induction rs generalizing a with
  | nil =>
    cases h
    exact ⟨c, rfl, hlt, hspc, rfl⟩
  | cons r rs ih =>
    obtain ⟨d, hd, had, hfst, hrs⟩ := h
    exact ⟨d, hd, had, hfst, ih hrs⟩

/-- The positions behind the offsets: the end of the last log, what is cleaned, what is
reported, the report that has arrived last and the one that the lower bound is from. -/
structure Positions where
  sent : ℕ
  cleaned : ℕ
  reported : ℕ
  arrived : ℕ
  known : ℕ

structure Inv (s : State) (p : Positions) : Prop where
  remoteOffset : s.remoteOffset = p.sent % threadBufSize
  tailOffset : s.tailOffset = p.cleaned % threadBufSize
  headOffset : s.headOffset = p.reported % threadBufSize
  remoteHeader : s.remoteHeader = p.arrived % threadBufSize
  logs : p.cleaned + (s.logs.map wholeSize).sum = p.sent
  sizes : ∀ n ∈ s.logs, wholeSize n ≤ maxWhole
  le_cleaned : p.reported ≤ p.cleaned
  cleaned_lt : p.cleaned < p.reported + logThrshold
  posted : OnTheWay p.arrived s.posted p.reported
  known : Spaced p.known p.arrived
  remainSize : p.sent + s.remainSize = p.known + threadBufSize
  hole : logHole ≤ s.remainSize
  waiting : ∀ n, s.waiting = some n → wholeSize n ≤ maxWhole ∧ s.remainSize < wholeSize n + logHole

variable {s s' : State} {p : Positions} {logSize : ℕ}

lemma inv_init : Inv init ⟨0, 0, 0, 0, 0⟩ where
  remoteOffset := rfl
  tailOffset := rfl
  headOffset := rfl
  remoteHeader := rfl
  logs := rfl
  sizes := nofun
  le_cleaned := Nat.le_refl 0
  cleaned_lt := by decide
  posted := rfl
  known := .refl 0
  remainSize := rfl
  hole := by decide
  waiting := nofun

section

variable (h : Inv s p)

include h

lemma Inv.cleaned_le : p.cleaned ≤ p.sent := by
  have := h.logs
  omega

lemma Inv.arrived_le : p.arrived ≤ p.sent :=
  Nat.le_trans (Nat.le_trans h.posted.spaced.le h.le_cleaned) h.cleaned_le

/-- Less than one round has been sent since the report that the writer knows. -/
lemma Inv.sent_lt : p.sent < p.known + threadBufSize := by
  have hpos : 0 < logHole := by decide
  have hhole := h.hole
  have hrem := h.remainSize
  omega

lemma Inv.place (hsize : wholeSize logSize ≤ maxWhole)
    (hrm : wholeSize logSize + logHole ≤ s.remainSize) :
    Inv (s.place logSize) { p with sent := p.sent + wholeSize logSize } where
  remoteOffset := by
    show (s.remoteOffset + _) % _ = _
    rw [h.remoteOffset, Nat.mod_add_mod]
  tailOffset := h.tailOffset
  headOffset := h.headOffset
  remoteHeader := h.remoteHeader
  logs := by
    have hlg := h.logs
    show p.cleaned + ((s.logs ++ [logSize]).map wholeSize).sum = _
    rw [map_append, sum_append, ← add_assoc, hlg]
    simp
  sizes n hn := by
    rcases mem_append.mp hn with hn | hn
    · exact h.sizes n hn
    · cases mem_singleton.mp hn
      exact hsize
  le_cleaned := h.le_cleaned
  cleaned_lt := h.cleaned_lt
  posted := h.posted
  known := h.known
  remainSize := by
    have hrem := h.remainSize
    show p.sent + wholeSize logSize + (s.remainSize - wholeSize logSize) = p.known + threadBufSize
    omega
  hole := by
    show logHole ≤ s.remainSize - wholeSize logSize
    omega
  waiting := nofun

lemma Inv.logSetup (hsize : wholeSize logSize ≤ maxWhole) : ∃ p', Inv (s.logSetup logSize) p' := by
  unfold State.logSetup
  split
  case isTrue hlow =>
    refine ⟨p, { h with waiting := fun n hn => ?_ }⟩
    cases hn
    exact ⟨hsize, hlow⟩
  case isFalse hrm => exact ⟨_, h.place hsize (Nat.le_of_not_lt hrm)⟩

/-- If the loop ends, the bound is the free space behind the report it has read. -/
lemma Inv.poll (hwait : s.waiting = some logSize) : ∃ p', Inv (s.poll logSize) p' := by
  have hle := h.arrived_le
  have hlt : p.sent < p.arrived + threadBufSize :=
    Nat.lt_of_lt_of_le h.sent_lt (Nat.add_le_add_right h.known.le _)
  have hfr : remainLogSize s.remoteOffset s.remoteHeader
      = if p.arrived = p.sent then 0 else threadBufSize - (p.sent - p.arrived) := by
    rw [h.remoteOffset, h.remoteHeader, remainLogSize_eq hle hlt]
  unfold State.poll
  dsimp only
  by_cases heq : p.arrived = p.sent
  · have hlow : 0 < wholeSize logSize + logHole := Nat.zero_lt_succ _
    rw [hfr, if_pos heq, if_pos hlow]
    exact ⟨p, h⟩
  rw [hfr, if_neg heq]
  split
  case isTrue => exact ⟨p, h⟩
  case isFalse hrm =>
    have hrfr : Inv { s with remainSize := threadBufSize - (p.sent - p.arrived),
                                 waiting := none } { p with known := p.arrived } :=
      { h with
        known := .refl _
        remainSize := by
          show p.sent + (threadBufSize - (p.sent - p.arrived)) = p.arrived + threadBufSize
          omega
        hole := by
          show logHole ≤ threadBufSize - (p.sent - p.arrived)
          omega
        waiting := nofun }
    exact ⟨_, hrfr.place (h.waiting _ hwait).1 (Nat.le_of_not_lt hrm)⟩

lemma Inv.clean : ∃ p', Inv s.clean p' := by
  unfold State.clean
  cases hlg : s.logs with
  | nil => exact ⟨p, h⟩
  | cons n logs =>
    have hn := h.sizes n (hlg ▸ mem_cons_self)
    have hsum := h.logs
    rw [hlg, map_cons, sum_cons] at hsum
    have htl : (s.tailOffset + n + 8 + 8) % threadBufSize
        = (p.cleaned + wholeSize n) % threadBufSize := by
      rw [h.tailOffset, add_assoc, add_assoc, Nat.mod_add_mod]
      rfl
    have hszs : ∀ m ∈ logs, wholeSize m ≤ maxWhole :=
      fun m hm => h.sizes m (hlg ▸ mem_cons_of_mem _ hm)
    have hle := h.le_cleaned
    have hlt := h.cleaned_lt
    have hbd : logThrshold + maxWhole < threadBufSize := by decide
    have hprc : processedLogSize s.headOffset
        ((p.cleaned + wholeSize n) % threadBufSize) = p.cleaned + wholeSize n - p.reported := by
      rw [h.headOffset]
      exact processedLogSize_eq (by omega) (by omega)
    dsimp only
    rw [htl, hprc]
    split
    case isTrue hfar =>
      have hspc : Spaced p.reported (p.cleaned + wholeSize n) := .one (by omega) (by omega)
      exact ⟨{ p with cleaned := p.cleaned + wholeSize n, reported := p.cleaned + wholeSize n },
        { h with
          tailOffset := rfl
          headOffset := rfl
          logs := by rw [← hsum, add_assoc]
          sizes := hszs
          le_cleaned := Nat.le_refl _
          cleaned_lt := Nat.lt_add_of_pos_right (by decide)
          posted := h.posted.snoc (by omega) hspc }⟩
    case isFalse hnear =>
      exact ⟨{ p with cleaned := p.cleaned + wholeSize n },
        { h with
          tailOffset := rfl
          logs := by rw [← hsum, add_assoc]
          sizes := hszs
          le_cleaned := by
            show p.reported ≤ p.cleaned + wholeSize n
            omega
          cleaned_lt := by
            show p.cleaned + wholeSize n < p.reported + logThrshold
            omega }⟩

lemma Inv.step (hstep : Step s s') : ∃ p', Inv s' p' := by
  cases hstep with
  | logSetup _ hsize => exact h.logSetup (wholeSize_le hsize)
  | poll hwait => exact h.poll hwait
  | clean => exact h.clean
  | report hposted =>
    have hway := h.posted
    rw [hposted] at hway
    obtain ⟨d, hd, -, hspc, hrs⟩ := hway
    exact ⟨{ p with arrived := d },
      { h with remoteHeader := hd, posted := hrs, known := h.known.trans hspc }⟩

end

lemma Reached.inv (h : Reached s) : ∃ p, Inv s p := by
  induction h with
  | init => exact ⟨_, inv_init⟩
  | step _ hstep ih =>
    obtain ⟨p, hp⟩ := ih
    exact hp.step hstep

/-! ## An empty ring -/

/-- The arrived report equals the offset only if all logs are cleaned and reported. -/
lemma Inv.drained (h : Inv s p) (hnil : s.remoteHeader = s.remoteOffset) :
    p.arrived = p.sent ∧ s.logs = [] ∧ s.posted = [] := by
  have hle := h.arrived_le
  have hlt : p.sent < p.arrived + threadBufSize :=
    Nat.lt_of_lt_of_le h.sent_lt (Nat.add_le_add_right h.known.le _)
  rw [h.remoteHeader, h.remoteOffset] at hnil
  have heq := eq_of_offset_eq hle hlt hnil
  have hrpr := h.posted.spaced.le
  have hcln := h.le_cleaned
  have hlg := h.logs
  refine ⟨heq, ?_, ?_⟩
  · cases hcase : s.logs with
    | nil => rfl
    | cons n logs =>
      have hpos : 0 < wholeSize n := Nat.zero_lt_succ _
      rw [hcase, map_cons, sum_cons] at hlg
      omega
  · cases hcase : s.posted with
    | nil => rfl
    | cons r rs =>
      have hway := h.posted
      rw [hcase] at hway
      obtain ⟨c, -, hlt, -, hrs⟩ := hway
      have := hrs.spaced.le
      omega

/-- **An empty ring does not block the writer.** Whenever the report of the backup
equals the offset of the writer, all logs are cleaned, the writer is not waiting and
`log_setup` places the next log, of any size that the padding allows, without waiting. -/
theorem empty_ring_not_blocked (s : State) (h : Reached s)
    (hempty : s.remoteHeader = s.remoteOffset) :
    s.logs = [] ∧ s.posted = [] ∧ s.waiting = none ∧
      ∀ logSize, totalSize logSize ≤ threadPaddingSize → s.logSetup logSize = s.place logSize := by
  obtain ⟨p, hp⟩ := h.inv
  obtain ⟨heq, hlg, hposted⟩ := hp.drained hempty
  have hspc := hp.known
  rw [heq] at hspc
  have hrm := hspc.room hp.sent_lt
  have hrem := hp.remainSize
  refine ⟨hlg, hposted, ?_, fun logSize hsize => ?_⟩
  · cases hwait : s.waiting with
    | none => rfl
    | some n =>
      obtain ⟨hsize, hlow⟩ := hp.waiting n hwait
      omega
  · have hwhl := wholeSize_le hsize
    refine if_neg ?_
    omega

/-- After `k` logs of the largest size, each cleaned at once. -/
def afterLogs : ℕ → State
  | 0 => init
  | k + 1 => ((afterLogs k).logSetup 32760).clean

lemma afterLogs_eq {k : ℕ} (hk : k ≤ 63) :
    afterLogs k = { init with
      remainSize := threadBufSize - 32776 * k
      remoteOffset := 32776 * k
      tailOffset := 32776 * k } := by
  induction k with
  | zero => rfl
  | succ k ih =>
    have hsize : threadBufSize = 16744192 := rfl
    have hbound : logThrshold = 2093024 := rfl
    have hmod : (32776 * k + 32776) % threadBufSize = 32776 * (k + 1) := by
      rw [hsize]
      omega
    rw [afterLogs, ih (by omega), State.logSetup,
      if_neg (by simp only [wholeSize, totalSize, logHole]; omega)]
    simp only [State.place, State.clean, init, wholeSize, totalSize, nil_append,
      processedLogSize, hmod, add_assoc, Nat.reduceAdd]
    rw [if_neg (by rw [if_pos (Nat.zero_le _)]; omega), Nat.sub_sub, ← Nat.mul_succ]

/-- After 64 of these logs, all cleaned and reported. -/
def drained : State :=
  { init with
    remainSize := threadBufSize - 2097664
    remoteOffset := 2097664
    remoteHeader := 2097664
    tailOffset := 2097664
    headOffset := 2097664 }

lemma reached_drained : Reached drained := by
  have hrun : ∀ k ≤ 64, Reached (afterLogs k) := by
    intro k hk
    induction k with
    | zero => exact .init
    | succ k ih =>
      have hidle : (afterLogs k).waiting = none := by
        rw [afterLogs_eq (by omega)]
        rfl
      exact ((ih (by omega)).step (.logSetup hidle (by decide))).step .clean
  have hlast := hrun 64 le_rfl
  rw [afterLogs, afterLogs_eq le_rfl] at hlast
  exact hlast.step (.report rfl)

theorem empty_ring_not_blocked_drained : Reached drained ∧
    drained.remoteHeader = drained.remoteOffset ∧ drained.logSetup 32 = drained.place 32 :=
  ⟨reached_drained, rfl,
    (empty_ring_not_blocked drained reached_drained rfl).2.2.2 32 (by decide)⟩

end Librdpma.Drtmh.LogRing
