import Mathlib

/-!
# The lock words of Octopus (`src/fs/lock.cpp`)

A lock word has 64 bits: a writer puts its key into the upper half, a reader
adds one to the whole word and then looks at the upper half of what it found.
Each atomic operation of `LockService` on the word is one step of the machine
below; a party that is in one of the two waiting loops takes a step per turn
of the loop. `RequestPoller`, which a waiting writer runs, serves other
parties and is not a step of its own.

Readers are counted in the lower half, so the two halves stay apart as long as
there are at most `2 ^ 32` parties (`lock_excludes`).
-/

namespace Librdpma.Octopus

/-! ## The operations on one word -/

namespace LockWord

/-- The key of a writer: `((NodeID << 16) + ID) << 32`. -/
def writeKey (nodeID ID : BitVec 16) : BitVec 64 :=
  ((nodeID.setWidth 64 <<< 16) + ID.setWidth 64) <<< 32

/-- `word >> 32`, the half at `LockAddress + 4`. -/
def upper (word : BitVec 64) : BitVec 64 := word >>> 32

/-- `*(uint32_t *)(LockAddress + 4) = 0` -/
def clearUpper (word : BitVec 64) : BitVec 64 := word &&& 0xFFFFFFFF#64

lemma toNat_writeKey (nodeID ID : BitVec 16) :
    (writeKey nodeID ID).toNat = (nodeID.toNat * 2 ^ 16 + ID.toNat) * 2 ^ 32 := by
  have hn := nodeID.isLt
  have hi := ID.isLt
  simp only [writeKey, BitVec.toNat_shiftLeft, BitVec.toNat_add, BitVec.toNat_setWidth,
    Nat.shiftLeft_eq]
  omega

lemma toNat_upper (word : BitVec 64) : (upper word).toNat = word.toNat / 2 ^ 32 := by
  simp [upper, Nat.shiftRight_eq_div_pow]

lemma upper_eq_zero {word : BitVec 64} : upper word = 0#64 ↔ word.toNat < 2 ^ 32 := by
  rw [← BitVec.toNat_inj, toNat_upper, BitVec.toNat_zero]
  omega

lemma toNat_clearUpper (word : BitVec 64) : (clearUpper word).toNat = word.toNat % 2 ^ 32 := by
  have hmask : (0xFFFFFFFF#64).toNat = 2 ^ 32 - 1 := rfl
  rw [clearUpper, BitVec.toNat_and, hmask, Nat.and_two_pow_sub_one_eq_mod]

end LockWord

open LockWord Function List

/-! ## The parties of one word -/

/-- Where a party is in its calls. -/
inductive Party : Type where
  | outside
  /-- in the loop of `WriteLock` -/
  | wantsWrite (key : BitVec 64)
  /-- `WriteLock` has returned -/
  | writing (key : BitVec 64)
  /-- in the loop of `ReadLock`, already counted -/
  | wantsRead
  /-- `ReadLock` has returned -/
  | reading

/-- What a party that is outside calls next. -/
inductive LockCall : Type where
  | write
  | read

structure LockState (ι : Type) where
  word : BitVec 64
  writeID : BitVec 16
  party : ι → Party

namespace LockState

variable {ι : Type} [DecidableEq ι]

def move (s : LockState ι) (i : ι) (p : Party) (word : BitVec 64) : LockState ι :=
  { s with word, party := update s.party i p }

@[simp] lemma party_move_self (s : LockState ι) (i : ι) (p : Party)
    (word : BitVec 64) : (s.move i p word).party i = p :=
  update_self ..

lemma party_move_of_ne {s : LockState ι} {i j : ι} {p : Party} {word : BitVec 64}
    (h : j ≠ i) : (s.move i p word).party j = s.party j :=
  update_of_ne h ..

/-- The next atomic step of party `i`. -/
def step (nodeID : ι → BitVec 16) (s : LockState ι) : ι × LockCall → LockState ι
  | (i, call) =>
    match s.party i with
    | .outside =>
        match call with
        | .write =>
            { s.move i (.wantsWrite (writeKey (nodeID i) s.writeID)) s.word with
              writeID := s.writeID + 1 }
        | .read =>
            s.move i (if upper s.word = 0#64 then .reading else .wantsRead) (s.word + 1#64)
    | .wantsWrite key => if s.word = 0#64 then s.move i (.writing key) key else s
    | .writing _ => s.move i .outside (clearUpper s.word)
    | .wantsRead => if upper s.word = 0#64 then s.move i .reading s.word else s
    | .reading => s.move i .outside (s.word - 1#64)

/-- The machine under a schedule. -/
def run (nodeID : ι → BitVec 16) (s : LockState ι) (turns : List (ι × LockCall)) :
    LockState ι :=
  turns.foldl (step nodeID) s

/-- Nobody has called yet; the constructor leaves `WriteID` as it was. -/
def initial (writeID : BitVec 16) : LockState ι where
  word := 0#64
  writeID := writeID
  party := fun _ => .outside

/-- No writer is inside together with another writer or a reader. -/
def Exclusive (s : LockState ι) : Prop :=
  ∀ i j key, i ≠ j → s.party i = .writing key →
    (∀ key', s.party j ≠ .writing key') ∧ s.party j ≠ .reading

/-- Everybody has left. -/
def Quiet (s : LockState ι) : Prop := ∀ i, s.party i = .outside

/-- What the parties with these node numbers are promised in every state of
every schedule. -/
def Excludes (nodeID : ι → BitVec 16) : Prop :=
  ∀ writeID turns, Exclusive (run nodeID (initial writeID) turns) ∧
    (Quiet (run nodeID (initial writeID) turns) → (run nodeID (initial writeID) turns).word = 0#64)

/-! ## The invariant

Each party contributes to the word what it has put there and not yet taken
out; the word is the sum. -/

/-- What a party has added to the word. -/
def weight : Party → ℕ
  | .outside => 0
  | .wantsWrite _ => 0
  | .writing key => key.toNat
  | .wantsRead => 1
  | .reading => 1

/-- The key of a party that is in `WriteLock` or has returned from it. -/
def keyOf : Party → Option (BitVec 64)
  | .wantsWrite key => some key
  | .writing key => some key
  | _ => none

variable [Fintype ι]

/-- What all the parties but `i` have added. -/
def others (s : LockState ι) (i : ι) : ℕ := ∑ j ∈ Finset.univ.erase i, weight (s.party j)

structure Inv (s : LockState ι) : Prop where
  keys : ∀ i key, keyOf (s.party i) = some key → 2 ^ 32 ≤ key.toNat ∧ key.toNat % 2 ^ 32 = 0
  word : s.word.toNat = ∑ i, weight (s.party i)
  exclusive : Exclusive s

lemma sum_weight (s : LockState ι) (i : ι) :
    ∑ j, weight (s.party j) = weight (s.party i) + s.others i :=
  (Finset.add_sum_erase _ _ (Finset.mem_univ i)).symm

lemma others_move (s : LockState ι) (i : ι) (p : Party) (word : BitVec 64) :
    (s.move i p word).others i = s.others i := by
  refine Finset.sum_congr rfl fun j hj => ?_
  rw [party_move_of_ne (Finset.ne_of_mem_erase hj)]

lemma sum_weight_move (s : LockState ι) (i : ι) (p : Party) (word : BitVec 64) :
    ∑ j, weight ((s.move i p word).party j) = weight p + s.others i := by
  rw [sum_weight _ i, others_move, party_move_self]

lemma others_lt {s : LockState ι} {i : ι} (hcard : Fintype.card ι ≤ 2 ^ 32)
    (h : ∀ j, j ≠ i → ∀ key, s.party j ≠ .writing key) : s.others i < 2 ^ 32 := by
  have hle : s.others i ≤ (Finset.univ.erase i).card • 1 := by
    refine Finset.sum_le_card_nsmul _ _ _ fun j hj => ?_
    have hj' := h j (Finset.ne_of_mem_erase hj)
    cases hp : s.party j with
    | writing key => exact absurd hp (hj' key)
    | outside | wantsWrite key => exact Nat.zero_le _
    | wantsRead | reading => exact le_rfl
  rw [Finset.card_erase_of_mem (Finset.mem_univ i), Finset.card_univ] at hle
  have hpos : 0 < Fintype.card ι := Fintype.card_pos_iff.mpr ⟨i⟩
  simp only [smul_eq_mul, mul_one] at hle
  omega

/-- With at most one writer inside, what the parties have added fits into the
word. -/
lemma sum_weight_lt {s : LockState ι} (hcard : Fintype.card ι ≤ 2 ^ 32)
    (hone : ∀ i j key key', i ≠ j → s.party i = .writing key → s.party j ≠ .writing key')
    (hkey : ∀ i key, s.party i = .writing key → key.toNat % 2 ^ 32 = 0) :
    ∑ i, weight (s.party i) < 2 ^ 64 := by
  by_cases hw : ∃ i key, s.party i = .writing key
  · obtain ⟨i, key, hi⟩ := hw
    have hlt := others_lt (s := s) (i := i) hcard fun j hj key' => hone i j key key' (Ne.symm hj) hi
    have hmod := hkey i key hi
    rw [sum_weight s i, hi, weight]
    omega
  · rcases isEmpty_or_nonempty ι with hnil | ⟨⟨i⟩⟩
    · simp
    · have hlt := others_lt (s := s) (i := i) hcard fun j _ key hj => hw ⟨j, key, hj⟩
      have hle : weight (s.party i) ≤ 1 := by
        cases hp : s.party i with
        | writing key => exact absurd ⟨i, key, hp⟩ hw
        | outside | wantsWrite key => exact Nat.zero_le _
        | wantsRead | reading => exact le_rfl
      rw [sum_weight s i]
      omega

namespace Inv

variable {s : LockState ι} {i : ι} {key : BitVec 64}

lemma word_eq (h : Inv s) (i : ι) : s.word.toNat = weight (s.party i) + s.others i := by
  rw [h.word, sum_weight s i]

/-- While a writer is inside, the halves of the word are its key and the
readers that wait. -/
lemma of_writing (h : Inv s) (hcard : Fintype.card ι ≤ 2 ^ 32) (hi : s.party i = .writing key) :
    s.word.toNat = key.toNat + s.others i ∧ s.others i < 2 ^ 32 ∧
      2 ^ 32 ≤ key.toNat ∧ key.toNat % 2 ^ 32 = 0 := by
  refine ⟨?_, ?_, h.keys i key (by rw [hi]; rfl)⟩
  · have hw := h.word_eq i
    rw [hi] at hw
    exact hw
  · exact others_lt hcard fun j hj => (h.exclusive i j key (Ne.symm hj) hi).1

lemma not_writing (h : Inv s) (hcard : Fintype.card ι ≤ 2 ^ 32)
    (hw : upper s.word = 0#64) (j : ι) (key : BitVec 64) :
    s.party j ≠ .writing key := by
  intro hj
  obtain ⟨heq, -, hkey, -⟩ := h.of_writing hcard hj
  have hlt := upper_eq_zero.mp hw
  omega

lemma weight_eq_zero (h : Inv s) (hw : s.word = 0#64) (j : ι) : weight (s.party j) = 0 := by
  have hsum := h.word_eq j
  rw [hw, BitVec.toNat_zero] at hsum
  omega

omit [DecidableEq ι] in
lemma weight_writing (h : Inv s) (hi : s.party i = .writing key) : weight (s.party i) ≠ 0 := by
  have hkey := (h.keys i key (by rw [hi]; rfl)).1
  rw [hi, weight]
  omega

/-- Moving a party keeps the invariant if the word moves by the difference of
what it contributes, and it comes inside only where the others allow it. -/
lemma move (h : Inv s) {p : Party} {word : BitVec 64}
    (hkey : ∀ key, keyOf p = some key → 2 ^ 32 ≤ key.toNat ∧ key.toNat % 2 ^ 32 = 0)
    (hword : word.toNat = weight p + s.others i)
    (hwr : ∀ key, p = .writing key → ∀ j, j ≠ i → weight (s.party j) = 0)
    (hrd : p = .reading → ∀ j key, s.party j ≠ .writing key) :
    Inv (s.move i p word) := by
  constructor
  · intro j key hj
    by_cases hji : j = i
    · subst hji
      rw [party_move_self] at hj
      exact hkey key hj
    · rw [party_move_of_ne hji] at hj
      exact h.keys j key hj
  · rw [sum_weight_move]
    exact hword
  · intro a b key hab ha
    by_cases hai : a = i
    · subst hai
      rw [party_move_self] at ha
      rw [party_move_of_ne (Ne.symm hab)]
      have hb := hwr key ha b (Ne.symm hab)
      constructor
      · intro key' hb'
        exact h.weight_writing hb' hb
      · intro hb'
        rw [hb'] at hb
        exact Nat.one_ne_zero hb
    · rw [party_move_of_ne hai] at ha
      by_cases hbi : b = i
      · subst hbi
        rw [party_move_self]
        exact ⟨fun key' hp => h.weight_writing ha (hwr key' hp a hai), fun hp => hrd hp a key ha⟩
      · rw [party_move_of_ne hbi]
        exact h.exclusive a b key hab ha

lemma readLock (h : Inv s) (hcard : Fintype.card ι ≤ 2 ^ 32) (hi : s.party i = .outside) :
    Inv (s.move i (if upper s.word = 0#64 then .reading else .wantsRead) (s.word + 1#64)) := by
  have hft : 1 + s.others i < 2 ^ 64 := by
    have hsum := sum_weight_move s i .wantsRead s.word
    rw [weight] at hsum
    rw [← hsum]
    refine sum_weight_lt hcard ?_ ?_
    · intro a b key key' hab ha hb
      have hai : a ≠ i := by rintro rfl; simp at ha
      have hbi : b ≠ i := by rintro rfl; simp at hb
      rw [party_move_of_ne hai] at ha
      rw [party_move_of_ne hbi] at hb
      exact (h.exclusive a b key hab ha).1 key' hb
    · intro a key ha
      have hai : a ≠ i := by rintro rfl; simp at ha
      rw [party_move_of_ne hai] at ha
      exact (h.keys a key (by rw [ha]; rfl)).2
  have hwr : (s.word + 1#64).toNat = 1 + s.others i := by
    have hsum := h.word_eq i
    rw [hi, weight, zero_add] at hsum
    rw [BitVec.toNat_add, hsum, add_comm]
    exact Nat.mod_eq_of_lt hft
  by_cases hup : upper s.word = 0#64
  · rw [if_pos hup]
    exact h.move nofun hwr nofun fun _ => h.not_writing hcard hup
  · rw [if_neg hup]
    exact h.move nofun hwr nofun nofun

lemma writeKey_ok {nodeID : BitVec 16} (hid : nodeID ≠ 0#16) (ID : BitVec 16) :
    2 ^ 32 ≤ (writeKey nodeID ID).toNat ∧ (writeKey nodeID ID).toNat % 2 ^ 32 = 0 := by
  have hpos : nodeID.toNat ≠ 0 := fun h0 => hid (BitVec.eq_of_toNat_eq h0)
  rw [toNat_writeKey]
  omega

lemma step (h : Inv s) (hcard : Fintype.card ι ≤ 2 ^ 32) {nodeID : ι → BitVec 16}
    (hid : ∀ i, nodeID i ≠ 0#16) (turn : ι × LockCall) : Inv (s.step nodeID turn) := by
  obtain ⟨i, call⟩ := turn
  have hsum := h.word_eq i
  cases hp : s.party i with
  | outside =>
    simp only [LockState.step, hp]
    cases call with
    | write =>
      have hmv : Inv (s.move i (.wantsWrite (writeKey (nodeID i) s.writeID)) s.word) := by
        refine h.move (fun key hkey => ?_) ?_ nofun nofun
        · rw [← Option.some.inj hkey]
          exact writeKey_ok (hid i) s.writeID
        · rw [hp] at hsum
          exact hsum
      exact ⟨hmv.keys, hmv.word, hmv.exclusive⟩
    | read => exact h.readLock hcard hp
  | wantsWrite key =>
    simp only [LockState.step, hp]
    by_cases hz : s.word = 0#64
    · rw [if_pos hz]
      refine h.move (fun key' hkey => ?_) ?_ (fun _ _ j _ => h.weight_eq_zero hz j) nofun
      · rw [← Option.some.inj hkey]
        exact h.keys i key (by rw [hp]; rfl)
      · rw [hp, hz, weight, BitVec.toNat_zero] at hsum
        rw [weight]
        omega
    · rw [if_neg hz]
      exact h
  | writing key =>
    obtain ⟨heq, hle, -, hmod⟩ := h.of_writing hcard hp
    simp only [LockState.step, hp]
    refine h.move nofun ?_ nofun nofun
    rw [toNat_clearUpper, weight]
    omega
  | wantsRead =>
    simp only [LockState.step, hp]
    by_cases hup : upper s.word = 0#64
    · rw [if_pos hup]
      refine h.move nofun ?_ nofun fun _ => h.not_writing hcard hup
      rw [hp] at hsum
      exact hsum
    · rw [if_neg hup]
      exact h
  | reading =>
    rw [hp, weight] at hsum
    simp only [LockState.step, hp]
    refine h.move nofun ?_ nofun nofun
    rw [BitVec.toNat_sub_of_le (by rw [BitVec.le_def, BitVec.toNat_one (by decide)]; omega),
      BitVec.toNat_one (by decide), weight]
    omega

omit [DecidableEq ι] in
lemma initial (writeID : BitVec 16) : Inv (LockState.initial (ι := ι) writeID) :=
  ⟨nofun, by simp [LockState.initial, weight], nofun⟩

lemma run (h : Inv s) (hcard : Fintype.card ι ≤ 2 ^ 32) {nodeID : ι → BitVec 16}
    (hid : ∀ i, nodeID i ≠ 0#16) (turns : List (ι × LockCall)) :
    Inv (s.run nodeID turns) := by
  induction turns generalizing s with
  | nil => exact h
  | cons turn turns ih => exact ih (h.step hcard hid turn)

omit [DecidableEq ι] in
lemma word_of_quiet (h : Inv s) (hq : Quiet s) : s.word = 0#64 := by
  refine BitVec.eq_of_toNat_eq ?_
  rw [h.word, Finset.sum_eq_zero fun i _ => by rw [hq i, weight]]
  rfl

end Inv

/-- **The lock excludes** as long as there are at most `2 ^ 32` parties. -/
theorem lock_excludes (nodeID : ι → BitVec 16) (hid : ∀ i, nodeID i ≠ 0#16)
    (hcard : Fintype.card ι ≤ 2 ^ 32) : Excludes nodeID := by
  intro writeID turns
  have h := (Inv.initial writeID).run hcard hid turns
  exact ⟨h.exclusive, h.word_of_quiet⟩

theorem lock_excludes_three :
    (∀ i : Fin 3, (fun _ => 1#16) i ≠ 0#16) ∧ Fintype.card (Fin 3) ≤ 2 ^ 32 ∧
      Excludes (fun _ : Fin 3 => 1#16) :=
  ⟨by decide, by decide, lock_excludes _ (by decide) (by decide)⟩

/-! ## One party more

With `2 ^ 32` readers waiting behind a writer the lower half runs over into
the upper one. The writer then clears the carry together with its key, and the
word is zero although all the readers are counted. -/

section Overflow

variable {n k : ℕ}

/-- Party 0 is inside as a writer of node 1 and the parties `1 .. k` wait to
read. -/
structure Crowded (k : ℕ) (s : LockState (Fin (n + 1))) : Prop where
  word : s.word.toNat = 2 ^ 48 + k
  writer : ∃ key, s.party 0 = .writing key
  waiting : ∀ i, i ≠ 0 → i.val ≤ k → s.party i = .wantsRead
  absent : ∀ i, k < i.val → s.party i = .outside

/-- The parties `1 .. k` call `ReadLock` one after the other. -/
def readersArrive (n k : ℕ) : List (Fin (n + 1) × LockCall) :=
  (range k).map fun j => (Fin.ofNat (n + 1) (j + 1), .read)

lemma Crowded.first_writer (n : ℕ) :
    Crowded 0 ((initial 0#16).run (fun _ => 1#16) [((0 : Fin (n + 1)), .write), (0, .write)]) := by
  have hrun : (initial 0#16).run (fun _ => 1#16)
      [((0 : Fin (n + 1)), .write), (0, .write)]
        = { word := writeKey 1#16 0#16, writeID := 1#16,
            party := update (fun _ => .outside) 0 (.writing (writeKey 1#16 0#16)) } := by
    simp [run, step, initial, move]
  rw [hrun]
  refine ⟨toNat_writeKey .., ⟨writeKey 1#16 0#16, by simp⟩, ?_, ?_⟩
  · intro i hi hle
    exact absurd (Fin.ext (Nat.le_zero.mp hle)) hi
  · intro i hi
    have hne : i ≠ 0 := by
      rintro rfl
      exact Nat.not_lt_zero _ hi
    simp [hne]

lemma Crowded.readLock {s : LockState (Fin (n + 1))} (h : Crowded k s) (hk : k < n)
    (hn : n ≤ 2 ^ 32) (nodeID : Fin (n + 1) → BitVec 16) :
    Crowded (k + 1) (s.step nodeID (Fin.ofNat (n + 1) (k + 1), .read)) := by
  set i := Fin.ofNat (n + 1) (k + 1)
  have hval : i.val = k + 1 := Nat.mod_eq_of_lt (by omega)
  have hne : i ≠ 0 := fun h0 => by
    rw [h0] at hval
    exact absurd hval (Nat.succ_ne_zero k).symm
  have hup : upper s.word ≠ 0#64 := by
    intro h0
    have hlt := upper_eq_zero.mp h0
    have hwr := h.word
    omega
  simp only [step, h.absent i (by omega), if_neg hup]
  constructor
  · have hwr := h.word
    simp only [move, BitVec.toNat_add, hwr, BitVec.toNat_one (by decide : 0 < 64)]
    omega
  · obtain ⟨key, hkey⟩ := h.writer
    exact ⟨key, (party_move_of_ne (Ne.symm hne)).trans hkey⟩
  · intro j hj hle
    by_cases hji : j = i
    · rw [hji, party_move_self]
    · have hlt : j.val ≠ k + 1 := fun h0 => hji (Fin.ext (h0.trans hval.symm))
      rw [party_move_of_ne hji]
      exact h.waiting j hj (by omega)
  · intro j hj
    rw [party_move_of_ne (by rintro rfl; omega)]
    exact h.absent j (by omega)

lemma Crowded.readersArrive {s : LockState (Fin (n + 1))} (h : Crowded 0 s)
    (hk : k ≤ n) (hn : n ≤ 2 ^ 32) (nodeID : Fin (n + 1) → BitVec 16) :
    Crowded k (s.run nodeID (readersArrive n k)) := by
  induction k with
  | zero => exact h
  | succ k ih =>
    rw [LockState.readersArrive, range_succ, map_append, run, foldl_append]
    exact (ih (by omega)).readLock (by omega) hn nodeID

omit [Fintype ι] in
/-- A waiting reader comes in on a zero upper half; a writer that finds the
whole word zero comes in beside it. -/
lemma not_exclusive_of_clear {s : LockState ι} {w r : ι} {key : BitVec 64}
    (hne : r ≠ w) (nodeID : ι → BitVec 16) (hw : s.party w = .writing key)
    (hr : s.party r = .wantsRead) (hclr : clearUpper s.word = 0#64) :
    ¬ Exclusive (s.run nodeID [(w, .write), (r, .read), (w, .write), (w, .write)]) := by
  have hup : upper 0#64 = 0#64 := by decide
  have hrun : (s.run nodeID [(w, .write), (r, .read), (w, .write), (w, .write)]).party
      = update (update s.party r .reading) w (.writing (writeKey (nodeID w) s.writeID)) := by
    simp [run, step, move, hw, hr, hclr, hup, hne, Ne.symm hne, update_comm hne]
  intro hex
  refine (hex w r (writeKey (nodeID w) s.writeID) (Ne.symm hne) ?_).2 ?_
  · rw [hrun, update_self]
  · rw [hrun, update_of_ne hne, update_self]

/-- **`2 ^ 32 + 1` parties are too many**: a reader and a writer are inside
together. -/
theorem lock_overflows :
    ¬ ∀ (n : ℕ) (nodeID : Fin n → BitVec 16), (∀ i, nodeID i ≠ 0#16) → Excludes nodeID := by
  intro hall
  set nodeID : Fin (2 ^ 32 + 1) → BitVec 16 := fun _ => 1#16
  have hcrd : Crowded (2 ^ 32) (run nodeID (run nodeID (initial 0#16)
      [(0, .write), (0, .write)]) (readersArrive (2 ^ 32) (2 ^ 32))) :=
    (Crowded.first_writer (2 ^ 32)).readersArrive le_rfl le_rfl nodeID
  obtain ⟨key, hkey⟩ := hcrd.writer
  have hone : (1 : Fin (2 ^ 32 + 1)) ≠ 0 := by
    intro h
    exact absurd (congrArg Fin.val h) (by decide)
  have hwt := hcrd.waiting 1 hone (by decide)
  refine not_exclusive_of_clear hone nodeID hkey hwt ?_ ?_
  · refine BitVec.eq_of_toNat_eq ?_
    rw [toNat_clearUpper, hcrd.word]
    decide
  · rw [run, run, run, ← foldl_append, ← foldl_append]
    exact (hall _ nodeID (fun _ => by decide) 0#16 _).1

end Overflow

end LockState

end Librdpma.Octopus
