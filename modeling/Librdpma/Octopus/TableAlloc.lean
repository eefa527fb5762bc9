import Librdpma.Octopus.Table

/-!
# `Table<T>` as a slot allocator

The abstract allocator knows which indices below `n` are live and what was
last stored at each of them. `Alloc.Step` says which answers and which next
states it allows; `Allocates` says that a table built over a zero-filled
buffer answers every sequence of calls that way and keeps its free chain
exact. The chain is exact from the start only for `n ≤ 2 ^ 31`, because the
constructor computes the positions in `int`.
-/

namespace Librdpma.Octopus

open Lib List Function

namespace Table

variable {T : Type}

inductive Op (T : Type) : Type where
  | create
  | createItem (item : T)
  | get (index : ℕ)
  | put (index : ℕ) (item : T)
  | putAddress (index : ℕ)
  | remove (index : ℕ)

inductive Res (T : Type) : Type where
  | index (r : Option ℕ)
  | item (r : Option T)
  | address (r : Option ℕ)
  | status (r : Bool)

/-- One call, with the answer it gives. -/
def exec (lay : Layout T) (t : Table T) : Op T → Res T × Table T
  | .create => (.index t.create.1, t.create.2)
  | .createItem x => (.index (t.createItem x).1, (t.createItem x).2)
  | .get i => (.item (t.get i), t)
  | .put i x => (.status (t.put i x).1, (t.put i x).2)
  | .putAddress i => (.address (t.putAddress lay i), t)
  | .remove i => (.status (t.remove i).1, (t.remove i).2)

/-- The table after a sequence of calls. -/
def after (lay : Layout T) (t : Table T) (ops : List (Op T)) : Table T :=
  ops.foldl (fun t op => (t.exec lay op).2) t

/-- The calls of a sequence with their answers. -/
def trace (lay : Layout T) (t : Table T) : List (Op T) → List (Op T × Res T)
  | [] => []
  | op :: ops => (op, (t.exec lay op).1) :: trace lay (t.exec lay op).2 ops

/-! ## The abstract allocator -/

structure Alloc (T : Type) where
  live : ℕ → Prop
  item : ℕ → T

namespace Alloc

/-- Nothing is live; the items are what a zero-filled buffer reads as. -/
def empty (lay : Layout T) : Alloc T where
  live := fun _ => False
  item := fun _ => lay.load (fun _ => 0#8)

def enliven (a : Alloc T) (i : ℕ) : Alloc T :=
  { a with live := fun j => j = i ∨ a.live j }

def kill (a : Alloc T) (i : ℕ) : Alloc T :=
  { a with live := fun j => j ≠ i ∧ a.live j }

def store (a : Alloc T) (i : ℕ) (x : T) : Alloc T :=
  { a with item := update a.item i x }

/-- The answers the allocator of `n` slots allows in state `a`, with the state
each leads to. -/
def Step (n : ℕ) (a : Alloc T) : Op T → Res T → Alloc T → Prop
  | .create, .index (some i), a' => (i < n ∧ ¬ a.live i) ∧ a' = a.enliven i
  | .create, .index none, a' => (∀ i < n, a.live i) ∧ a' = a
  | .createItem x, .index (some i), a' =>
      (i < n ∧ ¬ a.live i) ∧ a' = (a.enliven i).store i x
  | .createItem _, .index none, a' => (∀ i < n, a.live i) ∧ a' = a
  | .get i, .item (some x), a' => ((i < n ∧ a.live i) ∧ x = a.item i) ∧ a' = a
  | .get i, .item none, a' => ¬ (i < n ∧ a.live i) ∧ a' = a
  | .put i x, .status true, a' => (i < n ∧ a.live i) ∧ a' = a.store i x
  | .put i _, .status false, a' => ¬ (i < n ∧ a.live i) ∧ a' = a
  | .putAddress i, .address r, a' =>
      (r.isSome = true ↔ i < n ∧ a.live i) ∧ a' = a
  | .remove i, .status true, a' => (i < n ∧ a.live i) ∧ a' = a.kill i
  | .remove i, .status false, a' => ¬ (i < n ∧ a.live i) ∧ a' = a
  | _, _, _ => False

/-- Every answer of a trace is allowed in the state the earlier ones led to. -/
def Conforms (n : ℕ) : Alloc T → List (Op T × Res T) → Prop
  | _, [] => True
  | a, (op, res) :: rest => ∃ a', Step n a op res a' ∧ Conforms n a' rest

end Alloc

/-- The free chain of `t` lists the clear bits below `n`, once each. -/
def ChainExact (n : ℕ) (t : Table T) : Prop :=
  FreeExact (· < n) (fun i => bitSet t.bitmapItems.bytes i = true) t.headFreeBit

/-- A table of `n` items over a zero-filled buffer comes into being, answers
every sequence of calls like the abstract allocator, and has an exact free
chain after each. -/
def Allocates (lay : Layout T) (n : ℕ) : Prop :=
  ∃ t0, construct lay n (fun _ => 0#8) = .done t0 ∧
    ∀ ops, Alloc.Conforms n (Alloc.empty lay) (trace lay t0 ops) ∧ ChainExact n (after lay t0 ops)

/-! ## The simulation -/

/-- The table `t` stands for the allocator state `a`. -/
structure Refines (n : ℕ) (t : Table T) (a : Alloc T) : Prop where
  total : t.bitmapItems.varCountTotal = n
  live : ∀ i < n, (bitSet t.bitmapItems.bytes i = true ↔ a.live i)
  items : t.items = a.item
  chain : ChainExact n t

variable {lay : Layout T} {n : ℕ} {t : Table T} {a : Alloc T}

lemma Refines.get_cases (h : Refines n t a) (i : ℕ) :
    (t.bitmapItems.get i = some true ∧ i < n ∧ a.live i) ∨
      ((t.bitmapItems.get i = none ∨ t.bitmapItems.get i = some false) ∧ ¬ (i < n ∧ a.live i)) := by
  by_cases hi : i < n
  · have hlt : i < t.bitmapItems.varCountTotal := by rw [h.total]; exact hi
    have hget := Bitmap.get_of_lt hlt
    cases hbit : bitSet t.bitmapItems.bytes i with
    | true => exact .inl ⟨by rw [hget, hbit], hi, (h.live i hi).mp hbit⟩
    | false =>
      refine .inr ⟨.inr (by rw [hget, hbit]), fun hlv => ?_⟩
      rw [(h.live i hi).mpr hlv.2] at hbit
      cases hbit
  · have hge : t.bitmapItems.varCountTotal ≤ i := by rw [h.total]; omega
    have hget := Bitmap.get_of_ge hge
    exact .inr ⟨.inl hget, fun hlv => hi hlv.1⟩

/-- `create` on an exact chain: either every index is live and nothing
changes, or a free index is handed out and occupied. -/
lemma createWith_cases (assign : (ℕ → T) → ℕ → ℕ → T) (h : Refines n t a) :
    (createWith assign t = (none, t) ∧ ∀ i < n, a.live i) ∨
      ∃ i t', createWith assign t = (some i, t') ∧ i < n ∧ ¬ a.live i ∧
        t'.items = assign t.items i ∧
        Refines n { t' with items := t.items } (a.enliven i) ∧
        t.headFreeBit = i :: t'.headFreeBit := by
  unfold createWith
  cases hch : t.headFreeBit with
  | nil =>
    refine .inl ⟨rfl, fun i hi => ?_⟩
    have hex := h.chain
    unfold ChainExact at hex
    rw [hch] at hex
    exact (h.live i hi).mp (hex.all_used_of_nil hi)
  | cons i rest =>
    have hex := h.chain
    unfold ChainExact at hex
    rw [hch] at hex
    obtain ⟨hi, hfr⟩ := hex.head_free
    have hlt : i < t.bitmapItems.varCountTotal := by rw [h.total]; exact hi
    have hbt := Bitmap.set_bits hlt
    have hfst := Bitmap.set_fst hlt
    have htot := Bitmap.set_total t.bitmapItems i
    dsimp only
    cases hset : t.bitmapItems.set i with
    | mk ok bitmapItems =>
      rw [hset] at hbt hfst htot
      subst hfst
      refine .inr ⟨i, ⟨bitmapItems, assign t.items i, rest⟩, rfl, hi,
        fun hlv => hfr ((h.live i hi).mpr hlv), rfl, ?_, rfl⟩
      refine ⟨htot.trans h.total, fun j hj => ?_, h.items, ?_⟩
      · show bitSet bitmapItems.bytes j = true ↔ j = i ∨ a.live j
        rw [hbt j, Bool.or_eq_true, decide_eq_true_eq, h.live j hj]
      · refine hex.take.congr fun j _ => ?_
        show _ ↔ bitSet bitmapItems.bytes j = true
        rw [hbt j, Bool.or_eq_true, decide_eq_true_eq]

lemma remove_live (h : Refines n t a) {i : ℕ}
    (hget : t.bitmapItems.get i = some true) (hi : i < n) :
    (t.remove i).1 = true ∧ Refines n (t.remove i).2 (a.kill i) ∧
      (t.remove i).2.headFreeBit = i :: t.headFreeBit := by
  have hlt : i < t.bitmapItems.varCountTotal := by rw [h.total]; exact hi
  have hbit : bitSet t.bitmapItems.bytes i = true := by
    rw [Bitmap.get_of_lt hlt] at hget
    exact Option.some.inj hget
  have hbt := Bitmap.clear_bits hlt
  have hfst := Bitmap.clear_fst hlt
  have htot := Bitmap.clear_total t.bitmapItems i
  unfold remove
  rw [hget]
  cases hclr : t.bitmapItems.clear i with
  | mk ok bitmapItems =>
    rw [hclr] at hbt hfst htot
    simp only at hbt hfst htot
    subst hfst
    have hbt' : ∀ j, bitSet bitmapItems.bytes j = true ↔
        j ≠ i ∧ bitSet t.bitmapItems.bytes j = true := by
      intro j
      rw [hbt j]
      simp
    refine ⟨rfl, ⟨htot.trans h.total, fun j hj => ?_, h.items, ?_⟩, rfl⟩
    · show bitSet bitmapItems.bytes j = true ↔ j ≠ i ∧ a.live j
      rw [hbt' j, h.live j hj]
    · exact (h.chain.give hi hbit).congr fun j _ => (hbt' j).symm

lemma Refines.store (h : Refines n t a) (i : ℕ) (x : T) :
    Refines n { t with items := update t.items i x } (a.store i x) :=
  ⟨h.total, h.live, by rw [h.items]; rfl, h.chain⟩

lemma fails_of_dead (lay : Layout T) {i : ℕ}
    (hget : t.bitmapItems.get i = none ∨ t.bitmapItems.get i = some false) :
    t.get i = none ∧ (∀ x, t.put i x = (false, t)) ∧ putAddress lay t i = none ∧
      t.remove i = (false, t) := by
  rcases hget with hget | hget <;>
    exact ⟨by simp only [get, hget], fun x => by simp only [put, hget],
      by simp only [putAddress, hget], by simp only [remove, hget]⟩

/-- **One call.** The answer is one the allocator allows, and the table stands
for the state it leads to. -/
lemma exec_refines (lay : Layout T) (h : Refines n t a) (op : Op T) :
    ∃ a', Alloc.Step n a op (t.exec lay op).1 a' ∧ Refines n (t.exec lay op).2 a' := by
  cases op with
  | create =>
    rcases createWith_cases (fun items _ => items) h with
      ⟨heq, hall⟩ | ⟨i, t', heq, hi, hd, hits, href, -⟩
    · refine ⟨a, ?_, ?_⟩
      · simp only [exec, create, heq]
        exact ⟨hall, rfl⟩
      · simpa only [exec, create, heq] using h
    · refine ⟨a.enliven i, ?_, ?_⟩
      · simp only [exec, create, heq]
        exact ⟨⟨hi, hd⟩, rfl⟩
      · simp only [exec, create, heq]
        rw [← hits] at href
        exact href
  | createItem x =>
    rcases createWith_cases (fun items index => update items index x) h with
      ⟨heq, hall⟩ | ⟨i, t', heq, hi, hd, hits, href, -⟩
    · refine ⟨a, ?_, ?_⟩
      · simp only [exec, createItem, heq]
        exact ⟨hall, rfl⟩
      · simpa only [exec, createItem, heq] using h
    · refine ⟨(a.enliven i).store i x, ?_, ?_⟩
      · simp only [exec, createItem, heq]
        exact ⟨⟨hi, hd⟩, rfl⟩
      · simp only [exec, createItem, heq]
        have hst := href.store i x
        simp only at hst
        rw [← hits] at hst
        exact hst
  | get i =>
    refine ⟨a, ?_, h⟩
    rcases h.get_cases i with ⟨hget, hi, hlv⟩ | ⟨hget, hd⟩
    · simp only [exec, get, hget, h.items]
      exact ⟨⟨⟨hi, hlv⟩, rfl⟩, rfl⟩
    · simp only [exec, (fails_of_dead lay hget).1]
      exact ⟨hd, rfl⟩
  | put i x =>
    rcases h.get_cases i with ⟨hget, hi, hlv⟩ | ⟨hget, hd⟩
    · refine ⟨a.store i x, ?_, ?_⟩
      · simp only [exec, put, hget]
        exact ⟨⟨hi, hlv⟩, rfl⟩
      · simpa only [exec, put, hget] using h.store i x
    · have hfl := (fails_of_dead lay hget).2.1 x
      refine ⟨a, ?_, ?_⟩
      · simp only [exec, hfl]
        exact ⟨hd, rfl⟩
      · simpa only [exec, hfl] using h
  | putAddress i =>
    refine ⟨a, ?_, h⟩
    rcases h.get_cases i with ⟨hget, hi, hlv⟩ | ⟨hget, hd⟩
    · simp only [exec, putAddress, hget]
      exact ⟨by simp [hi, hlv], rfl⟩
    · simp only [exec, (fails_of_dead lay hget).2.2.1]
      exact ⟨by simpa using hd, rfl⟩
  | remove i =>
    rcases h.get_cases i with ⟨hget, hi, hlv⟩ | ⟨hget, hd⟩
    · obtain ⟨hok, href, -⟩ := remove_live h hget hi
      refine ⟨a.kill i, ?_, href⟩
      simp only [exec, hok]
      exact ⟨⟨hi, hlv⟩, rfl⟩
    · have hfl := (fails_of_dead lay hget).2.2.2
      refine ⟨a, ?_, ?_⟩
      · simp only [exec, hfl]
        exact ⟨hd, rfl⟩
      · simpa only [exec, hfl] using h

/-- **A whole run**, by induction on the calls. -/
lemma run_conforms (h : Refines n t a) (ops : List (Op T)) :
    Alloc.Conforms n a (trace lay t ops) ∧ ChainExact n (after lay t ops) := by
  induction ops generalizing t a with
  | nil => exact ⟨trivial, h.chain⟩
  | cons op ops ih =>
    obtain ⟨a', hst, href⟩ := exec_refines lay h op
    obtain ⟨hconf, hch⟩ := ih href
    exact ⟨⟨a', hst, hconf⟩, hch⟩

/-! ## The chain the constructor builds over a zero-filled buffer -/

/-- The position written for bit `p`. -/
def writtenPosition (p : ℕ) : ℕ :=
  (Int.bmod (p : ℤ) (2 ^ 32) % 2 ^ 64).toNat

/-- The positions below `8 * k` whose bit is clear. -/
def clearPositions (buffer : ℕ → BitVec 8) (k : ℕ) : List ℕ :=
  (range (8 * k)).filter fun p => !bitSet buffer p

lemma scanByte_eq (buffer : ℕ → BitVec 8) (index : ℕ) (chain : List ℕ) :
    scanByte buffer index chain = (((range 8).map (8 * index + ·)).filter
      fun p => !bitSet buffer p).map writtenPosition ++ chain := by
  have hpush : ∀ l : List ℕ, (∀ o ∈ l, o < 8) → l.foldr (fun offset chain =>
      if (buffer index &&& bitMask offset) = 0#8 then position index offset :: chain else chain)
      chain = ((l.map (8 * index + ·)).filter fun p => !bitSet buffer p).map writtenPosition
        ++ chain := by
    intro l hl
    induction l with
    | nil => rfl
    | cons o l ih =>
      have ho := hl o mem_cons_self
      have hbit : bitSet buffer (8 * index + o) = ((buffer index &&& bitMask o) != 0#8) := by
        rw [bitSet, show (8 * index + o) / 8 = index from by omega,
          show (8 * index + o) % 8 = o from by omega]
      have hpos : position index o = writtenPosition (8 * index + o) := by
        rw [Nat.mul_comm 8 index]
        rfl
      rw [foldr_cons, ih fun o' ho' => hl o' (mem_cons_of_mem _ ho'), map_cons, filter_cons, hbit]
      by_cases hclr : (buffer index &&& bitMask o) = 0#8
      · rw [if_pos hclr, if_pos (by simp [hclr]), map_cons, cons_append, hpos]
      · rw [if_neg hclr, if_neg (by simp [hclr])]
  have hdown : [7, 6, 5, 4, 3, 2, 1, 0] = (range 8).reverse := rfl
  rw [scanByte, hdown, foldl_reverse]
  exact hpush _ fun o ho => mem_range.mp ho

lemma scanBytes_eq (buffer : ℕ → BitVec 8) (k : ℕ) (chain : List ℕ) :
    scanBytes buffer k chain = (clearPositions buffer k).map writtenPosition ++ chain := by
  induction k generalizing chain with
  | zero => rfl
  | succ k ih =>
    rw [scanBytes, ih, scanByte_eq, ← append_assoc, ← map_append, clearPositions, ← filter_append,
      clearPositions, show 8 * (k + 1) = 8 * k + 8 from by omega, range_add]

lemma writtenPosition_of_lt {p : ℕ} (h : p < 2 ^ 31) : writtenPosition p = p := by
  unfold writtenPosition
  rw [Int.bmod_eq_of_le (by omega) (by omega)]
  omega

lemma writtenPosition_two_pow_31 : writtenPosition (2 ^ 31) = 2 ^ 64 - 2 ^ 31 := by
  decide +kernel

lemma writtenPosition_of_mod_lt {p : ℕ} (h : p % 2 ^ 32 < 2 ^ 31) :
    writtenPosition p = p % 2 ^ 32 := by
  unfold writtenPosition
  rw [Int.bmod_eq_emod_of_lt (by push_cast; omega)]
  push_cast
  omega

/-- A negative `int` becomes a position near `2 ^ 64`. -/
lemma le_writtenPosition {p : ℕ} (h : 2 ^ 31 ≤ p % 2 ^ 32) : 2 ^ 63 ≤ writtenPosition p := by
  unfold writtenPosition
  rw [Int.bmod_neg _ _ (by push_cast; omega)]
  push_cast
  omega

lemma startIndex_of_le (h : n ≤ 2 ^ 34) : (startIndex n + 1).toNat = n / 8 := by
  unfold startIndex
  by_cases h0 : n / 8 = 0
  · rw [h0]
    decide +kernel
  · have hmod : (n / 8 + (2 ^ 64 - 1)) % 2 ^ 64 = n / 8 - 1 := by omega
    rw [hmod, Int.bmod_eq_of_le (by omega) (by omega)]
    omega

lemma startIndex_of_gt (h8 : n % 8 = 0) (h : 2 ^ 34 < n) (hn : n / 8 < 2 ^ 32) :
    (startIndex n + 1).toNat = 0 := by
  unfold startIndex
  have hmod : (n / 8 + (2 ^ 64 - 1)) % 2 ^ 64 = n / 8 - 1 := by omega
  rw [hmod, Int.bmod_neg _ _ (by push_cast; omega)]
  push_cast
  omega

lemma construct_iff {buffer : ℕ → BitVec 8} {t0 : Table T} : construct lay n buffer = .done t0 ↔
      n % 8 = 0 ∧ n / 8 < 2 ^ 32 ∧ t0 = {
        bitmapItems := { bytes := fun i => buffer (n * lay.sizeof + i), varCountTotal := n,
                         varCountFree := Bitmap.clearBits
                           (fun i => buffer (n * lay.sizeof + i)) (n / 8) }
        items := fun i => lay.load fun j => buffer (i * lay.sizeof + j)
        headFreeBit :=
          (clearPositions buffer (startIndex n + 1).toNat).map writtenPosition } := by
  unfold construct Bitmap.construct
  by_cases h8 : n % 8 = 0
  · rw [if_pos h8, if_pos h8]
    by_cases hn : n / 8 < 2 ^ 32
    · rw [if_pos hn, Outcome.done_bind, scanBytes_eq]
      simp only [Outcome.pure_eq, Outcome.done.injEq, append_nil, h8, hn, true_and]
      exact eq_comm
    · rw [if_neg hn, Outcome.loop_bind]
      exact iff_of_false (by simp) fun h => hn h.2.1
  · rw [if_neg h8]
    exact iff_of_false (by simp) fun h => h8 h.1

/-- What the constructor yields over a zero-filled buffer, whenever it
returns. -/
lemma construct_zero_iff (h8 : n % 8 = 0) {t0 : Table T} :
    construct lay n (fun _ => 0#8) = .done t0 ↔
      n / 8 < 2 ^ 32 ∧ t0 = {
        bitmapItems := { bytes := fun _ => 0#8, varCountTotal := n,
                         varCountFree := Bitmap.clearBits (fun _ => 0#8) (n / 8) }
        items := fun _ => lay.load (fun _ => 0#8)
        headFreeBit := (range (8 * (startIndex n + 1).toNat)).map writtenPosition } := by
  rw [construct_iff, clearPositions, filter_eq_self.mpr fun p _ => by rw [Bitmap.bitSet_zero]; rfl]
  exact and_iff_right h8

/-- Up to `2 ^ 31` items the scan lists the indices in ascending order. -/
lemma zero_chain (h8 : n % 8 = 0) (hn : n ≤ 2 ^ 31) :
    (range (8 * (startIndex n + 1).toNat)).map writtenPosition = range n := by
  rw [startIndex_of_le (by omega), show 8 * (n / 8) = n from by omega]
  conv_rhs => rw [← map_id (range n)]
  apply map_congr_left
  intro p hp
  exact writtenPosition_of_lt (by have := mem_range.mp hp; omega)

/-- Up to `2 ^ 31` items the new table stands for the empty allocator. -/
lemma construct_refines (lay : Layout T) (h8 : n % 8 = 0) (hn : n ≤ 2 ^ 31) :
    ∃ t0, construct lay n (fun _ => 0#8) = .done t0 ∧ Refines n t0 (Alloc.empty lay) := by
  refine ⟨_, (construct_zero_iff h8).mpr ⟨by omega, rfl⟩, rfl,
    fun i _ => by simp [Alloc.empty], rfl, ?_⟩
  refine ⟨?_, fun i => ?_⟩
  · rw [zero_chain h8 hn]
    exact nodup_range
  · rw [zero_chain h8 hn]
    simp

/-- Past `2 ^ 31` items the chain is wrong from the start: were it exact it
would have `n` nodes, and the node for bit `2 ^ 31` holds no index at all. -/
lemma not_chainExact_of_gt (hn : 2 ^ 31 < n) (hn' : n / 8 < 2 ^ 32) {t0 : Table T}
    (h8 : n % 8 = 0) (ht0 : construct lay n (fun _ => 0#8) = .done t0) :
    ¬ ChainExact n t0 := by
  obtain ⟨-, rfl⟩ := (construct_zero_iff h8).mp ht0
  unfold ChainExact
  simp only [Bitmap.bitSet_zero]
  intro hex
  have hmem : ∀ i, i ∈ (range (8 * (startIndex n + 1).toNat)).map writtenPosition ↔ i < n := by
    intro i
    rw [hex.mem_iff i]
    exact and_iff_left Bool.false_ne_true
  have hlen : 8 * (startIndex n + 1).toNat = n := by
    have hperm : ((range (8 * (startIndex n + 1).toNat)).map writtenPosition).Perm (range n) :=
      (perm_ext_iff_of_nodup hex.nodup nodup_range).mpr fun i => by rw [hmem i, mem_range]
    simpa using hperm.length_eq
  have hbad := (hmem (2 ^ 64 - 2 ^ 31)).mp
    (mem_map.mpr ⟨2 ^ 31, mem_range.mpr (by omega), writtenPosition_two_pow_31⟩)
  omega

lemma not_allocates_of_gt (h8 : n % 8 = 0) (hn : 2 ^ 31 < n) : ¬ Allocates lay n := by
  rintro ⟨t0, ht0, hrun⟩
  obtain ⟨hn', -⟩ := (construct_zero_iff h8).mp ht0
  exact not_chainExact_of_gt hn hn' h8 ht0 (hrun []).2

/-- **`Table<T>` is a slot allocator exactly up to `2 ^ 31` items.** -/
theorem allocates_iff (lay : Layout T) (n : ℕ) (h8 : n % 8 = 0) : Allocates lay n ↔ n ≤ 2 ^ 31 := by
  constructor
  · intro h
    by_contra hn
    exact not_allocates_of_gt h8 (by omega) h
  · intro hn
    obtain ⟨t0, ht0, href⟩ := construct_refines lay h8 hn
    exact ⟨t0, ht0, fun ops => run_conforms href ops⟩

/-- Items of one byte. -/
def byteLayout : Layout (BitVec 8) := ⟨1, fun bytes => bytes 0⟩

theorem allocates_byte_64 : 64 % 8 = 0 ∧ Allocates byteLayout 64 :=
  ⟨by decide, (allocates_iff byteLayout 64 (by decide)).mpr (by decide)⟩

/-- At `2 ^ 34 + 8` items `int index` starts negative: the chain is empty and
the first `create` fails although no index is live. -/
theorem create_fails_on_empty_table : (2 ^ 34 + 8) % 8 = 0 ∧ ¬ Allocates byteLayout (2 ^ 34 + 8) ∧
      ∃ t0, construct byteLayout (2 ^ 34 + 8) (fun _ => 0#8) = .done t0 ∧
        t0.create.1 = none ∧ bitSet t0.bitmapItems.bytes 0 = false := by
  refine ⟨by decide, not_allocates_of_gt (by decide) (by decide), _,
    (construct_zero_iff (by decide)).mpr ⟨by decide, rfl⟩, ?_, by simp⟩
  have hst : (startIndex (2 ^ 34 + 8) + 1).toNat = 0 := by decide +kernel
  simp only [create, createWith, hst, Nat.mul_zero, range_zero, map_nil]

/-! ## Recovery

The scan of the constructor looks at the start of the buffer. The items are
there; the bitmap that was saved is behind them. -/

/-- The allocator state that the buffer holds. -/
def Alloc.saved (lay : Layout T) (n : ℕ) (buffer : ℕ → BitVec 8) : Alloc T where
  live := fun i => bitSet (fun j => buffer (n * lay.sizeof + j)) i = true
  item := fun i => lay.load fun j => buffer (i * lay.sizeof + j)

/-- A table comes into being over the buffer, its chain lists the clear bits of
the bitmap, and it answers every sequence of calls as the saved allocator. -/
def Recovers (lay : Layout T) (n : ℕ) (buffer : ℕ → BitVec 8) : Prop :=
  ∃ t0, construct lay n buffer = .done t0 ∧ ChainExact n t0 ∧
    ∀ ops, Alloc.Conforms n (Alloc.saved lay n buffer) (trace lay t0 ops)

/-- The scan takes bit `p` for free and writes position `i`. -/
def Scanned (n : ℕ) (buffer : ℕ → BitVec 8) (p i : ℕ) : Prop :=
  p < 8 * (startIndex n + 1).toNat ∧ bitSet buffer p = false ∧ writtenPosition p = i

/-- The bits of the items are those of the bitmap. Past `2 ^ 31` items the positions are
those of the clear bits modulo `2 ^ 32`: none of these may be a negative `int`, no two
the same, and they are the free indices. Past `2 ^ 34` items nothing is scanned. -/
def ScanAgrees (lay : Layout T) (n : ℕ) (buffer : ℕ → BitVec 8) : Prop :=
  let live := bitSet fun j => buffer (n * lay.sizeof + j)
  if n ≤ 2 ^ 31 then ∀ i < n, bitSet buffer i = live i
  else if n ≤ 2 ^ 34 then
    (∀ p < n, bitSet buffer p = false → p % 2 ^ 32 < 2 ^ 31) ∧
      (∀ p < n, ∀ q < n, bitSet buffer p = false → bitSet buffer q = false →
        p % 2 ^ 32 = q % 2 ^ 32 → p = q) ∧
      ∀ i < n, live i = false ↔ ∃ p < n, bitSet buffer p = false ∧ p % 2 ^ 32 = i
  else ∀ i < n, live i = true

variable {buffer : ℕ → BitVec 8}

lemma mem_clearPositions {k p : ℕ} :
    p ∈ clearPositions buffer k ↔ p < 8 * k ∧ bitSet buffer p = false := by
  rw [clearPositions, mem_filter, mem_range, Bool.not_eq_true']

lemma chainExact_iff_scanned {t0 : Table T} (ht0 : construct lay n buffer = .done t0) :
    ChainExact n t0 ↔ ∀ i, ((∃ p, Scanned n buffer p i) ↔
      i < n ∧ bitSet (fun j => buffer (n * lay.sizeof + j)) i = false) ∧
        ∀ p q, Scanned n buffer p i → Scanned n buffer q i → p = q := by
  obtain ⟨-, -, rfl⟩ := construct_iff.mp ht0
  have hnd : (clearPositions buffer (startIndex n + 1).toNat).Nodup := nodup_range.filter _
  have hmem : ∀ i, i ∈ (clearPositions buffer (startIndex n + 1).toNat).map writtenPosition ↔
      ∃ p, Scanned n buffer p i := by
    intro i
    simp only [mem_map, mem_clearPositions, Scanned, and_assoc]
  unfold ChainExact
  dsimp only
  constructor
  · intro h i
    refine ⟨by rw [← hmem, h.mem_iff, Bool.not_eq_true], ?_⟩
    rintro p q ⟨hp, hpc, hpi⟩ ⟨hq, hqc, hqi⟩
    exact inj_on_of_nodup_map h.nodup (mem_clearPositions.mpr ⟨hp, hpc⟩)
      (mem_clearPositions.mpr ⟨hq, hqc⟩) (hpi.trans hqi.symm)
  · intro h
    refine ⟨hnd.map_on fun p hp q hq heq => ?_, fun i => ?_⟩
    · obtain ⟨hp, hpc⟩ := mem_clearPositions.mp hp
      obtain ⟨hq, hqc⟩ := mem_clearPositions.mp hq
      exact (h _).2 p q ⟨hp, hpc, rfl⟩ ⟨hq, hqc, heq.symm⟩
    · rw [hmem, (h i).1, Bool.not_eq_true]

lemma scanned_iff (h8 : n % 8 = 0) (hn : n ≤ 2 ^ 34)
    (hneg : ∀ p < n, bitSet buffer p = false → p % 2 ^ 32 < 2 ^ 31) {p i : ℕ} :
    Scanned n buffer p i ↔ p < n ∧ bitSet buffer p = false ∧ p % 2 ^ 32 = i := by
  rw [Scanned, startIndex_of_le hn, show 8 * (n / 8) = n from by omega]
  refine and_congr_right fun hp => and_congr_right fun hclr => ?_
  rw [writtenPosition_of_mod_lt (hneg p hp hclr)]

lemma mod_lt_of_scanned (h8 : n % 8 = 0) (hn : n ≤ 2 ^ 34)
    (h : ∀ p i, Scanned n buffer p i → i < n) {p : ℕ} (hp : p < n)
    (hclr : bitSet buffer p = false) : p % 2 ^ 32 < 2 ^ 31 := by
  by_contra hge
  have hlt := h p _ ⟨by rw [startIndex_of_le hn]; omega, hclr, rfl⟩
  have hle := le_writtenPosition (not_lt.mp hge)
  omega

lemma chainExact_iff_scanAgrees {t0 : Table T} (ht0 : construct lay n buffer = .done t0) :
    ChainExact n t0 ↔ ScanAgrees lay n buffer := by
  rw [chainExact_iff_scanned ht0, ScanAgrees]
  obtain ⟨h8, hn', -⟩ := construct_iff.mp ht0
  split_ifs with hn hn2
  · have hsc : ∀ p i, Scanned n buffer p i ↔ p = i ∧ i < n ∧ bitSet buffer i = false := by
      intro p i
      rw [scanned_iff h8 (by omega) fun p hp _ => by omega]
      constructor
      · rintro ⟨hp, hclr, rfl⟩
        rw [Nat.mod_eq_of_lt (by omega)]
        exact ⟨rfl, hp, hclr⟩
      · rintro ⟨rfl, hp, hclr⟩
        exact ⟨hp, hclr, Nat.mod_eq_of_lt (by omega)⟩
    simp only [hsc, exists_eq_left]
    constructor
    · intro h i hi
      have := (h i).1
      simp only [hi, true_and] at this
      cases hb : bitSet buffer i <;> simp_all
    · intro h i
      refine ⟨and_congr_right fun hi => by rw [h i hi], ?_⟩
      rintro p q ⟨rfl, -⟩ ⟨rfl, -⟩
      rfl
  · constructor
    · intro h
      have hneg := fun p hp hclr => mod_lt_of_scanned h8 hn2 (p := p)
        (fun p i hsc => ((h i).1.mp ⟨p, hsc⟩).1) hp hclr
      simp only [scanned_iff h8 hn2 hneg] at h
      refine ⟨hneg, fun p hp q hq hpc hqc heq => ?_, fun i hi => ?_⟩
      · exact (h _).2 p q ⟨hp, hpc, rfl⟩ ⟨hq, hqc, heq.symm⟩
      · exact (((h i).1.trans (and_iff_right hi))).symm
    · rintro ⟨hneg, hinj, hfree⟩ i
      simp only [scanned_iff h8 hn2 hneg]
      refine ⟨⟨?_, fun h => (hfree i h.1).mp h.2⟩, ?_⟩
      · rintro ⟨p, hp, hclr, rfl⟩
        have hlt := (Nat.mod_le p (2 ^ 32)).trans_lt hp
        exact ⟨hlt, (hfree _ hlt).mpr ⟨p, hp, hclr, rfl⟩⟩
      · rintro p q ⟨hp, hpc, hpi⟩ ⟨hq, hqc, hqi⟩
        exact hinj p hp q hq hpc hqc (hpi.trans hqi.symm)
  · have hno : ∀ p i, ¬ Scanned n buffer p i := by
      rintro p i ⟨hp, -⟩
      rw [startIndex_of_gt h8 (by omega) hn'] at hp
      exact absurd hp (Nat.not_lt_zero p)
    simp only [hno, exists_false, false_iff, not_and, Bool.not_eq_false, false_implies,
      implies_true, and_true]

/-- **A saved table is recovered exactly if the items look like the bitmap.** -/
theorem recovers_iff (lay : Layout T) (n : ℕ) (buffer : ℕ → BitVec 8) :
    Recovers lay n buffer ↔ n % 8 = 0 ∧ n / 8 < 2 ^ 32 ∧ ScanAgrees lay n buffer := by
  constructor
  · rintro ⟨t0, ht0, hch, -⟩
    obtain ⟨h8, hn, -⟩ := construct_iff.mp ht0
    exact ⟨h8, hn, (chainExact_iff_scanAgrees ht0).mp hch⟩
  · rintro ⟨h8, hn, hsc⟩
    have ht0 : construct lay n buffer = .done _ := construct_iff.mpr ⟨h8, hn, rfl⟩
    have hch := (chainExact_iff_scanAgrees ht0).mpr hsc
    have href : Refines n _ (Alloc.saved lay n buffer) := ⟨rfl, fun _ _ => Iff.rfl, rfl, hch⟩
    exact ⟨_, ht0, hch, fun ops => (run_conforms href ops).1⟩

/-- Eight items of one byte, all zero; index 0 is live. -/
def savedByte : ℕ → BitVec 8 := update (fun _ => 0#8) 8 0x80#8

/-- `create` returns an index that is live. -/
theorem create_returns_live : ¬ Recovers byteLayout 8 savedByte ∧
    (Alloc.saved byteLayout 8 savedByte).live 0 ∧
      ∃ t0, construct byteLayout 8 savedByte = .done t0 ∧ t0.create.1 = some 0 := by
  have hlv : bitSet (fun j => savedByte (8 * 1 + j)) 0 = true := by decide
  refine ⟨fun h => ?_, hlv, _, construct_iff.mpr ⟨by decide, by decide, rfl⟩, by decide +kernel⟩
  obtain ⟨t0, ht0, hch, -⟩ := h
  have hagr := (chainExact_iff_scanAgrees ht0).mp hch
  rw [ScanAgrees, if_pos (by decide)] at hagr
  exact absurd (hagr 0 (by decide)) (by decide)

/-! ## The mutex -/

/-- Whether the operation takes an index from the free chain. -/
def Op.creates : Op T → Bool
  | .create | .createItem _ => true
  | _ => false

/-- A call with the pointers it is given. -/
inductive Call (T : Type) : Type where
  -- a pointer the function checks is NULL
  | nullArgument
  | op (op : Op T)
  | getAddress (index : ℕ)
  -- the NULL `address` that `get` and `put` do not check
  | nullAddress (index : ℕ)

/-- A table with the state of its mutex. -/
structure Guarded (T : Type) where
  table : Table T
  locked : Bool

namespace Guarded

/-- What a call does from `lock` on. Without a free bit `create` returns before
`unlock`. -/
def critical (lay : Layout T) (t : Table T) : Call T → Outcome (Guarded T)
  | .nullArgument | .getAddress _ => .done ⟨t, false⟩
  | .op op =>
      if op.creates = true ∧ t.headFreeBit = [] then .done ⟨t, true⟩
      else .done ⟨(t.exec lay op).2, false⟩
  | .nullAddress index =>
      if t.bitmapItems.get index = some true then .undefined else .done ⟨t, false⟩

/-- A call. Locking a locked mutex waits for ever. -/
def call (lay : Layout T) (s : Guarded T) : Call T → Outcome (Guarded T)
  | .nullArgument => .done s
  | c => if s.locked then .loop else critical lay s.table c

def run (lay : Layout T) : Guarded T → List (Call T) → Outcome (Guarded T)
  | s, [] => .done s
  | s, c :: cs => do run lay (← s.call lay c) cs

/-- No call waits, and the mutex is free when the last one has returned. -/
def Proceeds (lay : Layout T) (s : Guarded T) (cs : List (Call T)) : Prop :=
  run lay s cs ≠ .loop ∧ ∀ s', run lay s cs = .done s' → s'.locked = false

/-- The call creates an item and there is no free bit. -/
def Exhausts (t : Table T) : Call T → Prop
  | .op op => op.creates = true ∧ t.headFreeBit = []
  | _ => False

/-- No call of the run creates an item without a free bit. -/
def NeverExhausts (lay : Layout T) : Table T → List (Call T) → Prop
  | _, [] => True
  | t, c :: cs => ¬ Exhausts t c ∧
      ∀ s, call lay ⟨t, false⟩ c = .done s → NeverExhausts lay s.table cs

variable {c : Call T}

lemma call_of_exhausts (h : Exhausts t c) : call lay ⟨t, false⟩ c = .done ⟨t, true⟩ := by
  cases c with
  | op op => exact if_pos h
  | nullArgument | getAddress | nullAddress => exact h.elim

lemma call_of_not_exhausts (lay : Layout T) (h : ¬ Exhausts t c) :
    call lay ⟨t, false⟩ c = .undefined ∨ ∃ t', call lay ⟨t, false⟩ c = .done ⟨t', false⟩ := by
  cases c with
  | nullArgument | getAddress => exact .inr ⟨t, rfl⟩
  | op op => exact .inr ⟨_, if_neg h⟩
  | nullAddress index =>
    by_cases hget : t.bitmapItems.get index = some true
    · exact .inl (if_pos hget)
    · exact .inr ⟨t, if_neg hget⟩

lemma not_proceeds_of_locked (cs : List (Call T)) : ¬ Proceeds lay ⟨t, true⟩ cs := by
  induction cs with
  | nil => exact fun h => Bool.noConfusion (h.2 _ rfl)
  | cons c cs ih =>
    cases c with
    | nullArgument => exact ih
    | op | getAddress | nullAddress => exact fun h => h.1 rfl

/-- **The mutex is free after every call exactly if no call creates an item
without a free bit.** -/
theorem proceeds_iff (lay : Layout T) (t : Table T) (cs : List (Call T)) :
    Proceeds lay ⟨t, false⟩ cs ↔ NeverExhausts lay t cs := by
  induction cs generalizing t with
  | nil => exact iff_of_true ⟨nofun, fun s' h => by cases h; rfl⟩ trivial
  | cons c cs ih =>
    rw [NeverExhausts, Proceeds, run]
    by_cases h : Exhausts t c
    · rw [call_of_exhausts h, Outcome.done_bind]
      exact iff_of_false (not_proceeds_of_locked cs) fun hnev => hnev.1 h
    · rcases call_of_not_exhausts lay h with hcl | ⟨t', hcl⟩
      · rw [hcl]
        exact iff_of_true ⟨nofun, nofun⟩ ⟨h, nofun⟩
      · rw [hcl, Outcome.done_bind]
        refine (ih t').trans ⟨fun hnev => ⟨h, ?_⟩, fun hnev => hnev.2 _ rfl⟩
        intro s hs
        cases hs
        exact hnev

/-- Nine items in a table of eight: the last `create` fails, and the next call
waits for ever. -/
theorem get_waits_after_failed_create : ∃ t0, construct byteLayout 8 (fun _ => 0#8) = .done t0 ∧
      ¬ Proceeds byteLayout ⟨t0, false⟩ (replicate 9 (.op .create) ++ [.op (.get 0)]) :=
  ⟨_, rfl, fun h => h.1 rfl⟩

end Guarded

end Table

end Librdpma.Octopus
