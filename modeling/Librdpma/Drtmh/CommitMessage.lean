import Librdpma.Drtmh.RemoteSet

/-!
# The write-back message (`promote_to_write`, `DBSI::commit_rpc_handler2`)

`promote_to_write` appends an `RTXRemoteWriteItem` and the value to
`write_back_request_buf_`; the owner of the record reads the items back as
`RemoteWriteItem`s and installs the values. Both structs have a union of the
address of the `MemNode` and the key.
-/

namespace Librdpma.Drtmh

open Lib Memory List

/-! ## The receiver -/

/-- A `MemNode` of DBSI. `old_value` starts a chain of the older values, each
with its version. -/
structure SiNode where
  lock : BitVec 64
  seq : BitVec 64
  value : Option (List (BitVec 8))
  oldValue : List (BitVec 64 × List (BitVec 8))
deriving DecidableEq

/-- The older values once the current one is replaced. -/
def SiNode.chain (n : SiNode) (version : BitVec 64) : List (BitVec 64 × List (BitVec 8)) :=
  match n.value with
  | some cur => (version, cur) :: n.oldValue
  | none => []

/-- What `commit_rpc_handler2` does with one item, with `EM_OCC`. -/
def SiNode.commitRemote (n : SiNode) (newVal : Option (List (BitVec 8))) : SiNode :=
  let oldSeq := n.seq
  let n := { n with seq := 1#64 }
  { lock := 0#64, seq := n.seq + 1#64, value := newVal, oldValue := n.chain oldSeq }

/-- The items for `partition` among the next `k`, from address `p` on: where to
install, and what. -/
def ownWriteItems (partition : ℕ) (m : Memory) : ℕ → ℕ → List (BitVec 64 × List (BitVec 8))
  | 0, _ => []
  | k + 1, p =>
      let payload := leNat (m.read (p + 16) 2)
      let q := p + remoteWriteItemSize
      if (m p).toNat ≠ partition then ownWriteItems partition m k (q + payload)
      else (m.u64 (p + 8), m.read q payload) :: ownWriteItems partition m k (q + payload)

/-- How often `for (uint i = 0; i < num_items; ++i)` runs: the `int` is
converted. -/
def loopCount (num : BitVec 8) : ℕ := (num.signExtend 32).toNat

/-- What `commit_rpc_handler2` installs, in order. -/
def installs (partition : ℕ) (msg : Memory) : List (BitVec 64 × List (BitVec 8)) :=
  ownWriteItems partition msg (loopCount (msg 1)) requestHeaderSize

/-- `DBSI::commit_rpc_handler2` on the `MemNode`s of the owner. -/
def commitRpcHandler2 (partition : ℕ) (msg : Memory) (nodes : BitVec 64 → SiNode) :
    BitVec 64 → SiNode :=
  (installs partition msg).foldl (fun nodes e =>
    Function.update nodes e.1
      ((nodes e.1).commitRemote (if e.2.length = 0 then none else some e.2))) nodes

/-- The handler changes the nodes at the addresses of the items and no others; where no
address stands twice, each gets its own payload. -/
lemma commitRpcHandler2_apply (partition : ℕ) (msg : Memory) (nodes : BitVec 64 → SiNode) :
    (∀ a ∉ (installs partition msg).map Prod.fst,
        commitRpcHandler2 partition msg nodes a = nodes a) ∧
      (((installs partition msg).map Prod.fst).Nodup → ∀ e ∈ installs partition msg,
        commitRpcHandler2 partition msg nodes e.1
          = (nodes e.1).commitRemote (if e.2.length = 0 then none else some e.2)) := by
  unfold commitRpcHandler2
  generalize installs partition msg = items
  induction items generalizing nodes with
  | nil => simp
  | cons x items ih =>
    obtain ⟨hother, hown⟩ := ih (Function.update nodes x.1
      ((nodes x.1).commitRemote (if x.2.length = 0 then none else some x.2)))
    simp only [map_cons, mem_cons, not_or, nodup_cons, foldl_cons]
    constructor
    · intro a ha
      rw [hother a ha.2, Function.update_of_ne ha.1]
    · rintro ⟨hnot, hnd⟩ e (rfl | he)
      · rw [hother e.1 hnot, Function.update_self]
      · rw [hown hnd e he, Function.update_of_ne]
        intro heq
        exact hnot (heq ▸ mem_map_of_mem he)

/-! ## The sender -/

namespace RemoteSet

/-- `commit_remote` fills in the header. -/
def commitMessage (s : RemoteSet) (corId : BitVec 8) (maxTime : BitVec 64) : Memory :=
  let m := s.writeBackBuf.putU64 8 maxTime
  let m := m.write 0 [corId]
  m.write 1 [s.writeItems.setWidth 8]

/-- A promoted entry and its value. -/
structure Promotion where
  item : RemoteSetItem
  val : List (BitVec 8)
deriving DecidableEq

def Promotion.lockItem (e : Promotion) : RemoteLockItem :=
  ⟨e.item.pid, e.item.seq, e.item.node, e.item.tableid⟩

/-- What one call promotes. -/
def promotes (s : RemoteSet) : SetCall → List Promotion
  | .promoteToWrite id val => [⟨s.kvs id, val⟩]
  | _ => []

/-- What a run promotes. -/
def promotions : List SetCall → RemoteSet → List Promotion
  | [], _ => []
  | c :: calls, s =>
      match c.run s with
      | .done s' => s.promotes c ++ promotions calls s'
      | _ => []

/-- The installs a lock request asks for: each value at the address in the lock
item of its entry. -/
def lockedInstalls (partition : ℕ) (locks : List RemoteLockItem) (vals : List (List (BitVec 8))) :
    List (BitVec 64 × List (BitVec 8)) :=
  ((locks.zip vals).filter fun e => e.1.pid.toNat = partition).map fun e => (e.1.node, e.2)

/-! ## The buffer -/

/-- From `p` to `e` the memory holds the entries as the receiver reads them. -/
def Holds (m : Memory) (p : ℕ) : List Promotion → ℕ → Prop
  | [], e => p = e
  | x :: xs, e =>
      m p = x.item.pid ∧ m.u64 (p + 8) = x.item.key ∧ leNat (m.read (p + 16) 2) = x.val.length ∧
        m.read (p + remoteWriteItemSize) x.val.length = x.val ∧
        Holds m (p + remoteWriteItemSize + x.val.length) xs e

variable {m m' : Memory} {p e : ℕ} {E : List Promotion} {x : Promotion}

lemma Holds.le (h : Holds m p E e) : p ≤ e := by
  induction E generalizing p with
  | nil => exact le_of_eq h
  | cons x xs ih =>
    have := ih h.2.2.2.2
    omega

lemma Holds.congr (h : Holds m p E e) (hsm : ∀ a, p ≤ a → a < e → m' a = m a) : Holds m' p E e := by
  induction E generalizing p with
  | nil => exact h
  | cons x xs ih =>
    obtain ⟨hpid, hkey, hlen, hval, hrs⟩ := h
    have hle := hrs.le
    unfold remoteWriteItemSize at hle
    have hrd : ∀ a len, p ≤ a → a + len ≤ e → m'.read a len = m.read a len :=
      fun a len hpa hae => read_congr fun i hi => hsm _ (by omega) (by omega)
    refine ⟨?_, ?_, ?_, ?_, ?_⟩
    · rw [hsm p le_rfl (by omega), hpid]
    · rw [u64, hrd _ _ (by omega) (by omega), ← u64, hkey]
    · rw [hrd _ _ (by omega) (by omega), hlen]
    · rw [hrd _ _ (by omega) (by unfold remoteWriteItemSize; omega), hval]
    · refine ih hrs fun a hpa hae => hsm a ?_ hae
      unfold remoteWriteItemSize at hpa
      omega

lemma Holds.snoc (h : Holds m p E e)
    (hx : Holds m e [x] (e + remoteWriteItemSize + x.val.length)) :
    Holds m p (E ++ [x]) (e + remoteWriteItemSize + x.val.length) := by
  induction E generalizing p with
  | nil =>
    cases h
    exact hx
  | cons y ys ih => exact ⟨h.1, h.2.1, h.2.2.1, h.2.2.2.1, ih h.2.2.2.2⟩

lemma putWriteItem_of_lt {item : RemoteSetItem} {val : List (BitVec 8)} {b : ℕ} (h : b < p) :
    putWriteItem m p item val b = m b := by
  unfold putWriteItem putU64 remoteWriteItemSize
  rw [write_of_lt (by omega), write_of_lt (by omega), write_of_lt (by omega), write_of_lt h,
    write_of_lt (by omega), write_of_lt (by omega)]

/-- What the stores of `promote_to_write` leave: of the union the key, which is
stored last. -/
lemma holds_putWriteItem (m : Memory) (p : ℕ) (x : Promotion) (hlen : x.val.length < 2 ^ 16) :
    Holds (putWriteItem m p x.item x.val) p [x] (p + remoteWriteItemSize + x.val.length) := by
  refine ⟨?_, ?_, ?_, ?_, rfl⟩
  · unfold putWriteItem putU64 remoteWriteItemSize
    rw [write_of_lt (by omega), write_of_lt (by omega), write_of_lt (by omega), write_byte]
  · unfold putWriteItem remoteWriteItemSize
    rw [u64_write_apart (.inl (by omega)), u64_putU64]
  · unfold putWriteItem remoteWriteItemSize
    rw [read_write_apart (.inl (by omega)), putU64, read_write_apart (.inr (by simp)),
      read_write_apart (.inl (by omega)), read_write_apart (.inr (by simp)), putU64,
      read_write_apart (.inr (by simp))]
    have hrd := read_write m (p + 16) (leBytes 2 x.val.length)
    rw [length_leBytes] at hrd
    rw [hrd, leNat_leBytes_of_lt hlen]
  · unfold putWriteItem
    exact read_write _ _ _

lemma ownWriteItems_of_holds (partition : ℕ) (h : Holds m p E e) :
    ownWriteItems partition m E.length p
      = (E.filter fun x => x.item.pid.toNat = partition).map fun x => (x.item.key, x.val) := by
  induction E generalizing p with
  | nil => rfl
  | cons x xs ih =>
    obtain ⟨hpid, hkey, hlen, hval, hrs⟩ := h
    rw [length_cons, ownWriteItems, hlen, ih hrs, hpid, hkey, hval]
    by_cases hown : x.item.pid.toNat = partition
    · rw [if_neg (not_not.mpr hown), filter_cons_of_pos (by simpa using hown), map_cons]
    · rw [if_pos hown, filter_cons_of_neg (by simpa using hown)]

/-! ## Runs -/

/-- The buffers hold the entries promoted so far. -/
structure Holding (s : RemoteSet) (E : List Promotion) : Prop where
  locks : s.lockItems = E.map Promotion.lockItem
  items : s.writeItems = BitVec.ofNat 16 E.length
  layout : Holds s.writeBackBuf requestHeaderSize E s.writeBackEnd

variable {s s' : RemoteSet}

lemma Holding.promote {id : ℕ} {val : List (BitVec 8)} (h : Holding s E)
    (hc : s.promoteToWrite id val = .done s') : Holding s' (E ++ [⟨s.kvs id, val⟩]) := by
  obtain ⟨hft, hits, hlks, hbuf, hend, -⟩ := promoteToWrite_leaves hc
  have hlen : val.length < 2 ^ 16 := by
    unfold writeFits maxMsgSize at hft
    simp only [Bool.and_eq_true, decide_eq_true_eq] at hft
    omega
  constructor
  · rw [hlks, h.locks, map_append]
    rfl
  · rw [hits, h.items, length_append, length_singleton, BitVec.ofNat_add]
  · rw [hbuf, hend]
    refine Holds.snoc (x := ⟨s.kvs id, val⟩) (h.layout.congr fun a _ ha => ?_) ?_
    · exact putWriteItem_of_lt ha
    · exact holds_putWriteItem _ _ ⟨s.kvs id, val⟩ hlen

lemma Holding.call {c : SetCall} (h : Holding s E) (hclr : ∀ n, c ≠ .clear n)
    (hc : c.run s = .done s') : Holding s' (E ++ s.promotes c) := by
  cases c with
  | clear n => exact absurd rfl (hclr n)
  | promoteToWrite id val => exact h.promote hc
  | add | addLong | doReads | getResults | needValidate =>
    have hsm := sameWrites_call hc (fun _ => nofun) fun _ _ => nofun
    constructor
    · rw [hsm.locks, h.locks]
      exact congrArg _ (append_nil E).symm
    · rw [hsm.items, h.items]
      exact congrArg _ (congrArg _ (append_nil E).symm)
    · rw [hsm.buf, hsm.bufEnd]
      exact (append_nil E).symm ▸ h.layout

lemma Holding.run {calls : List SetCall} (h : Holding s E) (hclr : ∀ n, .clear n ∉ calls)
    (hrun : runCalls calls s = .done s') :
    Holding s' (E ++ promotions calls s) := by
  induction calls generalizing s E with
  | nil =>
    cases hrun
    rwa [promotions, append_nil]
  | cons c calls ih =>
    rw [runCalls, foldlM_cons] at hrun
    obtain ⟨s1, hc, hrs⟩ := Outcome.bind_eq_done.mp hrun
    have hfst := h.call (fun n heq => hclr n (heq ▸ mem_cons_self)) hc
    have hla := ih hfst (fun n hn => hclr n (mem_cons_of_mem _ hn)) hrs
    rw [promotions, hc]
    rwa [append_assoc] at hla

lemma lockedInstalls_map (partition : ℕ) (E : List Promotion) :
    lockedInstalls partition (E.map Promotion.lockItem) (E.map Promotion.val)
      = (E.filter fun x => x.item.pid.toNat = partition).map fun x => (x.item.node, x.val) := by
  unfold lockedInstalls
  rw [zip_map', filter_map, map_map]
  rfl

lemma Holding.installs (h : Holding s E) (hlen : E.length ≤ 127) (corId : BitVec 8)
    (maxTime : BitVec 64) (partition : ℕ) :
    installs partition (s.commitMessage corId maxTime)
      = (E.filter fun x => x.item.pid.toNat = partition).map fun x => (x.item.key, x.val) := by
  have hnum : loopCount (s.commitMessage corId maxTime 1) = E.length := by
    unfold commitMessage
    rw [write_byte, h.items, loopCount]
    have hsm : (BitVec.ofNat 16 E.length).setWidth 8 = BitVec.ofNat 8 E.length := by
      apply BitVec.eq_of_toNat_eq
      simp
    have hmsb : (BitVec.ofNat 8 E.length).msb = false := by
      rw [BitVec.msb_eq_false_iff_two_mul_lt, BitVec.toNat_ofNat]
      omega
    rw [hsm, BitVec.signExtend_eq_setWidth_of_msb_false hmsb, BitVec.toNat_setWidth,
      BitVec.toNat_ofNat]
    omega
  have hlay : Holds (s.commitMessage corId maxTime) requestHeaderSize E s.writeBackEnd := by
    refine h.layout.congr fun a ha _ => ?_
    have hout : ∀ (m : Memory) (b : ℕ) (bs : List (BitVec 8)), b + bs.length ≤ a →
        m.write b bs a = m a := fun m b bs hb => if_neg fun hin => by omega
    unfold requestHeaderSize at ha
    unfold commitMessage putU64
    rw [hout _ 1 _ (by simp; omega), hout _ 0 _ (by simp; omega), hout _ 8 _ (by simp; omega)]
  rw [Drtmh.installs, hnum, ownWriteItems_of_holds partition hlay]

/-- **A commit writes the records that were locked exactly if** every entry of the
server has the address of its record for a key. The entries are those a
transaction promotes between two `clear`s, with whatever else it adds and reads
meanwhile. -/
theorem commit_writes_locked_iff (kvs : ℕ → RemoteSetItem) (buf : Memory) (metaLen : ℕ)
    (calls : List SetCall) (hclear : ∀ n, .clear n ∉ calls) (s : RemoteSet)
    (hrun : runCalls calls ((new kvs buf).clear metaLen) = .done s)
    (corId : BitVec 8) (maxTime : BitVec 64) (partition : ℕ) :
    installs partition (s.commitMessage corId maxTime)
        = lockedInstalls partition s.lockItems
          ((promotions calls ((new kvs buf).clear metaLen)).map Promotion.val) ↔
      ∀ x ∈ promotions calls ((new kvs buf).clear metaLen),
        x.item.pid.toNat = partition → x.item.key = x.item.node := by
  set start := (new kvs buf).clear metaLen
  have hrch : Reachable s :=
    Reachable.runCalls ((Reachable.new kvs buf).call (.clear metaLen) rfl) hrun
  have hnil : Holding start [] := ⟨rfl, rfl, rfl⟩
  have hhd := hnil.run hclear hrun
  rw [nil_append] at hhd
  have hlen : (promotions calls start).length ≤ 127 := by
    have := hrch.writeInv.locks
    rwa [hhd.locks, length_map] at this
  rw [hhd.installs hlen, hhd.locks, lockedInstalls_map, map_inj_left]
  simp only [mem_filter, decide_eq_true_eq, Prod.mk.injEq, and_true, and_imp]

/-- Records whose keys are their addresses: 64 and 128 of server 1, the others of
server 2. -/
def sampleKvs : ℕ → RemoteSetItem := fun i =>
  ⟨if i < 2 then 1#8 else 2#8, 0#8, 2#64, BitVec.ofNat 64 (64 * (i + 1)),
    BitVec.ofNat 64 (64 * (i + 1))⟩

theorem commit_writes_locked_three :
    ∃ s, runCalls [.promoteToWrite 0 [7#8], .promoteToWrite 2 [], .promoteToWrite 1 [8#8, 9#8]]
        ((new sampleKvs fun _ => 0#8).clear 0) = .done s ∧
      installs 1 (s.commitMessage 1#8 0#64) = lockedInstalls 1 s.lockItems [[7#8], [], [8#8, 9#8]] ∧
      installs 1 (s.commitMessage 1#8 0#64) = [(64#64, [7#8]), (128#64, [8#8, 9#8])] := by
  obtain ⟨s, hs, hins⟩ : ∃ s, runCalls
      [.promoteToWrite 0 [7#8], .promoteToWrite 2 [], .promoteToWrite 1 [8#8, 9#8]]
      ((new sampleKvs fun _ => 0#8).clear 0) = .done s ∧
        installs 1 (s.commitMessage 1#8 0#64) = [(64#64, [7#8]), (128#64, [8#8, 9#8])] := by
    decide +kernel
  refine ⟨s, hs, (commit_writes_locked_iff sampleKvs (fun _ => 0#8) 0 _ (by simp) s hs 1#8 0#64
    1).mpr ?_, hins⟩
  decide +kernel

/-- The record with key 5 at address 64: the value goes to address 5. -/
theorem commit_writes_elsewhere :
    ¬ ∀ (kvs : ℕ → RemoteSetItem) (buf : Memory) (metaLen : ℕ) (calls : List SetCall)
        (s : RemoteSet), (∀ n, .clear n ∉ calls) →
        runCalls calls ((new kvs buf).clear metaLen) = .done s →
        ∀ (corId : BitVec 8) (maxTime : BitVec 64) (partition : ℕ),
          installs partition (s.commitMessage corId maxTime)
            = lockedInstalls partition s.lockItems
              ((promotions calls ((new kvs buf).clear metaLen)).map Promotion.val) := by
  intro hall
  obtain ⟨s, hs, hins, hlkd⟩ : ∃ s, runCalls [.promoteToWrite 0 [7#8]]
      ((new (fun _ => ⟨1#8, 0#8, 2#64, 5#64, 64#64⟩) fun _ => 0#8).clear 0) = .done s ∧
        installs 1 (s.commitMessage 1#8 0#64) = [(5#64, [7#8])] ∧
        lockedInstalls 1 s.lockItems [[7#8]] = [(64#64, [7#8])] := by decide
  have h := hall _ _ 0 _ s (by simp) hs 1#8 0#64 1
  rw [hins] at h
  exact absurd (h.trans hlkd) (by decide)

end RemoteSet

end Librdpma.Drtmh
