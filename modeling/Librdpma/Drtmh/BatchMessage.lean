import Librdpma.Lib.Batch

/-!
# Batched messages (`rtx/batch_op_impl.hpp`, `rtx/msg_format.hpp`)

`add_batch_entry` and `prepare_write_contents` append items behind the header of a
request buffer, `send_batch_op` stores their number in the header, and a handler
walks over the message with `RTX_ITER_ITEM`. The number is an `int8_t`, so of a
message with 128 items or more the handler sees none. A read item has 16 bits for
the position in the read set, but its constructor takes 8.
-/

namespace Librdpma.Drtmh.BatchMessage

open Lib Memory List BitVec

/-! ## Items -/

/-- `req_type_t` -/
inductive ReqType : Type where
  | read
  | readLock
  | insert
deriving DecidableEq

def ReqType.code : ReqType → ℕ
  | .read => 0
  | .readLock => 1
  | .insert => 2

/-- No other codes are sent. -/
def ReqType.ofCode : ℕ → ReqType
  | 0 => .read
  | 1 => .readLock
  | _ => .insert

/-- `RTXReadItem` -/
structure RTXReadItem where
  type : ReqType
  pid : BitVec 8
  key : BitVec 64
  tableid : BitVec 8
  idx : BitVec 16
  len : BitVec 16
deriving DecidableEq

/-- `RtxLockItem` -/
structure RtxLockItem where
  pid : BitVec 8
  tableid : BitVec 8
  key : BitVec 64
  seq : BitVec 64
deriving DecidableEq

/-- `RtxWriteItem` with the bytes behind it, whose number is its `len`, a `uint16_t`. -/
structure RtxWriteItem where
  pid : BitVec 8
  tableid : BitVec 8
  key : BitVec 64
  payload : List (BitVec 8)
  short : payload.length < 2 ^ 16
deriving DecidableEq

/-! ## Layouts -/

def readLayout : Layout where
  fields := [(0, 4), (4, 1), (8, 8), (16, 1), (18, 2), (20, 2)]
  size := 24
  inside := by decide
  apart := by decide

def lockLayout : Layout where
  fields := [(0, 1), (1, 1), (8, 8), (16, 8)]
  size := 24
  inside := by decide
  apart := by decide

def writeLayout : Layout where
  fields := [(0, 1), (1, 1), (8, 8), (16, 2)]
  size := 24
  inside := by decide
  apart := by decide

/-- What the constructor of `RTXReadItem` stores: its parameter `idx` is a `uint8_t`. -/
def RTXReadItem.vals (it : RTXReadItem) : List ℕ :=
  [it.type.code, it.pid.toNat, it.key.toNat, it.tableid.toNat, (it.idx.setWidth 8).toNat,
    it.len.toNat]

def RTXReadItem.ofVals (vals : List ℕ) : RTXReadItem :=
  ⟨.ofCode (vals.getD 0 0), .ofNat 8 (vals.getD 1 0), .ofNat 64 (vals.getD 2 0),
    .ofNat 8 (vals.getD 3 0), .ofNat 16 (vals.getD 4 0), .ofNat 16 (vals.getD 5 0)⟩

lemma RTXReadItem.fit (it : RTXReadItem) :
    Forall₂ (fun f v => v < 256 ^ f.2) readLayout.fields it.vals := by
  have hcode : it.type.code < 256 ^ 4 := by
    cases it.type <;> decide
  have hidx : (it.idx.setWidth 8).toNat < 256 ^ 2 := (it.idx.setWidth 8).isLt.trans (by decide)
  exact .cons hcode (.cons it.pid.isLt (.cons it.key.isLt (.cons it.tableid.isLt
    (.cons hidx (.cons it.len.isLt .nil)))))

def readCodec : Codec RTXReadItem :=
  readLayout.codec RTXReadItem.vals RTXReadItem.ofVals RTXReadItem.fit

def RtxLockItem.vals (it : RtxLockItem) : List ℕ :=
  [it.pid.toNat, it.tableid.toNat, it.key.toNat, it.seq.toNat]

def RtxLockItem.ofVals (vals : List ℕ) : RtxLockItem :=
  ⟨.ofNat 8 (vals.getD 0 0), .ofNat 8 (vals.getD 1 0), .ofNat 64 (vals.getD 2 0),
    .ofNat 64 (vals.getD 3 0)⟩

lemma RtxLockItem.fit (it : RtxLockItem) :
    Forall₂ (fun f v => v < 256 ^ f.2) lockLayout.fields it.vals :=
  .cons it.pid.isLt (.cons it.tableid.isLt (.cons it.key.isLt (.cons it.seq.isLt .nil)))

def lockCodec : Codec RtxLockItem :=
  lockLayout.codec RtxLockItem.vals RtxLockItem.ofVals RtxLockItem.fit

def RtxWriteItem.vals (it : RtxWriteItem) : List ℕ :=
  [it.pid.toNat, it.tableid.toNat, it.key.toNat, it.payload.length]

lemma RtxWriteItem.fit (it : RtxWriteItem) :
    Forall₂ (fun f v => v < 256 ^ f.2) writeLayout.fields it.vals :=
  .cons it.pid.isLt (.cons it.tableid.isLt (.cons it.key.isLt (.cons it.short .nil)))

/-- The item and, behind it, `memcpy` of its data. -/
def putWriteItem (m : Memory) (p : ℕ) (it : RtxWriteItem) : Memory :=
  (writeLayout.put m p it.vals).write (p + writeLayout.size) it.payload

/-- What a handler sees at `ttptr`, before it adds `item->len`. -/
def getWriteItem (m : Memory) (p : ℕ) : RtxWriteItem :=
  let vals := writeLayout.get m p
  { pid := .ofNat 8 (vals.getD 0 0)
    tableid := .ofNat 8 (vals.getD 1 0)
    key := .ofNat 64 (vals.getD 2 0)
    payload := m.read (p + writeLayout.size) (vals.getD 3 0 % 2 ^ 16)
    short := by rw [length_read]; exact Nat.mod_lt _ (by decide) }

lemma getWriteItem_putWriteItem (m : Memory) (p : ℕ) (it : RtxWriteItem) :
    getWriteItem (putWriteItem m p it) p = it := by
  have hvl : writeLayout.get (putWriteItem m p it) p = it.vals := by
    rw [writeLayout.get_congr (m := writeLayout.put m p it.vals) fun a _ ha => ?_,
      writeLayout.get_put it.fit]
    exact write_of_lt ha
  have hpyl : (putWriteItem m p it).read (p + writeLayout.size) it.payload.length
      = it.payload := read_write _ _ _
  have hlen : it.payload.length % 2 ^ 16 = it.payload.length := Nat.mod_eq_of_lt it.short
  unfold getWriteItem
  obtain ⟨pid, tableid, key, payload, hsht⟩ := it
  simp only [hvl, RtxWriteItem.vals, getD_cons_zero, getD_cons_succ,
    ofNat_toNat, setWidth_eq, RtxWriteItem.mk.injEq, true_and]
  rw [hlen]
  exact hpyl

lemma getWriteItem_congr {m m' : Memory} {p : ℕ}
    (h : ∀ a, p ≤ a → a < p + (writeLayout.size + (getWriteItem m p).payload.length) →
      m' a = m a) : getWriteItem m' p = getWriteItem m p := by
  have hvl : writeLayout.get m' p = writeLayout.get m p :=
    writeLayout.get_congr fun a hpa ha => h a hpa (by omega)
  have hrd : m'.read (p + writeLayout.size) ((writeLayout.get m p).getD 3 0 % 2 ^ 16)
      = m.read (p + writeLayout.size) ((writeLayout.get m p).getD 3 0 % 2 ^ 16) := by
    refine read_congr fun i hi => h _ (by omega) ?_
    have hlen : (getWriteItem m p).payload.length
        = (writeLayout.get m p).getD 3 0 % 2 ^ 16 := length_read _ _ _
    omega
  unfold getWriteItem
  simp only [hvl, hrd]

def writeCodec : Codec RtxWriteItem where
  size it := writeLayout.size + it.payload.length
  put := putWriteItem
  get := getWriteItem
  stored it := it
  size_stored _ := rfl
  get_put := getWriteItem_putWriteItem
  put_of_lt {m p it a} h := by
    unfold putWriteItem
    rw [write_of_lt (by omega), writeLayout.put_outside (.inl h)]
  get_congr := getWriteItem_congr

/-! ## Messages -/

/-- `sizeof(RTXRequestHeader)` -/
def requestHeaderSize : ℕ := 16

def maxMsgSize : ℕ := 4096

section Message

variable {I : Type}

/-- The buffer after `add_batch_entry` for each item and `send_batch_op`, which stores
`batch_size_` as `num`. With no item nothing is sent. -/
def send (C : Codec I) (reqBuf : Memory) (items : List I) : Option Memory :=
  let buf := (C.putAll reqBuf requestHeaderSize items).1
  if 0 < items.length then some (buf.write 1 [BitVec.ofNat 8 items.length]) else none

/-- `batch_msg_size`, the end of the last item. -/
def batchMsgSize (C : Codec I) (reqBuf : Memory) (items : List I) : ℕ :=
  (C.putAll reqBuf requestHeaderSize items).2

/-- The items that `RTX_ITER_ITEM` visits: `num` is read as an `int8_t`. -/
def iterItems (C : Codec I) (msg : Memory) : List I :=
  C.walk msg (msg 1).toInt.toNat requestHeaderSize

variable {C : Codec I} {reqBuf msg : Memory} {items : List I}

lemma loopCount_eq {n : ℕ} (h : n < 256) :
    (BitVec.ofNat 8 n).toInt.toNat = if n ≤ 127 then n else 0 := by
  have hmod : n % 2 ^ 8 = n := Nat.mod_eq_of_lt h
  rw [toInt_eq_toNat_cond, toNat_ofNat, hmod]
  split <;> split <;> omega

lemma batchMsgSize_eq : batchMsgSize C reqBuf items = requestHeaderSize + (items.map C.size).sum :=
  C.putAll_end reqBuf requestHeaderSize items

lemma send_of_pos (h : 0 < items.length) : ∃ msg, send C reqBuf items = some msg := ⟨_, if_pos h⟩

/-- Up to 127 items are visited as they were stored, 128 to 255 not at all. -/
lemma iterItems_send (hlt : items.length < 256) (h : send C reqBuf items = some msg) :
    iterItems C msg = if items.length ≤ 127 then items.map C.stored else [] := by
  unfold send at h
  split at h
  case isFalse => cases h
  case isTrue =>
    cases h
    have hhd : C.Holds (C.putAll reqBuf requestHeaderSize items).1 requestHeaderSize
        (items.map C.stored) (C.putAll reqBuf requestHeaderSize items).2 :=
      (show C.Holds reqBuf requestHeaderSize [] requestHeaderSize from rfl).putAll items
    have hsm : ∀ a, requestHeaderSize ≤ a →
        (C.putAll reqBuf requestHeaderSize items).1.write 1 [BitVec.ofNat 8 items.length] a
          = (C.putAll reqBuf requestHeaderSize items).1 a := fun a ha => by
      refine if_neg fun hin => ?_
      have hlen : [BitVec.ofNat 8 items.length].length = 1 := rfl
      unfold requestHeaderSize at ha
      omega
    unfold iterItems
    rw [write_byte, loopCount_eq hlt]
    split
    · have hwl := (hhd.congr fun a ha _ => hsm a ha).walk
      rwa [length_map] at hwl
    · rfl

end Message

/-! ## Round trip -/

/-- The three kinds of messages. -/
inductive Kind : Type where
  | read
  | lock
  | write

def Kind.Item : Kind → Type
  | .read => RTXReadItem
  | .lock => RtxLockItem
  | .write => RtxWriteItem

def Kind.codec : (k : Kind) → Codec k.Item
  | .read => readCodec
  | .lock => lockCodec
  | .write => writeCodec

/-- The constructor of the item keeps all fields. -/
def Kind.Exact : (k : Kind) → k.Item → Prop
  | .read, it => (show RTXReadItem from it).idx.toNat < 256
  | .lock, _ => True
  | .write, _ => True

lemma readCodec_stored (it : RTXReadItem) :
    readCodec.stored it = { it with idx := (it.idx.setWidth 8).setWidth 16 } := by
  obtain ⟨type, pid, key, tableid, idx, len⟩ := it
  have hcode : ReqType.ofCode type.code = type := by
    cases type <;> rfl
  show RTXReadItem.ofVals (RTXReadItem.vals _) = _
  have hidx : BitVec.ofNat 16 (idx.setWidth 8).toNat = (idx.setWidth 8).setWidth 16 :=
    ofNat_toNat ..
  simp only [RTXReadItem.ofVals, RTXReadItem.vals, getD_cons_zero, getD_cons_succ,
    BitVec.ofNat_toNat, BitVec.setWidth_eq, hcode, hidx]

lemma lockCodec_stored (it : RtxLockItem) : lockCodec.stored it = it := by
  obtain ⟨pid, tableid, key, seq⟩ := it
  show RtxLockItem.ofVals (RtxLockItem.vals _) = _
  simp [RtxLockItem.ofVals, RtxLockItem.vals]

lemma Kind.stored_eq_iff (k : Kind) (it : k.Item) : k.codec.stored it = it ↔ k.Exact it := by
  match k with
  | .read =>
    obtain ⟨type, pid, key, tableid, idx, len⟩ := (show RTXReadItem from it)
    show readCodec.stored _ = _ ↔ idx.toNat < 256
    rw [readCodec_stored]
    simp only [RTXReadItem.mk.injEq, true_and, and_true]
    constructor
    · intro h
      rw [← h, toNat_setWidth, toNat_setWidth]
      omega
    · intro h
      apply eq_of_toNat_eq
      rw [toNat_setWidth, toNat_setWidth]
      omega
  | .lock => exact iff_of_true (lockCodec_stored it) trivial
  | .write => exact iff_of_true rfl trivial

lemma Kind.le_size (k : Kind) (it : k.Item) : 24 ≤ k.codec.size it := by
  match k with
  | .read | .lock => exact le_refl 24
  | .write => exact Nat.le_add_right 24 _

lemma Kind.length_le (k : Kind) (items : List k.Item) :
    24 * items.length ≤ (items.map k.codec.size).sum := by
  induction items with
  | nil => exact le_refl 0
  | cons it items ih =>
    have := k.le_size it
    rw [length_cons, map_cons, sum_cons]
    omega

/-- **Batched messages round-trip** exactly up to 127 items, if the positions of read
items are below 256: a handler visits the encoded items, in order, with all fields
and payloads. -/
theorem batch_round_trip_iff (k : Kind) (reqBuf : Memory) (items : List k.Item)
    (hfits : batchMsgSize k.codec reqBuf items ≤ maxMsgSize) :
    (∀ msg, send k.codec reqBuf items = some msg → iterItems k.codec msg = items) ↔
      items.length ≤ 127 ∧ ∀ it ∈ items, k.Exact it := by
  have hlen := k.length_le items
  rw [batchMsgSize_eq] at hfits
  unfold requestHeaderSize maxMsgSize at hfits
  by_cases hnil : items = []
  · subst hnil
    exact iff_of_true (fun msg h => by cases h) ⟨Nat.zero_le _, nofun⟩
  have hpos : 0 < items.length := length_pos_iff.mpr hnil
  obtain ⟨msg, hmsg⟩ : ∃ msg, send k.codec reqBuf items = some msg := send_of_pos hpos
  have hiter := iterItems_send (by omega) hmsg
  have hsto : items.map k.codec.stored = items ↔ ∀ it ∈ items, k.Exact it := by
    have hmap := map_inj_left (l := items) (f := k.codec.stored) (g := id)
    rw [map_id] at hmap
    exact hmap.trans (forall₂_congr fun it _ => k.stored_eq_iff it)
  constructor
  · intro h
    have hits := h msg hmsg
    rw [hiter] at hits
    split at hits
    case isTrue hle => exact ⟨hle, hsto.mp hits⟩
    case isFalse => exact absurd hits.symm hnil
  · rintro ⟨hle, hex⟩ msg' hmsg'
    rw [hmsg, Option.some.injEq] at hmsg'
    rw [← hmsg', hiter, if_pos hle]
    exact hsto.mpr hex

def sampleWrite : RtxWriteItem := ⟨1#8, 2#8, 3#64, [4#8, 5#8], by decide⟩

/-- A message with two writes. -/
theorem batch_round_trip_two :
    ∃ msg, send Kind.write.codec (fun _ => 0#8) [sampleWrite, sampleWrite] = some msg ∧
      iterItems Kind.write.codec msg = [sampleWrite, sampleWrite] := by
  have hrnd := (batch_round_trip_iff .write (fun _ => 0#8) [sampleWrite, sampleWrite]
    (by rw [batchMsgSize_eq]; decide)).mpr ⟨by decide, fun _ _ => trivial⟩
  obtain ⟨msg, hmsg⟩ : ∃ msg, send Kind.write.codec (fun _ => 0#8) [sampleWrite, sampleWrite]
      = some msg := send_of_pos (Nat.zero_lt_succ 1)
  exact ⟨msg, hmsg, hrnd msg hmsg⟩

def sampleLock : RtxLockItem := ⟨1#8, 2#8, 3#64, 4#64⟩

/-- Of 128 lock items, which take 3088 bytes, the handler visits none. -/
theorem batch_of_128_lost :
    batchMsgSize lockCodec (fun _ => 0#8) (replicate 128 sampleLock) ≤ maxMsgSize ∧
      ∃ msg, send lockCodec (fun _ => 0#8) (replicate 128 sampleLock) = some msg ∧
        iterItems lockCodec msg = [] := by
  have hlen : (replicate 128 sampleLock).length = 128 := length_replicate
  obtain ⟨msg, hmsg⟩ : ∃ msg, send lockCodec (fun _ => 0#8) (replicate 128 sampleLock)
      = some msg := send_of_pos (by rw [hlen]; decide)
  refine ⟨?_, msg, hmsg, ?_⟩
  · rw [batchMsgSize_eq, map_replicate, sum_replicate_nat]
    decide
  · rw [iterItems_send (by rw [hlen]; decide) hmsg, hlen, if_neg (by decide)]

end Librdpma.Drtmh.BatchMessage
