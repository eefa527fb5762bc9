import Librdpma.Lib.Outcome
import Librdpma.Drtmh.BatchMessage

/-!
# Batched reads (`OCC::add_batch_read`, `parse_batch_result`, `rtx/occ_inline.hpp`)

A remote read appends an entry to `read_set_` and a request with the position of
that entry to the batch. `get_readset` of an entry without data sends the batch, and
the replies are stored at the positions that the requests carry. In between
`add_to_write` may erase an entry of `read_set_`, which moves the entries behind it.

The reads of a transaction are numbered (`id`) to tell which entry was created for
which request; the code has no such number.

As long as nothing is moved while requests wait, the entries of the waiting requests
stand at the end of `read_set_`, in the order of the batch (`Inv`).
-/

namespace Librdpma.Drtmh.BatchRead

open Lib BatchMessage List Function

/-! ## The transaction -/

/-- `ReadSetItem`; `data` is what `data_ptr` points to. -/
structure ReadSetItem where
  id : ℕ
  tableid : BitVec 8
  len : BitVec 8
  key : BitVec 64
  data : Option (List (BitVec 8))
  seq : BitVec 64
  pid : BitVec 8
deriving DecidableEq

structure Request where
  id : ℕ
  item : RTXReadItem
deriving DecidableEq

/-- The sets and `read_batch_helper_`. -/
structure State where
  readSet : List ReadSetItem
  writeSet : List ReadSetItem
  batch : List Request
  created : ℕ
deriving DecidableEq

/-- The items of the batch. -/
def State.items (s : State) : List RTXReadItem := s.batch.map Request.item

/-- After `begin`. -/
def init : State := ⟨[], [], [], 0⟩

/-- The entry of a read. -/
def State.newEntry (s : State) (tableid : BitVec 8) (key : BitVec 64) (pid len : BitVec 8) :
    ReadSetItem :=
  ⟨s.created, tableid, len, key, none, 0#64, pid⟩

/-- Its request, with the position of the entry. -/
def State.newRequest (s : State) (tableid : BitVec 8) (key : BitVec 64) (pid len : BitVec 8) :
    Request :=
  ⟨s.created, .read, pid, key, tableid, BitVec.ofNat 16 s.readSet.length, len.setWidth 16⟩

/-- `remote_read`, `add_batch_read` -/
def State.addBatchRead (s : State) (tableid : BitVec 8) (key : BitVec 64) (pid len : BitVec 8) :
    State :=
  { readSet := s.readSet ++ [s.newEntry tableid key pid len]
    writeSet := s.writeSet
    batch := s.batch ++ [s.newRequest tableid key pid len]
    created := s.created + 1 }

/-- `add_to_write(idx)`; the process ends if the assertion fails. -/
def State.addToWrite (s : State) (idx : ℕ) : Outcome State :=
  match s.readSet[idx]? with
  | none => .exit
  | some e => .done { s with readSet := s.readSet.eraseIdx idx, writeSet := s.writeSet ++ [e] }

/-! ## The exchange -/

/-- An `OCCResponse` with its payload. -/
structure Reply where
  idx : ℕ
  seq : BitVec 64
  payload : List (BitVec 8)

/-- The other side during one exchange: what the message handler puts before a message,
the records that `local_get_op` finds, and the order in which the replies of the servers
arrive. -/
structure Network where
  reqBuf : Memory
  msgPadding : ℕ
  answer : RTXReadItem → BitVec 64 × (ℕ → BitVec 8)
  arrival : List (BitVec 8) → List (BitVec 8)
  perm : ∀ macs, (arrival macs).Perm macs

/-- The items of the message as a handler visits them. -/
def visited (reqBuf : Memory) (items : List RTXReadItem) : List RTXReadItem :=
  match send readCodec reqBuf items with
  | none => []
  | some msg => iterItems readCodec msg

/-- `mac_set_` -/
def macSet (items : List RTXReadItem) : List (BitVec 8) :=
  (items.map (·.pid)).dedup

def Network.payload (net : Network) (item : RTXReadItem) : List (BitVec 8) :=
  (range item.len.toNat).map (net.answer item).2

def Network.reply (net : Network) (item : RTXReadItem) : Reply :=
  ⟨item.idx.toNat, (net.answer item).1, net.payload item⟩

/-- `rpc_padding()`; a `rrpc_header` has 8 bytes. -/
def Network.rpcPadding (net : Network) : ℕ := net.msgPadding + 8

/-- `reply_msg_size` of `RRpc` -/
def replyMsgSize : ℕ := 1024

/-- The items of the node `mac`. -/
def itemsOf (items : List RTXReadItem) (mac : BitVec 8) : List RTXReadItem :=
  items.filter (·.pid = mac)

/-- The bytes of the responses: for each item an `OCCResponse` and the payload. -/
def responseSize (items : List RTXReadItem) : ℕ :=
  (items.map fun item => 16 + item.len.toNat).sum

/-- The bytes of a message to the client: the padding, a header and the responses. -/
def Network.messageSize (net : Network) (items : List RTXReadItem) : ℕ :=
  net.rpcPadding + 2 + responseSize items

/-- `read_rpc_handler` at the node `mac` answers its own items. It writes them to the
reply buffer without a look at its size, and `send_reply` asserts that the message is
shorter than that. -/
def Network.readRpcHandler (net : Network) (items : List RTXReadItem) (mac : BitVec 8) :
    Outcome (List Reply) :=
  if replyMsgSize < net.messageSize (itemsOf items mac) then .undefined
  else if net.messageSize (itemsOf items mac) = replyMsgSize then .exit
  else .done ((itemsOf items mac).map net.reply)

/-- What is in `reply_buf_` once all servers have answered. -/
def Network.collect (net : Network) (items : List RTXReadItem) : Outcome (List Reply) := do
  let replies ← (net.arrival (macSet items)).mapM (net.readRpcHandler (visited net.reqBuf items))
  return replies.flatten

/-- The bytes of all replies: a header from each server, and the responses. -/
def replySize (items : List RTXReadItem) : ℕ :=
  2 * (macSet items).length + responseSize items

/-- `memcpy` takes the length from the entry. (If that is more than the payload, the
code copies what follows in the buffer, too.) -/
def ReadSetItem.fill (e : ReadSetItem) (r : Reply) : ReadSetItem :=
  { e with data := some (r.payload.take e.len.toNat), seq := r.seq }

/-- One item of `parse_batch_result`. -/
def storeReply (readSet : List ReadSetItem) (r : Reply) : Outcome (List ReadSetItem) :=
  match readSet[r.idx]? with
  | none => .undefined
  | some e => .done (readSet.set r.idx (e.fill r))

def parseBatchResult (readSet : List ReadSetItem) (replies : List Reply) :
    Outcome (List ReadSetItem) :=
  replies.foldlM storeReply readSet

/-- The exchange of `get_readset`. The replies are copied to `reply_buf_` one after
the other, without a look at its size. -/
def State.exchange (s : State) (net : Network) : Outcome State := do
  let replies ← net.collect s.items
  if maxMsgSize < replySize s.items then .undefined
  else
    let readSet ← parseBatchResult s.readSet replies
    return { s with readSet := readSet }

/-- `get_readset` with its assertions; the entries are of other nodes, so that the test of
`pid` holds. -/
def State.getReadset (s : State) (net : Network) (idx : ℕ) : Outcome State :=
  match s.readSet[idx]? with
  | none => .exit
  | some e =>
      if e.data ≠ none then .done s
      else if s.batch = [] then .exit
      else do
        let s ← s.exchange net
        match s.readSet[idx]? with
        | none => .exit
        | some e => if e.data ≠ none then .done { s with batch := [] } else .exit

/-! ## Runs -/

inductive Call : Type where
  | read (tableid : BitVec 8) (key : BitVec 64) (pid len : BitVec 8)
  | addToWrite (idx : ℕ)
  | getReadset (net : Network) (idx : ℕ)

def State.call (s : State) : Call → Outcome State
  | .read tableid key pid len => .done (s.addBatchRead tableid key pid len)
  | .addToWrite idx => s.addToWrite idx
  | .getReadset net idx => s.getReadset net idx

/-- Each request of the batch has its reply in the entry that was created for it. -/
def Delivered (s : State) (net : Network) : Prop :=
  ∃ s', s.exchange net = .done s' ∧
    ∀ r ∈ s.batch, ∃ e ∈ s'.readSet ++ s'.writeSet, e.id = r.id ∧ e.pid = r.item.pid ∧
      e.tableid = r.item.tableid ∧ e.key = r.item.key ∧
      e.data = some (net.payload r.item) ∧ e.seq = (net.answer r.item).1

/-- The reply of each server is shorter than its buffer, and all of them fit into
`reply_buf_`. -/
def Network.RepliesFit (net : Network) (items : List RTXReadItem) : Prop :=
  (∀ mac ∈ macSet items, net.messageSize (itemsOf items mac) < replyMsgSize) ∧
    replySize items ≤ maxMsgSize

instance (net : Network) (items : List RTXReadItem) : Decidable (net.RepliesFit items) :=
  inferInstanceAs (Decidable (_ ∧ _))

/-- At most 100 reads, and no `add_to_write` while requests wait to be sent. -/
def State.Allows (s : State) : Call → Prop
  | .read .. => s.created < 100
  | .addToWrite _ => s.batch = []
  | .getReadset .. => True

inductive Reached : State → Prop where
  | init : Reached init
  | call {s s' : State} {c : Call} (h : Reached s) (hallow : s.Allows c)
      (hdone : s.call c = .done s') : Reached s'

/-! ## The replies -/

/-- The items in the order in which their replies arrive. -/
def Network.served (net : Network) (items : List RTXReadItem) : List RTXReadItem :=
  (net.arrival (macSet items)).flatMap (itemsOf items)

/-- The entry of a request until its reply comes. -/
def Request.entry (r : Request) : ReadSetItem :=
  ⟨r.id, r.item.tableid, r.item.len.setWidth 8, r.item.key, none, 0#64, r.item.pid⟩

variable {s s' : State} {net : Network} {replies : List Reply} {items : List RTXReadItem}
  {batch : List Request} {ready : List ReadSetItem} {r : Request}

lemma visited_eq (reqBuf : Memory) (hlen : items.length ≤ 127)
    (hidx : ∀ item ∈ items, item.idx.toNat < 256) : visited reqBuf items = items := by
  unfold visited
  cases hsend : send readCodec reqBuf items with
  | none =>
    cases items with
    | nil => rfl
    | cons item items =>
      obtain ⟨msg, hmsg⟩ : ∃ msg, send readCodec reqBuf (item :: items) = some msg :=
        send_of_pos (Nat.zero_lt_succ _)
      rw [hmsg] at hsend
      cases hsend
  | some msg =>
    dsimp only
    rw [iterItems_send (by omega) hsend, if_pos hlen]
    exact (map_congr_left fun item hitem => (Kind.read.stored_eq_iff item).mpr
      (hidx item hitem)).trans (map_id _)

lemma readRpcHandler_eq_done {mac : BitVec 8} :
    net.readRpcHandler items mac = .done replies ↔
      net.messageSize (itemsOf items mac) < replyMsgSize ∧
        (itemsOf items mac).map net.reply = replies := by
  unfold Network.readRpcHandler
  split_ifs with hov heq
  · exact ⟨nofun, fun h => absurd h.1 (by omega)⟩
  · exact ⟨nofun, fun h => absurd h.1 (by omega)⟩
  · have hlt : net.messageSize (itemsOf items mac) < replyMsgSize := by omega
    exact ⟨fun h => ⟨hlt, Outcome.done.inj h⟩, fun h => congrArg _ h.2⟩

lemma mapM_readRpcHandler_eq_done {macs : List (BitVec 8)} {parts : List (List Reply)} :
    macs.mapM (net.readRpcHandler items) = .done parts ↔
      (∀ mac ∈ macs, net.messageSize (itemsOf items mac) < replyMsgSize) ∧
        macs.map (fun mac => (itemsOf items mac).map net.reply) = parts := by
  induction macs generalizing parts with
  | nil => simp
  | cons mac macs ih =>
    simp only [mapM_cons, Outcome.bind_eq_done, readRpcHandler_eq_done, ih, forall_mem_cons,
      map_cons]
    constructor
    · rintro ⟨_, ⟨hlt, rfl⟩, _, ⟨hall, rfl⟩, heq⟩
      exact ⟨⟨hlt, hall⟩, Outcome.done.inj heq⟩
    · rintro ⟨⟨hlt, hall⟩, rfl⟩
      exact ⟨_, ⟨hlt, rfl⟩, _, ⟨hall, rfl⟩, rfl⟩

lemma collect_eq_done (hvst : visited net.reqBuf items = items) :
    net.collect items = .done replies ↔
      (∀ mac ∈ macSet items, net.messageSize (itemsOf items mac) < replyMsgSize) ∧
        (net.served items).map net.reply = replies := by
  unfold Network.collect Network.served
  rw [hvst, Outcome.bind_eq_done, map_flatMap, flatMap_def]
  simp only [mapM_readRpcHandler_eq_done, (net.perm _).mem_iff]
  constructor
  · rintro ⟨_, ⟨hall, rfl⟩, heq⟩
    exact ⟨hall, Outcome.done.inj heq⟩
  · rintro ⟨hall, rfl⟩
    exact ⟨_, ⟨hall, rfl⟩, rfl⟩

lemma mem_served {item : RTXReadItem} : item ∈ net.served items ↔ item ∈ items := by
  unfold Network.served itemsOf macSet
  rw [mem_flatMap]
  constructor
  · rintro ⟨mac, -, hitem⟩
    exact (mem_filter.mp hitem).1
  · intro hitem
    refine ⟨item.pid, (net.perm _).mem_iff.mpr ?_, mem_filter.mpr ⟨hitem, decide_eq_true rfl⟩⟩
    exact mem_dedup.mpr (mem_map_of_mem hitem)

lemma storeReply_eq (hnd : batch.Nodup) (hr : r ∈ batch)
    (hidx : r.item.idx.toNat = ready.length + batch.idxOf r) (f : Request → ReadSetItem) :
    storeReply (ready ++ batch.map f) (net.reply r.item)
      = .done (ready ++ batch.map (update f r ((f r).fill (net.reply r.item)))) := by
  have hget : (ready ++ batch.map f)[ready.length + batch.idxOf r]? = some (f r) := by
    rw [getElem?_append_right (Nat.le_add_right ..), Nat.add_sub_cancel_left, getElem?_map,
      getElem?_idxOf hr]
    rfl
  unfold storeReply
  rw [show (net.reply r.item).idx = _ from hidx, hget]
  dsimp only
  rw [set_append_right _ _ (Nat.le_add_right ..), Nat.add_sub_cancel_left, hnd.map_update,
    if_pos hr]

/-- The replies fill the entries of their requests, in whatever order they come. -/
lemma parseBatchResult_eq {arrived : List RTXReadItem} (hnd : batch.Nodup)
    (hidx : ∀ r ∈ batch, r.item.idx.toNat = ready.length + batch.idxOf r)
    (harr : ∀ item ∈ arrived, item ∈ batch.map Request.item) {f : Request → ReadSetItem}
    (hf : ∀ r, (f r).fill (net.reply r.item) = r.entry.fill (net.reply r.item)) :
    parseBatchResult (ready ++ batch.map f) (arrived.map net.reply) = .done (ready ++
      batch.map fun r => if r.item ∈ arrived then r.entry.fill (net.reply r.item) else f r) := by
  induction arrived generalizing f with
  | nil => simp [parseBatchResult]
  | cons item arrived ih =>
    rw [forall_mem_cons, mem_map] at harr
    obtain ⟨⟨r, hr, rfl⟩, harr⟩ := harr
    -- the positions tell the items apart
    have hinj : ∀ q ∈ batch, q.item = r.item → q = r := fun q hq heq => by
      refine (idxOf_inj hq).mp ?_
      have hpos := hidx q hq
      rw [heq, hidx r hr] at hpos
      omega
    unfold parseBatchResult at ih ⊢
    rw [map_cons, foldlM_cons, storeReply_eq hnd hr (hidx r hr), Outcome.done_bind, hf r]
    rw [ih harr fun q => ?_]
    · congr 2
      refine map_congr_left fun q hq => ?_
      by_cases hqr : q = r
      · subst hqr
        simp
      · simp [hqr, mt (hinj q hq) hqr]
    · by_cases hqr : q = r
      · subst hqr
        rw [update_self]
        rfl
      · rw [update_of_ne hqr]
        exact hf q

/-! ## The entries of the batch -/

structure Inv (s : State) (ready : List ReadSetItem) : Prop where
  readSet : s.readSet = ready ++ s.batch.map Request.entry
  idx : ∀ r ∈ s.batch, r.item.idx.toNat = ready.length + s.batch.idxOf r
  len_lt : ∀ r ∈ s.batch, r.item.len.toNat < 256
  nodup : s.batch.Nodup
  fresh : ∀ r ∈ s.batch, r.id < s.created
  length_le : s.readSet.length ≤ s.created
  created_le : s.created ≤ 100

/-- Without waiting requests all entries may have their data. -/
lemma inv_of_nil (hnil : s.batch = []) (hlen : s.readSet.length ≤ s.created)
    (hsm : s.created ≤ 100) : Inv s s.readSet := by
  refine ⟨by rw [hnil, map_nil, append_nil], ?_, ?_, by rw [hnil]; exact nodup_nil, ?_, hlen, hsm⟩
  all_goals
    rw [hnil]
    exact nofun

lemma newRequest_entry {tableid pid len : BitVec 8} {key : BitVec 64} :
    (s.newRequest tableid key pid len).entry = s.newEntry tableid key pid len := by
  unfold Request.entry State.newRequest State.newEntry
  simp

lemma Inv.addBatchRead {tableid pid len : BitVec 8} {key : BitVec 64} (h : Inv s ready)
    (hsm : s.created < 100) : Inv (s.addBatchRead tableid key pid len) ready := by
  have hlen := h.length_le
  have hnot : s.newRequest tableid key pid len ∉ s.batch := fun hmem =>
    absurd (h.fresh _ hmem) (lt_irrefl s.created)
  have hbat : ∀ r ∈ s.batch ++ [s.newRequest tableid key pid len],
      r ∈ s.batch ∨ r = s.newRequest tableid key pid len := fun r hr => by simpa using hr
  refine ⟨?_, fun r hr => ?_, fun r hr => ?_, ?_, fun r hr => ?_, ?_, hsm⟩
  · show s.readSet ++ [_] = ready ++ (s.batch ++ [_]).map Request.entry
    rw [map_append, map_singleton, newRequest_entry, ← append_assoc, ← h.readSet]
  · show _ = ready.length + (s.batch ++ [_]).idxOf r
    rcases hbat r hr with hr | rfl
    · rw [idxOf_append_of_mem hr]
      exact h.idx r hr
    · rw [idxOf_append_of_notMem hnot, idxOf_cons_self, add_zero]
      show (BitVec.ofNat 16 s.readSet.length).toNat = _
      rw [BitVec.toNat_ofNat, Nat.mod_eq_of_lt (by omega), h.readSet, length_append, length_map]
  · rcases hbat r hr with hr | rfl
    · exact h.len_lt r hr
    · show (len.setWidth 16).toNat < 256
      rw [BitVec.toNat_setWidth]
      omega
  · exact nodup_append.mpr ⟨h.nodup, nodup_singleton _, fun a ha b hb => by
      rw [mem_singleton.mp hb]
      rintro rfl
      exact hnot ha⟩
  · rcases hbat r hr with hr | rfl
    · exact Nat.lt_succ_of_lt (h.fresh r hr)
    · exact Nat.lt_succ_self _
  · show (s.readSet ++ [_]).length ≤ s.created + 1
    rw [length_append]
    exact Nat.succ_le_succ hlen

lemma Inv.visited_eq (h : Inv s ready) : visited net.reqBuf s.items = s.items := by
  have hlen := h.length_le
  rw [h.readSet, length_append, length_map] at hlen
  have hsm := h.created_le
  refine BatchRead.visited_eq net.reqBuf (by rw [State.items, length_map]; omega) fun item hi => ?_
  obtain ⟨r, hr, rfl⟩ := mem_map.mp hi
  have hlt := idxOf_lt_length_of_mem hr
  rw [h.idx r hr]
  omega

lemma Inv.exchange_eq_done (h : Inv s ready) : s.exchange net = .done s' ↔
    net.RepliesFit s.items ∧
      { s with readSet := ready ++ s.batch.map fun r => r.entry.fill (net.reply r.item) } = s' := by
  have hprs : parseBatchResult s.readSet ((net.served s.items).map net.reply)
      = .done (ready ++ s.batch.map fun r => r.entry.fill (net.reply r.item)) := by
    have hsrv : ∀ item ∈ net.served s.items, item ∈ s.batch.map Request.item :=
      fun _ => mem_served.mp
    rw [h.readSet, parseBatchResult_eq h.nodup h.idx hsrv fun _ => rfl]
    congr 2
    exact map_congr_left fun r hr => if_pos (mem_served.mpr (mem_map_of_mem hr))
  unfold State.exchange
  rw [Outcome.bind_eq_done]
  constructor
  · rintro ⟨replies, hrep, hrun⟩
    obtain ⟨hsrv, rfl⟩ := (collect_eq_done h.visited_eq).mp hrep
    rw [hprs] at hrun
    split at hrun
    · cases hrun
    · rename_i hall
      exact ⟨⟨hsrv, not_lt.mp hall⟩, Outcome.done.inj hrun⟩
  · rintro ⟨⟨hsrv, hall⟩, rfl⟩
    refine ⟨_, (collect_eq_done h.visited_eq).mpr ⟨hsrv, rfl⟩, ?_⟩
    rw [if_neg (not_lt.mpr hall), hprs]
    rfl

lemma Inv.addToWrite {idx : ℕ} (h : Inv s ready) (hnil : s.batch = [])
    (hdn : s.addToWrite idx = .done s') : ∃ ready', Inv s' ready' := by
  unfold State.addToWrite at hdn
  split at hdn
  · cases hdn
  · cases hdn
    exact ⟨_, inv_of_nil hnil ((length_eraseIdx_le _ _).trans h.length_le) h.created_le⟩

lemma Inv.getReadset {idx : ℕ} (h : Inv s ready) (hdn : s.getReadset net idx = .done s') :
    ∃ ready', Inv s' ready' := by
  unfold State.getReadset at hdn
  split at hdn
  case h_1 => cases hdn
  case h_2 e he =>
    split_ifs at hdn
    · cases hdn
      exact ⟨ready, h⟩
    · obtain ⟨t, ht, hdn⟩ := Outcome.bind_eq_done.mp hdn
      obtain ⟨-, rfl⟩ := h.exchange_eq_done.mp ht
      -- all replies have come, and the batch is empty
      have hlen : (ready ++ s.batch.map fun r => r.entry.fill (net.reply r.item)).length
          ≤ s.created := by
        rw [length_append, length_map, ← length_map (f := Request.entry), ← length_append,
          ← h.readSet]
        exact h.length_le
      split at hdn
      · cases hdn
      · split_ifs at hdn
        cases hdn
        exact ⟨_, inv_of_nil rfl hlen h.created_le⟩

lemma Reached.inv (h : Reached s) : ∃ ready, Inv s ready := by
  induction h with
  | init => exact ⟨[], inv_of_nil rfl (Nat.zero_le 0) (Nat.zero_le 100)⟩
  | @call s s' c _ hallow hdone ih =>
    obtain ⟨ready, h⟩ := ih
    cases c with
    | read tableid key pid len =>
      cases hdone
      exact ⟨ready, h.addBatchRead hallow⟩
    | addToWrite idx => exact h.addToWrite hallow hdone
    | getReadset net idx => exact h.getReadset hdone

lemma fill_entry (hlen : r.item.len.toNat < 256) :
    (r.entry.fill (net.reply r.item)).data = some (net.payload r.item) := by
  have hpay : (net.payload r.item).length ≤ (r.item.len.setWidth 8).toNat := by
    unfold Network.payload
    rw [length_map, length_range, BitVec.toNat_setWidth, Nat.mod_eq_of_lt hlen]
  exact congrArg some (take_of_length_le hpay)

/-- **Batched reads reach their entries** in every transaction that moves no entry while
requests wait to be sent, exactly if the replies fit into the buffers of the servers and
into `reply_buf_`. -/
theorem batched_reads_iff (s : State) (h : Reached s) (net : Network) :
    Delivered s net ↔ net.RepliesFit s.items := by
  obtain ⟨ready, h⟩ := h.inv
  constructor
  · rintro ⟨s', hrun, -⟩
    exact (h.exchange_eq_done.mp hrun).1
  · intro hft
    refine ⟨_, h.exchange_eq_done.mpr ⟨hft, rfl⟩, fun r hr => ?_⟩
    refine ⟨r.entry.fill (net.reply r.item), mem_append_left _ (mem_append_right _ ?_), rfl, rfl,
      rfl, rfl, fill_entry (h.len_lt r hr), rfl⟩
    exact mem_map.mpr ⟨r, hr, rfl⟩

def sampleNetwork : Network where
  reqBuf := fun _ => 0#8
  msgPadding := 8
  answer := fun _ => (2#64, fun _ => 7#8)
  arrival := id
  perm := .refl

/-- Two reads from two servers, one of them moved to the write set once its value is
there, and a third read. -/
theorem batched_reads_three : ∃ s, Reached s ∧ s.batch.length = 1 ∧ s.readSet.length = 2 ∧
    s.writeSet.length = 1 ∧ Delivered s sampleNetwork := by
  obtain ⟨s, hget, hnil, t, hadd, hsm, hbat, hrs, hws, hft⟩ :
      ∃ s, ((init.addBatchRead 1#8 5#64 2#8 8#8).addBatchRead 1#8 6#64 3#8 8#8).getReadset
          sampleNetwork 0 = .done s ∧ s.batch = [] ∧
        ∃ t, s.addToWrite 0 = .done t ∧ t.created < 100 ∧ t.batch = [] ∧
          t.readSet.length = 1 ∧ t.writeSet.length = 1 ∧
          sampleNetwork.RepliesFit (t.addBatchRead 1#8 7#64 2#8 8#8).items := by
    decide +kernel
  have hone := Reached.call (c := .read 1#8 5#64 2#8 8#8) .init (show 0 < 100 by decide) rfl
  have htwo := Reached.call (c := .read 1#8 6#64 3#8 8#8) hone (show 1 < 100 by decide) rfl
  have hgot := Reached.call (c := .getReadset sampleNetwork 0) htwo trivial hget
  have hmvd := Reached.call (c := .addToWrite 0) hgot hnil hadd
  have hlst := Reached.call (c := .read 1#8 7#64 2#8 8#8) hmvd hsm rfl
  refine ⟨_, hlst, ?_, ?_, hws, (batched_reads_iff _ hlst sampleNetwork).mpr hft⟩
  · exact (length_append ..).trans (congrArg (·.length + 1) hbat)
  · exact (length_append ..).trans (congrArg (· + 1) hrs)

/-- Two reads, and the first is moved to the write set before its value is there: its
reply goes to the entry of the second, whose own reply has no entry. -/
theorem batched_reads_lost :
    ∃ s, ((init.addBatchRead 1#8 5#64 2#8 8#8).addBatchRead 1#8 6#64 2#8 8#8).addToWrite 0
        = .done s ∧ s.getReadset sampleNetwork 0 = .undefined := by
  refine ⟨_, rfl, ?_⟩
  decide +kernel

end Librdpma.Drtmh.BatchRead
