import Librdpma.Lib.ByteMemory
import Librdpma.Lib.Outcome

/-!
# The remote set of a transaction (`src/db/remote_set.cc`)

A transaction collects its remote records in `kvs_`, reads them with one message
to each of their servers, and promotes some of them to writes. Locking,
validating, releasing and committing are rounds: a message is broadcast to a
list of servers, and the coroutine sleeps until as many replies have come in as
it has registered.

The contents of the request buffer and the values read stay out of the model.
-/

namespace Librdpma.Drtmh

open Lib List Function Outcome BitVec

/-- `MAX_MSG_SIZE`, the size of each message buffer. -/
def maxMsgSize : ℕ := 4096

/-- `MAX_SERVER_TO_SENT`, the length of the arrays of servers. -/
def maxServerToSent : ℕ := 32

/-- `MAXSIZE`, the length of `kvs_`. -/
def remoteSetMax : ℕ := 1024

/-- `sizeof(RequestHeader)` -/
def requestHeaderSize : ℕ := 16

/-- `sizeof(RemoteSetRequestItem)` with keys of 40 bytes, `LONG_KEY` -/
def requestItemSize : ℕ := 64

/-- `sizeof(RemoteLockItem)` -/
def lockItemSize : ℕ := 32

/-- `sizeof(RTXRemoteWriteItem)` -/
def remoteWriteItemSize : ℕ := 24

structure RemoteSetItem where
  pid : BitVec 8
  tableid : BitVec 8
  seq : BitVec 64
  key : BitVec 64
  node : BitVec 64
deriving DecidableEq

structure RemoteLockItem where
  pid : BitVec 8
  seq : BitVec 64
  node : BitVec 64
  tableid : BitVec 8
deriving DecidableEq

/-- `REQ_TYPE` -/
inductive ReqType : Type where
  | read
  | readIdx
  | insert
  | insertIdx
  | rangeSearch
  | write
  | readLock
deriving DecidableEq

structure RemoteSetReplyItem where
  seq : BitVec 64
  node : BitVec 64
  idx : BitVec 8

structure RemoteSet where
  metaSize : ℕ
  elems : ℕ
  writeItems : BitVec 16
  readItems : BitVec 16
  kvs : ℕ → RemoteSetItem
  needValidate : Bool
  serverSet : Finset ℕ
  writeServerSet : Finset ℕ
  /-- the first `read_server_num_` entries of `read_servers_` -/
  readServers : List ℕ
  writeServers : List ℕ
  /-- from the header of `lock_request_buf_` to `lock_request_buf_end_` -/
  lockItems : List RemoteLockItem
  writeBackBuf : Memory
  /-- `write_back_request_buf_end_ - write_back_request_buf_` -/
  writeBackEnd : ℕ

namespace RemoteSet

/-! ## Building the set -/

/-- `update_write_buf` -/
def updateWriteBuf (s : RemoteSet) : RemoteSet :=
  { s with lockItems := [], writeBackEnd := requestHeaderSize }

/-- `clear`. The buffers for locking and writing back are not reset. -/
def clear (metaLen : ℕ) (s : RemoteSet) : RemoteSet :=
  { s with
    elems := 0
    readItems := 0#16
    readServers := []
    writeItems := 0#16
    writeServers := []
    metaSize := metaLen
    needValidate := false
    serverSet := ∅
    writeServerSet := ∅ }

/-- The constructor, with whatever the allocations contain. -/
def new (kvs : ℕ → RemoteSetItem) (buf : Memory) : RemoteSet :=
  clear 0 (updateWriteBuf
    { metaSize := 0, elems := 0, writeItems := 0#16, readItems := 0#16, kvs := kvs,
      needValidate := false, serverSet := ∅, writeServerSet := ∅, readServers := [],
      writeServers := [], lockItems := [], writeBackBuf := buf, writeBackEnd := 0 })

/-- Behind both `add`s: the server joins the readers. -/
def addReadServer (pid : ℕ) (s : RemoteSet) : Outcome RemoteSet :=
  if pid ∈ s.serverSet then .done s
  else if maxServerToSent ≤ s.readServers.length then .undefined
  else .done { s with serverSet := insert pid s.serverSet, readServers := s.readServers ++ [pid] }

/-- The request has to fit in `request_buf_`. -/
def requestFits (s : RemoteSet) : Bool :=
  requestHeaderSize + s.metaSize + requestItemSize * (s.elems + 1) ≤ maxMsgSize

/-- `add` with a key of 8 bytes. -/
def add (pid : ℕ) (tableid : BitVec 8) (key : BitVec 64) (s : RemoteSet) : Outcome RemoteSet :=
  if remoteSetMax < s.elems + 1 then .exit
  else if s.requestFits = false then .undefined
  else
    let item := { s.kvs s.elems with pid := BitVec.ofNat 8 pid, tableid := tableid, key := key }
    addReadServer pid { s with elems := s.elems + 1, kvs := update s.kvs s.elems item }

/-- `add` with a key of up to 40 bytes at `key`. -/
def addLong (currentPartition : ℕ) (type : ReqType) (pid : ℕ) (tableid : BitVec 8)
    (key : BitVec 64) (klen : ℕ) (s : RemoteSet) : Outcome RemoteSet :=
  if remoteSetMax < s.elems + 1 ∨ type = .readLock ∨ pid = currentPartition ∨ 40 < klen then
    .exit
  else if s.requestFits = false then .undefined
  else
    let item := { s.kvs s.elems with
      pid := BitVec.ofNat 8 pid, tableid := tableid, key := key, seq := 0#64 }
    addReadServer pid { s with elems := s.elems + 1, kvs := update s.kvs s.elems item }

/-- What `get_results` does with one item of a reply. -/
def getResult (s : RemoteSet) (pr : RemoteSetReplyItem) : RemoteSet :=
  let item := { s.kvs pr.idx.toNat with seq := pr.seq, node := pr.node }
  { s with kvs := update s.kvs pr.idx.toNat item }

/-- `get_results` on the items of each reply. -/
def getResults (replies : List (List RemoteSetReplyItem)) (s : RemoteSet) : Outcome RemoteSet :=
  if (replies.all fun r => r.length ≠ 0 && r.length ≠ 73) && replies.flatten.length ≠ 0 then
    .done (replies.flatten.foldl getResult s)
  else .exit

/-- The stores of `promote_to_write` to `*p1`, in their order. `node` and `key`
are members of one union. -/
def putWriteItem (m : Memory) (p : ℕ) (item : RemoteSetItem) (val : List (BitVec 8)) : Memory :=
  let m := m.write (p + 16) (leBytes 2 val.length)
  let m := m.putU64 (p + 8) item.node
  let m := m.write p [item.pid]
  let m := m.write (p + 18) [item.tableid]
  let m := m.putU64 (p + 8) item.key
  m.write (p + remoteWriteItemSize) val

/-- Behind `promote_to_write`: the server joins the writers. -/
def addWriteServer (pid : ℕ) (s : RemoteSet) : Outcome RemoteSet :=
  if pid ∈ s.writeServerSet then .done s
  else if maxServerToSent ≤ s.writeServers.length then .undefined
  else .done { s with
    writeServerSet := insert pid s.writeServerSet, writeServers := s.writeServers ++ [pid] }

/-- Both items have to fit in their buffers. -/
def writeFits (s : RemoteSet) (len : ℕ) : Bool :=
  requestHeaderSize + lockItemSize * (s.lockItems.length + 1) ≤ maxMsgSize &&
    s.writeBackEnd + remoteWriteItemSize + len ≤ maxMsgSize

/-- `promote_to_write` -/
def promoteToWrite (id : ℕ) (val : List (BitVec 8)) (s : RemoteSet) : Outcome RemoteSet :=
  if remoteSetMax ≤ id ∨ s.writeFits val.length = false then .undefined
  else
    let item := s.kvs id
    addWriteServer item.pid.toNat
      { s with
        writeItems := s.writeItems + 1#16
        readItems := s.readItems - 1#16
        lockItems := s.lockItems ++ [⟨item.pid, item.seq, item.node, item.tableid⟩]
        writeBackBuf := putWriteItem s.writeBackBuf s.writeBackEnd item val
        writeBackEnd := s.writeBackEnd + remoteWriteItemSize + val.length }

/-! ## Rounds -/

/-- What a round registers with `prepare_multi_req` and where it sends its
message. -/
structure Round where
  registered : ℕ
  servers : List ℕ

/-- `prepare_multi_req` asserts that it is given a positive number. -/
def round (registered : ℕ) (servers : List ℕ) : Outcome (Option Round) :=
  if registered = 0 then .exit else .done (some ⟨registered, servers⟩)

/-- `do_reads` -/
def doReads (s : RemoteSet) : Outcome (Option Round × RemoteSet) :=
  if 2 ^ 16 - 1 ≤ s.elems ∨ s.readServers.length = 0 then .exit
  else round s.readServers.length s.readServers >>= fun r =>
    .done (r, { s with readItems := BitVec.ofNat 16 s.elems })

/-- `lock_remote` -/
def lockRemote (s : RemoteSet) : Outcome (Option Round) :=
  if s.writeItems ≠ 0#16 then round s.readServers.length s.writeServers else .done none

/-- `validate_remote` -/
def validateRemote (s : RemoteSet) : Outcome (Option Round) :=
  if s.needValidate = true ∧ 0 < s.readServers.length ∧ s.readItems ≠ 0#16 then
    round s.readServers.length s.readServers
  else .done none

/-- `release_remote` -/
def releaseRemote (s : RemoteSet) : Outcome (Option Round) :=
  if s.writeItems ≠ 0#16 then round s.writeServers.length s.writeServers else .done none

/-- `commit_remote`, which also asserts that the number in its header, an
`int8_t`, is positive. -/
def commitRemote (s : RemoteSet) : Outcome (Option Round) :=
  if s.writeItems ≠ 0#16 then
    if (s.writeItems.setWidth 8).toInt ≤ 0 then .exit
    else round s.writeServers.length s.writeServers
  else .done none

/-- The phases at the end of a transaction. -/
inductive Phase : Type where
  | lock
  | validate
  | release
  | commit

def Phase.run (s : RemoteSet) : Phase → Outcome (Option Round)
  | .lock => s.lockRemote
  | .validate => s.validateRemote
  | .release => s.releaseRemote
  | .commit => s.commitRemote

/-! ## Replies -/

/-- A reply in `poll_comp_callback`. When the count is 0 the coroutine goes on. -/
def pollReply (count : ℤ) : ℤ := count - 1

/-- `reply_counts_[cid]` after `k` replies of the round. -/
def Round.countAfter (r : Round) (k : ℕ) : ℤ := pollReply^[k] r.registered

/-- As many replies are registered as requests are sent, and the count is 0
exactly when the last reply has come in. -/
def Round.Matched (r : Round) : Prop :=
  r.registered = r.servers.length ∧
    ∀ k ≤ r.servers.length, r.countAfter k = 0 ↔ k = r.servers.length

lemma Round.countAfter_eq (r : Round) (k : ℕ) : r.countAfter k = r.registered - k := by
  induction k with
  | zero => simp [Round.countAfter]
  | succ k ih =>
    rw [Round.countAfter, iterate_succ_apply', ← Round.countAfter, ih, pollReply]
    push_cast
    omega

lemma Round.matched_iff (r : Round) : r.Matched ↔ r.registered = r.servers.length := by
  refine ⟨And.left, fun h => ⟨h, fun k _ => ?_⟩⟩
  rw [r.countAfter_eq, h]
  omega

/-! ## Reachable sets -/

/-- The calls that build a set. `DBTX::end` sets `need_validate_` itself. -/
inductive SetCall : Type where
  | clear (metaLen : ℕ)
  | add (pid : ℕ) (tableid : BitVec 8) (key : BitVec 64)
  | addLong (currentPartition : ℕ) (type : ReqType) (pid : ℕ) (tableid : BitVec 8)
      (key : BitVec 64) (klen : ℕ)
  | doReads
  | getResults (replies : List (List RemoteSetReplyItem))
  | promoteToWrite (id : ℕ) (val : List (BitVec 8))
  | needValidate

def SetCall.run (s : RemoteSet) : SetCall → Outcome RemoteSet
  | .clear metaLen => .done (s.clear metaLen)
  | .add pid tableid key => s.add pid tableid key
  | .addLong currentPartition type pid tableid key klen =>
      s.addLong currentPartition type pid tableid key klen
  | .doReads => s.doReads >>= fun r => .done r.2
  | .getResults replies => s.getResults replies
  | .promoteToWrite id val => s.promoteToWrite id val
  | .needValidate => .done { s with needValidate := true }

/-- One call after the other. -/
def runCalls (calls : List SetCall) (s : RemoteSet) : Outcome RemoteSet :=
  calls.foldlM (fun s c => SetCall.run s c) s

inductive Reachable : RemoteSet → Prop where
  | new (kvs : ℕ → RemoteSetItem) (buf : Memory) : Reachable (RemoteSet.new kvs buf)
  | call {s s' : RemoteSet} (h : Reachable s) (c : SetCall) (hc : c.run s = .done s') : Reachable s'

variable {s s' : RemoteSet}

/-- What a call leaves of the writing side, unless it is `clear` or
`promote_to_write`. -/
structure SameWrites (s s' : RemoteSet) : Prop where
  items : s'.writeItems = s.writeItems
  set : s'.writeServerSet = s.writeServerSet
  servers : s'.writeServers = s.writeServers
  locks : s'.lockItems = s.lockItems
  buf : s'.writeBackBuf = s.writeBackBuf
  bufEnd : s'.writeBackEnd = s.writeBackEnd

lemma SameWrites.trans {s'' : RemoteSet} (h : SameWrites s s') (h' : SameWrites s' s'') :
    SameWrites s s'' :=
  ⟨h'.1.trans h.1, h'.2.trans h.2, h'.3.trans h.3, h'.4.trans h.4, h'.5.trans h.5, h'.6.trans h.6⟩

lemma sameWrites_addReadServer {pid : ℕ} (h : s.addReadServer pid = .done s') :
    SameWrites s s' := by
  unfold addReadServer at h
  split at h
  · cases h
    exact ⟨rfl, rfl, rfl, rfl, rfl, rfl⟩
  · split at h
    · cases h
    · cases h
      exact ⟨rfl, rfl, rfl, rfl, rfl, rfl⟩

lemma sameWrites_add {pid : ℕ} {tableid : BitVec 8} {key : BitVec 64}
    (h : s.add pid tableid key = .done s') : SameWrites s s' := by
  unfold add at h
  split at h
  · cases h
  · split at h
    · cases h
    · have hst := sameWrites_addReadServer h
      exact ⟨hst.1, hst.2, hst.3, hst.4, hst.5, hst.6⟩

lemma sameWrites_addLong {currentPartition pid klen : ℕ} {type : ReqType} {tableid : BitVec 8}
    {key : BitVec 64} (h : s.addLong currentPartition type pid tableid key klen = .done s') :
    SameWrites s s' := by
  unfold addLong at h
  split at h
  · cases h
  · split at h
    · cases h
    · have hst := sameWrites_addReadServer h
      exact ⟨hst.1, hst.2, hst.3, hst.4, hst.5, hst.6⟩

lemma sameWrites_doReads {r : Option Round} (h : s.doReads = .done (r, s')) : SameWrites s s' := by
  unfold doReads at h
  split at h
  · cases h
  · obtain ⟨r', -, heq⟩ := Outcome.bind_eq_done.mp h
    cases heq
    exact ⟨rfl, rfl, rfl, rfl, rfl, rfl⟩

lemma sameWrites_getResult (l : List RemoteSetReplyItem) (s : RemoteSet) :
    SameWrites s (l.foldl getResult s) := by
  induction l generalizing s with
  | nil => exact ⟨rfl, rfl, rfl, rfl, rfl, rfl⟩
  | cons pr l ih =>
    have hst : SameWrites s (getResult s pr) := ⟨rfl, rfl, rfl, rfl, rfl, rfl⟩
    exact hst.trans (ih _)

lemma sameWrites_getResults {replies : List (List RemoteSetReplyItem)}
    (h : s.getResults replies = .done s') : SameWrites s s' := by
  unfold getResults at h
  split at h
  · cases h
    exact sameWrites_getResult _ s
  · cases h

lemma sameWrites_call {c : SetCall} (h : c.run s = .done s') (hclr : ∀ n, c ≠ .clear n)
    (hprm : ∀ id val, c ≠ .promoteToWrite id val) : SameWrites s s' := by
  cases c with
  | clear n => exact absurd rfl (hclr n)
  | promoteToWrite id val => exact absurd rfl (hprm id val)
  | add pid tableid key => exact sameWrites_add h
  | addLong currentPartition type pid tableid key klen => exact sameWrites_addLong h
  | doReads =>
    obtain ⟨r, hr, heq⟩ := bind_eq_done.mp h
    cases heq
    exact sameWrites_doReads hr
  | getResults replies => exact sameWrites_getResults h
  | needValidate =>
    cases h
    exact ⟨rfl, rfl, rfl, rfl, rfl, rfl⟩

lemma promoteToWrite_leaves {id : ℕ} {val : List (BitVec 8)}
    (h : s.promoteToWrite id val = .done s') :
    s.writeFits val.length = true ∧ s'.writeItems = s.writeItems + 1#16 ∧
      s'.lockItems = s.lockItems ++ [⟨(s.kvs id).pid, (s.kvs id).seq, (s.kvs id).node,
        (s.kvs id).tableid⟩] ∧
      s'.writeBackBuf = putWriteItem s.writeBackBuf s.writeBackEnd (s.kvs id) val ∧
      s'.writeBackEnd = s.writeBackEnd + remoteWriteItemSize + val.length ∧
      (∀ p ∈ s.writeServers, p ∈ s'.writeServers) ∧
      (∀ p ∈ s'.writeServerSet, p ∈ s.writeServerSet ∨ p ∈ s'.writeServers) ∧
      ((s.kvs id).pid.toNat ∈ s.writeServerSet ∨ s'.writeServers ≠ []) := by
  unfold promoteToWrite at h
  split at h
  · cases h
  · rename_i hft
    have hft' : s.writeFits val.length = true := by
      push Not at hft
      exact Bool.ne_false_iff.mp hft.2
    unfold addWriteServer at h
    dsimp only at h
    split at h
    · rename_i hin
      cases h
      exact ⟨hft', rfl, rfl, rfl, rfl, fun _ hp => hp, fun _ hp => .inl hp, .inl hin⟩
    · split at h
      · cases h
      · cases h
        refine ⟨hft', rfl, rfl, rfl, rfl, fun p hp => mem_append_left _ hp,
          fun p hp => ?_, .inr (by simp)⟩
        rcases Finset.mem_insert.mp hp with rfl | hp
        · exact .inr (by simp)
        · exact .inl hp

/-- The writing side of a reachable set. -/
structure WriteInv (s : RemoteSet) : Prop where
  known : ∀ p ∈ s.writeServerSet, p ∈ s.writeServers
  servers : s.writeItems ≠ 0#16 → s.writeServers ≠ []
  items : s.writeItems.toNat ≤ s.lockItems.length
  locks : s.lockItems.length ≤ 127

lemma WriteInv.promote {id : ℕ} {val : List (BitVec 8)} (hinv : WriteInv s)
    (h : s.promoteToWrite id val = .done s') : WriteInv s' := by
  obtain ⟨hft, hits, hlks, -, -, hkp, hkn, hsrv⟩ := promoteToWrite_leaves h
  have hrm : s.lockItems.length + 1 ≤ 127 := by
    unfold writeFits requestHeaderSize lockItemSize maxMsgSize at hft
    simp only [Bool.and_eq_true, decide_eq_true_eq] at hft
    omega
  refine ⟨fun p hp => ?_, fun _ => ?_, ?_, ?_⟩
  · exact (hkn p hp).elim (fun h => hkp p (hinv.known p h)) fun h => h
  · refine hsrv.elim (fun hin => ?_) fun h => h
    exact ne_nil_of_mem (hkp _ (hinv.known _ hin))
  · rw [hits, hlks, length_append, toNat_add]
    have := hinv.items
    have hone : (1#16).toNat = 1 := rfl
    rw [hone, length_singleton]
    exact (Nat.mod_le _ _).trans (by omega)
  · rw [hlks, length_append, length_singleton]
    exact hrm

lemma Reachable.writeInv (h : Reachable s) : WriteInv s := by
  induction h with
  | new kvs buf =>
    exact ⟨fun p hp => absurd hp (Finset.notMem_empty p), fun h => absurd rfl h,
      Nat.zero_le _, Nat.zero_le _⟩
  | call _ c hc ih =>
    cases c with
    | clear n =>
      cases hc
      exact ⟨fun p hp => absurd hp (Finset.notMem_empty p), fun h => absurd rfl h,
        Nat.zero_le _, ih.locks⟩
    | promoteToWrite id val => exact ih.promote hc
    | add | addLong | doReads | getResults | needValidate =>
      have hsm := sameWrites_call hc (fun _ => nofun) fun _ _ => nofun
      constructor
      · rw [hsm.set, hsm.servers]
        exact ih.known
      · rw [hsm.items, hsm.servers]
        exact ih.servers
      · rw [hsm.items, hsm.locks]
        exact ih.items
      · rw [hsm.locks]
        exact ih.locks

/-! ## The rounds of a reachable set -/

/-- The phase runs, and the round it starts, if any, is matched. -/
def Phase.Waits (s : RemoteSet) (p : Phase) : Prop :=
  ∃ r, p.run s = .done r ∧ ∀ rd ∈ r, rd.Matched

lemma waits_round {servers : List ℕ} (h : servers ≠ []) :
    ∃ r, round servers.length servers = .done r ∧ ∀ rd ∈ r, rd.Matched := by
  have hlen : servers.length ≠ 0 := fun h0 => h (eq_nil_of_length_eq_zero h0)
  refine ⟨_, if_neg hlen, fun rd hrd => ?_⟩
  cases hrd
  exact (Round.matched_iff _).mpr rfl

lemma waits_none : ∃ r : Option Round, done none = done r ∧
    ∀ rd ∈ r, rd.Matched := ⟨none, rfl, nofun⟩

lemma waits_validate (s : RemoteSet) : Phase.validate.Waits s := by
  change ∃ r, s.validateRemote = .done r ∧ _
  unfold validateRemote
  split_ifs with h
  · exact waits_round (ne_nil_of_length_pos h.2.1)
  · exact waits_none

lemma waits_release (h : WriteInv s) : Phase.release.Waits s := by
  change ∃ r, s.releaseRemote = .done r ∧ _
  unfold releaseRemote
  split_ifs with hits
  · exact waits_round (h.servers hits)
  · exact waits_none

lemma waits_commit (h : WriteInv s) : Phase.commit.Waits s := by
  change ∃ r, s.commitRemote = .done r ∧ _
  unfold commitRemote
  split
  · rename_i hits
    have hle := h.items.trans h.locks
    have hpos : 0 < s.writeItems.toNat := by
      rcases Nat.eq_zero_or_pos s.writeItems.toNat with h0 | h0
      · exact absurd (eq_of_toNat_eq (y := 0#16) h0) hits
      · exact h0
    have hwdt : (s.writeItems.setWidth 8).toNat = s.writeItems.toNat := by
      rw [toNat_setWidth]
      omega
    have hnum : ¬ (s.writeItems.setWidth 8).toInt ≤ 0 := by
      rw [toInt_eq_toNat_of_lt (by rw [hwdt]; omega), hwdt]
      omega
    rw [if_neg hnum]
    exact waits_round (h.servers hits)
  · exact waits_none

/-- `lock_remote` registers the servers of the reads for the servers of the
writes. -/
lemma waits_lock_iff (h : WriteInv s) :
    Phase.lock.Waits s ↔ s.writeItems = 0#16 ∨ s.readServers.length = s.writeServers.length := by
  change (∃ r, s.lockRemote = .done r ∧ _) ↔ _
  unfold lockRemote
  split_ifs with hits
  · constructor
    · rintro ⟨r, hr, hmtc⟩
      unfold round at hr
      split at hr
      · cases hr
      · cases hr
        exact .inr ((Round.matched_iff _).mp (hmtc _ rfl))
    · intro hor
      have heq := hor.resolve_left hits
      rw [heq]
      exact waits_round (h.servers hits)
  · exact ⟨fun _ => .inl (not_not.mp hits), fun _ => waits_none⟩

/-- **All four phases wait for the right number of replies exactly if** there is
nothing to write or as many servers are written as are read. -/
theorem remote_set_waits_iff (s : RemoteSet) (h : Reachable s) : (∀ p : Phase, p.Waits s) ↔
      s.writeItems = 0#16 ∨ s.readServers.length = s.writeServers.length := by
  rw [← waits_lock_iff h.writeInv]
  constructor
  · exact fun hall => hall .lock
  · intro hlk p
    cases p with
    | lock => exact hlk
    | validate => exact waits_validate s
    | release => exact waits_release h.writeInv
    | commit => exact waits_commit h.writeInv

/-- A set from the constructor. -/
def blank : RemoteSet := new (fun _ => ⟨255#8, 255#8, 0#64, 0#64, 0#64⟩) fun _ => 0#8

/-- Two records of servers 1 and 2 are read and the first is promoted. -/
def oneOfTwo : Outcome RemoteSet :=
  runCalls [.add 1 0#8 5#64, .add 2 0#8 6#64, .doReads,
    .getResults [[⟨2#64, 64#64, 0#8⟩], [⟨2#64, 64#64, 1#8⟩]], .promoteToWrite 0 []] blank

lemma Reachable.runCalls {calls : List SetCall} (h : Reachable s)
    (hrun : RemoteSet.runCalls calls s = .done s') : Reachable s' := by
  induction calls generalizing s with
  | nil =>
    cases hrun
    exact h
  | cons c calls ih =>
    rw [RemoteSet.runCalls, foldlM_cons] at hrun
    obtain ⟨s1, hc, hrs⟩ := bind_eq_done.mp hrun
    exact ih (h.call c hc) hrs

/-- Two records of servers 1 and 2 are read and both are promoted. -/
def bothOfTwo : Outcome RemoteSet :=
  runCalls [.add 1 0#8 5#64, .add 2 0#8 6#64, .doReads,
    .getResults [[⟨2#64, 64#64, 0#8⟩], [⟨2#64, 64#64, 1#8⟩]], .promoteToWrite 0 [7#8],
    .promoteToWrite 1 [9#8]] blank

theorem remote_set_waits_both : ∃ s, Reachable s ∧ s.writeItems = 2#16 ∧
    s.writeServers = [1, 2] ∧ ∀ p : Phase, p.Waits s := by
  obtain ⟨s, hs, hits, hsrv, hrds⟩ : ∃ s, bothOfTwo = .done s ∧ s.writeItems = 2#16 ∧
      s.writeServers = [1, 2] ∧ s.readServers.length = 2 := by decide
  have hrch : Reachable s := Reachable.runCalls (.new _ _) hs
  refine ⟨s, hrch, hits, hsrv, (remote_set_waits_iff s hrch).mpr (.inr ?_)⟩
  rw [hrds, hsrv]
  rfl

/-- Locking registers two replies and sends one request. -/
theorem lock_remote_waits_on : ¬ ∀ s : RemoteSet, Reachable s → ∀ p : Phase, p.Waits s := by
  intro hall
  obtain ⟨s, hs, hits, hcnt⟩ : ∃ s, oneOfTwo = .done s ∧ s.writeItems ≠ 0#16 ∧
      s.readServers.length ≠ s.writeServers.length := by
    decide
  have hrch : Reachable s := Reachable.runCalls (.new _ _) hs
  have hlk := (waits_lock_iff hrch.writeInv).mp (hall s hrch .lock)
  exact hlk.elim hits hcnt

end RemoteSet

end Librdpma.Drtmh
