import Librdpma.Lib.Traced
import Librdpma.LevelKv.Bucket
import Librdpma.LevelKv.Replacer

/-!
# The DPU side of the key-value service (`levelkv/src/dpu/dpu.cpp`)

The table is an array of buckets in host memory. The DPU caches 128 of them in
frames, which it fills and flushes by DMA: `bucket_table_` maps a bucket to its
frame, `bucket_ids_` a frame to its bucket, `dirty_flag_` marks the frames that
host memory does not have yet.

Host memory is seen through the DMA clients: `dmaClient c o` is the bucket at
byte offset `o` of the region that client `c` has mapped. A DMA takes effect
when it is scheduled; whether it succeeds is decided by `Env.dma`. A future
that is got later is a pair of that success and the frame, so the updates of
`bucket_table_` that wait for a future come where the source has them.

The handshake with the host inside `Expand` is taken as done: four new regions
of zeroed host memory appear, and the host drops the old bottom level. Ids and
capacities are natural numbers, where the source computes them as `int` and
`int64_t`.

The handlers note the frames they obtain for buckets and the frames that `FetchBucket`
gives to buckets. As an `Outcome` a handler makes no notes.
-/

namespace Librdpma.LevelKv

open Lib List Function

/-- `CACHE_SIZE` frames. -/
abbrev Frame := Fin 128

/-- What the DPU is run with: the two hash functions with their seeds, the test
`GetCurrentLoadFactor() >= 0.95` on the numbers of pairs and of slots, the
success of the n-th DMA, and which definition of `ENSURE` is compiled in. -/
structure Env (K : Type) where
  hash1 : K → ℕ
  hash2 : K → ℕ
  loadTest : ℕ → ℕ → Bool
  dma : ℕ → Bool
  ensure : Bool

/-- The same environment with the given definition of `ENSURE`. -/
def Env.withEnsure {K : Type} (env : Env K) (ensure : Bool) : Env K :=
  { env with ensure }

/-- The level hashing parameters, the number of DMA clients and `size_`. -/
structure Control where
  blStartBucketId : ℕ
  tlStartBucketId : ℕ
  nextStartBucketId : ℕ
  level : ℕ
  addrCapacity : ℕ
  blCapacity : ℕ
  clients : ℕ
  inRehash : Bool
  size : ℕ

namespace Control

/-- The DMA client and the byte offset of a bucket, with `THREADS` 8 and
`sizeof(FixedBucket)` 128. -/
def getClientBucket (c : Control) (bucket : ℕ) : ℕ × ℕ :=
  if bucket < c.tlStartBucketId then
    let k := bucket - c.blStartBucketId
    let g := c.blCapacity / 4
    (k / g, k % g * 128)
  else if bucket < c.tlStartBucketId + c.addrCapacity then
    let k := bucket - c.tlStartBucketId
    let g := c.addrCapacity / 4
    (k / g + 4, k % g * 128)
  else
    let k := bucket - c.nextStartBucketId
    let g := c.addrCapacity * 2 / 4
    (k / g + 8, k % g * 128)

/-- The two top buckets and the two bottom buckets of a key. -/
def get4Buckets (c : Control) (hash1 hash2 : ℕ) : List ℕ :=
  [c.addrCapacity - 4 + hash1 % (c.addrCapacity / 2),
    c.addrCapacity - 4 + (c.addrCapacity / 2 + hash2 % (c.addrCapacity / 2)),
    c.blCapacity - 4 + hash1 % (c.addrCapacity / 4),
    c.blCapacity - 4 + (c.addrCapacity / 4 + hash2 % (c.addrCapacity / 4))]

/-- The two buckets of a key in the level that an expansion adds. -/
def getExpandBucketIds (c : Control) (hash1 hash2 : ℕ) : ℕ × ℕ :=
  (c.tlStartBucketId + c.addrCapacity + hash1 % c.addrCapacity,
    c.tlStartBucketId + c.addrCapacity * 2 + hash2 % c.addrCapacity)

end Control

structure Dpu (K V : Type) extends Control where
  cache : Frame → Bucket K V
  dirtyFlag : Frame → Bool
  bucketTable : ℕ → Option Frame
  bucketIds : Frame → Option ℕ
  replacer : Replacer Frame
  freeList : List Frame
  newBucketConstructed : ℕ → Bool
  dmaClient : ℕ → ℕ → Bucket K V
  dmaTick : ℕ

namespace Dpu

/-- The handler has a frame for a bucket, or `FetchBucket` gives a frame to a bucket. -/
inductive Event : Type where
  | obtain (bucket : ℕ) (frame : Frame)
  | give (frame : Frame) (bucket : ℕ)
deriving DecidableEq

variable {K V : Type} {m : Type → Type} [Monad m] [MonadLiftT Outcome m] [Notes Event m]

/-! ## Frames and DMA -/

/-- Host memory as the DMA addresses it. -/
def host (s : Dpu K V) (bucket : ℕ) : Bucket K V :=
  s.dmaClient (s.getClientBucket bucket).1 (s.getClientBucket bucket).2

def recordAccess (s : Dpu K V) (frame : Frame) : Dpu K V :=
  { s with replacer := s.replacer.recordAccess frame }

/-- `bucket_table_[bucket] = frame` -/
def mapBucket (s : Dpu K V) (bucket : ℕ) (frame : Frame) : Dpu K V :=
  { s with bucketTable := update s.bucketTable bucket (some frame) }

/-- Write a frame and its dirty flag. -/
def write (s : Dpu K V) (frame : Frame) (b : Bucket K V) (dirty : Bool) :
    Dpu K V :=
  { s with
    cache := update s.cache frame b
    dirtyFlag := update s.dirtyFlag frame dirty }

/-- `cache_[frame].token_[slot] = 0` -/
def clearToken (s : Dpu K V) (frame : Frame) (slot : Fin 4) : Dpu K V :=
  { s with cache := update s.cache frame ((s.cache frame).clearToken slot) }

/-- A bucket below the bottom level, or one of a client that does not exist,
has no address. -/
def Addressable (s : Dpu K V) (bucket : ℕ) : Prop :=
  s.blStartBucketId ≤ bucket ∧ (s.getClientBucket bucket).1 < s.clients

instance (s : Dpu K V) (bucket : ℕ) : Decidable (s.Addressable bucket) :=
  inferInstanceAs (Decidable (_ ∧ _))

def flushBucket (env : Env K) (s : Dpu K V) (frame : Frame) : Outcome (Dpu K V) :=
  match s.bucketIds frame with
  | none => .undefined
  | some bucket =>
      if s.Addressable bucket then
        let (client, offset) := s.getClientBucket bucket
        .done { s with
          dmaTick := s.dmaTick + 1
          dmaClient :=
            if env.dma s.dmaTick then
              update s.dmaClient client (update (s.dmaClient client) offset (s.cache frame))
            else s.dmaClient }
      else .undefined

/-- The scheduled read of a bucket into a frame, with its success. -/
def readBucket (env : Env K) (s : Dpu K V) (bucket : ℕ) (frame : Frame) :
    Outcome (Bool × Dpu K V) :=
  if s.Addressable bucket then
    .done (env.dma s.dmaTick, { s with
      dmaTick := s.dmaTick + 1
      cache :=
        if env.dma s.dmaTick then update s.cache frame (s.host bucket)
        else s.cache })
  else .undefined

/-- "Determine target frame": the head of the free list, or the evicted frame
after its flush. `FetchBucket` and `NewBucket` begin with it. -/
def targetFrame (env : Env K) (s : Dpu K V) : Outcome (Frame × Dpu K V) :=
  match s.freeList with
  | [] =>
      match s.replacer.evict with
      | none => .undefined
      | some (frame, replacer) =>
          let s := { s with replacer }
          if s.dirtyFlag frame then do
            let s ← s.flushBucket env frame
            return (frame, { s with
              dirtyFlag := update s.dirtyFlag frame false })
          else .done (frame, s)
  | frame :: freeList =>
      .done (frame, { s with
        freeList
        dirtyFlag := update s.dirtyFlag frame false })

/-- `bucket_table_.erase(id)`; the id -1 is in no table. -/
def eraseBucket (table : ℕ → Option Frame) : Option ℕ → ℕ → Option Frame
  | some old => update table old none
  | none => table

/-- Give the frame to the bucket: forget the bucket it held. -/
def retarget (s : Dpu K V) (frame : Frame) (bucket : ℕ) : Dpu K V :=
  let s := { s with
    bucketTable := eraseBucket s.bucketTable (s.bucketIds frame)
    bucketIds := update s.bucketIds frame (some bucket) }
  s.recordAccess frame

/-- `FetchBucket`. The future carries the success and the frame; the caller
enters the bucket into `bucket_table_`. -/
def fetchBucket (env : Env K) (s : Dpu K V) (bucket : ℕ) :
    m ((Bool × Frame) × Dpu K V) := do
  let (frame, s) ← s.targetFrame env
  let (success, s) ← (s.retarget frame bucket).readBucket env bucket frame
  note [Event.give frame bucket, .obtain bucket frame]
  return ((success, frame), s)

/-- Find a bucket in the cache or fetch it and wait; no access is recorded. -/
def load (env : Env K) (s : Dpu K V) (bucket : ℕ) : m (Frame × Dpu K V) :=
  match s.bucketTable bucket with
  | some frame => do
      note [Event.obtain bucket frame]
      return (frame, s)
  | none => do
      let ((_, frame), s) ← s.fetchBucket env bucket
      return (frame, s.mapBucket bucket frame)

/-! ## `SEARCH`, `DELETE` and `UPDATE` -/

section Handlers

variable {α : Type}

/-- What a handler does to one bucket and its dirty flag; `none` is a miss. -/
abbrev Access (K V α : Type) :=
  Bucket K V → Bool → Option (α × Bucket K V × Bool)

/-- The loop over the four buckets: those in the cache are tried at once, the
others are left to be fetched. It stops at the first hit. -/
def scan (act : Access K V α) : Dpu K V → List ℕ → m (Option α × List ℕ × Dpu K V)
  | s, [] => return (none, [], s)
  | s, b :: bs =>
      match s.bucketTable b with
      | some frame => do
          note [Event.obtain b frame]
          let s := s.recordAccess frame
          match act (s.cache frame) (s.dirtyFlag frame) with
          | some (a, bucket, dirty) => return (some a, [], s.write frame bucket dirty)
          | none => scan act s bs
      | none => do
          let (hit, toFetch, s) ← scan act s bs
          return (hit, b :: toFetch, s)

/-- The fetches of all missing buckets, each with its future. -/
def fetchAll (env : Env K) :
    Dpu K V → List ℕ → m (List (ℕ × Bool × Frame) × Dpu K V)
  | s, [] => return ([], s)
  | s, b :: bs => do
      let ((success, frame), s) ← s.fetchBucket env b
      let (futures, s) ← fetchAll env s bs
      return ((b, success, frame) :: futures, s)

/-- The last loop of `ProcessDelete` and `ProcessUpdate`: it returns at the
first hit, and leaves the futures behind it as they are. -/
def consume (act : Access K V α) :
    Dpu K V → List (ℕ × Bool × Frame) → Option α × Dpu K V
  | s, [] => (none, s)
  | s, (b, success, frame) :: futures =>
      if success then
        let s := s.mapBucket b frame
        match act (s.cache frame) (s.dirtyFlag frame) with
        | some (a, bucket, dirty) => (some a, s.write frame bucket dirty)
        | none => consume act s futures
      else consume act s futures

/-- The last loop of `ProcessSearch` takes every future. -/
def consumeSearch [DecidableEq K] (key : K) :
    Dpu K V → Option V → List (ℕ × Bool × Frame) → Option V × Dpu K V
  | s, searched, [] => (searched, s)
  | s, searched, (b, success, frame) :: futures =>
      if success then
        let s := s.mapBucket b frame
        consumeSearch key s (searched.or ((s.cache frame).searchSlot key)) futures
      else consumeSearch key s searched futures

variable [DecidableEq K]

def searchAccess (key : K) : Access K V V := fun b dirty =>
  (b.searchSlot key).map fun v => (v, b, dirty)

def deleteAccess (key : K) : Access K V Unit := fun b _ =>
  (b.deleteSlot key).map fun b => ((), b, true)

def updateAccess [DecidableEq V] (key : K) (value : V) : Access K V Unit :=
  fun b dirty =>
    (b.updateSlot key value).map fun (b, changed) => ((), b, dirty || changed)

/-- The value is the argument of the callback; `none` is `nullopt`. -/
def processSearch (env : Env K) (s : Dpu K V) (key : K) :
    m (Option V × Dpu K V) := do
  match ← s.scan (searchAccess key) (s.get4Buckets (env.hash1 key) (env.hash2 key)) with
  | (some v, _, s) => return (some v, s)
  | (none, toFetch, s) => do
      let (futures, s) ← s.fetchAll env toFetch
      return s.consumeSearch key none futures

/-- `ProcessDelete` and `ProcessUpdate`. -/
def processWith (act : Access K V Unit) (env : Env K) (s : Dpu K V) (key : K) :
    m (Bool × Dpu K V) := do
  match ← s.scan act (s.get4Buckets (env.hash1 key) (env.hash2 key)) with
  | (some _, _, s) => return (true, s)
  | (none, toFetch, s) => do
      let (futures, s) ← s.fetchAll env toFetch
      let (hit, s) := s.consume act futures
      return (hit.isSome, s)

def processDelete (env : Env K) (s : Dpu K V) (key : K) : m (Bool × Dpu K V) :=
  processWith (deleteAccess key) env s key

def processUpdate [DecidableEq V] (env : Env K) (s : Dpu K V) (key : K)
    (value : V) : m (Bool × Dpu K V) :=
  processWith (updateAccess key value) env s key

end Handlers

/-! ## `Expand` -/

/-- `ENSURE` on a condition without effects. -/
def ensureThat (env : Env K) (cond : Bool) : Outcome Unit :=
  if env.ensure && !cond then .exit else .done ()

/-- `ENSURE(cache_[frame].InsertSlot(key, value, dirty_flag_[frame]), ..)`: the
insertion happens only if the argument is evaluated. -/
def ensureInsert (env : Env K) (s : Dpu K V) (frame : Frame) (x : K × V) :
    Outcome (Dpu K V) :=
  if env.ensure then
    match (s.cache frame).insertSlot x.1 x.2 with
    | some b => .done (s.write frame b true)
    | none => .exit
  else .done s

section Expand

variable [Inhabited K] [Inhabited V]

def newBucket (env : Env K) (s : Dpu K V) (bucket : ℕ) :
    Outcome (Frame × Dpu K V) := do
  let (frame, s) ← s.targetFrame env
  let s := s.retarget frame bucket
  return (frame, { s with cache := update s.cache frame Bucket.zero })

/-- The first loop of `FetchNBuckets` for one bucket: a frame, with the success
of its fetch if it has a future. -/
def acquire (env : Env K) (s : Dpu K V) (bucket : ℕ) :
    Outcome ((Option Bool × Frame) × Dpu K V) :=
  if s.nextStartBucketId ≤ bucket ∧
      s.newBucketConstructed (bucket - s.nextStartBucketId) = false then do
    ensureThat env s.inRehash
    ensureThat env (s.clients == 12)
    let (frame, s) ← s.newBucket env bucket
    let s := s.mapBucket bucket frame
    return ((none, frame), { s with
      newBucketConstructed := update s.newBucketConstructed (bucket - s.nextStartBucketId) true })
  else match s.bucketTable bucket with
    | some frame => .done ((none, frame), s.recordAccess frame)
    | none => do
        let ((success, frame), s) ← s.fetchBucket env bucket
        return ((some success, frame), s)

/-- The second loop of `FetchNBuckets` for one bucket. -/
def settle (env : Env K) (s : Dpu K V) (bucket : ℕ) :
    Option Bool × Frame → Outcome (Dpu K V)
  | (none, _) => .done s
  | (some success, frame) => do
      ensureThat env success
      return s.mapBucket bucket frame

/-- `FetchNBuckets`, which is only called for two buckets. -/
def fetchNBuckets (env : Env K) (s : Dpu K V) (b0 b1 : ℕ) :
    Outcome ((Frame × Frame) × Dpu K V) := do
  let (x0, s) ← s.acquire env b0
  let (x1, s) ← s.acquire env b1
  let s ← s.settle env b0 x0
  let s ← s.settle env b1 x1
  return ((x0.2, x1.2), s)

/-- The less loaded of two frames, the first one if they are equal. -/
def lessLoaded (s : Dpu K V) (f0 f1 : Frame) : Frame :=
  if (s.cache f0).count > (s.cache f1).count then f1 else f0

/-- The loop body of `splitBucket`, on the copy `bucket`. -/
def splitSlot (env : Env K) (bucket : Bucket K V) (s : Dpu K V) (slot : Fin 4) :
    Outcome (Dpu K V) :=
  if bucket.token slot then do
    let key := (bucket.slots slot).1
    let nbs := s.getExpandBucketIds (env.hash1 key) (env.hash2 key)
    let ((f0, f1), s) ← s.fetchNBuckets env nbs.1 nbs.2
    s.ensureInsert env (s.lessLoaded f0 f1) (bucket.slots slot)
  else .done s

/-- `splitBucket`. The frame may hold another bucket by the time its dirty flag
is cleared. -/
def splitBucket (env : Env K) (s : Dpu K V) (frame : Frame) : Outcome (Dpu K V) := do
  let s ← (finRange 4).foldlM (splitSlot env (s.cache frame)) s
  return { s with dirtyFlag := update s.dirtyFlag frame false }

/-- The loop body over the bottom buckets. -/
def splitBottom (env : Env K) (s : Dpu K V) (b : ℕ) : Outcome (Dpu K V) := do
  let (frame, s) ← s.load env b
  s.splitBucket env frame

/-- The beginning of `Expand`: four clients for the new level, which the host
has allocated and zeroed. -/
def beginExpand (s : Dpu K V) : Dpu K V :=
  { s with
    newBucketConstructed := fun _ => false
    inRehash := true
    clients := s.clients + 4
    dmaClient := fun c o => if s.clients ≤ c then Bucket.zero else s.dmaClient c o }

/-- The end of `Expand`: the levels move down by one and the clients of the old
bottom level are erased. -/
def finishExpand (s : Dpu K V) : Dpu K V :=
  { s with
    addrCapacity := s.addrCapacity * 2
    blCapacity := s.blCapacity * 2
    level := s.level + 1
    blStartBucketId := s.tlStartBucketId
    tlStartBucketId := s.nextStartBucketId
    nextStartBucketId := s.nextStartBucketId + s.addrCapacity * 2
    clients := s.clients - 4
    dmaClient := fun c o => s.dmaClient (c + 4) o
    inRehash := false }

def expand (env : Env K) (s : Dpu K V) : Outcome (Dpu K V) := do
  let s1 := s.beginExpand
  let s2 ← (range' s1.blStartBucketId
    (s1.tlStartBucketId - s1.blStartBucketId)).foldlM (splitBottom env) s1
  return s2.finishExpand

/-! ## `INSERT` -/

/-- The first loop of `tryInsertInto2Buckets` for one bucket. -/
def lookupOrFetch (env : Env K) (s : Dpu K V) (bucket : ℕ) :
    m ((Option Bool × Frame) × Dpu K V) :=
  match s.bucketTable bucket with
  | some frame => do
      note [Event.obtain bucket frame]
      return ((none, frame), s.recordAccess frame)
  | none => do
      let ((success, frame), s) ← s.fetchBucket env bucket
      return ((some success, frame), s)

/-- The second loop for one bucket; `none` is the return after a failed fetch. -/
def settleFetched (s : Dpu K V) (bucket : ℕ) :
    Option Bool × Frame → Option (Dpu K V)
  | (none, _) => some s
  | (some true, frame) => some (s.mapBucket bucket frame)
  | (some false, _) => none

/-- `tryInsertInto2Buckets`: only the less loaded bucket is tried. -/
def tryInsertInto2Buckets (env : Env K) (s : Dpu K V) (b0 b1 : ℕ) (x : K × V) :
    m (Bool × Dpu K V) := do
  let (x0, s) ← s.lookupOrFetch env b0
  let (x1, s) ← s.lookupOrFetch env b1
  match s.settleFetched b0 x0 with
  | none => return (false, s)
  | some s =>
      match s.settleFetched b1 x1 with
      | none => return (false, s)
      | some s =>
          let frame := s.lessLoaded x0.2 x1.2
          match (s.cache frame).insertSlot x.1 x.2 with
          | some b => return (true, s.write frame b true)
          | none => return (false, s)

/-- Run `body` over a list until it returns `true`. -/
def untilTrue {α : Type} (body : Dpu K V → α → m (Bool × Dpu K V)) :
    Dpu K V → List α → m (Bool × Dpu K V)
  | s, [] => return (false, s)
  | s, a :: l => do
      let (done, s) ← body s a
      if done then return (true, s) else untilTrue body s l

/-- Try to move the entry in `slot` of the source frame to the bucket `dst`.
The token of the source slot is cleared without a dirty flag. -/
def moveTo (env : Env K) (srcBucket : ℕ) (srcFrame : Frame) (slot : Fin 4)
    (s : Dpu K V) (dst : ℕ) : m (Bool × Dpu K V) :=
  if dst = srcBucket then return (false, s)
  else do
    let (dstFrame, s) ← s.load env dst
    let x := (s.cache srcFrame).slots slot
    match (s.cache dstFrame).insertSlot x.1 x.2 with
    | some b => return (true, (s.write dstFrame b true).clearToken srcFrame slot)
    | none => return (false, s)

/-- Try to move the entry in `slot` to one of its two top buckets. -/
def moveSlot (env : Env K) (srcBucket : ℕ) (srcFrame : Frame) (s : Dpu K V)
    (slot : Fin 4) : m (Bool × Dpu K V) :=
  let key := ((s.cache srcFrame).slots slot).1
  s.untilTrue (moveTo env srcBucket srcFrame slot)
    ((s.get4Buckets (env.hash1 key) (env.hash2 key)).take 2)

/-- Make room in one bucket by moving an entry out of it, and insert the new
entry there. -/
def moveFrom (env : Env K) (x : K × V) (s : Dpu K V) (srcBucket : ℕ) :
    m (Bool × Dpu K V) := do
  let (srcFrame, s) ← s.load env srcBucket
  ensureThat env ((s.cache srcFrame).count == 4)
  let (moved, s) ← s.untilTrue (moveSlot env srcBucket srcFrame) (finRange 4)
  if moved then do
    let s ← s.ensureInsert env srcFrame x
    return (true, s)
  else return (false, s)

/-- `ProcessInsert` after the load test. -/
def insertNoExpand (env : Env K) (s : Dpu K V) (x : K × V) : m (Bool × Dpu K V) := do
  let bs := s.get4Buckets (env.hash1 x.1) (env.hash2 x.1)
  let (done, s) ← s.tryInsertInto2Buckets env (bs.getD 0 0) (bs.getD 1 0) x
  if done then return (true, s)
  let (done, s) ← s.tryInsertInto2Buckets env (bs.getD 2 0) (bs.getD 3 0) x
  if done then return (true, s)
  s.untilTrue (moveFrom env x) bs

/-- `GetCurrentLoadFactor() >= 0.95` -/
def overloaded (env : Env K) (s : Dpu K V) : Bool :=
  env.loadTest s.size (4 * (s.blCapacity + s.addrCapacity))

def processInsert (env : Env K) (s : Dpu K V) (x : K × V) :
    Outcome (Bool × Dpu K V) := do
  let s ← if s.overloaded env then s.expand env else .done s
  s.insertNoExpand env x

end Expand

/-! ## `Run` -/

end Dpu

inductive Request (K V : Type) : Type where
  | search (key : K)
  | delete (key : K)
  | insert (key : K) (value : V)
  | update (key : K) (value : V)
  | start

namespace Dpu

variable {K V : Type} [DecidableEq K] [Inhabited K] [Inhabited V]

/-- One request of the dispatch loop; the answer is what the callback of a
`SEARCH` is given. An `UPDATE` is dropped. -/
def handle (env : Env K) (s : Dpu K V) :
    Request K V → Outcome (Option (Option V) × Dpu K V)
  | .search key => do
      let (result, s) ← s.processSearch env key
      return (some result, s)
  | .insert key value => do
      let (result, s) ← s.processInsert env (key, value)
      return (none, if result then { s with size := s.size + 1 } else s)
  | .delete key => do
      let (_, s) ← s.processDelete env key
      return (none, s)
  | .update _ _ => .done (none, s)
  | .start => .done (none, s)

/-- The requests of a queue in order. -/
def runAll (env : Env K) : Dpu K V → List (Request K V) →
    Outcome (List (Option (Option V)) × Dpu K V)
  | s, [] => .done ([], s)
  | s, r :: rs => do
      let (a, s) ← s.handle env r
      let (as, s) ← runAll env s rs
      return (a :: as, s)

/-- The DPU after its constructor, with the host's two zeroed levels mapped. -/
def init (level : ℕ) : Dpu K V where
  addrCapacity := 2 ^ level
  blCapacity := 2 ^ (level - 1)
  blStartBucketId := 2 ^ (level - 1) - 4
  tlStartBucketId := 2 ^ level - 4
  nextStartBucketId := 2 ^ (level + 1) - 4
  level := level
  clients := 8
  inRehash := false
  size := 0
  cache := fun _ => Bucket.zero
  dirtyFlag := fun _ => false
  bucketTable := fun _ => none
  bucketIds := fun _ => none
  replacer := Replacer.empty
  freeList := finRange 128
  newBucketConstructed := fun _ => false
  dmaClient := fun _ _ => Bucket.zero
  dmaTick := 0

end Dpu

end Librdpma.LevelKv
