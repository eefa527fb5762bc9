import Librdpma.Drtmh.RemoteSet

/-!
# The commit timestamp of DBRad (`src/db/txs/dbrad.cc`)

A transaction starts with a timestamp from the clock. Most accesses to local
records raise it to the sequence number they find; `insert` and `insert_index`
do not. `end` locks the remote records, then the local ones, takes one more than
the largest `read_ts` of the local records, and raises the result to the largest
sequence number of the remote set. With it the records are overwritten.

The `read_ts` of remote records come back in the replies to the lock requests
and are collected in `max_time_`, which `end` overwrites without reading it.

Other transactions run in between. So `end` is given each record as it is when
its lock is taken.
-/

namespace Librdpma.Drtmh.DbRad

open Lib List BitVec

/-- What the locks read of a record. -/
structure Node where
  lock : BitVec 64
  seq : BitVec 64
  readTs : BitVec 64
deriving DecidableEq

/-- `MAX` -/
def maxOf (x y : BitVec 64) : BitVec 64 := if x > y then x else y

/-- `WriteSetItem`; `raised` says whether `timestamp` has been raised to `seq`. -/
structure Item where
  seq : BitVec 64
  ro : Bool
  raised : Bool
deriving DecidableEq

structure Tx where
  timestamp : BitVec 64
  rwset : List Item
  remoteset : RemoteSet
  /-- `remoteset->max_time_` -/
  maxTime : BitVec 64

/-! ## Accesses -/

/-- `_begin` at the time `now` of the clock, which has to fit in 40 bits. -/
def begin (remoteset : RemoteSet) (maxTime now : BitVec 64) : Outcome Tx :=
  if (now <<< 24) >>> 24 ≠ now then .exit
  else .done ⟨now <<< 24, [], remoteset.clear 0, maxTime⟩

/-- An item for a record with number `seq` that raises `timestamp`. -/
def Tx.addRaised (x : Tx) (seq : BitVec 64) (ro : Bool) : Tx :=
  { x with timestamp := maxOf seq x.timestamp, rwset := x.rwset ++ [⟨seq, ro, true⟩] }

/-- The `i`-th item is to be written. -/
def Tx.promote (x : Tx) (i : ℕ) : Outcome Tx :=
  match x.rwset[i]? with
  | some it => .done { x with
      timestamp := maxOf x.timestamp it.seq
      rwset := x.rwset.set i ⟨it.seq, false, true⟩ }
  | none => .exit

/-- The accesses, with the number of the record they find. -/
inductive Access : Type where
  | get (seq : BitVec 64)
  /-- `insert` and `insert_index` -/
  | insert (seq : BitVec 64)
  /-- `write`, and the deletions of a record that is the `i`-th item -/
  | write (i : ℕ)
  /-- the deletions of a record that is not in the set -/
  | delete (seq : BitVec 64)
  /-- a call on the remote set -/
  | remote (c : RemoteSet.SetCall)

def Access.run (x : Tx) : Access → Outcome Tx
  | .get seq => .done (x.addRaised seq true)
  | .insert seq => .done { x with rwset := x.rwset ++ [⟨seq, false, false⟩] }
  | .write i => x.promote i
  | .delete seq => .done (x.addRaised seq false)
  | .remote c => do
      let remoteset ← c.run x.remoteset
      return { x with remoteset := remoteset }

/-- The transactions that are about to call `end`. -/
inductive Built : Tx → Prop where
  | begin {remoteset : RemoteSet} {maxTime now : BitVec 64} {x : Tx}
      (h : begin remoteset maxTime now = .done x) : Built x
  | access {x x' : Tx} (h : Built x) (a : Access) (ha : a.run x = .done x') : Built x'

/-! ## The end of a transaction -/

/-- The loop of `lock_rpc_handler` at the server `partition`: the flag of the
reply and `max_time`. -/
def lockItems (partition : ℕ) : List (RemoteLockItem × Node) → BitVec 64 → Bool × BitVec 64
  | [], maxTime => (true, maxTime)
  | (it, n) :: rest, maxTime =>
      if it.pid.toNat ≠ partition then lockItems partition rest maxTime
      else if n.lock ≠ 0#64 then (false, maxTime)
      else if n.seq ≠ it.seq then (false, maxTime)
      else lockItems partition rest (maxOf maxTime n.readTs)

/-- `lock_rpc_handler`: `num_items_` and `payload_`. The number of items comes in
an `int8_t`, and the loop compares it as an unsigned number. -/
def lockRpcHandler (partition : ℕ) (items : List (RemoteLockItem × Node)) :
    Outcome (Bool × BitVec 32) :=
  if 127 < items.length then .undefined
  else
    let (ok, maxTime) := lockItems partition items 0#64
    .done (ok, maxTime.setWidth 32)

/-- `_check_res` -/
def checkRes : List (Bool × BitVec 32) → BitVec 64 → Bool × BitVec 64
  | [], maxTime => (true, maxTime)
  | (ok, payload) :: rest, maxTime =>
      if ok = false then (false, maxTime)
      else checkRes rest (maxOf maxTime (payload.setWidth 64))

/-- `lock_remote` of the remote set, its records being found as `remote`. -/
def lockRemote (x : Tx) (remote : List Node) : Outcome (Bool × BitVec 64) :=
  if x.remoteset.writeItems = 0#16 then .done (true, x.maxTime)
  else do
    let replies ← x.remoteset.writeServers.mapM fun p =>
      lockRpcHandler p (x.remoteset.lockItems.zip remote)
    return checkRes replies x.maxTime

/-- `LockAllSet`, the local records being found as in the list. -/
def lockAllSet : List (Item × Node) → BitVec 64 → Option (BitVec 64)
  | [], maxTs => some (maxTs + 1#64)
  | (it, n) :: rest, maxTs =>
      if it.ro then lockAllSet rest maxTs
      else if n.lock ≠ 0#64 then none
      else if n.seq ≠ it.seq then none
      else lockAllSet rest (maxOf n.readTs maxTs)

/-- The sequence numbers of `kvs_`. -/
def remoteSeqs (s : RemoteSet) : List (BitVec 64) :=
  (range s.elems).map fun i => (s.kvs i).seq

/-- `end` up to the commit step: the commit timestamp, or nothing if it goes to
`ABORT`. `need_validate_` is not set, so that `validate_remote` sends nothing. -/
def Tx.endTs (x : Tx) (localNodes remote : List Node) : Outcome (Option (BitVec 64)) := do
  let (ok, _) ← lockRemote x remote
  if ok = false then return none
  match lockAllSet (x.rwset.zip localNodes) x.timestamp with
  | none => return none
  | some ts => return some ((remoteSeqs x.remoteset).foldl maxOf ts)

/-! ## The timestamp before a commit -/

/-- The local records that are overwritten, as they are when they are locked. -/
def Tx.overwritten (x : Tx) (localNodes : List Node) : List (Item × Node) :=
  (x.rwset.zip localNodes).filter fun p => !p.1.ro

/-- The largest of `timestamp` and the `read_ts` of the local records that are
overwritten. -/
def Tx.latest (x : Tx) (localNodes : List Node) : BitVec 64 :=
  (x.overwritten localNodes).foldl (fun ts p => maxOf p.2.readTs ts) x.timestamp

lemma toNat_maxOf (x y : BitVec 64) : (maxOf x y).toNat = max x.toNat y.toNat := by
  rw [maxOf]
  split_ifs with h
  · have := lt_def.mp h
    omega
  · have := mt lt_def.mpr h
    omega

lemma lt_foldl_maxOf {n : ℕ} {l : List (BitVec 64)} {ts : BitVec 64} :
    n < (l.foldl maxOf ts).toNat ↔ n < ts.toNat ∨ ∃ s ∈ l, n < s.toNat := by
  induction l generalizing ts with
  | nil => simp
  | cons s l ih =>
    rw [foldl_cons, ih, toNat_maxOf]
    simp only [mem_cons, exists_eq_or_imp, lt_max_iff]
    exact or_assoc

lemma le_foldl_readTs (l : List (Item × Node)) (ts : BitVec 64) :
    ts.toNat ≤ (l.foldl (fun ts p => maxOf p.2.readTs ts) ts).toNat ∧
      ∀ p ∈ l, p.2.readTs.toNat ≤ (l.foldl (fun ts p => maxOf p.2.readTs ts) ts).toNat := by
  induction l generalizing ts with
  | nil => exact ⟨le_refl _, nofun⟩
  | cons q l ih =>
    obtain ⟨hts, hl⟩ := ih (maxOf q.2.readTs ts)
    rw [toNat_maxOf] at hts
    refine ⟨le_trans (le_max_right _ _) hts, fun p hp => ?_⟩
    rcases mem_cons.mp hp with rfl | hp
    · exact le_trans (le_max_left _ _) hts
    · exact hl p hp

/-- `LockAllSet` that returns true has found every number as it was read, and
gives one more than the largest `read_ts`. -/
lemma lockAllSet_some {l : List (Item × Node)} {ts ts' : BitVec 64}
    (h : lockAllSet l ts = some ts') :
    ts' = (l.filter fun p => !p.1.ro).foldl (fun ts p => maxOf p.2.readTs ts) ts + 1#64 ∧
      ∀ p ∈ l.filter fun p => !p.1.ro, p.2.seq = p.1.seq := by
  induction l generalizing ts with
  | nil =>
    cases h
    exact ⟨rfl, nofun⟩
  | cons q l ih =>
    obtain ⟨it, n⟩ := q
    rw [lockAllSet] at h
    split at h
    · rename_i hro
      rw [filter_cons_of_neg (by simp [hro])]
      exact ih h
    · rename_i hro
      rw [filter_cons_of_pos (by simp [hro])]
      split at h
      · cases h
      · split at h
        · cases h
        · rename_i hseq
          obtain ⟨hts, hall⟩ := ih h
          refine ⟨hts, fun p hp => ?_⟩
          rcases mem_cons.mp hp with rfl | hp
          · exact not_not.mp hseq
          · exact hall p hp

lemma endTs_some {x : Tx} {localNodes remote : List Node} {c : BitVec 64}
    (h : x.endTs localNodes remote = .done (some c)) :
    c = (remoteSeqs x.remoteset).foldl maxOf (x.latest localNodes + 1#64) ∧
      ∀ p ∈ x.overwritten localNodes, p.2.seq = p.1.seq := by
  rw [Tx.endTs] at h
  obtain ⟨⟨ok, maxTime⟩, -, h⟩ := Outcome.bind_eq_done.mp h
  dsimp only at h
  split at h
  · cases h
  · split at h
    · cases h
    · rename_i ts hlk
      obtain ⟨rfl, hseq⟩ := lockAllSet_some hlk
      cases h
      exact ⟨rfl, hseq⟩

/-- The commit timestamp is above a number that does not exceed what `end` adds
1 to, and above a number below one of the remote set, and above no other. -/
lemma lt_endTs_iff {x : Tx} {localNodes remote : List Node} {c : BitVec 64}
    (h : x.endTs localNodes remote = .done (some c)) (n : BitVec 64) :
    n < c ↔ (n ≤ x.latest localNodes ∧ x.latest localNodes ≠ allOnes 64) ∨
      ∃ s ∈ remoteSeqs x.remoteset, n < s := by
  rw [(endTs_some h).1, lt_def, lt_foldl_maxOf, toNat_add, le_def, Ne, ← toNat_inj, toNat_allOnes]
  simp only [lt_def, toNat_ofNat]
  have := (x.latest localNodes).isLt
  refine or_congr_left ?_
  omega

/-! ## Accesses raise the timestamp -/

def Tx.Raised (x : Tx) : Prop := ∀ it ∈ x.rwset, it.raised = true → it.seq ≤ x.timestamp

lemma le_maxOf_left (x y : BitVec 64) : x ≤ maxOf x y := by
  rw [le_def, toNat_maxOf]
  exact le_max_left _ _

lemma le_maxOf_right (x y : BitVec 64) : y ≤ maxOf x y := by
  rw [le_def, toNat_maxOf]
  exact le_max_right _ _

lemma Tx.Raised.addRaised {x : Tx} (h : x.Raised) (seq : BitVec 64) (ro : Bool) :
    (x.addRaised seq ro).Raised := by
  intro it hit hr
  rcases mem_append.mp hit with hit | hit
  · exact BitVec.le_trans (h it hit hr) (le_maxOf_right _ _)
  · rw [mem_singleton.mp hit]
    exact le_maxOf_left _ _

lemma Tx.Raised.access {x x' : Tx} {a : Access} (h : x.Raised) (ha : a.run x = .done x') :
    x'.Raised := by
  cases a with
  | get seq =>
    cases ha
    exact h.addRaised seq true
  | insert seq =>
    cases ha
    intro it hit hr
    rcases mem_append.mp hit with hit | hit
    · exact h it hit hr
    · rw [mem_singleton.mp hit] at hr
      cases hr
  | write i =>
    rw [Access.run, Tx.promote] at ha
    split at ha
    · cases ha
      intro it hit hr
      rcases mem_or_eq_of_mem_set hit with hit | rfl
      · exact BitVec.le_trans (h it hit hr) (le_maxOf_left _ _)
      · exact le_maxOf_right _ _
    · cases ha
  | delete seq =>
    cases ha
    exact h.addRaised seq false
  | remote c =>
    obtain ⟨r, -, hr⟩ := Outcome.bind_eq_done.mp ha
    cases hr
    exact h

lemma Built.raised {x : Tx} (h : Built x) : x.Raised := by
  induction h with
  | begin h =>
    rw [DbRad.begin] at h
    split at h
    · cases h
    · rw [← Outcome.done.inj h]
      intro it hit
      cases hit
  | access _ a ha ih => exact ih.access ha

/-! ## The order of versions -/

/-- The commit timestamp is above the number and the `read_ts`, at the time of
locking, of every record that is overwritten. -/
def Tx.Orders (x : Tx) (localNodes remote : List Node) (c : BitVec 64) : Prop :=
  (∀ p ∈ x.overwritten localNodes, p.2.seq < c ∧ p.2.readTs < c) ∧
    ∀ p ∈ x.remoteset.lockItems.zip remote, p.2.seq < c ∧ p.2.readTs < c

/-- Some record of the remote set was read with a larger number. -/
def Tx.Passed (x : Tx) (n : BitVec 64) : Prop := ∃ s ∈ remoteSeqs x.remoteset, n < s

/-- The timestamp does not wrap round, no inserted record has a number above the
largest local timestamp, and no remote record that is written has a number or a
`read_ts` above it; or the remote set makes up for it. -/
def Tx.InOrder (x : Tx) (localNodes remote : List Node) : Prop :=
  (x.latest localNodes = allOnes 64 →
    ∀ p ∈ x.overwritten localNodes, x.Passed p.2.seq ∧ x.Passed p.2.readTs) ∧
  (∀ p ∈ x.overwritten localNodes, p.1.raised = false →
    p.2.seq ≤ x.latest localNodes ∨ x.Passed p.2.seq) ∧
  ∀ p ∈ x.remoteset.lockItems.zip remote,
    ((p.2.seq ≤ x.latest localNodes ∧ x.latest localNodes ≠ allOnes 64) ∨ x.Passed p.2.seq) ∧
    ((p.2.readTs ≤ x.latest localNodes ∧ x.latest localNodes ≠ allOnes 64) ∨ x.Passed p.2.readTs)

/-- The local records that an access has raised the timestamp for are in order
by themselves; of the others, and of the remote ones, the state before the
commit decides. -/
theorem commit_ts_orders_iff {x : Tx} (hx : Built x) (localNodes remote : List Node) (c : BitVec 64)
    (h : x.endTs localNodes remote = .done (some c)) :
    x.Orders localNodes remote c ↔ x.InOrder localNodes remote := by
  have hlt := lt_endTs_iff h
  have hseq := (endTs_some h).2
  have hmem : ∀ p ∈ x.overwritten localNodes, p.1 ∈ x.rwset := fun p hp =>
    (of_mem_zip (mem_filter.mp hp).1).1
  obtain ⟨hts, hrd⟩ := le_foldl_readTs (x.overwritten localNodes) x.timestamp
  constructor
  · rintro ⟨hloc, hrmt⟩
    refine ⟨fun hmax p hp => ?_, fun p hp _ => ?_, fun p hp => ?_⟩
    · obtain ⟨hs, hr⟩ := hloc p hp
      exact ⟨((hlt _).mp hs).resolve_left fun h => h.2 hmax,
        ((hlt _).mp hr).resolve_left fun h => h.2 hmax⟩
    · exact ((hlt _).mp (hloc p hp).1).imp_left And.left
    · exact ⟨(hlt _).mp (hrmt p hp).1, (hlt _).mp (hrmt p hp).2⟩
  · rintro ⟨hwrap, hnew, hrmt⟩
    refine ⟨fun p hp => ?_, fun p hp =>
      ⟨(hlt _).mpr (hrmt p hp).1, (hlt _).mpr (hrmt p hp).2⟩⟩
    by_cases hmax : x.latest localNodes = allOnes 64
    · obtain ⟨hs, hr⟩ := hwrap hmax p hp
      exact ⟨(hlt _).mpr (.inr hs), (hlt _).mpr (.inr hr)⟩
    · refine ⟨(hlt _).mpr ?_, (hlt _).mpr (.inl ⟨hrd p hp, hmax⟩)⟩
      cases hrsd : p.1.raised with
      | false => exact (hnew p hp hrsd).imp_left fun hle => ⟨hle, hmax⟩
      | true =>
        refine .inl ⟨?_, hmax⟩
        rw [hseq p hp]
        exact le_trans (hx.raised p.1 (hmem p hp) hrsd) hts

def noItems : RemoteSet := .new (fun _ => ⟨0#8, 0#8, 0#64, 0#64, 0#64⟩) fun _ => 0#8

/-- A record is read and written at time 1. -/
theorem commit_ts_orders_local :
    ∃ x : Tx, Built x ∧ ∃ c, x.endTs [⟨0#64, 2#64, 5#64⟩] [] = .done (some c) ∧
      (x.Orders [⟨0#64, 2#64, 5#64⟩] [] c ↔ x.InOrder [⟨0#64, 2#64, 5#64⟩] []) := by
  have h0 : Built ⟨1#64 <<< 24, [], noItems.clear 0, 0#64⟩ :=
    .begin (show begin noItems 0#64 1#64 = _ from rfl)
  have h1 := h0.access (.get 2#64) rfl
  have h2 := h1.access (.write 0) rfl
  exact ⟨_, h2, _, rfl, commit_ts_orders_iff h2 _ _ _ rfl⟩

/-- A remote record, last written a little later than the clock shows, is read
and written: its new version gets the timestamp of the old one. -/
theorem commit_ts_repeats :
    ∃ x : Tx, Built x ∧ ∃ c, x.endTs [] [⟨0#64, 20000000#64, 0#64⟩] = .done (some c) ∧
      ¬ x.Orders [] [⟨0#64, 20000000#64, 0#64⟩] c := by
  have h0 : Built ⟨1#64 <<< 24, [], noItems.clear 0, 0#64⟩ :=
    .begin (show begin noItems 0#64 1#64 = _ from rfl)
  have h1 := h0.access (.remote (.add 1 0#8 7#64)) rfl
  have h2 := h1.access (.remote .doReads) rfl
  have h3 := h2.access (.remote (.getResults [[⟨20000000#64, 64#64, 0#8⟩]])) rfl
  have h4 := h3.access (.remote (.promoteToWrite 0 [1#8])) rfl
  refine ⟨_, h4, 20000000#64, rfl, fun hord => ?_⟩
  exact absurd (hord.2 _ mem_cons_self).1 (by decide)

end Librdpma.Drtmh.DbRad
