import Librdpma.LevelKv.Coherence

/-!
# The expansion handshake (`levelkv/src/host/host.cpp`, `dpu.cpp`)

The host and the DPU are two processes with a FIFO channel in each direction.
A bucket array of host memory is known by a number: the first bottom level is
array 0, the first top level array 1, and the others follow in the order of
their allocation. A `Region` is the part of an array that a DMA server exports
and a DMA client imports.

An action is the next statement of one of the two sides, in any order, or one
of the things the DPU does between two of its messages: a DMA, a request that
begins an expansion, or the end. `Progress()` hands at most one message to the
receive callback, and nothing if the channel is empty. The host's callback runs
`Expand` inside the `Progress()` that received the message, so a second call
could be nested in the first one: the calls form a stack.

Both constructors are given the same level; capacities are natural numbers.
-/

namespace Librdpma.LevelKv.Handshake

open Lib

/-! ## Messages -/

/-- The bytes from `offset` on of a bucket array. -/
structure Region where
  array : ℕ
  offset : ℕ
  len : ℕ
deriving DecidableEq

inductive ControlSignal : Type where
  | expand
  | expandFinish
  | exit
deriving DecidableEq

inductive ComchMsg : Type where
  | exportDescriptor (region : Region)
  | exportSeeds (fSeed sSeed : ℕ)
  | control (signal : ControlSignal)
deriving DecidableEq

/-- `THREADS / 2` servers of `size` bytes each, one behind the other. -/
def dmaServers (array size : ℕ) : List Region :=
  (List.range 4).map fun i => ⟨array, i * size, size⟩

/-! ## The host -/

/-- The members of `Host` and of its `level_ht_`. `allocated` is the number of
arrays that have been allocated, `freed` those that have been freed. -/
structure HostVars where
  addrCapacity : ℕ
  blCapacity : ℕ
  buckets0 : ℕ
  buckets1 : ℕ
  fSeed : ℕ
  sSeed : ℕ
  tlDmaServer : List Region
  blDmaServer : List Region
  inRehash : Bool
  stop : Bool
  allocated : ℕ
  freed : ℕ → Bool

/-- The local variables of `Host::Expand`. -/
structure ExpandVars where
  newMem : ℕ
  newDmaServers : List Region

/-- The statements of `Host::Expand` after its loop. -/
inductive HostStmt : Type where
  | exchangeServers
  | expandParameters
  | freeBottom
  | bottomIsTop
  | topIsNew

/-- The old bottom servers are destroyed by the assignment of the new ones. -/
def HostStmt.exec : HostStmt → ExpandVars × HostVars → ExpandVars × HostVars
  | .exchangeServers, (e, v) =>
      ({ e with newDmaServers := [] },
        { v with blDmaServer := v.tlDmaServer, tlDmaServer := e.newDmaServers })
  | .expandParameters, (e, v) =>
      (e, { v with addrCapacity := v.addrCapacity * 2, blCapacity := v.blCapacity * 2 })
  | .freeBottom, (e, v) => (e, { v with freed := Function.update v.freed v.buckets1 true })
  | .bottomIsTop, (e, v) => (e, { v with buckets1 := v.buckets0 })
  | .topIsNew, (e, v) => (e, { v with buckets0 := e.newMem })

def afterRehash : List HostStmt :=
  [.exchangeServers, .expandParameters, .freeBottom, .bottomIsTop, .topIsNew]

/-- Where a call of `Host::Expand` is: it sends descriptors, waits for the end of
the rehashing, or runs the statements after that. -/
inductive ExpandPc : Type where
  | send (rest : List Region)
  | rehash
  | settle (rest : List HostStmt)

/-- `construct` are the messages the constructor has still to send, `expands` the
calls of `Expand` that have not returned, the innermost first. -/
structure HostSide where
  vars : HostVars
  construct : List ComchMsg
  expands : List (ExpandVars × ExpandPc)

namespace HostSide

/-- `Host::Expand` up to the first message. -/
def expand (h : HostSide) : HostSide :=
  let servers := dmaServers h.vars.allocated (h.vars.addrCapacity * 2 * 128 / 4)
  { h with
    vars := { h.vars with inRehash := true, allocated := h.vars.allocated + 1 }
    expands := (⟨h.vars.allocated, servers⟩, .send servers) :: h.expands }

/-- `comch_host_recv_callback`, with the messages it sends. -/
def recv (h : HostSide) : ComchMsg → HostSide × List ComchMsg
  | .control .expand => (h.expand, [])
  | .control .expandFinish =>
      ({ h with vars := { h.vars with inRehash := false } }, [.control .expandFinish])
  | .control .exit => ({ h with vars := { h.vars with stop := true } }, [])
  | .exportDescriptor _ => (h, [])
  | .exportSeeds _ _ => (h, [])

/-- The region belongs to a server that exists, and its array is not freed. -/
def Serves (h : HostSide) (r : Region) : Prop :=
  (r ∈ h.vars.blDmaServer ∨ r ∈ h.vars.tlDmaServer ∨
    ∃ e ∈ h.expands, r ∈ e.1.newDmaServers) ∧ h.vars.freed r.array = false

instance (h : HostSide) (r : Region) : Decidable (h.Serves r) := inferInstanceAs (Decidable (_ ∧ _))

end HostSide

/-! ## The DPU -/

/-- The members of `Dpu` that the handshake uses. A DMA client is `none` until it
has imported a region; `clients` is their number. -/
structure DpuVars extends Control where
  dmaClient : List (Option Region)
  mmapToRecv : ℕ
  fSeed : ℕ
  sSeed : ℕ
  seedRecved : Bool
  inInit : Bool

namespace DpuVars

/-- `dma_client_[i]->Import(..)` and `mmap_to_recv_--` -/
def importMmap (v : DpuVars) (i : ℕ) (r : Region) : Outcome DpuVars :=
  if i < v.dmaClient.length then
    .done { v with dmaClient := v.dmaClient.set i (some r), mmapToRecv := v.mmapToRecv - 1 }
  else .undefined

/-- `comch_dpu_recv_callback`, with `THREADS` 8. -/
def recv (v : DpuVars) : ComchMsg → Outcome DpuVars
  | .exportDescriptor r =>
      if v.inInit then do
        let v ← v.importMmap (8 - v.mmapToRecv) r
        return if v.mmapToRecv = 0 then { v with inInit := false } else v
      else if v.inRehash then v.importMmap (8 + 4 - v.mmapToRecv) r
      else .done v
  | .exportSeeds f s => .done { v with fSeed := f, sSeed := s, seedRecved := true }
  | .control .expandFinish => .done { v with inRehash := false }
  | .control _ => .done v

/-- The region and the offset in it of a bucket, if its client has imported one. -/
def target (v : DpuVars) (bucket : ℕ) : Option (Region × ℕ) :=
  match v.dmaClient[(v.getClientBucket bucket).1]? with
  | some (some r) => some (r, (v.getClientBucket bucket).2)
  | _ => none

end DpuVars

/-- The statements of `Dpu::Expand` between its last message and its last loop. -/
inductive DpuStmt : Type where
  | updateParameters
  | eraseClient
deriving DecidableEq

def DpuStmt.exec (v : DpuVars) : DpuStmt → DpuVars
  | .updateParameters =>
      { v with
        addrCapacity := v.addrCapacity * 2
        blCapacity := v.blCapacity * 2
        level := v.level + 1
        blStartBucketId := v.tlStartBucketId
        tlStartBucketId := v.nextStartBucketId
        nextStartBucketId := v.nextStartBucketId + v.addrCapacity * 2 }
  | .eraseClient => { v with dmaClient := v.dmaClient.tail, clients := v.clients - 1 }

def afterFinish : List DpuStmt :=
  [.updateParameters, .eraseClient, .eraseClient, .eraseClient, .eraseClient]

/-- Where the DPU is: in its constructor, between two requests, in `Expand`, or
at the end. -/
inductive DpuPc : Type where
  | construct
  | run
  | announce
  | emplace (n : ℕ)
  | importing
  | split
  | finish (rest : List DpuStmt)
  | await
  | stopped
deriving DecidableEq

structure DpuSide where
  vars : DpuVars
  pc : DpuPc

/-! ## The system -/

structure Sys where
  host : HostSide
  dpu : DpuSide
  toHost : List ComchMsg
  toDpu : List ComchMsg

inductive Act : Type where
  | host
  | dpu
  | dma (bucket : ℕ)
  | expand
  | exit

namespace Sys

/-- `host_comch_->Progress()` -/
def pollHost (s : Sys) : Sys :=
  match s.toHost with
  | [] => s
  | m :: ms =>
      { s with
        host := (s.host.recv m).1
        toHost := ms
        toDpu := s.toDpu ++ (s.host.recv m).2 }

/-- `dpu_comch_->Progress()` -/
def pollDpu (s : Sys) : Outcome Sys :=
  match s.toDpu with
  | [] => .done s
  | m :: ms => do
      let vars ← s.dpu.vars.recv m
      return { s with dpu := { s.dpu with vars }, toDpu := ms }

/-- The next statement of the host. -/
def stepHost (s : Sys) : Sys :=
  match s.host with
  | ⟨v, m :: ms, es⟩ => { s with host := ⟨v, ms, es⟩, toDpu := s.toDpu ++ [m] }
  | ⟨v, [], []⟩ => if v.stop then s else s.pollHost
  | ⟨v, [], (e, .send (r :: rs)) :: es⟩ =>
      { s with host := ⟨v, [], (e, .send rs) :: es⟩, toDpu := s.toDpu ++ [.exportDescriptor r] }
  | ⟨v, [], (e, .send []) :: es⟩ => { s with host := ⟨v, [], (e, .rehash) :: es⟩ }
  | ⟨v, [], (e, .rehash) :: es⟩ =>
      if v.inRehash then s.pollHost
      else { s with host := ⟨v, [], (e, .settle afterRehash) :: es⟩ }
  | ⟨v, [], (e, .settle (st :: rest)) :: es⟩ =>
      { s with
        host := ⟨(st.exec (e, v)).2, [], ((st.exec (e, v)).1, .settle rest) :: es⟩ }
  | ⟨v, [], (_, .settle []) :: es⟩ => { s with host := ⟨v, [], es⟩ }

/-- The next statement of the DPU; between two requests there is none. -/
def stepDpu (s : Sys) : Outcome Sys :=
  match s.dpu with
  | ⟨v, .construct⟩ =>
      if 0 < v.mmapToRecv ∨ v.seedRecved = false then s.pollDpu
      else .done { s with dpu := ⟨{ v with inInit := false }, .run⟩ }
  | ⟨v, .announce⟩ =>
      .done { s with dpu := ⟨v, .emplace 4⟩, toHost := s.toHost ++ [.control .expand] }
  | ⟨v, .emplace (n + 1)⟩ =>
      .done { s with
        dpu := ⟨{ v with dmaClient := v.dmaClient ++ [none], clients := v.clients + 1 },
          .emplace n⟩ }
  | ⟨v, .emplace 0⟩ => .done { s with dpu := ⟨v, .importing⟩ }
  | ⟨v, .importing⟩ =>
      if 0 < v.mmapToRecv then s.pollDpu else .done { s with dpu := ⟨v, .split⟩ }
  | ⟨v, .split⟩ =>
      .done { s with
        dpu := ⟨v, .finish afterFinish⟩
        toHost := s.toHost ++ [.control .expandFinish] }
  | ⟨v, .finish (st :: rest)⟩ => .done { s with dpu := ⟨st.exec v, .finish rest⟩ }
  | ⟨v, .finish []⟩ => .done { s with dpu := ⟨v, .await⟩ }
  | ⟨v, .await⟩ => if v.inRehash then s.pollDpu else .done { s with dpu := ⟨v, .run⟩ }
  | ⟨_, .run⟩ => .done s
  | ⟨_, .stopped⟩ => .done s

/-- A DMA for a bucket that the table has is issued between two requests or while
buckets are split. It needs a client with a region that the host still serves. -/
def dma (s : Sys) (bucket : ℕ) : Outcome Sys :=
  if (s.dpu.pc = .run ∨ s.dpu.pc = .split) ∧
      s.dpu.vars.blStartBucketId ≤ bucket ∧ bucket < s.dpu.vars.hi then
    match s.dpu.vars.target bucket with
    | some (r, offset) =>
        if s.host.Serves r ∧ offset + 128 ≤ r.len then .done s else .undefined
    | none => .undefined
  else .done s

/-- `Dpu::Expand` up to its first message. -/
def expand (s : Sys) : Sys :=
  match s.dpu with
  | ⟨v, .run⟩ =>
      { s with dpu := ⟨{ v with inRehash := true, mmapToRecv := 4 }, .announce⟩ }
  | _ => s

/-- The `END` request. -/
def exit (s : Sys) : Sys :=
  match s.dpu with
  | ⟨v, .run⟩ => { s with dpu := ⟨v, .stopped⟩, toHost := s.toHost ++ [.control .exit] }
  | _ => s

def step (s : Sys) : Act → Outcome Sys
  | .host => .done s.stepHost
  | .dpu => s.stepDpu
  | .dma bucket => s.dma bucket
  | .expand => .done s.expand
  | .exit => .done s.exit

/-- Both constructors before their first message. The DPU has drawn seeds of its
own, which those of the host replace. -/
def init (level fSeed sSeed : ℕ) (own : ℕ × ℕ) : Sys where
  host :=
    { vars :=
        { addrCapacity := 2 ^ level
          blCapacity := 2 ^ (level - 1)
          buckets0 := 1
          buckets1 := 0
          fSeed, sSeed
          tlDmaServer := dmaServers 1 (2 ^ level / 4 * 128)
          blDmaServer := dmaServers 0 (2 ^ (level - 1) / 4 * 128)
          inRehash := false
          stop := false
          allocated := 2
          freed := fun _ => false }
      construct := .exportSeeds fSeed sSeed ::
        (dmaServers 0 (2 ^ (level - 1) / 4 * 128) ++
          dmaServers 1 (2 ^ level / 4 * 128)).map .exportDescriptor
      expands := [] }
  dpu :=
    { vars :=
        { addrCapacity := 2 ^ level
          blCapacity := 2 ^ (level - 1)
          blStartBucketId := 2 ^ (level - 1) - 4
          tlStartBucketId := 2 ^ level - 4
          nextStartBucketId := 2 ^ (level + 1) - 4
          level := level
          clients := 8
          inRehash := false
          size := 0
          dmaClient := List.replicate 8 none
          mmapToRecv := 8
          fSeed := own.1
          sSeed := own.2
          seedRecved := false
          inInit := true }
      pc := .construct }
  toHost := []
  toDpu := []

end Sys

end Librdpma.LevelKv.Handshake
