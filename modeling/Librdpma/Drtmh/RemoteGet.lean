import Librdpma.Drtmh.ClusterHash

/-!
# Remote lookups in the cluster hash table (`ClusterHash::remote_get`)

A client walks a bucket of another node by fetching one node after the other. It
knows the layout of the table and, from `base_off_`, where the table starts in the
registered memory of the server. An offset of 0 counts as not set.

`server` says what `fetch_node` returns for an offset: a node and its data.
-/

namespace Librdpma.Drtmh.ClusterHash

open Lib List Outcome

variable {D : Type} {clusterNum : ℕ}

/-- The loop of `remote_get`. The blocking version checks the link of a node, the
other one resets it before the next node is fetched; links are never negative. -/
def remoteLoop (t : ClusterHash) (l : Layout clusterNum) (server : ℕ → HeaderNode × (ℕ → D))
    (baseOff : ℕ) (blocking : Bool) (key : BitVec 64) : ℕ → ℕ → Outcome (D × ℕ)
  | 0, _ => .loop
  | fuel + 1, nodeOff =>
      match t.findKey key (server nodeOff).1 with
      | some i => .done ((server nodeOff).2 i, l.dataOff + i * l.dataSize + nodeOff)
      | none =>
          let next := (server nodeOff).1.next
          if blocking && !(next < t.indirectNum) then .exit
          else if next ≠ 0 then
            remoteLoop t l server baseOff blocking key fuel
              (t.getIndirectNode next * l.nodeSize + baseOff)
          else .exit

/-- `remote_get`: the copied data and the returned offset. -/
def remoteGet (murmurHash64a : BitVec 64 → BitVec 64) (t : ClusterHash) (l : Layout clusterNum)
    (server : ℕ → HeaderNode × (ℕ → D)) (baseOff : ℕ) (blocking : Bool) (key : BitVec 64) :
    Outcome (D × ℕ) :=
  if baseOff = 0 then .exit
  else t.remoteLoop l server baseOff blocking key (t.indirectNum + 1)
    (t.getHash murmurHash64a key * l.nodeSize + baseOff)

variable {murmurHash64a : BitVec 64 → BitVec 64} {t t0 : ClusterHash} {l : Layout clusterNum}
  {server : ℕ → HeaderNode × (ℕ → D)} {baseOff : ℕ} {data : DataSlot → D} {key : BitVec 64}

/-- Fetching gives the memory of the server. -/
def Fetches (t : ClusterHash) (l : Layout clusterNum) (data : DataSlot → D) (baseOff : ℕ)
    (server : ℕ → HeaderNode × (ℕ → D)) : Prop :=
  ∀ p < t.logicalNum + t.indirectNum,
    server (p * l.nodeSize + baseOff) = (t.nodes p, fun i => data (p, i))

/-- The client follows the loop of `get` on the server. -/
lemma Fetches.remoteLoop (h : t.Fetches l data baseOff server) (blocking : Bool) {fuel p q i : ℕ}
    {chain : List ℕ} (hp : p < t.logicalNum + t.indirectNum)
    (hl : Linked t.next (t.nodes p).next chain) (hlt : ∀ j ∈ chain, j < t.indirectNum)
    (hwl : t.walk (t.findKey key) fuel p = .done (q, some i)) :
    t.remoteLoop l server baseOff blocking key fuel (p * l.nodeSize + baseOff) =
      .done (data (q, i), baseOff + (l.address (q, i) - l.dataPtr)) := by
  induction fuel generalizing p chain with
  | zero => cases hwl
  | succ fuel ih =>
    rw [walk] at hwl
    rw [ClusterHash.remoteLoop, h p hp]
    cases hfd : t.findKey key (t.nodes p) with
    | some j =>
      rw [hfd] at hwl
      cases hwl
      simp only [done.injEq, Prod.mk.injEq, true_and, Layout.address]
      omega
    | none =>
      simp only [hfd] at hwl ⊢
      split_ifs at hwl with hne
      · obtain ⟨rest, rfl, hrs⟩ := hl.head_cases hne
        -- the bound that only the blocking version tests holds for every link
        have hnx := hlt _ mem_cons_self
        simp only [hnx, decide_true, Bool.not_true, Bool.and_false, Bool.false_eq_true, if_false]
        rw [if_pos hne]
        refine ih ?_ hrs (fun j hj => hlt j (mem_cons_of_mem _ hj)) hwl
        rw [getIndirectNode]
        omega
      · cases hwl

/-- **Both versions of `remote_get` copy what `get` points to and return its
offset, exactly if `base_off_` is set**: for every key that has been inserted. -/
theorem remoteGet_iff {expectedData : ℤ} {calls : List Call} {results : List (Option DataSlot)}
    (ht : construct clusterNum expectedData = .done t0) (hkeys : ∀ c ∈ calls, c.key.toNat < 2 ^ 63)
    (hrun : runCalls murmurHash64a calls t0 = .done (results, t))
    (hserver : t.Fetches l data baseOff server) (hkey : .getWithInsert key ∈ calls) :
    ∃ slot, t.get murmurHash64a key = .done (some slot) ∧ ∀ blocking,
      t.remoteGet murmurHash64a l server baseOff blocking key =
        .done (data slot, baseOff + (l.address slot - l.dataPtr)) ↔ baseOff ≠ 0 := by
  obtain ⟨-, hmod⟩ := construct_models murmurHash64a ht
  rcases runCalls_models hmod hkeys with hex | ⟨_, _, m, hrun', -, ⟨chain, hs, hm⟩, hans⟩
  · cases hrun.symm.trans hex
  cases hrun.symm.trans hrun'
  obtain ⟨i, hi⟩ := mem_iff_getElem?.mp hkey
  obtain ⟨slot, hsl, -⟩ := hans.inserted i key hi
  have hget : t.get murmurHash64a key = .done (some slot) := hsl ▸ get_eq hs hm
  refine ⟨slot, hget, fun blocking => ?_⟩
  rw [remoteGet]
  by_cases hbase : baseOff = 0
  · rw [if_pos hbase]
    exact iff_of_false nofun (not_not.mpr hbase)
  · rw [if_neg hbase]
    refine iff_of_true ?_ hbase
    rw [ClusterHash.get] at hget
    obtain ⟨⟨q, place⟩, hwl, hpl⟩ := bind_eq_done.mp hget
    cases place with
    | none => cases hpl
    | some j =>
      cases hpl
      have hb := hs.getHash_lt murmurHash64a key
      have hfr := hs.free
      refine hserver.remoteLoop blocking (by omega) (hs.linked _ hb) (fun j hj => ?_) hwl
      exact Nat.lt_of_lt_of_le (hs.used _ hb j hj) hfr.2

/-- One place in a node of 32 bytes. -/
def small : Layout 1 := ⟨0, 32, 8, 16, by decide⟩

/-- A server whose data slots hold their own names. -/
def serve (t : ClusterHash) (baseOff off : ℕ) : HeaderNode × (ℕ → DataSlot) :=
  (t.nodes ((off - baseOff) / 32), fun i => ((off - baseOff) / 32, i))

/-- The second key is in an indirect node. -/
theorem remoteGet_iff_two : ∃ t0 results t slot, construct 1 2 = .done t0 ∧
    runCalls id [.getWithInsert 2#64, .getWithInsert 4#64] t0 = .done (results, t) ∧
    t.get id 4#64 = .done (some slot) ∧ ∀ blocking,
      t.remoteGet id small (t.serve 64) 64 blocking 4#64 =
        .done (slot, 64 + (small.address slot - small.dataPtr)) ↔ 64 ≠ 0 := by
  have hrun : ∃ t0 results t, construct 1 2 = .done t0 ∧
      runCalls id [.getWithInsert 2#64, .getWithInsert 4#64] t0 = .done (results, t) :=
    ⟨_, _, _, rfl, rfl⟩
  obtain ⟨t0, results, t, ht, hrun⟩ := hrun
  have hsrv : t.Fetches small id 64 (t.serve 64) := fun p _ => by
    simp [serve, small]
  obtain ⟨slot, h⟩ := remoteGet_iff ht (by decide) hrun hsrv
    (show Call.getWithInsert 4#64 ∈ _ by decide)
  exact ⟨t0, results, t, slot, ht, hrun, h⟩

theorem remoteGet_unset : ∃ t0 results t, construct 1 2 = .done t0 ∧
    runCalls id [.getWithInsert 2#64] t0 = .done (results, t) ∧
    t.get id 2#64 = .done (some (0, 0)) ∧
    ∀ blocking, t.remoteGet id small (t.serve 0) 0 blocking 2#64 = .exit :=
  ⟨_, _, _, rfl, rfl, rfl, fun _ => rfl⟩

end Librdpma.Drtmh.ClusterHash
