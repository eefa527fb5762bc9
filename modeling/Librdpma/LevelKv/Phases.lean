import Librdpma.LevelKv.Handshake

/-!
# The phases of the handshake

The table after `k` expansions has array `k` as its bottom and array `k + 1` as
its top level. The two sides leave an expansion at different times: the DPU may
have begun the next one while the host still exchanges its arrays. `Phase` lists
what the two sides and the channels can look like together. The straight-line
parts at the end of both `Expand` functions are described by where they lead:
run to the end, what is left of them gives the table after `k + 1` expansions.
-/

namespace Librdpma.LevelKv.Handshake

open Lib Function List

/-- What the constructors were given: the bottom level has `4 * unit` buckets. -/
structure Setup where
  unit : ℕ
  fSeed : ℕ
  sSeed : ℕ

variable {p : Setup} {k : ℕ}

/-- A fourth of array `a`, in buckets. -/
def Setup.group (p : Setup) (a : ℕ) : ℕ := p.unit * 2 ^ a

/-- The servers of array `a`. -/
def Setup.parts (p : Setup) (a : ℕ) : List Region := dmaServers a (p.group a * 128)

lemma Setup.group_succ (p : Setup) (a : ℕ) : p.group (a + 1) = 2 * p.group a := by
  unfold Setup.group
  rw [pow_succ, ← mul_assoc, mul_comm]

@[simp] lemma length_parts (p : Setup) (a : ℕ) : (p.parts a).length = 4 := rfl

/-! ## The host after `k` expansions -/

/-- The host's table after `k` expansions, when it has allocated `n` arrays. -/
structure HostAt (p : Setup) (k n : ℕ) (v : HostVars) : Prop where
  addrCapacity : v.addrCapacity = 8 * p.group k
  blCapacity : v.blCapacity = 4 * p.group k
  top : v.buckets0 = k + 1
  bottom : v.buckets1 = k
  fSeed : v.fSeed = p.fSeed
  sSeed : v.sSeed = p.sSeed
  tlServer : v.tlDmaServer = p.parts (k + 1)
  blServer : v.blDmaServer = p.parts k
  allocated : v.allocated = n
  freed : ∀ a, v.freed a = true → a < k

/-- The statements that are left of `Host::Expand`, run to the end. -/
def settled (rest : List HostStmt) (e : ExpandVars) (v : HostVars) : HostVars :=
  (rest.foldl (fun x st => st.exec x) (e, v)).2

/-- The host is ready for expansion `k`: it is in `Run`, or on its way out of the
expansion before. -/
inductive HostIdle (p : Setup) (k : ℕ) : HostSide → Prop
  | run {v : HostVars} : HostAt p k (k + 2) v → HostIdle p k ⟨v, [], []⟩
  | leaving {e : ExpandVars} {v : HostVars} : v.inRehash = false →
      HostAt p k (k + 2) (settled afterRehash e v) → HostIdle p k ⟨v, [], [(e, .rehash)]⟩
  | settling {e : ExpandVars} {v : HostVars} {rest : List HostStmt} :
      HostAt p k (k + 2) (settled rest e v) → HostIdle p k ⟨v, [], [(e, .settle rest)]⟩

/-- The host is in expansion `k`, with the descriptors `unsent` still to be sent. -/
inductive HostExports (p : Setup) (k : ℕ) : List Region → HostSide → Prop
  | sending {v : HostVars} {unsent : List Region} : v.inRehash = true → HostAt p k (k + 3) v →
      HostExports p k unsent ⟨v, [], [(⟨k + 2, p.parts (k + 2)⟩, .send unsent)]⟩
  | rehashing {v : HostVars} : v.inRehash = true → HostAt p k (k + 3) v →
      HostExports p k [] ⟨v, [], [(⟨k + 2, p.parts (k + 2)⟩, .rehash)]⟩

lemma HostAt.settled {v : HostVars} (h : HostAt p k (k + 3) v) : HostAt p (k + 1) (k + 1 + 2)
      (settled afterRehash ⟨k + 2, p.parts (k + 2)⟩ { v with inRehash := false }) := by
  have hg := p.group_succ k
  have ha := h.addrCapacity
  have hb := h.blCapacity
  refine ⟨?_, ?_, rfl, h.top, h.fSeed, h.sSeed, rfl, h.tlServer, h.allocated, ?_⟩
  · show v.addrCapacity * 2 = _
    omega
  · show v.blCapacity * 2 = _
    omega
  · intro a hfrd
    change update v.freed v.buckets1 true a = true at hfrd
    by_cases ha : a = v.buckets1
    · rw [ha, h.bottom]
      exact Nat.lt_succ_self k
    · rw [update_of_ne ha] at hfrd
      exact Nat.lt_succ_of_lt (h.freed a hfrd)

lemma HostAt.expand {v : HostVars} (h : HostAt p k (k + 2) v) :
    HostExports p k (p.parts (k + 2)) (HostSide.expand ⟨v, [], []⟩) := by
  have hsz : v.addrCapacity * 2 * 128 / 4 = p.group (k + 2) * 128 := by
    have h1 := p.group_succ k
    have h2 : p.group (k + 2) = 2 * p.group (k + 1) := p.group_succ (k + 1)
    have ha := h.addrCapacity
    omega
  have hsrv : dmaServers v.allocated (v.addrCapacity * 2 * 128 / 4) = p.parts (k + 2) := by
    rw [h.allocated, hsz]
    rfl
  unfold HostSide.expand
  rw [hsrv, h.allocated]
  exact .sending rfl ⟨h.addrCapacity, h.blCapacity, h.top, h.bottom, h.fSeed, h.sSeed,
    h.tlServer, h.blServer, rfl, h.freed⟩

/-! ## What the host serves -/

variable {v : DpuVars} {r : Region} {a n i x bucket : ℕ}

/-- The rest of `Expand` exports nothing new and takes no release back. -/
lemma serves_of_settled {e : ExpandVars} {v : HostVars} {rest : List HostStmt}
    (hr : r ∈ (settled rest e v).blDmaServer ∨ r ∈ (settled rest e v).tlDmaServer)
    (hfrd : (settled rest e v).freed r.array = false) :
    (r ∈ v.blDmaServer ∨ r ∈ v.tlDmaServer ∨ r ∈ e.newDmaServers) ∧ v.freed r.array = false := by
  induction rest generalizing e v with
  | nil => exact ⟨hr.imp_right Or.inl, hfrd⟩
  | cons st rest ih =>
    obtain ⟨hsrv, hfr⟩ := ih (e := (st.exec (e, v)).1) (v := (st.exec (e, v)).2) hr hfrd
    cases st with
    | exchangeServers =>
      refine ⟨?_, hfr⟩
      rcases hsrv with h | h | h
      · exact .inr (.inl h)
      · exact .inr (.inr h)
      · cases h
    | expandParameters | bottomIsTop | topIsNew => exact ⟨hsrv, hfr⟩
    | freeBottom =>
      refine ⟨hsrv, ?_⟩
      change update v.freed v.buckets1 true r.array = false at hfr
      by_cases ha : r.array = v.buckets1
      · rw [ha, update_self] at hfr
        cases hfr
      · rwa [update_of_ne ha] at hfr

lemma array_of_mem_parts (h : r ∈ p.parts a) : r.array = a := by
  obtain ⟨i, -, rfl⟩ := mem_map.mp h
  rfl

lemma HostAt.not_freed {v : HostVars} (h : HostAt p k n v) (ha : k ≤ a) : v.freed a = false := by
  rw [Bool.eq_false_iff]
  intro hfrd
  exact absurd (h.freed a hfrd) (not_lt.mpr ha)

lemma HostIdle.serves {h : HostSide} (hid : HostIdle p k h) (ha : a = k ∨ a = k + 1)
    (hr : r ∈ p.parts a) : h.Serves r := by
  have hlev : ∀ {v : HostVars}, HostAt p k (k + 2) v →
      (r ∈ v.blDmaServer ∨ r ∈ v.tlDmaServer) ∧ v.freed r.array = false := by
    intro v hv
    refine ⟨?_, hv.not_freed (by rw [array_of_mem_parts hr]; omega)⟩
    rcases ha with rfl | rfl
    · exact .inl (hv.blServer ▸ hr)
    · exact .inr (hv.tlServer ▸ hr)
  have hrs : ∀ {e : ExpandVars} {v : HostVars} {rest : List HostStmt} {pc : ExpandPc},
      HostAt p k (k + 2) (settled rest e v) → HostSide.Serves ⟨v, [], [(e, pc)]⟩ r := by
    intro e v rest pc hv
    obtain ⟨hsrv, hfr⟩ := serves_of_settled (hlev hv).1 (hlev hv).2
    refine ⟨?_, hfr⟩
    rcases hsrv with h | h | h
    · exact .inl h
    · exact .inr (.inl h)
    · exact .inr (.inr ⟨_, mem_singleton_self _, h⟩)
  cases hid with
  | run hv => exact ⟨(hlev hv).1.imp_right Or.inl, (hlev hv).2⟩
  | leaving _ hv | settling hv => exact hrs hv

lemma HostExports.serves {h : HostSide} {unsent : List Region} (hexp : HostExports p k unsent h)
    (ha : a = k ∨ a = k + 1 ∨ a = k + 2) (hr : r ∈ p.parts a) : h.Serves r := by
  have hall : ∀ {v : HostVars} {pc : ExpandPc}, HostAt p k (k + 3) v →
      HostSide.Serves ⟨v, [], [(⟨k + 2, p.parts (k + 2)⟩, pc)]⟩ r := by
    intro v pc hv
    refine ⟨?_, hv.not_freed (by rw [array_of_mem_parts hr]; omega)⟩
    rcases ha with rfl | rfl | rfl
    · exact .inl (hv.blServer ▸ hr)
    · exact .inr (.inl (hv.tlServer ▸ hr))
    · exact .inr (.inr ⟨_, mem_singleton_self _, hr⟩)
  cases hexp with
  | sending _ hv | rehashing _ hv => exact hall hv

/-! ## The DPU after `k` expansions -/

/-- The DPU's parameters after `k` expansions, whatever its clients are. -/
def Params (p : Setup) (k : ℕ) (v : DpuVars) : Prop :=
  Geometry { v.toControl with clients := 8, inRehash := false } (p.group k)

structure DpuAt (p : Setup) (k : ℕ) (v : DpuVars) : Prop where
  params : Params p k v
  fSeed : v.fSeed = p.fSeed
  sSeed : v.sSeed = p.sSeed
  inInit : v.inInit = false

/-- The clients have imported the arrays from `k` on, `n` of them. -/
structure Mapped (p : Setup) (k n : ℕ) (v : DpuVars) : Prop where
  dmaClient : v.dmaClient = ((range' k n).flatMap p.parts).map some
  clients : v.clients = 4 * n

/-- Outside an expansion the clients have imported the two levels. -/
structure DpuReady (p : Setup) (k : ℕ) (v : DpuVars) : Prop where
  at_k : DpuAt p k v
  mapped : Mapped p k 2 v

/-- The regions `recd` have been imported, of `total`. -/
structure Imported (total : ℕ) (recd : List Region) (v : DpuVars) : Prop where
  dmaClient : v.dmaClient = recd.map some ++ replicate (total - recd.length) none
  mmapToRecv : v.mmapToRecv = total - recd.length
  le : recd.length ≤ total

/-- The statements that are left of `Dpu::Expand`, run to the end. -/
def finished (rest : List DpuStmt) (v : DpuVars) : DpuVars := rest.foldl DpuStmt.exec v

inductive DpuRuns (p : Setup) (k : ℕ) : DpuSide → Prop
  | run {v : DpuVars} : DpuReady p k v → DpuRuns p k ⟨v, .run⟩
  | stopped {v : DpuVars} : DpuReady p k v → DpuRuns p k ⟨v, .stopped⟩
  | announce {v : DpuVars} : DpuReady p k v → v.inRehash = true → v.mmapToRecv = 4 →
      DpuRuns p k ⟨v, .announce⟩

/-- The DPU has announced expansion `k` and received the descriptors `recd`. -/
inductive DpuImports (p : Setup) (k : ℕ) : List Region → DpuSide → Prop
  | emplacing {v : DpuVars} {n : ℕ} : DpuAt p k v → v.inRehash = true →
      v.mmapToRecv = 4 → n ≤ 4 → v.clients = 12 - n →
      v.dmaClient = ((range' k 2).flatMap p.parts).map some ++ replicate (4 - n) none →
      DpuImports p k [] ⟨v, .emplace n⟩
  | importing {v : DpuVars} {recd : List Region} : DpuAt p k v → v.inRehash = true →
      v.clients = 12 → Imported 12 ((range' k 2).flatMap p.parts ++ recd) v →
      DpuImports p k recd ⟨v, .importing⟩

/-- The DPU has left the splits of expansion `k` behind. -/
inductive DpuFinishes (p : Setup) (k : ℕ) : DpuSide → Prop
  | finishing {v : DpuVars} {rest : List DpuStmt} : DpuReady p (k + 1) (finished rest v) →
      DpuFinishes p k ⟨v, .finish rest⟩
  | awaiting {v : DpuVars} : DpuReady p (k + 1) v → DpuFinishes p k ⟨v, .await⟩

lemma DpuAt.finished (h : DpuAt p k v) (hmap : Mapped p k 3 v) :
    DpuReady p (k + 1) (finished afterFinish v) := by
  refine ⟨⟨?_, h.fSeed, h.sSeed, h.inInit⟩, ⟨?_, ?_⟩⟩
  · unfold Params
    rw [p.group_succ k]
    exact h.params.doubled rfl rfl rfl rfl rfl (.inl rfl)
  · show v.dmaClient.tail.tail.tail.tail = _
    rw [hmap.dmaClient]
    rfl
  · show v.clients - 1 - 1 - 1 - 1 = _
    rw [hmap.clients]

/-- The parameters that the end of the handshake leaves are those with which the
model of the cache goes on after an expansion. -/
lemma finished_control {K V : Type} [Inhabited K] [Inhabited V] {s : Dpu K V}
    (hctl : v.toControl = s.beginExpand.toControl) :
    { (finished afterFinish v).toControl with inRehash := false }
      = s.beginExpand.finishExpand.toControl := by
  have hcl : v.clients - 1 - 1 - 1 - 1 = v.clients - 4 := by omega
  unfold Dpu.finishExpand
  simp only [← hctl, ← hcl]
  rfl

lemma Imported.importMmap {total : ℕ} {recd : List Region} (h : Imported total recd v)
    (hlt : recd.length < total) :
    ∃ clients n, v.importMmap (total - v.mmapToRecv) r
        = .done { v with dmaClient := clients, mmapToRecv := n } ∧
      Imported total (recd ++ [r]) { v with dmaClient := clients, mmapToRecv := n } := by
  have hi : total - v.mmapToRecv = recd.length := by
    rw [h.mmapToRecv]
    omega
  have hlen : recd.length < v.dmaClient.length := by
    rw [h.dmaClient, length_append, length_map, length_replicate]
    omega
  refine ⟨_, _, by rw [DpuVars.importMmap, hi, if_pos hlen], ?_, ?_, ?_⟩
  · obtain ⟨m, hm⟩ : ∃ m, total - recd.length = m + 1 := ⟨total - recd.length - 1, by omega⟩
    rw [h.dmaClient, set_append_right _ _ (by rw [length_map]), length_map,
      Nat.sub_self, hm, replicate_succ, set_cons_zero, map_append,
      append_assoc, length_append, length_singleton,
      show total - (recd.length + 1) = m by omega]
    rfl
  · show v.mmapToRecv - 1 = _
    rw [h.mmapToRecv, length_append, length_singleton]
    omega
  · rw [length_append, length_singleton]
    omega

/-! ## Addresses -/

lemma getElem?_parts {k j : ℕ} (hi : i < n) (hj : j < 4) :
    ((range' k n).flatMap p.parts)[4 * i + j]?
      = some ⟨k + i, j * (p.group (k + i) * 128), p.group (k + i) * 128⟩ := by
  induction i generalizing k n with
  | zero =>
    obtain ⟨m, rfl⟩ : ∃ m, n = m + 1 := ⟨n - 1, by omega⟩
    rw [range'_succ, flatMap_cons, getElem?_append_left
      (by rw [length_parts]; omega), Setup.parts, dmaServers, getElem?_map,
      getElem?_range (by omega), mul_zero, zero_add]
    rfl
  | succ i ih =>
    obtain ⟨m, rfl⟩ : ∃ m, n = m + 1 := ⟨n - 1, by omega⟩
    rw [range'_succ, flatMap_cons, getElem?_append_right
      (by rw [length_parts]; omega), length_parts,
      show 4 * (i + 1) + j - 4 = 4 * i + j by omega, ih (by omega),
      show k + 1 + i = k + (i + 1) by omega]

lemma group_address {g : ℕ} (h : x < 4 * g) :
    x / g < 4 ∧ x / g * (g * 128) + x % g * 128 = x * 128 ∧ x % g * 128 + 128 ≤ g * 128 := by
  have hg : 0 < g := by omega
  have hmod := Nat.mod_lt x hg
  refine ⟨Geometry.div_lt_four h, ?_, by omega⟩
  rw [← mul_assoc, ← add_mul, mul_comm (x / g), Nat.div_add_mod]

/-- The clients of the arrays from `k` on, in front of others. -/
def Fronted (p : Setup) (k n : ℕ) (v : DpuVars) : Prop :=
  ∃ rest, v.dmaClient = ((range' k n).flatMap p.parts).map some ++ rest

lemma Mapped.fronted (h : Mapped p k n v) : Fronted p k n v := ⟨[], by rw [h.dmaClient, append_nil]⟩

lemma Fronted.target (h : Fronted p k n v) (hi : i < n) (hx : x < 4 * p.group (k + i))
    (hcln : v.getClientBucket bucket = (4 * i + x / p.group (k + i), x % p.group (k + i) * 128)) :
    ∃ r offset, v.target bucket = some (r, offset) ∧ r ∈ p.parts (k + i) ∧
      offset + 128 ≤ r.len ∧ r.offset + offset = x * 128 := by
  obtain ⟨rest, hrs⟩ := h
  obtain ⟨hj, had, hlen⟩ := group_address hx
  refine ⟨⟨k + i, x / p.group (k + i) * (p.group (k + i) * 128), p.group (k + i) * 128⟩,
    x % p.group (k + i) * 128, ?_, ?_, hlen, had⟩
  · have hget := getElem?_parts (p := p) (k := k) hi hj
    unfold DpuVars.target
    rw [hcln, hrs, getElem?_append_left, getElem?_map, hget]
    · rfl
    · rw [length_map]
      exact (List.getElem?_eq_some_iff.mp hget).1
  · exact mem_map.mpr ⟨_, mem_range.mpr hj, rfl⟩

/-- The first id of a level: the bottom, the top and, during the splits, the new one. -/
def DpuVars.levelStart (v : DpuVars) : ℕ → ℕ
  | 0 => v.blStartBucketId
  | 1 => v.tlStartBucketId
  | _ => v.nextStartBucketId

def DpuVars.levelCapacity (v : DpuVars) : ℕ → ℕ
  | 0 => v.blCapacity
  | 1 => v.addrCapacity
  | _ => 2 * v.addrCapacity

/-- **Where a DMA goes**: the buckets of level `i` are those of array `k + i`, in
order. -/
lemma DpuAt.locate (h : DpuAt p k v) (hfrt : Fronted p k n v) (hi : i < n) (hn : n ≤ 3)
    (hx : x < v.levelCapacity i) :
    ∃ r offset, v.target (v.levelStart i + x) = some (r, offset) ∧ r ∈ p.parts (k + i) ∧
      offset + 128 ≤ r.len ∧ r.offset + offset = x * 128 := by
  obtain ⟨-, hbl, hadd, hbls, htls, hnx, -⟩ := h.params
  change v.blCapacity = _ at hbl
  change v.addrCapacity = _ at hadd
  change v.blStartBucketId + 4 = _ at hbls
  change v.tlStartBucketId + 4 = _ at htls
  change v.nextStartBucketId + 4 = _ at hnx
  have hg1 := p.group_succ k
  have hg2 : p.group (k + 2) = 2 * p.group (k + 1) := p.group_succ (k + 1)
  obtain rfl | rfl | rfl : i = 0 ∨ i = 1 ∨ i = 2 := by omega
  · change x < v.blCapacity at hx
    refine hfrt.target hi (by rw [add_zero]; omega) ?_
    rcases h.params.getClientBucket_eq (v.blStartBucketId + x) with ⟨-, heq⟩ | ⟨hge, -⟩ | ⟨hge, -⟩
    · rw [Nat.add_sub_cancel_left] at heq
      rw [mul_zero, zero_add]
      exact heq
    · change v.tlStartBucketId ≤ _ at hge
      omega
    · change v.nextStartBucketId ≤ _ at hge
      omega
  · change x < v.addrCapacity at hx
    refine hfrt.target hi (by omega) ?_
    rcases h.params.getClientBucket_eq (v.tlStartBucketId + x)
      with ⟨hlt, -⟩ | ⟨-, -, heq⟩ | ⟨hge, -⟩
    · change _ < v.tlStartBucketId at hlt
      omega
    · rw [Nat.add_sub_cancel_left] at heq
      rw [hg1, mul_one, add_comm 4]
      exact heq
    · change v.nextStartBucketId ≤ _ at hge
      omega
  · change x < 2 * v.addrCapacity at hx
    refine hfrt.target hi (by omega) ?_
    rcases h.params.getClientBucket_eq (v.nextStartBucketId + x)
      with ⟨hlt, -⟩ | ⟨-, hlt, -⟩ | ⟨-, heq⟩
    · change _ < v.tlStartBucketId at hlt
      omega
    · change _ < v.nextStartBucketId at hlt
      omega
    · rw [Nat.add_sub_cancel_left] at heq
      rw [hg2, hg1, ← mul_assoc, add_comm (4 * 2)]
      exact heq

lemma DpuAt.level_of_lt_hi (h : DpuAt p k v) (hcl : v.clients = 4 * n) (hn : n = 2 ∨ n = 3)
    (hlo : v.blStartBucketId ≤ bucket) (hhi : bucket < v.hi) :
    ∃ i x, i < n ∧ x < v.levelCapacity i ∧ bucket = v.levelStart i + x := by
  obtain ⟨-, hbl, hadd, hbls, htls, hnx, -⟩ := h.params
  change v.blCapacity = _ at hbl
  change v.addrCapacity = _ at hadd
  change v.blStartBucketId + 4 = _ at hbls
  change v.tlStartBucketId + 4 = _ at htls
  change v.nextStartBucketId + 4 = _ at hnx
  by_cases hbot : bucket < v.tlStartBucketId
  · exact ⟨0, bucket - v.blStartBucketId, by omega,
      show _ < v.blCapacity by omega, show _ = v.blStartBucketId + _ by omega⟩
  by_cases htop : bucket < v.nextStartBucketId
  · exact ⟨1, bucket - v.tlStartBucketId, by omega,
      show _ < v.addrCapacity by omega, show _ = v.tlStartBucketId + _ by omega⟩
  · have h12 : v.clients = 12 := by
      by_contra hne
      rw [Control.hi, if_neg hne] at hhi
      omega
    rw [Control.hi, if_pos h12] at hhi
    exact ⟨2, bucket - v.nextStartBucketId, by omega,
      show _ < 2 * v.addrCapacity by omega, show _ = v.nextStartBucketId + _ by omega⟩

lemma DpuAt.target (h : DpuAt p k v) (hmap : Mapped p k n v) (hn : n = 2 ∨ n = 3)
    (hlo : v.blStartBucketId ≤ bucket) (hhi : bucket < v.hi) :
    ∃ i r offset, i < n ∧ v.target bucket = some (r, offset) ∧ r ∈ p.parts (k + i) ∧
      offset + 128 ≤ r.len := by
  obtain ⟨i, x, hi, hx, rfl⟩ := h.level_of_lt_hi hmap.clients hn hlo hhi
  obtain ⟨r, offset, ht, hr, hlen, -⟩ := h.locate hmap.fronted hi (by omega) hx
  exact ⟨i, r, offset, hi, ht, hr, hlen⟩

/-! ## Phases -/

/-- The DPU's constructor has imported the regions `recd`. -/
structure DpuConstructs (p : Setup) (recd : List Region) (v : DpuVars) : Prop where
  params : Params p 0 v
  clients : v.clients = 8
  imported : Imported 8 recd v
  inInit : recd.length < 8 → v.inInit = true

/-- What the two sides and the two channels can look like together. -/
inductive Phase (p : Setup) : Sys → Prop
  | fresh {v : HostVars} {w : DpuVars} : HostAt p 0 2 v → DpuConstructs p [] w →
      w.seedRecved = false →
      Phase p ⟨⟨v, .exportSeeds p.fSeed p.sSeed ::
        (p.parts 0 ++ p.parts 1).map .exportDescriptor, []⟩, ⟨w, .construct⟩, [], []⟩
  | seeding {v : HostVars} {w : DpuVars} {pend unsent : List Region} : HostAt p 0 2 v →
      DpuConstructs p [] w → w.seedRecved = false →
      pend ++ unsent = p.parts 0 ++ p.parts 1 →
      Phase p ⟨⟨v, unsent.map .exportDescriptor, []⟩, ⟨w, .construct⟩, [],
        .exportSeeds p.fSeed p.sSeed :: pend.map .exportDescriptor⟩
  | constructing {v : HostVars} {w : DpuVars} {recd pend unsent : List Region} :
      HostAt p 0 2 v → DpuConstructs p recd w → w.seedRecved = true →
      w.fSeed = p.fSeed → w.sSeed = p.sSeed →
      recd ++ (pend ++ unsent) = p.parts 0 ++ p.parts 1 →
      Phase p ⟨⟨v, unsent.map .exportDescriptor, []⟩, ⟨w, .construct⟩, [],
        pend.map .exportDescriptor⟩
  | running {k : ℕ} {h : HostSide} {d : DpuSide} {toHost : List ComchMsg} :
      HostIdle p k h → DpuRuns p k d →
      toHost = [] ∨ d.pc = .stopped ∧ toHost = [.control .exit] →
      Phase p ⟨h, d, toHost, []⟩
  | announced {k : ℕ} {h : HostSide} {d : DpuSide} : HostIdle p k h →
      DpuImports p k [] d → Phase p ⟨h, d, [.control .expand], []⟩
  | importing {k : ℕ} {h : HostSide} {d : DpuSide} {recd pend unsent : List Region} :
      HostExports p k unsent h → DpuImports p k recd d →
      recd ++ (pend ++ unsent) = p.parts (k + 2) →
      Phase p ⟨h, d, [], pend.map .exportDescriptor⟩
  | splitting {k : ℕ} {h : HostSide} {w : DpuVars} : HostExports p k [] h → DpuAt p k w →
      Mapped p k 3 w → w.inRehash = true → Phase p ⟨h, ⟨w, .split⟩, [], []⟩
  | finishing {k : ℕ} {h : HostSide} {d : DpuSide} : HostExports p k [] h →
      DpuFinishes p k d → d.vars.inRehash = true →
      Phase p ⟨h, d, [.control .expandFinish], []⟩
  | answered {k : ℕ} {h : HostSide} {d : DpuSide} : HostIdle p (k + 1) h →
      DpuFinishes p k d → d.vars.inRehash = true →
      Phase p ⟨h, d, [], [.control .expandFinish]⟩
  | finished {k : ℕ} {h : HostSide} {w : DpuVars} : HostIdle p (k + 1) h →
      DpuReady p (k + 1) w → w.inRehash = false → Phase p ⟨h, ⟨w, .await⟩, [], []⟩

end Librdpma.LevelKv.Handshake
