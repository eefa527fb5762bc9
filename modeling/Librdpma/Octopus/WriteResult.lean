import Librdpma.Octopus.MovedFile
import Librdpma.Octopus.Ownership

/-!
# What a write leaves behind

A write that succeeds appends the blocks it takes to the file, and nothing
else. A write that runs out of blocks leaves the metadata as they were, but the
blocks it has taken until then stay allocated and no file lists them.
-/

namespace Librdpma.Octopus

open Lib Outcome List FileMeta Option

/-! ## Success -/

/-- The blocks of a file at a node: its extents are there, none is empty, no
two share a block, all blocks are allocated, and there are as many as the size
needs. -/
structure FileMeta.InOrder (node : ℕ) (st : Storage) (m : FileMeta) : Prop where
  here : ∀ e ∈ m.extents, e.hashNode = node
  nonempty : ∀ e ∈ m.extents, 0 < e.countExtentBlock
  once : m.blocks.Nodup
  allocated : ∀ b ∈ m.blocks, st.tableBlock.get b = some ()
  total : m.blocks.length = (m.size + (blockSize - 1)) / blockSize

section Growing

variable {n node : ℕ} {m m' : FileMeta}

lemma FileMeta.InOrder.within {st : Storage} {v : TableView Unit} (h : m.InOrder node st)
    (hst : st.tableBlock.Shows n v) : m.Within n := by
  intro e he
  refine ⟨h.nonempty e he, ?_⟩
  have hpos := h.nonempty e he
  have hla := h.allocated (e.indexExtentStartBlock + e.countExtentBlock - 1)
    (mem_flatMap.mpr ⟨e, he, mem_range'_1.mpr ⟨by omega, by omega⟩⟩)
  rw [hst.get] at hla
  have hlt := hst.lt_of_item hla
  omega

lemma FileMeta.Within.here_of_placed (h : m.Within n) (hpl : ∀ p ∈ m.placed, p.1 = node) :
    ∀ e ∈ m.extents, e.hashNode = node := by
  intro e he
  have hpos := (h e he).1
  have hmem : e.indexExtentStartBlock ∈ e.blocks := mem_range'_1.mpr ⟨le_rfl, by omega⟩
  exact hpl (e.hashNode, e.indexExtentStartBlock)
    (mem_flatMap.mpr ⟨e, he, mem_map.mpr ⟨_, hmem, rfl⟩⟩)

lemma FileMeta.InOrder.append {st st' : Storage} {new : List ℕ} (h : m.InOrder node st)
    (hwin : m'.Within n) (hpl : m'.placed = m.placed ++ new.map (Prod.mk node))
    (hblk : ∀ b, st'.tableBlock.get b = some () ↔ st.tableBlock.get b = some () ∨ b ∈ new)
    (hfr : ∀ b ∈ new, st.tableBlock.get b = none) (hnew : new.Nodup)
    (htot : countBlocks m.size + new.length = countBlocks m'.size) :
    m'.InOrder node st' := by
  have hall : m'.blocks = m.blocks ++ new := by
    rw [blocks_eq_placed, hpl, map_append, ← blocks_eq_placed]
    simp
  have hdsj : List.Disjoint m.blocks new := by
    intro b hb hb'
    have hlv := h.allocated b hb
    rw [hfr b hb'] at hlv
    cases hlv
  refine ⟨hwin.here_of_placed fun p hp => ?_, fun e he => (hwin e he).1, ?_, fun b hb => ?_, ?_⟩
  · rw [hpl, mem_append] at hp
    rcases hp with hp | hp
    · obtain ⟨e, he, hp⟩ := mem_flatMap.mp hp
      obtain ⟨b, -, rfl⟩ := mem_map.mp hp
      exact h.here e he
    · obtain ⟨b, -, rfl⟩ := mem_map.mp hp
      rfl
  · rw [hall]
    exact h.once.append hnew hdsj
  · rw [hall, mem_append] at hb
    exact (hblk b).mpr (hb.imp (h.allocated b) id)
  · rw [hall, length_append, h.total, ← countBlocks_eq, htot, countBlocks_eq]

end Growing

section Writes

variable {cfg : Config} {self : ℕ} {path : Path} {size offset : ℕ} {sz : StoreSize}
  {c c' : Cluster} {w : World} {r : ExtentReply}

lemma writeStep_of_done (h : c.Shows sz w)
    (hrun : extentWrite cfg self path size offset c = .done (r, c')) :
    ∃ w', c'.Shows sz w' ∧
      ((cfg.nodeOf path ≠ self ∧ r.fpi = none ∧ w' = w) ∨
        cfg.nodeOf path = self ∧ WriteStep cfg self path size offset w r.fpi w') := by
  by_cases hsf : cfg.nodeOf path = self
  · have hen : Ends True (extentWrite cfg self path size offset c) _ :=
      h.extentWrite hsf fun _ _ _ _ _ => trivial
    obtain ⟨-, w', hw', hst⟩ := hen.of_done hrun
    exact ⟨w', hw', .inr ⟨hsf, hst⟩⟩
  · unfold Octopus.extentWrite at hrun
    rw [if_neg hsf] at hrun
    cases hrun
    exact ⟨w, h, .inl ⟨hsf, rfl, rfl⟩⟩

/-- Every node has the same blocks allocated and the same metadata of files. -/
def Cluster.SameFiles (c c' : Cluster) : Prop :=
  ∀ node, (∀ b, (c'.storage node).tableBlock.get b = (c.storage node).tableBlock.get b) ∧
    ∀ k, (c'.storage node).fileOf k = (c.storage node).fileOf k

lemma Cluster.Shows.sameFiles (h : c.Shows sz w) {w' : World} (h' : c'.Shows sz w') :
    c.SameFiles c' ↔ ∀ node, (∀ b, (w' node).blocks.item b = (w node).blocks.item b) ∧
      ∀ k, ((w' node).file k).map Prod.snd = ((w node).file k).map Prod.snd := by
  refine forall_congr' fun node => ?_
  simp only [(h node).blocks.get, (h' node).blocks.get, (h node).fileOf, (h' node).fileOf]

lemma Table.Shows.free_eq_nil {n : ℕ} {t : Table Unit} {v : TableView Unit}
    (h : t.Shows n v) : v.free = [] ↔ ∀ b < n, t.get b = some () := by
  constructor
  · intro hnil b hb
    have hin := (h.exact.mem_iff b).not.mp (by rw [hnil]; exact not_mem_nil)
    rw [h.get]
    cases hitem : v.item b with
    | none => exact absurd ⟨hb, by rw [hitem]; exact nofun⟩ hin
    | some u => rfl
  · intro hall
    refine eq_nil_iff_forall_not_mem.mpr fun b hb => ?_
    have hitem := hall b ((h.exact.mem_iff b).mp hb).1
    rw [h.get, h.free_none hb] at hitem
    cases hitem

/-- **A write that fails has no effect unless it gets as far as taking blocks
and there is one.** -/
theorem failed_write_iff (hc : c.Shows sz w)
    (hrun : extentWrite cfg self path size offset c = .done (r, c')) (hfalse : r.fpi = none) :
    c.SameFiles c' ↔
      (cfg.nodeOf path = self → ∀ m, (c.storage self).fileOf (cfg.sha256 path) = some m →
        Writable size offset → ∀ b < sz.blocks, (c.storage self).tableBlock.get b = some ()) := by
  obtain ⟨w', hw', ⟨hsf, -, rfl⟩ | ⟨hsf, hst⟩⟩ := writeStep_of_done hc hrun
  · rw [hc.sameFiles hw']
    exact ⟨fun _ h => absurd h hsf, fun _ _ => ⟨fun _ => rfl, fun _ => rfl⟩⟩
  by_cases hchg : Writable size offset ∧ ∃ f, (w self).file (cfg.sha256 path) = some f
  · obtain ⟨har, ⟨i, m⟩, hfl⟩ := hchg
    have hen : Ends True (extentWrite cfg self path size offset c) _ :=
      hc.extentWrite_file hsf hfl har fun _ => trivial
    obtain ⟨-, v, hv, heff⟩ := hen.of_done hrun
    have hcnd : (cfg.nodeOf path = self →
        ∀ m, (c.storage self).fileOf (cfg.sha256 path) = some m → Writable size offset →
          ∀ b < sz.blocks, (c.storage self).tableBlock.get b = some ()) ↔
        (w self).blocks.free = [] := by
      rw [(hc self).blocks.free_eq_nil]
      refine ⟨fun h => h hsf m ?_ har, fun h _ _ _ _ => h⟩
      rw [(hc self).fileOf, hfl]
      rfl
    rw [hcnd, hc.sameFiles hv]
    rw [hfalse] at heff
    cases heff with
    | full hlt =>
      constructor
      · intro hsm
        refine eq_nil_iff_forall_not_mem.mpr fun b hb => ?_
        have hitem := (hsm self).1 b
        rw [Function.update_self, TableView.item_taken,
          if_pos (by rw [take_of_length_le (le_of_lt hlt)]; exact hb),
          (hc self).blocks.free_none hb] at hitem
        cases hitem
      · intro hnil node
        rw [TableView.taken_nil hnil, Function.update_eq_self_iff.mpr rfl]
        exact ⟨fun _ => rfl, fun _ => rfl⟩
  · rw [hfalse] at hst
    cases hst with
    | nothing =>
      rw [hc.sameFiles hw']
      refine ⟨fun _ _ m hm har => absurd ⟨har, ?_⟩ hchg, fun _ _ => ⟨fun _ => rfl, fun _ => rfl⟩⟩
      rw [(hc self).fileOf] at hm
      obtain ⟨f, hf, -⟩ := map_eq_some_iff.mp hm
      exact ⟨f, hf⟩
    | change hfl har _ => exact absurd ⟨har, _, hfl⟩ hchg

end Writes

/-! ## Small runs -/

/-- A write behind a file that has all eight blocks. -/
theorem failed_write_full : ∃ c r c' m, (sampleSetup 8).Reached oneNode c ∧
      (c.storage 1).fileOf (oneNode.sha256 pathA) = some m ∧
      (∀ b < 8, (c.storage 1).tableBlock.get b = some ()) ∧
      extentWrite oneNode 1 pathA 5 (8 * blockSize) c = .done (r, c') ∧ r.fpi = none ∧
      c.SameFiles c' := by
  obtain ⟨c, hc, ⟨rs, c1⟩, hsrv, ⟨r, c'⟩, hwr, hfpi, hsome, hfu⟩ :
      ∃ c, (sampleSetup 8).start oneNode = .done c ∧
        ∃ r, serve oneNode 1 [(sampleUnset, .mknod pathA),
          (sampleUnset, .extentWrite pathA (8 * blockSize) 0)] c = .done r ∧
        ∃ r', extentWrite oneNode 1 pathA 5 (8 * blockSize) r.2 = .done r' ∧ r'.1.fpi = none ∧
          ((r.2.storage 1).fileOf (oneNode.sha256 pathA)).isSome ∧
          ∀ b < 8, (r.2.storage 1).tableBlock.get b = some () := by
    decide +kernel
  obtain ⟨m, hm⟩ := isSome_iff_exists.mp hsome
  have hrch := (Setup.Reached.start hc).serve hsrv
  obtain ⟨w, hw⟩ := hrch.shows (by decide)
  exact ⟨c1, r, c', m, hrch, hm, hfu, hwr, hfpi,
    (failed_write_iff hw hwr hfpi).mpr fun _ _ _ _ => hfu⟩

/-- A write of nine blocks where there are eight: none is left. -/
theorem failed_write_leaks : ∃ c r c', (sampleSetup 8).Reached oneNode c ∧
      extentWrite oneNode 1 pathA (9 * blockSize) 0 c = .done (r, c') ∧ r.fpi = none ∧
      (c.storage 1).tableBlock.get 0 = none ∧ (c'.storage 1).tableBlock.get 0 = some () ∧
      (c'.storage 1).tableBlock.headFreeBit = [] ∧ ¬ c.SameFiles c' := by
  obtain ⟨c, hc, ⟨rs, c1⟩, hsrv, ⟨r, c'⟩, hwr, hno, hbef, haft, hfu⟩ :
      ∃ c, (sampleSetup 8).start oneNode = .done c ∧
        ∃ r, serve oneNode 1 [(sampleUnset, .mknod pathA)] c = .done r ∧
        ∃ r', extentWrite oneNode 1 pathA (9 * blockSize) 0 r.2 = .done r' ∧ r'.1.fpi = none ∧
          (r.2.storage 1).tableBlock.get 0 = none ∧
          (r'.2.storage 1).tableBlock.get 0 = some () ∧
          (r'.2.storage 1).tableBlock.headFreeBit = [] := by
    decide +kernel
  refine ⟨c1, r, c', (Setup.Reached.start hc).serve hsrv, hwr, hno, hbef, haft, hfu,
    fun hsm => ?_⟩
  have hblc := (hsm 1).1 0
  rw [hbef, haft] at hblc
  cases hblc

end Librdpma.Octopus
