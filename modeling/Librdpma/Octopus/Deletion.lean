import Librdpma.Octopus.MovedFile

/-!
# Giving back the blocks of a deleted file

The work is split. The owner of the path, in `removecd`, frees the extents on
its own node, but its loop ends at the first extent of another node. The
client, in `nrfsDelete`, frees the extents of all other nodes, but only if the
file has fewer than `MAX_FILE_EXTENT_COUNT` of them, since that count stands
for a directory. An extent of the owner behind one of another node is freed by
neither.
-/

namespace Librdpma.Octopus

open Lib Outcome Function List

/-! ## Extents and their blocks -/

/-- The blocks that extents name, with their nodes. -/
def placedIn (es : List FileMetaTuple) : List (ℕ × ℕ) :=
  es.flatMap fun e => e.blocks.map fun b => (e.hashNode, b)

lemma mem_placedIn {es : List FileMetaTuple} {node b : ℕ} :
    (node, b) ∈ placedIn es ↔ ∃ e ∈ es, e.hashNode = node ∧ b ∈ e.blocks := by
  unfold placedIn
  rw [mem_flatMap]
  constructor
  · rintro ⟨e, he, hb⟩
    obtain ⟨b', hb', heq⟩ := mem_map.mp hb
    cases heq
    exact ⟨e, he, rfl, hb'⟩
  · rintro ⟨e, he, rfl, hb⟩
    exact ⟨e, he, mem_map_of_mem hb⟩

section Extents

variable {n node : ℕ} {e : FileMetaTuple} {m : FileMeta}

lemma FileMetaTuple.Within.start_mem (h : e.Within n) : e.indexExtentStartBlock ∈ e.blocks :=
  mem_range'_1.mpr ⟨le_rfl, Nat.lt_add_of_pos_right h.1⟩

/-- The blocks `blockFree` goes through when it is asked to free an extent. -/
lemma FileMetaTuple.Within.freeList (h : e.Within n) (hn : n < 2 ^ 31) :
    (descend (toInt e.countExtentBlock - 1) 0).map
      (fun j => ((e.indexExtentStartBlock + j) % 2 ^ 64).toNat) = e.blocks.reverse := by
  obtain ⟨hpos, hle⟩ := h
  rw [toInt_of_lt (by omega)]
  unfold descend FileMetaTuple.blocks
  rw [reverse_range', map_map]
  have hlen : ((e.countExtentBlock : ℤ) - 1 - 0 + 1).toNat = e.countExtentBlock := by omega
  rw [hlen]
  refine map_congr_left fun k hk => ?_
  have hk' := mem_range.mp hk
  simp only [comp_apply]
  rw [Int.emod_eq_of_lt (by omega) (by omega)]
  omega

/-- The blocks `removecd` gives back are those of the first extents, up to one
of another node. -/
lemma mem_blocksToRemove {b : ℕ} (hm : m.Within n) (hn : n < 2 ^ 31) :
    b ∈ blocksToRemove node m ↔ ∃ e ∈ localExtents node m, b ∈ e.blocks := by
  unfold blocksToRemove
  rw [mem_flatMap]
  refine exists_congr fun e => and_congr_right fun he => ?_
  have hin := hm e ((takeWhile_sublist _).subset he)
  rw [toInt_of_lt (by have := hin.2; omega), hin.blocksDown hn, mem_reverse]

/-- No extent of the node stands behind one of another node. -/
def LocalFirst (node : ℕ) (m : FileMeta) : Prop :=
  m.extents.Pairwise fun e e' => e'.hashNode = node → e.hashNode = node

/-- **The loop of `removecd` reaches all extents of its node exactly if none
of them stands behind one of another node.** -/
lemma localFirst_iff (hm : m.Within n) (hon : (placedIn m.extents).Nodup) :
    LocalFirst node m ↔ ∀ e ∈ m.extents, e.hashNode = node → ∀ b ∈ e.blocks,
      ∃ e' ∈ localExtents node m, b ∈ e'.blocks := by
  have hspl : localExtents node m ++ m.extents.dropWhile (fun e => e.hashNode = node)
      = m.extents := takeWhile_append_dropWhile
  have hloc : ∀ e ∈ localExtents node m, e.hashNode = node := fun e he => by
    simpa using all_eq_true.mp all_takeWhile e he
  constructor
  · intro hfst e he hnd b hb
    refine ⟨e, ?_, hb⟩
    rw [← hspl, mem_append] at he
    refine he.resolve_right fun hdr => ?_
    unfold LocalFirst at hfst
    rw [← hspl] at hfst
    have hrs := (pairwise_append.mp hfst).2.1
    cases hd : m.extents.dropWhile (fun e => decide (e.hashNode = node)) with
    | nil =>
      rw [hd] at hdr
      cases hdr
    | cons d rest =>
      -- the loop ends at `d`, which is of another node
      have hst : d.hashNode ≠ node := by
        have := head?_dropWhile_not (fun e => decide (e.hashNode = node)) m.extents
        rw [hd] at this
        simpa using this
      rw [hd] at hdr hrs
      rcases mem_cons.mp hdr with rfl | hin
      · exact hst hnd
      · exact hst (rel_of_pairwise_cons hrs hin hnd)
  · intro hall
    have hrs : ∀ e ∈ m.extents.dropWhile (fun e => decide (e.hashNode = node)),
        e.hashNode ≠ node := by
      intro e he hnd
      have hmem : e ∈ m.extents := by
        rw [← hspl]
        exact mem_append_right _ he
      -- a block of `e` is in an extent of the first part as well
      have hb := (hm e hmem).start_mem
      obtain ⟨e', he', hb'⟩ := hall e hmem hnd _ hb
      rw [← hspl] at hon
      unfold placedIn at hon
      rw [flatMap_append] at hon
      obtain ⟨-, -, hds⟩ := nodup_append.mp hon
      exact hds _ (mem_placedIn.mpr ⟨e', he', hloc e' he', hb'⟩) _
        (mem_placedIn.mpr ⟨e, he, hnd, hb⟩) rfl
    unfold LocalFirst
    rw [← hspl]
    refine pairwise_append.mpr ⟨?_, ?_, fun e he _ _ _ => hloc e he⟩
    · exact pairwise_of_forall_mem_list fun e he _ _ _ => hloc e he
    · exact pairwise_of_forall_mem_list fun _ _ e he hnd => absurd hnd (hrs e he)

end Extents

/-! ## The owner -/

section Calls

variable {cfg : Config} {node : ℕ} {path : Path} {sz : StoreSize} {c : Cluster} {w : World}
  {unset : Unset}

/-- `removecd` tells of the file and frees the blocks of its first extents. -/
lemma Cluster.Shows.removeFile {i : ℕ} {m : FileMeta} {a : Option Attribute} {c1 : Cluster}
    (h : c.Shows sz w) (hfl : (w node).file (cfg.sha256 path) = some (i, m))
    (hr : Octopus.parseMessage cfg unset node (.remove path) c = .done (.removed true a, c1)) :
    a = some (.file m) ∧ ∃ w1, c1.Shows sz w1 ∧ ∀ j b, (w1 j).blocks.item b
      = if j = node ∧ b ∈ blocksToRemove node m then none else (w j).blocks.item b := by
  obtain ⟨⟨⟨ok, a'⟩, c1'⟩, hrem, heq⟩ := bind_eq_done.mp hr
  cases heq
  obtain ⟨w1, h1, hst⟩ := (h.removecd fun _ => trivial : Ends True _ _).of_done hrem
  obtain ⟨hent, hitem⟩ := StoreView.file_eq_some.mp hfl
  cases hst with
  | change hpar hnm hnil hdr =>
    cases hdr with
    | directory he hm =>
      rw [World.entries_writeDir, hent] at he
      cases he
    | file he hm =>
      rw [World.entries_writeDir, hent] at he
      cases he
      rw [World.files_writeDir, hitem] at hm
      cases hm
      refine ⟨rfl, _, h1, fun j b => ?_⟩
      by_cases hj : j = node
      · subst hj
        rw [update_self]
        rw [TableView.item_freed, World.blocks_writeDir]
        simp
      · rw [update_of_ne hj, World.blocks_writeDir, if_neg fun hc => hj hc.1]

/-! ## The client -/

/-- Extents of an area of `n` blocks, whose blocks are all taken and named
once. -/
structure Freeable (n : ℕ) (w : World) (es : List FileMetaTuple) : Prop where
  within : ∀ e ∈ es, e.Within n
  once : (placedIn es).Nodup
  taken : ∀ p ∈ placedIn es, (w p.1).blocks.item p.2 = some ()

lemma Freeable.sublist {n : ℕ} {es es' : List FileMetaTuple} (h : Freeable n w es)
    (hsub : es'.Sublist es) : Freeable n w es' :=
  ⟨fun e he => h.within e (hsub.subset he), h.once.sublist (hsub.flatMap _),
    fun p hp => h.taken p ((hsub.flatMap _).subset hp)⟩

lemma Freeable.tail {n : ℕ} {e : FileMetaTuple} {es : List FileMetaTuple} {w' : World}
    (h : Freeable n w (e :: es)) (hw' : ∀ j b, (w' j).blocks.item b
      = if j = e.hashNode ∧ b ∈ e.blocks then none else (w j).blocks.item b) :
    Freeable n w' es := by
  have hrs := h.sublist (sublist_cons_self e es)
  refine ⟨hrs.within, hrs.once, fun p hp => ?_⟩
  have hon := h.once
  unfold placedIn at hon
  rw [flatMap_cons] at hon
  obtain ⟨-, -, hds⟩ := nodup_append.mp hon
  rw [hw', if_neg]
  · exact hrs.taken p hp
  · rintro ⟨hnd, hb⟩
    refine hds (e.hashNode, p.2) (mem_map_of_mem hb) p hp ?_
    rw [← hnd]

lemma Cluster.Shows.nrfsFreeBlock (h : c.Shows sz w) (hn : sz.blocks < 2 ^ 31) {e : FileMetaTuple}
    (he : e.Within sz.blocks) (htk : ∀ b ∈ e.blocks, (w node).blocks.item b = some ()) :
    ∃ c' w', Octopus.nrfsFreeBlock cfg unset node e.indexExtentStartBlock e.countExtentBlock c
        = .done ((), c') ∧ c'.Shows sz w' ∧ ∀ j b, (w' j).blocks.item b
          = if j = node ∧ b ∈ e.blocks then none else (w j).blocks.item b := by
  obtain ⟨ok, pre, st, hrem, hst, hpre, hall⟩ := (h node).removeBlocks e.blocks.reverse
  have hok : ok = true := hall ⟨nodup_reverse.mpr nodup_range',
    fun b hb => htk b (mem_reverse.mp hb)⟩
  rw [hpre hok] at hst
  refine ⟨c.setStorage node st, _, ?_, h.setStorage hst, fun j b => ?_⟩
  · have hfr : Octopus.blockFree node e.indexExtentStartBlock e.countExtentBlock unset.result c
        = .done (ok && unset.result, c.setStorage node st) := by
      unfold Octopus.blockFree
      rw [he.freeList hn, Program.bind_apply, onStorage_done hrem]
      rfl
    change (Octopus.blockFree node e.indexExtentStartBlock e.countExtentBlock unset.result c
      >>= fun r => .done (Response.result r.1, r.2)) >>= (fun r => .done ((), r.2)) = _
    rw [hfr]
    rfl
  · by_cases hj : j = node
    · subst hj
      rw [update_self]
      rw [TableView.item_freed]
      simp
    · rw [update_of_ne hj, if_neg fun hc => hj hc.1]

lemma Cluster.Shows.freeRemoteExtents (h : c.Shows sz w) (hn : sz.blocks < 2 ^ 31)
    {es : List FileMetaTuple} (hes : Freeable sz.blocks w (es.filter fun e => e.hashNode ≠ node))
    (hns : ∀ e ∈ es, 0 < e.hashNode ∧ e.hashNode < 2 ^ 16) :
    ∃ c' w', Octopus.freeRemoteExtents cfg unset node es c = .done ((), c') ∧ c'.Shows sz w' ∧
      ∀ j b, (w' j).blocks.item b
        = if j ≠ node ∧ (j, b) ∈ placedIn es then none else (w j).blocks.item b := by
  induction es generalizing c w with
  | nil => exact ⟨c, w, rfl, h, fun j b => (if_neg fun hc => absurd hc.2 not_mem_nil).symm⟩
  | cons e es ih =>
    obtain ⟨hpos, hlt⟩ := hns e mem_cons_self
    have hmod : e.hashNode % 2 ^ 16 = e.hashNode := Nat.mod_eq_of_lt hlt
    have hns' : ∀ e ∈ es, 0 < e.hashNode ∧ e.hashNode < 2 ^ 16 := fun e he =>
      hns e (mem_cons_of_mem _ he)
    have hcn : ∀ j b, (j, b) ∈ placedIn (e :: es) ↔
        (e.hashNode = j ∧ b ∈ e.blocks) ∨ (j, b) ∈ placedIn es := by
      intro j b
      rw [mem_placedIn, mem_placedIn, exists_mem_cons_iff]
    rw [Octopus.freeRemoteExtents, hmod]
    by_cases hnd : e.hashNode = node
    · -- the owner has dealt with this one
      rw [filter_cons_of_neg (by simpa using hnd)] at hes
      obtain ⟨c', w', hrun, h', hw'⟩ := ih h hes hns'
      refine ⟨c', w', ?_, h', fun j b => ?_⟩
      · rw [if_neg fun hc => hc.1 hnd]
        exact hrun
      · rw [hw']
        refine if_congr (and_congr_right fun hj => ?_) rfl rfl
        rw [hcn]
        exact ⟨.inr, fun hor => hor.resolve_left fun hc => hj (hc.1.symm.trans hnd)⟩
    · rw [filter_cons_of_pos (by simpa using hnd)] at hes
      obtain ⟨c1, w1, hfr, h1, hw1⟩ := h.nrfsFreeBlock hn (hes.within e mem_cons_self)
        fun b hb => hes.taken (e.hashNode, b) (mem_placedIn.mpr ⟨e, mem_cons_self, rfl, hb⟩)
      obtain ⟨c', w', hrun, h', hw'⟩ := ih h1 (hes.tail hw1) hns'
      refine ⟨c', w', ?_, h', fun j b => ?_⟩
      · rw [if_pos ⟨hnd, Nat.pos_iff_ne_zero.mp hpos⟩, Program.bind_apply, hfr, done_bind]
        exact hrun
      · rw [hw']
        by_cases hfst : e.hashNode = j ∧ b ∈ e.blocks
        · have hno : (w1 j).blocks.item b = none := by
            rw [hw1, if_pos ⟨hfst.1.symm, hfst.2⟩]
          rw [hno, ite_self, if_pos]
          exact ⟨fun hj => hnd (hfst.1.trans hj), (hcn j b).mpr (.inl hfst)⟩
        · have hsm : (w1 j).blocks.item b = (w j).blocks.item b := by
            rw [hw1, if_neg fun hc => hfst ⟨hc.1.symm, hc.2⟩]
          rw [hsm]
          refine if_congr (and_congr_right fun _ => ?_) rfl rfl
          rw [hcn]
          exact ⟨.inr, fun hor => hor.resolve_left hfst⟩

/-- **What the owner and the client free together.** -/
lemma Cluster.Shows.nrfsDelete {file : Path} {i : ℕ} {m : FileMeta} {c' : Cluster}
    (h : c.Shows sz w) (hn : sz.blocks < 2 ^ 31) (hsf : cfg.nodeOf (correct file) = node)
    (hfl : (w node).file (cfg.sha256 (correct file)) = some (i, m))
    (hm : Freeable sz.blocks w m.extents)
    (hns : ∀ e ∈ m.extents, 0 < e.hashNode ∧ e.hashNode < 2 ^ 16)
    (hdel : Octopus.nrfsDelete cfg unset file c = .done (0, c')) :
    ∃ w', c'.Shows sz w' ∧ ∀ j b, (j, b) ∈ placedIn m.extents →
      ((w' j).blocks.item b = none ↔
        if j = node then ∃ e ∈ localExtents node m, b ∈ e.blocks
        else m.count ≠ maxFileExtentCount) := by
  obtain ⟨⟨r, c1⟩, hr, hrs⟩ := bind_eq_done.mp hdel
  dsimp only at hrs
  rw [hsf] at hr hrs
  have hrmv : ∃ a, r = .removed true a := by
    split at hrs
    · exact ⟨_, rfl⟩
    · exact ⟨_, rfl⟩
    · cases hrs
  obtain ⟨a, rfl⟩ := hrmv
  obtain ⟨rfl, w1, h1, hw1⟩ := h.removeFile hfl hr
  have hloc : ∀ b, b ∈ blocksToRemove node m ↔ ∃ e ∈ localExtents node m, b ∈ e.blocks :=
    fun b => mem_blocksToRemove hm.within hn
  -- the blocks of other nodes are still taken
  have hoth : ∀ j b, j ≠ node → (w1 j).blocks.item b = (w j).blocks.item b := fun j b hj => by
    rw [hw1, if_neg fun hc => hj hc.1]
  have hrmt : Freeable sz.blocks w1 (m.extents.filter fun e => e.hashNode ≠ node) := by
    have hsub := hm.sublist (filter_sublist (p := fun e => decide (e.hashNode ≠ node)))
    refine ⟨hsub.within, hsub.once, ?_⟩
    rintro ⟨j, b⟩ hp
    obtain ⟨e, he, rfl, -⟩ := mem_placedIn.mp hp
    rw [hoth _ _ (by simpa using (mem_filter.mp he).2)]
    exact hsub.taken _ hp
  have hown : ∀ b, (node, b) ∈ placedIn m.extents → ((w1 node).blocks.item b = none ↔
      ∃ e ∈ localExtents node m, b ∈ e.blocks) := by
    intro b hb
    rw [hw1, ← hloc]
    simp [hm.taken _ hb]
  dsimp only at hrs
  by_cases hcnt : m.count = maxFileExtentCount
  · rw [if_neg (not_not.mpr hcnt)] at hrs
    cases hrs
    refine ⟨w1, h1, fun j b hb => ?_⟩
    by_cases hj : j = node
    · subst hj
      rw [if_pos rfl]
      exact hown b hb
    · rw [if_neg hj, hoth j b hj, hm.taken _ hb]
      simp [hcnt]
  · obtain ⟨c2, w2, hrun, h2, hw2⟩ : ∃ c2 w2, Octopus.freeRemoteExtents cfg unset node
        ((range m.count).map m.tuple) c1 = .done ((), c2) ∧ c2.Shows sz w2 ∧
          ∀ j b, (w2 j).blocks.item b = if j ≠ node ∧ (j, b) ∈ placedIn m.extents then none
            else (w1 j).blocks.item b :=
      h1.freeRemoteExtents hn hrmt hns
    rw [if_pos hcnt, Program.bind_apply, hrun] at hrs
    cases hrs
    refine ⟨w2, h2, fun j b hb => ?_⟩
    rw [hw2]
    by_cases hj : j = node
    · subst hj
      rw [if_pos rfl, if_neg fun hc => hc.1 rfl]
      exact hown b hb
    · rw [if_neg hj, if_pos ⟨hj, hb⟩]
      simp [hcnt]

end Calls

/-! ## All blocks -/

/-- Each block a file lists is allocated on the node it is said to be on, and
listed once; its extents lie inside the areas of real nodes. -/
structure Cluster.Holds (n : ℕ) (c : Cluster) (m : FileMeta) : Prop where
  within : m.Within n
  nodes : ∀ e ∈ m.extents, 0 < e.hashNode ∧ e.hashNode < 2 ^ 16
  once : m.placed.Nodup
  allocated : ∀ p ∈ m.placed, (c.storage p.1).tableBlock.get p.2 = some ()

/-- Every block the extents of `m` name is in the free list of its node. -/
def Cluster.AllFree (c : Cluster) (m : FileMeta) : Prop :=
  ∀ e ∈ m.extents, ∀ b ∈ e.blocks, b ∈ (c.storage e.hashNode).tableBlock.headFreeBit

/-- **A deleted file has given all its blocks back exactly if no extent of the
owner stood behind one of another node, and a file with as many extents as fit
had them all on the owner.** -/
theorem delete_frees_iff (s : Setup) (hs : s.Sound) (hblocks : s.countBlock < 2 ^ 31) (cfg : Config)
    (c c' : Cluster) (hc : s.Reached cfg c) (unset : Unset) (file : Path) (i : ℕ) (m : FileMeta)
    (hfile : (c.storage (cfg.nodeOf (correct file))).fileEntry (cfg.sha256 (correct file))
      = some (i, m))
    (hm : c.Holds s.countBlock m) (hdel : nrfsDelete cfg unset file c = .done (0, c')) :
    c'.AllFree m ↔ LocalFirst (cfg.nodeOf (correct file)) m ∧
      (m.count = maxFileExtentCount → ∀ e ∈ m.extents, e.hashNode = cfg.nodeOf (correct file)) := by
  obtain ⟨w, hw⟩ := hc.shows hs
  rw [(hw _).fileEntry] at hfile
  have hfrb : Freeable s.countBlock w m.extents :=
    ⟨hm.within, hm.once, fun p hp => by rw [← (hw p.1).blocks.get]; exact hm.allocated p hp⟩
  obtain ⟨w', hw', hitem⟩ := hw.nrfsDelete hblocks rfl hfile hfrb hm.nodes hdel
  have hfr : ∀ e ∈ m.extents, ∀ b ∈ e.blocks,
      (b ∈ (c'.storage e.hashNode).tableBlock.headFreeBit ↔
        (w' e.hashNode).blocks.item b = none) := by
    intro e he b hb
    rw [(hw' _).blocks.headFreeBit, (hw' _).blocks.exact.mem_iff]
    have hlt : b < s.countBlock := by
      have hin := hm.within e he
      have := (mem_range'_1.mp hb).2
      have := hin.2
      omega
    exact ⟨fun h => by simpa using h.2, fun h => ⟨hlt, by simp [h]⟩⟩
  rw [localFirst_iff hm.within hm.once]
  constructor
  · intro hall
    have hno : ∀ e ∈ m.extents, ∀ b ∈ e.blocks, _ := fun e he b hb =>
      (hitem _ b (mem_placedIn.mpr ⟨e, he, rfl, hb⟩)).mp ((hfr e he b hb).mp (hall e he b hb))
    refine ⟨fun e he hnd b hb => ?_, fun hcnt e he => ?_⟩
    · have := hno e he b hb
      rwa [if_pos hnd] at this
    · by_contra hnd
      have := hno e he _ (hm.within e he).start_mem
      rw [if_neg hnd] at this
      exact this hcnt
  · rintro ⟨hloc, hfu⟩ e he b hb
    rw [hfr e he b hb, hitem _ b (mem_placedIn.mpr ⟨e, he, rfl, hb⟩)]
    split
    · exact hloc e he ‹_› b hb
    · rename_i hnd
      exact fun hcnt => hnd (hfu hcnt e he)

/-! ## Small runs -/

/-- A file made on node 2 as `/b`, written there, moved to node 1 as `/a`,
written there, and moved back. -/
def thereAndBack (c : Cluster) : Outcome Cluster := do
  let (_, c) ← serve twoNodes 2
    [(sampleUnset, .mknod pathB), (sampleUnset, .extentWrite pathB blockSize 0)] c
  let (_, c) ← nrfsRename twoNodes sampleUnset pathB pathA c
  let (_, c) ← serve twoNodes 1 [(sampleUnset, .extentWrite pathA blockSize blockSize)] c
  let (_, c) ← nrfsRename twoNodes sampleUnset pathA pathB c
  return c

lemma reached_thereAndBack {c c' : Cluster} (hc : (sampleSetup 8).Reached twoNodes c)
    (hrun : thereAndBack c = .done c') : (sampleSetup 8).Reached twoNodes c' := by
  obtain ⟨⟨_, c1⟩, h1, hrun⟩ := bind_eq_done.mp hrun
  obtain ⟨⟨_, c2⟩, h2, hrun⟩ := bind_eq_done.mp hrun
  obtain ⟨⟨_, c3⟩, h3, hrun⟩ := bind_eq_done.mp hrun
  obtain ⟨⟨_, c4⟩, h4, hrun⟩ := bind_eq_done.mp hrun
  cases hrun
  have hrch2 := (Setup.stays_nrfsRename _ _).of_done (hc.serve h1) h2
  exact (Setup.stays_nrfsRename _ _).of_done (hrch2.serve h3) h4

/-- Back on node 2, its block stands before the one of node 1. -/
theorem delete_frees_there_and_back : ∃ c c' i m, (sampleSetup 8).Reached twoNodes c ∧
      (c.storage 2).fileEntry (twoNodes.sha256 pathB) = some (i, m) ∧
      m.extents = [⟨2, 0, 1⟩, ⟨1, 0, 1⟩] ∧ c.Holds 8 m ∧
      nrfsDelete twoNodes sampleUnset pathB c = .done (0, c') ∧ c'.AllFree m := by
  obtain ⟨c0, hst, c, hbc, ⟨r, c'⟩, hdel, rfl, hext, htwo, hone⟩ :
      ∃ c0, (sampleSetup 8).start twoNodes = .done c0 ∧ ∃ c, thereAndBack c0 = .done c ∧
        ∃ r, nrfsDelete twoNodes sampleUnset pathB c = .done r ∧ r.1 = 0 ∧
          ((c.storage 2).fileEntry (twoNodes.sha256 pathB)).map (fun f => f.2.extents)
            = some [⟨2, 0, 1⟩, ⟨1, 0, 1⟩] ∧
          (c.storage 2).tableBlock.get 0 = some () ∧
          (c.storage 1).tableBlock.get 0 = some () := by
    decide +kernel
  obtain ⟨⟨i, m⟩, hm, hext⟩ := Option.map_eq_some_iff.mp hext
  have hpl : m.placed = [(2, 0), (1, 0)] := by
    rw [FileMeta.placed, hext]
    rfl
  have hcnt : m.count = 2 := by
    have := congrArg length hext
    simpa [FileMeta.extents] using this
  have hhld : c.Holds 8 m := by
    refine ⟨fun e he => ?_, fun e he => ?_, by rw [hpl]; decide, fun p hp => ?_⟩
    · rw [hext] at he
      rcases mem_pair.mp he with rfl | rfl
      · exact ⟨by decide, by decide⟩
      · exact ⟨by decide, by decide⟩
    · rw [hext] at he
      rcases mem_pair.mp he with rfl | rfl <;> decide
    · rw [hpl] at hp
      rcases mem_pair.mp hp with rfl | rfl
      · exact htwo
      · exact hone
  have hrch := reached_thereAndBack (.start hst) hbc
  refine ⟨c, c', i, m, hrch, hm, hext, hhld, hdel, ?_⟩
  refine (delete_frees_iff (sampleSetup 8) (by decide) (by decide) twoNodes c c' hrch
    sampleUnset pathB i m hm hhld hdel).mpr ⟨?_, fun hfu => ?_⟩
  · unfold LocalFirst
    rw [hext]
    decide
  · rw [hcnt] at hfu
    cases hfu

/-- After one move the block of the new owner stands behind the one of the old
owner and is never given back. -/
theorem delete_leaks : ¬ ∀ (s : Setup) (cfg : Config) (oldpath newpath : Path)
        (before after : List (Unset × Message)) (c1 c3 c4 c' : Cluster) (unset : Unset) (i : ℕ)
        (m : FileMeta), s.Sound → s.countBlock < 2 ^ 31 →
        Moves s cfg oldpath newpath before after c1 c3 c4 →
        (c4.storage (cfg.nodeOf (correct newpath))).fileEntry (cfg.sha256 (correct newpath))
          = some (i, m) →
        nrfsDelete cfg unset newpath c4 = .done (0, c') → c'.AllFree m := by
  intro hall
  obtain ⟨c, hc, ⟨c1, c3, c4⟩, hmv, ⟨r, c'⟩, hdel, rfl, hext, hleak⟩ :
      ∃ c, (sampleSetup 8).start twoNodes = .done c ∧
        ∃ r, moveRun twoNodes sampleUnset pathA pathB firstBlock secondBlock c = .done r ∧
        ∃ d, nrfsDelete twoNodes sampleUnset pathB r.2.2 = .done d ∧ d.1 = 0 ∧
          ((r.2.2.storage 2).fileEntry (twoNodes.sha256 pathB)).map (fun f => f.2.extents)
            = some [⟨1, 0, 1⟩, ⟨2, 0, 1⟩] ∧ 0 ∉ (d.2.storage 2).tableBlock.headFreeBit := by
    decide +kernel
  obtain ⟨⟨i, m⟩, hm, hext⟩ := Option.map_eq_some_iff.mp hext
  have hfr := hall (sampleSetup 8) twoNodes pathA pathB firstBlock secondBlock c1 c3 c4 c'
    sampleUnset i m (by decide) (by decide)
    (Moves.of_run (.start hc) (by decide) (by decide) hmv) hm hdel
  refine hleak (hfr ⟨2, 0, 1⟩ ?_ 0 (by decide))
  rw [hext]
  decide

end Librdpma.Octopus
