import Librdpma.Octopus.Ownership

/-!
# Arrays of extents

The metadata of a file have room for 20 extents, a reply for 10 positions, and
the code checks neither. How many extents a file gets depends on the order of
the free list: each run of consecutive blocks that a write takes is a new one.
As long as no file gets more than 10, nothing is written outside the arrays.
-/

namespace Librdpma.Octopus

open Lib Outcome Function List StoreView FileMeta

/-! ## Positions -/

/-- A file of few extents in an area of `n` blocks, which reach its end. -/
structure FileMeta.Narrow (n : ℕ) (m : FileMeta) : Prop where
  count : m.count ≤ maxMessageBlockCount
  within : m.Within n
  covers : countBlocks m.size ≤ m.total m.count

section Positions

variable {n : ℕ} {m : FileMeta}

lemma countBlocks_mono {k l : ℕ} (h : k ≤ l) : countBlocks k ≤ countBlocks l := by
  unfold countBlocks blockSize
  split <;> split <;> omega

lemma lt_countBlocks {k : ℕ} (h : 0 < k) : k - 1 < countBlocks k * blockSize := by
  unfold countBlocks blockSize
  rw [if_neg (by omega)]
  omega

lemma FileMetaTuple.Within.bytes {e : FileMetaTuple} (h : e.Within n) (hn : n < 2 ^ 12) :
    e.bytes = e.countExtentBlock * blockSize := by
  have := h.2
  unfold FileMetaTuple.bytes blockSize
  omega

/-- **The products of 32 bits are exact for every extent exactly if there are
fewer than 4096 blocks.** -/
theorem products_exact_iff (n : ℕ) :
    (∀ e : FileMetaTuple, e.Within n → e.start = e.indexExtentStartBlock * blockSize ∧
      e.bytes = e.countExtentBlock * blockSize) ↔ n < 2 ^ 12 := by
  constructor
  · intro h
    by_contra hn
    -- an extent of 4096 blocks has 0 bytes
    have hall := (h ⟨1, 0, 2 ^ 12⟩ ⟨by decide, by dsimp only; omega⟩).2
    cases hall
  · intro hn e he
    have hend := he.2
    refine ⟨?_, he.bytes hn⟩
    unfold FileMetaTuple.start blockSize
    omega

/-- The byte of a file in block 4096 is read from block 0. -/
theorem fill_high_block : FileMetaTuple.Within (2 ^ 12 + 1) ⟨1, 2 ^ 12, 1⟩ ∧
    FileMetaTuple.start ⟨1, 2 ^ 12, 1⟩ ≠ 2 ^ 12 * blockSize ∧
    fillFilePositionInformation 1 0 ⟨1, 1, fun _ => ⟨1, 2 ^ 12, 1⟩⟩ = .done [⟨1, 0, 1⟩] :=
  ⟨⟨by decide, by decide⟩, by decide, rfl⟩

lemma FileMeta.total_le (hm : m.Within n) {i : ℕ} (hi : i ≤ m.count) : m.total i ≤ i * n := by
  induction i with
  | zero => exact Nat.zero_le _
  | succ i ih =>
    have hla := (hm _ (mem_extents.mpr ⟨i, by omega, rfl⟩)).2
    have hrs := ih (by omega)
    rw [total_succ, Nat.succ_mul]
    omega

lemma findExtent_found (hm : m.Within n) (hn : n < 2 ^ 12)
    (hcnt : m.count ≤ maxFileExtentCount) {target fuel i : ℕ} (hfl : i + fuel = m.count)
    (hi : m.total i * blockSize ≤ target) (htgt : target < m.total m.count * blockSize) :
    ∃ j offset, findExtent m target fuel i (m.total i * blockSize) = some (j, offset) ∧
      j < m.count := by
  induction fuel generalizing i with
  | zero =>
    rw [add_zero] at hfl
    rw [hfl] at hi
    omega
  | succ fuel ih =>
    have hin := hm _ (mem_extents.mpr ⟨i, by omega, rfl⟩)
    have hst : m.total i * blockSize + (m.tuple i).bytes = m.total (i + 1) * blockSize := by
      rw [hin.bytes hn, total_succ, add_mul]
    -- no product leaves 64 bits
    have hsm : m.total (i + 1) * blockSize < 2 ^ 64 := by
      have hle := m.total_le hm (i := i + 1) (by omega)
      have hprod : (i + 1) * n ≤ 20 * 2 ^ 12 :=
        Nat.mul_le_mul (by unfold maxFileExtentCount at hcnt; omega) (by omega)
      unfold blockSize
      omega
    have hpos : 0 < m.total (i + 1) * blockSize := by
      rw [total_succ]
      exact Nat.mul_pos (by have := hin.1; omega) (by decide)
    rw [findExtent, hst]
    split
    · exact ⟨i, _, rfl, by omega⟩
    · rename_i hsht
      refine ih (by omega) ?_
      omega

lemma fill_fits (hcnt : m.count ≤ maxMessageBlockCount) (hm : m.Within n) (hn : n < 2 ^ 12)
    {size offset : ℕ} (hsz : 0 < size) (hcov : countBlocks (offset + size) ≤ m.total m.count) :
    ∃ fpi, fillFilePositionInformation size offset m = .done fpi := by
  have hend : size + offset - 1 < m.total m.count * blockSize := by
    have hlt := lt_countBlocks (k := offset + size) (by omega)
    have hle := Nat.mul_le_mul_right blockSize hcov
    omega
  have hle20 : m.count ≤ maxFileExtentCount := le_trans hcnt (by decide)
  obtain ⟨i, o, hi, hi'⟩ := @findExtent_found _ _ hm hn hle20 offset _ 0
    (zero_add _) (by simp [total]) (by omega)
  obtain ⟨j, o', hj, hj'⟩ := @findExtent_found _ _ hm hn hle20 (size + offset - 1) _
    0 (zero_add _) (by simp [total]) hend
  have hz : m.total 0 * blockSize = 0 := by simp [total]
  rw [hz] at hi hj
  unfold fillFilePositionInformation
  dsimp only
  rw [hi, hj]
  dsimp only
  split
  · exact ⟨_, rfl⟩
  · rw [if_pos (by omega)]
    exact ⟨_, rfl⟩

lemma fill_length {size offset : ℕ} {fpi : FilePosInfo}
    (h : fillFilePositionInformation size offset m = .done fpi) :
    fpi.length ≤ maxMessageBlockCount := by
  unfold fillFilePositionInformation at h
  dsimp only at h
  split at h
  · split at h
    · cases h
      exact Nat.le_of_ble_eq_true rfl
    · split at h
      · cases h
        simp only [middleExtents, length_append, length_cons, length_map, length_range, length_nil]
        unfold maxMessageBlockCount at *
        omega
      · cases h
  · cases h

end Positions

/-! ## Steps -/

/-- All files of a node are narrow. -/
def NarrowInv (n : ℕ) (v : StoreView) : Prop :=
  ∀ i m, v.files.item i = some m → m.Narrow n

/-- What a write needs: a file without left-over extents, and blocks in few
runs. -/
structure FileMeta.GrowsNarrow (m : FileMeta) (free : List ℕ) (size offset : ℕ) : Prop where
  empty : m.size = 0 → m.count = 0
  runs : m.count + newRuns m.runEnd (free.take (countExtraBlock m size offset))
    ≤ maxMessageBlockCount

section Steps

variable {n : ℕ} {v v' : StoreView} {i node size offset : ℕ} {m : FileMeta}

lemma FileMeta.GrowsNarrow.first {free : List ℕ} (h : m.GrowsNarrow free size offset) :
    firstExtraExtent m = m.count := by
  unfold firstExtraExtent
  split_ifs with hz
  · exact (h.empty hz).symm
  · rfl

lemma FileMeta.Narrow.grow (h : m.Narrow n) (hn : n < 2 ^ 12) {free : List ℕ}
    (hfr : ∀ b ∈ free, b < n) (hgr : m.GrowsNarrow free size offset)
    (hsz : size ≠ 0) (node : ℕ) :
    ∃ m', m.grow node (free.take (countExtraBlock m size offset)) (firstExtraExtent m) = .done m' ∧
      (countExtraBlock m size offset ≤ free.length → (m'.sized m size offset).Narrow n) := by
  have htk : ∀ b ∈ free.take (countExtraBlock m size offset), b < n := fun b hb =>
    hfr b (mem_of_mem_take hb)
  obtain ⟨m', hgrow, hcnt⟩ := grow_count (by omega) node h.within htk
    (le_trans hgr.runs (by decide))
  rw [hgr.first]
  refine ⟨m', hgrow, fun hle => ?_⟩
  obtain ⟨hblk, hwin, -⟩ := grow_blocks (by omega) h.within htk hgrow
  have hcov : countBlocks (max (offset + size) m.size) ≤ m'.total m'.count := by
    have hold := h.covers
    rw [← length_blocks] at hold ⊢
    rw [hblk, length_append, length_take, min_eq_left hle, ← countBlocks_add hsz]
    omega
  exact ⟨hcnt.trans_le hgr.runs, hwin, hcov⟩

section

variable (h : NarrowInv n v)

include h

lemma NarrowInv.put {m' : FileMeta} (hm : v.files.item i = some m)
    (hm' : m'.Narrow n) (hfls : v'.files = (v.files.put i m').2) : NarrowInv n v' := by
  intro j m1 hj
  rw [hfls, TableView.put_of_some hm] at hj
  dsimp only at hj
  rw [update_apply] at hj
  split at hj
  · cases hj
    exact hm'
  · exact h j m1 hj

lemma NarrowInv.write (hn : n < 2 ^ 12) (hfr : ∀ b ∈ v.blocks.free, b < n)
    {fpi : Option FilePosInfo} (hm : v.files.item i = some m) (har : Writable size offset)
    (hgr : m.GrowsNarrow v.blocks.free size offset)
    (heff : WriteEffect node size offset i m v fpi v') : NarrowInv n v' := by
  cases heff with
  | full hlt => exact h
  | fits hle hgrow hfl =>
    obtain ⟨m1, hgr', hnar⟩ := (h i m hm).grow hn hfr hgr (fun hz => har (.inr hz)) node
    cases hgrow.symm.trans hgr'
    exact h.put hm (hnar hle) rfl

lemma not_writeOverruns (hn : n < 2 ^ 12)
    (hfr : ∀ b ∈ v.blocks.free, b < n) (hm : v.files.item i = some m)
    (har : Writable size offset) (hgr : m.GrowsNarrow v.blocks.free size offset) :
    ¬ WriteOverruns node size offset m v := by
  have hsz : size ≠ 0 := fun hz => har (.inr hz)
  obtain ⟨m1, hgrow, hnar⟩ := (h i m hm).grow hn hfr hgr hsz node
  rintro (hund | ⟨m2, hle, hgr', hund⟩)
  · rw [hgrow] at hund
    cases hund
  · cases hgrow.symm.trans hgr'
    have hn' := hnar hle
    have hcov := le_trans (countBlocks_mono (le_max_left _ _)) hn'.covers
    obtain ⟨fpi, hfl⟩ := fill_fits hn'.count hn'.within hn (pos_of_ne_zero hsz) hcov
    rw [hfl] at hund
    cases hund

lemma NarrowInv.truncate {ok : Bool} (hm : v.files.item i = some m)
    (heff : ShrinkEffect size i m v ok v') : NarrowInv n v' := by
  have hnar := h i m hm
  cases heff with
  | refused href | stuck hlt hfd hstc => exact h
  | cut hlt hfd =>
    rename_i e till
    obtain ⟨-, he, -, hrch, -⟩ := findLastExtent_some (i := 0) hfd
    rw [zero_add] at he
    refine h.put hm ⟨?_, fun e' he' => ?_, hrch⟩ rfl
    · exact le_trans he hnar.count
    · rw [extents_take m (i := e + 1) he] at he'
      exact hnar.within e' (mem_of_mem_take he')

lemma NarrowInv.make {k : UniqueHash} {ok : Bool} {tuple : ℕ → FileMetaTuple}
    (heff : MakeEffect k false (v.createFile ⟨0, 0, tuple⟩) ok v') : NarrowInv n v' := by
  have hnew : FileMeta.Narrow n ⟨0, 0, tuple⟩ :=
    ⟨Nat.zero_le _, fun e he => absurd he not_mem_nil, Nat.le_refl _⟩
  have hcr : NarrowInv n (v.createFile ⟨0, 0, tuple⟩).2 := by
    unfold createFile
    rcases v.files.create_cases ⟨0, 0, tuple⟩ with ⟨-, heq⟩ | ⟨i, rest, -, heq⟩
    · rw [heq]
      exact h
    · rw [heq]
      intro j m hj
      dsimp only at hj
      rw [update_apply] at hj
      split at hj
      · cases hj
        exact hnew
      · exact h j m hj
  cases heff with
  | full | noItem | made => exact hcr

lemma NarrowInv.drop {k : UniqueHash} {a : Attribute}
    (heff : DropEffect v node k a v') : NarrowInv n v' := by
  cases heff with
  | directory => exact h
  | file he hm =>
    intro j m1 hj
    rw [TableView.remove_of_some hm] at hj
    dsimp only at hj
    rw [update_apply] at hj
    split at hj
    · cases hj
    · exact h j m1 hj

end

end Steps

/-! ## Runs -/

namespace Storage

/-- The requests in question: a write to a file does not meet left-over extents
and leaves the file narrow, and a read does not start at the last offset there
is. -/
def StaysNarrow (cfg : Config) (st : Storage) : Message → Prop
  | .mknod _ => True
  | .truncate _ _ => True
  | .remove _ => True
  | .extentRead _ _ offset => offset + 1 < 2 ^ 64
  | .extentWrite path size offset => ∀ m, st.fileOf (cfg.sha256 path) = some m →
      Writable size offset → m.GrowsNarrow st.tableBlock.headFreeBit size offset
  | _ => False

/-- No file has more extents than its metadata have room for. -/
def CountsFit (st : Storage) : Prop :=
  ∀ k m, st.fileOf k = some m → m.count ≤ maxFileExtentCount

end Storage

/-- A reply that fits into its array. -/
def ExtentReply.Fits (r : ExtentReply) : Prop :=
  ∀ fpi, r.fpi = some fpi → fpi.length ≤ maxMessageBlockCount

section Runs

variable {cfg : Config} {sz : StoreSize} {c : Cluster} {w : World}

lemma NarrowInv.countsFit {st : Storage} {v : StoreView} {n : ℕ} (h : NarrowInv n v)
    (hst : st.Shows sz v) : st.CountsFit := by
  intro k m hk
  rw [hst.fileOf] at hk
  obtain ⟨⟨i, m⟩, hi, rfl⟩ := Option.map_eq_some_iff.mp hk
  exact le_trans (h i m (file_eq_some.mp hi).2).count (by decide)

variable {path : Path} {size offset : ℕ}

lemma growsNarrow_of_stays {i : ℕ} {m : FileMeta} (hw : c.Shows sz w)
    (hmsg : (c.storage 1).StaysNarrow cfg (.extentWrite path size offset))
    (hfl : (w 1).file (cfg.sha256 path) = some (i, m)) (har : Writable size offset) :
    m.GrowsNarrow (w 1).blocks.free size offset := by
  rw [← (hw 1).blocks.headFreeBit]
  refine hmsg m ?_ har
  rw [(hw 1).fileOf, hfl]
  rfl

/-- The files of the only node are narrow. -/
def FilesNarrow (sz : StoreSize) (c : Cluster) : Prop :=
  ∃ w, c.Shows sz w ∧ NarrowInv sz.blocks (w 1)

lemma free_lt (hw : c.Shows sz w) : ∀ b ∈ (w 1).blocks.free, b < sz.blocks := fun b hb =>
  (((hw 1).blocks.exact.mem_iff b).mp hb).1

lemma ends_narrow (hsf : ∀ p, cfg.nodeOf p = 1) (hn : sz.blocks < 2 ^ 12) (c : Cluster)
    (unset : Unset) (msg : Message) (h : FilesNarrow sz c)
    (hmsg : (c.storage 1).StaysNarrow cfg msg) :
    Ends True (parseMessage cfg unset 1 msg c) fun r => FilesNarrow sz r.2 := by
  obtain ⟨w, hw, hinv⟩ := h
  match msg with
  | .mknod path =>
    refine (hw.mknodcd unset fun _ => trivial).bind ?_
    rintro ⟨ok, c'⟩ ⟨w', hw', hst⟩
    refine .done ⟨w', hw', ?_⟩
    cases hst with
    | nothing => exact hinv
    | change hpar hnew hnm hmd =>
      rw [update_self]
      refine NarrowInv.make (fun i m hm => hinv i m ?_) hmd
      rw [World.files_writeDir] at hm
      exact hm
  | .extentRead path size offset =>
    exact (hw.answerRead unset).mono fun r hr => ⟨w, hr, hinv⟩
  | .extentWrite path size offset =>
    refine (hw.answerWrite unset (hsf path) fun _ _ _ _ _ => trivial).mono ?_
    rintro ⟨r, c'⟩ ⟨fpi, w', -, hw', hst⟩
    refine ⟨w', hw', ?_⟩
    cases hst with
    | nothing => exact hinv
    | change hfl har heff =>
      rw [update_self]
      exact hinv.write hn (free_lt hw) (file_eq_some.mp hfl).2 har
        (growsNarrow_of_stays hw hmsg hfl har) heff
  | .truncate path size =>
    refine (hw.truncate (hsf path)).bind ?_
    rintro ⟨ok, c'⟩ ⟨w', hw', hst⟩
    refine .done ⟨w', hw', ?_⟩
    cases hst with
    | nothing => exact hinv
    | change hfl heff =>
      rw [update_self]
      exact hinv.truncate (file_eq_some.mp hfl).2 heff
  | .remove path =>
    refine (hw.removecd fun _ => trivial).bind ?_
    rintro ⟨r, c'⟩ ⟨w', hw', hst⟩
    refine .done ⟨w', hw', ?_⟩
    cases hst with
    | nothing => exact hinv
    | change hpar hnm hnil hdr =>
      rw [update_self]
      refine NarrowInv.drop (fun i m hm => hinv i m ?_) hdr
      rw [World.files_writeDir] at hm
      exact hm

lemma ends_extentWrite (hsf : ∀ p, cfg.nodeOf p = 1) (hn : sz.blocks < 2 ^ 12)
    (h : FilesNarrow sz c) (hmsg : (c.storage 1).StaysNarrow cfg (.extentWrite path size offset)) :
    Ends False (extentWrite cfg 1 path size offset c) fun r => r.1.Fits := by
  obtain ⟨w, hw, hinv⟩ := h
  refine (hw.extentWrite (hsf path) fun i m hfl har => ?_).mono ?_
  · exact not_writeOverruns hinv hn (free_lt hw) (file_eq_some.mp hfl).2 har
      (growsNarrow_of_stays hw hmsg hfl har)
  · rintro ⟨⟨offset, fpi⟩, c'⟩ ⟨-, w', -, hst⟩ fpi' heq
    subst heq
    cases hst with
    | change hfl har heff =>
      cases heff with
      | fits hle hgr hfill => exact fill_length hfill

lemma ends_extentRead (hn : sz.blocks < 2 ^ 12) (h : FilesNarrow sz c)
    (hoff : offset + 1 < 2 ^ 64) :
    Ends False (extentRead cfg 1 path size offset c) fun r => r.1.Fits := by
  obtain ⟨w, hw, hinv⟩ := h
  refine (hw.extentRead fun i m hfl hsz hle hund => ?_).mono ?_
  · have hnar := hinv i m (file_eq_some.mp hfl).2
    rw [Nat.mod_eq_of_lt hoff] at hle
    have hcov := le_trans
      (countBlocks_mono (k := offset + min size (m.size - offset)) (l := m.size) (by omega))
      hnar.covers
    obtain ⟨fpi, hfill⟩ := fill_fits hnar.count hnar.within hn (by omega) hcov
    rw [hfill] at hund
    cases hund
  · rintro r ⟨-, hr⟩ fpi hfpi
    rcases hr fpi hfpi with rfl | ⟨i, m, -, hfill⟩
    · exact Nat.zero_le _
    · exact fill_length hfill

/-- **In a run that keeps all files narrow, no file gets more extents than it
has room for, and no extent request leaves the arrays.** -/
theorem extents_fit (s : Setup) (hs : s.Sound) (hblocks : s.countBlock = 2000)
    (hone : cfg.countNode = 1) (c : Cluster) (hc : s.start cfg = .done c)
    (reqs : List (Unset × Message)) (unset : Unset) (msg : Message)
    (hreqs : Along cfg 1 (fun c _ msg => (c.storage 1).StaysNarrow cfg msg)
      (reqs ++ [(unset, msg)]) c)
    (rs : List Response) (c' : Cluster) (hrun : serve cfg 1 reqs c = .done (rs, c')) :
    (c'.storage 1).CountsFit ∧
      (∀ path size offset, msg = .extentWrite path size offset →
        Ends False (extentWrite cfg 1 path size offset c') fun r => r.1.Fits) ∧
      ∀ path size offset, msg = .extentRead path size offset →
        Ends False (extentRead cfg 1 path size offset c') fun r => r.1.Fits := by
  have hsf := Config.nodeOf_one hone
  have hn : s.size.blocks < 2 ^ 12 := by
    show s.countBlock < 2 ^ 12
    omega
  obtain ⟨w, hw⟩ := hs.started hc
  have hrt := hw.root
  rw [hsf] at hrt
  have hst : FilesNarrow s.size c := by
    refine ⟨w, hw.shows, fun i m hi => ?_⟩
    rw [hrt.files] at hi
    cases hi
  obtain ⟨hpre, hla⟩ := along_append.mp hreqs
  have hnar := (hpre.ends (ends_narrow hsf hn) hst).of_done hrun
  have hmsg := (hla rs c' hrun).1
  refine ⟨?_, ?_, ?_⟩
  · obtain ⟨w', hw', hinv⟩ := hnar
    exact hinv.countsFit (hw' 1)
  · rintro path size offset rfl
    exact ends_extentWrite hsf hn hnar hmsg
  · rintro path size offset rfl
    exact ends_extentRead hn hnar hmsg

end Runs

/-! ## Small runs -/

/-- The first write to a file. -/
theorem extents_fit_write : ∃ c c' rs, (sampleSetup 2000).start oneNode = .done c ∧
      Along oneNode 1 (fun c _ msg => (c.storage 1).StaysNarrow oneNode msg)
        ([(sampleUnset, .mknod pathA)] ++ [(sampleUnset, .extentWrite pathA blockSize 0)]) c ∧
      serve oneNode 1 [(sampleUnset, .mknod pathA)] c = .done (rs, c') ∧
      Ends False (extentWrite oneNode 1 pathA blockSize 0 c') fun r => r.1.Fits := by
  obtain ⟨c, hc, ⟨rs, c'⟩, hsrv, hmap⟩ : ∃ c, (sampleSetup 2000).start oneNode = .done c ∧
      ∃ r, serve oneNode 1 [(sampleUnset, .mknod pathA)] c = .done r ∧
        ((r.2.storage 1).fileOf (oneNode.sha256 pathA)).map (fun m => (m.count,
          newRuns m.runEnd ((r.2.storage 1).tableBlock.headFreeBit.take
            (countExtraBlock m blockSize 0)))) = some (0, 1) := by
    decide +kernel
  have hsty : Along oneNode 1 (fun c _ msg => (c.storage 1).StaysNarrow oneNode msg)
      ([(sampleUnset, .mknod pathA)] ++ [(sampleUnset, .extentWrite pathA blockSize 0)]) c := by
    refine along_append.mpr ⟨⟨trivial, fun _ _ _ => trivial⟩, fun rs1 c1 hsrv1 => ?_⟩
    cases hsrv.symm.trans hsrv1
    refine ⟨fun m hm _ => ?_, fun _ _ _ => trivial⟩
    rw [hm, Option.map_some, Option.some.injEq, Prod.mk.injEq] at hmap
    exact ⟨fun _ => hmap.1, by rw [hmap.1, hmap.2]; decide⟩
  exact ⟨c, c', rs, hc, hsty, hsrv, (extents_fit (sampleSetup 2000) (by decide) rfl rfl c hc
    _ _ _ hsty rs c' hsrv).2.1 _ _ _ rfl⟩

/-- Two files that grow block by block in turns. -/
def alternate (n : ℕ) : List (Unset × Message) :=
  (range n).flatMap fun i =>
    [(sampleUnset, .extentWrite pathA blockSize (i * blockSize)),
      (sampleUnset, .extentWrite pathB blockSize (i * blockSize))]

/-- After eleven rounds each file has eleven extents, too many for a reply. -/
theorem extents_overrun :
    ¬ ∀ (s : Setup) (cfg : Config) (c c' : Cluster) (reqs : List (Unset × Message))
        (rs : List Response) (path : Path) (size offset : ℕ), s.Sound → s.countBlock = 2000 →
        cfg.countNode = 1 → s.start cfg = .done c →
        (∀ r ∈ reqs, r.2.ChangesFiles) → serve cfg 1 reqs c = .done (rs, c') →
        Ends False (extentRead cfg 1 path size offset c') fun r => r.1.Fits := by
  intro hall
  obtain ⟨c, hc, ⟨rs, c'⟩, hsrv, hts⟩ : ∃ c, (sampleSetup 2000).start oneNode = .done c ∧
      ∃ r, serve oneNode 1 ([(sampleUnset, .mknod pathA), (sampleUnset, .mknod pathB)]
        ++ alternate 11) c = .done r ∧
        extentRead oneNode 1 pathA (11 * blockSize) 0 r.2 = .undefined := by
    decide +kernel
  have hfls : ∀ r ∈ [(sampleUnset, Message.mknod pathA), (sampleUnset, .mknod pathB)]
      ++ alternate 11, r.2.ChangesFiles := by
    intro r hr
    simp only [alternate, cons_append, nil_append, mem_cons, mem_flatMap,
      not_mem_nil, or_false] at hr
    rcases hr with rfl | rfl | ⟨i, -, rfl | rfl⟩ <;> trivial
  have hen := hall _ _ _ _ _ _ pathA (11 * blockSize) 0 (by decide) rfl rfl hc hfls hsrv
  rw [hts] at hen
  cases hen with
  | undefined h => exact h

end Librdpma.Octopus
