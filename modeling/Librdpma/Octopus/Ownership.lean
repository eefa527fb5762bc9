import Librdpma.Lib.Owned
import Librdpma.Octopus.ExtentBlocks
import Librdpma.Octopus.FileCalls
import Librdpma.Octopus.NameCalls

/-!
# Who owns which block

On one node, the files are owners of blocks (`Lib.Owned`): `extentWrite` takes
blocks, `truncate` and `removecd` give blocks back. The accounts are right as
long as each `truncate` that takes effect cuts between two extents. Inside an
extent it gives the blocks behind the cut back and leaves them in the extent.
-/

namespace Librdpma.Octopus

open Lib Outcome Function List StoreView FileMeta TableView Option

/-- The blocks that the metadata at an index list. -/
def StoreView.listed (v : StoreView) (i : ℕ) : List ℕ :=
  (v.files.item i).elim [] FileMeta.blocks

/-- The accounts of an area of `n` blocks. -/
structure BlockInv (n : ℕ) (v : StoreView) : Prop where
  owned : Owned v.listed fun b => v.blocks.item b = some ()
  within : ∀ i m, v.files.item i = some m → m.Within n
  exact : ∀ i m, v.files.item i = some m → m.blocks.length = countBlocks m.size
  live : ∀ k i, v.entries k = some (i, false) → ∃ m, v.files.item i = some m
  inj : ∀ k k' i, v.entries k = some (i, false) → v.entries k' = some (i, false) → k = k'

section Steps

variable {n : ℕ} {v v' : StoreView} {i : ℕ} {m : FileMeta}

lemma StoreView.listed_of_item (h : v.files.item i = some m) : v.listed i = m.blocks := by
  rw [StoreView.listed, h, Option.elim_some]

lemma FileMeta.Within.count_eq_zero (h : m.Within n) (hnil : m.blocks = []) : m.count = 0 := by
  by_contra hne
  have hin := h _ (mem_extents.mpr ⟨0, pos_of_ne_zero hne, rfl⟩)
  have hlen := m.length_blocks
  rw [hnil, length_nil] at hlen
  have hle := m.total_mono (Nat.one_le_iff_ne_zero.mpr hne)
  rw [total_succ] at hle
  have := hin.1
  omega

lemma FileMeta.Within.firstExtraExtent (h : m.Within n)
    (hlen : m.blocks.length = countBlocks m.size) : firstExtraExtent m = m.count := by
  unfold Octopus.firstExtraExtent
  split_ifs with hz
  · rw [hz] at hlen
    exact (h.count_eq_zero (length_eq_zero_iff.mp hlen)).symm
  · rfl

namespace BlockInv

section

variable (h : BlockInv n v)

include h

lemma congr (hent : v'.entries = v.entries)
    (hfls : v'.files = v.files) (hblk : v'.blocks = v.blocks) : BlockInv n v' := by
  have hlst : v'.listed = v.listed := by
    funext j
    rw [StoreView.listed, hfls, StoreView.listed]
  constructor
  · rw [hlst, hblk]
    exact h.owned
  · rw [hfls]
    exact h.within
  · rw [hfls]
    exact h.exact
  · rw [hent, hfls]
    exact h.live
  · rw [hent]
    exact h.inj

/-- The metadata of one file are written over, with what has become of its
blocks given by `howned`. -/
lemma put {m' : FileMeta} (hm : v.files.item i = some m)
    (hent : v'.entries = v.entries) (hfls : v'.files = (v.files.put i m').2)
    (hown : (∀ j, v'.listed j = if j = i then m'.blocks else v.listed j) →
      Owned v'.listed fun b => v'.blocks.item b = some ())
    (hwin : m'.Within n) (hex : m'.blocks.length = countBlocks m'.size) :
    BlockInv n v' := by
  have hitem : ∀ j, v'.files.item j = if j = i then some m' else v.files.item j := by
    intro j
    rw [hfls, TableView.put_of_some hm]
    exact update_apply ..
  have hold : ∀ j m1, v'.files.item j = some m1 → (m1 = m' ∨ v.files.item j = some m1) := by
    intro j m1 hj
    rw [hitem] at hj
    split at hj
    · cases hj
      exact .inl rfl
    · exact .inr hj
  refine ⟨hown fun j => ?_, fun j m1 hj => ?_, fun j m1 hj => ?_, fun k j hk => ?_, ?_⟩
  · rw [StoreView.listed, hitem]
    split <;> rfl
  · rcases hold j m1 hj with rfl | hj
    · exact hwin
    · exact h.within j m1 hj
  · rcases hold j m1 hj with rfl | hj
    · exact hex
    · exact h.exact j m1 hj
  · rw [hent] at hk
    obtain ⟨m1, hm1⟩ := h.live k j hk
    rw [hitem]
    split
    · exact ⟨_, rfl⟩
    · exact ⟨_, hm1⟩
  · rw [hent]
    exact h.inj

lemma write (hn : n < 2 ^ 31)
    (hfr : FreeExact (· < n) (fun b => (v.blocks.item b).isSome = true) v.blocks.free)
    {node size offset : ℕ} {fpi : Option FilePosInfo} (hm : v.files.item i = some m)
    (har : Writable size offset) (heff : WriteEffect node size offset i m v fpi v') :
    BlockInv n v' := by
  have hunu : ∀ b ∈ v.blocks.free, b < n ∧ v.blocks.item b = none := fun b hb => by
    obtain ⟨hlt, hno⟩ := (hfr.mem_iff b).mp hb
    exact ⟨hlt, by simpa using hno⟩
  have htk : ∀ count b, v.blocks.item b = some () ∨ b ∈ v.blocks.free.take count →
      (v.blocks.taken count).item b = some () := by
    intro count b hb
    rw [item_taken]
    split
    · rfl
    · exact hb.resolve_right ‹_›
  cases heff with
  | full hlt =>
    refine ⟨h.owned.mono fun b hb => htk _ b (.inl hb), h.within, h.exact, h.live, h.inj⟩
  | fits hle hgr hfl =>
    rename_i m' fpi
    rw [(h.within i m hm).firstExtraExtent (h.exact i m hm)] at hgr
    have htake : ∀ b ∈ v.blocks.free.take (countExtraBlock m size offset), b ∈ v.blocks.free :=
      fun b hb => mem_of_mem_take hb
    obtain ⟨hblk, hwin, hsz⟩ := grow_blocks (by omega) (h.within i m hm)
      (fun b hb => (hunu b (htake b hb)).1) hgr
    have hszd : (m'.sized m size offset).blocks
        = m.blocks ++ v.blocks.free.take (countExtraBlock m size offset) := hblk
    refine h.put hm rfl rfl (fun hlst => ?_) hwin ?_
    · refine h.owned.take (i := i) (hfr.nodup.sublist (take_sublist _ _)) (fun b hb => ?_)
        (fun j => ?_) (htk _)
      · rw [(hunu b (htake b hb)).2]
        exact nofun
      · rw [hlst, hszd, listed_of_item hm]
    · have hnewSize : (m'.sized m size offset).size = max (offset + size) m.size := rfl
      rw [hszd, length_append, h.exact i m hm, length_take, min_eq_left hle,
        countBlocks_add fun hz => har (.inr hz), hnewSize]

lemma keep {m' : FileMeta} {gone : List ℕ} (blocks : TableView Unit)
    (hm : v.files.item i = some m) (hspl : m.blocks = m'.blocks ++ gone)
    (hent : v'.entries = v.entries) (hfls : v'.files = (v.files.put i m').2)
    (hblk : v'.blocks = blocks)
    (hlv : ∀ b, v.blocks.item b = some () → b ∉ gone → blocks.item b = some ())
    (hwin : m'.Within n) (hex : m'.blocks.length = countBlocks m'.size) :
    BlockInv n v' := by
  refine h.put hm hent hfls (fun hlst => ?_) hwin hex
  rw [hblk]
  exact h.owned.give ((listed_of_item hm).trans hspl) hlst hlv

lemma truncate (hn : n < 2 ^ 31) {size : ℕ} {ok : Bool}
    (hm : v.files.item i = some m) (hcut : size < m.size → m.CutsAtExtent size)
    (heff : ShrinkEffect size i m v ok v') : BlockInv n v' := by
  cases heff with
  | refused href => exact h
  | stuck hlt hfd hstc =>
    obtain ⟨he, -, hperm⟩ := cutBlocks_perm (h.within i m hm) hn (hcut hlt) hfd
    have hlst := (listed_of_item hm).trans (m.blocks_split he m.size)
    refine absurd ⟨?_, fun b hb => h.owned.live i b ?_⟩ hstc
    · have hnd := h.owned.nodup i
      rw [hlst] at hnd
      exact hperm.nodup_iff.mpr hnd.of_append_right
    · rw [hlst]
      exact mem_append_right _ (hperm.mem_iff.mp hb)
  | cut hlt hfd =>
    rename_i e till
    obtain ⟨he, hcnt, hperm⟩ := cutBlocks_perm (h.within i m hm) hn (hcut hlt) hfd
    have hlv : ∀ b, v.blocks.item b = some () →
        b ∉ (m.extents.drop (e + 1)).flatMap FileMetaTuple.blocks →
        (v.blocks.freed (cutBlocks m size e till)).item b = some () := fun b hb hgn =>
      live_freed hb fun hmem => hgn (hperm.mem_iff.mp hmem)
    generalize v.blocks.freed (cutBlocks m size e till) = freed at hlv ⊢
    refine h.keep freed hm (m.blocks_split (i := e + 1) he size) rfl rfl rfl hlv
      (fun e' he' => ?_) ?_
    · rw [extents_take m he] at he'
      exact h.within i m hm e' (mem_of_mem_take he')
    · rw [length_blocks]
      exact hcnt.symm

lemma create {tuple : ℕ → FileMetaTuple} (hnew : v.files.item i = none)
    (hfls : v'.files.item = update v.files.item i (some ⟨0, 0, tuple⟩))
    (hblk : v'.blocks = v.blocks)
    (hent : v'.entries = v.entries ∨
      ∃ k, v'.entries = update v.entries k (some (i, false))) : BlockInv n v' := by
  have hitem : ∀ j m1, v'.files.item j = some m1 →
      m1 = ⟨0, 0, tuple⟩ ∨ v.files.item j = some m1 := by
    intro j m1 hj
    rw [hfls, update_apply] at hj
    split at hj
    · cases hj
      exact .inl rfl
    · exact .inr hj
  have hlst : v'.listed = v.listed := by
    funext j
    rw [StoreView.listed, StoreView.listed, hfls, update_apply]
    split_ifs with hj
    · rw [hj, hnew]
      exact FileMeta.blocks_eq_nil rfl
    · rfl
  -- an entry of the new state is an old one, or the only one of the new file
  have hentry : ∀ k j, v'.entries k = some (j, false) →
      v.entries k = some (j, false) ∨ (j = i ∧ v'.entries = update v.entries k
        (some (i, false))) := by
    intro k j hk
    rcases hent with heq | ⟨k0, heq⟩
    · rw [heq] at hk
      exact .inl hk
    · by_cases hk0 : k = k0
      · subst hk0
        rw [heq, update_self] at hk
        cases hk
        exact .inr ⟨rfl, heq⟩
      · rw [heq, update_of_ne hk0] at hk
        exact .inl hk
  have hoth : ∀ k, v.entries k ≠ some (i, false) := by
    intro k hk
    obtain ⟨m1, hm1⟩ := h.live k i hk
    rw [hnew] at hm1
    cases hm1
  refine ⟨?_, fun j m1 hj => ?_, fun j m1 hj => ?_, fun k j hk => ?_, fun k k' j hk hk' => ?_⟩
  · rw [hlst, hblk]
    exact h.owned
  · rcases hitem j m1 hj with rfl | hj
    · exact fun e he => absurd he not_mem_nil
    · exact h.within j m1 hj
  · rcases hitem j m1 hj with rfl | hj
    · rfl
    · exact h.exact j m1 hj
  · rw [hfls, update_apply]
    split
    · exact ⟨_, rfl⟩
    · rename_i hj
      rcases hentry k j hk with hk | ⟨rfl, -⟩
      · exact h.live k j hk
      · exact absurd rfl hj
  · rcases hentry k j hk with hk | ⟨rfl, heq⟩
    · rcases hentry k' j hk' with hk' | ⟨rfl, -⟩
      · exact h.inj k k' j hk hk'
      · exact absurd hk (hoth k)
    · by_contra hne
      rw [heq, update_of_ne fun heq => hne heq.symm] at hk'
      exact hoth k' hk'

lemma removeFile {k : UniqueHash} (blocks : TableView Unit) (he : v.entries k = some (i, false))
    (hm : v.files.item i = some m) (hent : v'.entries = update v.entries k none)
    (hfls : v'.files = (v.files.remove i).2) (hblk : v'.blocks = blocks)
    (hlv : ∀ b, v.blocks.item b = some () → b ∉ m.blocks → blocks.item b = some ()) :
    BlockInv n v' := by
  have hitem : ∀ j, v'.files.item j = if j = i then none else v.files.item j := by
    intro j
    rw [hfls, TableView.remove_of_some hm]
    exact update_apply ..
  have hold : ∀ j m1, v'.files.item j = some m1 → v.files.item j = some m1 := by
    intro j m1 hj
    rw [hitem] at hj
    split at hj
    · cases hj
    · exact hj
  have hentry : ∀ k' e, v'.entries k' = some e → k' ≠ k ∧ v.entries k' = some e := by
    intro k' e hk'
    rw [hent, update_apply] at hk'
    split at hk'
    · cases hk'
    · exact ⟨‹_›, hk'⟩
  refine ⟨?_, fun j m1 hj => h.within j m1 (hold j m1 hj),
    fun j m1 hj => h.exact j m1 (hold j m1 hj), fun k' j hk' => ?_,
    fun k1 k2 j h1 h2 => h.inj k1 k2 j (hentry k1 _ h1).2 (hentry k2 _ h2).2⟩
  · rw [hblk]
    refine h.owned.give ((StoreView.listed_of_item hm).trans (nil_append _).symm) (fun j => ?_) hlv
    rw [StoreView.listed, hitem]
    split <;> rfl
  · obtain ⟨hne, hk⟩ := hentry k' _ hk'
    obtain ⟨m1, hm1⟩ := h.live k' j hk
    refine ⟨m1, ?_⟩
    rw [hitem, if_neg]
    · exact hm1
    · rintro rfl
      exact hne (h.inj k' k j hk he)

lemma drop (hn : n < 2 ^ 31) {node : ℕ} {k : UniqueHash} {a : Attribute}
    (heff : DropEffect v node k a v') : BlockInv n v' := by
  cases heff with
  | directory he hm =>
    have hent : ∀ k' e, update v.entries k none k' = some e → v.entries k' = some e := by
      intro k' e hk'
      rw [update_apply] at hk'
      split at hk'
      · cases hk'
      · exact hk'
    exact ⟨h.owned, h.within, h.exact, fun k' j hk' => h.live k' j (hent k' _ hk'),
      fun k1 k2 j h1 h2 => h.inj k1 k2 j (hent k1 _ h1) (hent k2 _ h2)⟩
  | file he hm =>
    rename_i index m items
    exact h.removeFile (v.blocks.freed (blocksToRemove node m)) he hm rfl rfl rfl
      fun b hb hgn => live_freed hb fun hmem =>
        hgn (mem_blocks_of_mem_blocksToRemove (h.within _ _ hm) hn hmem)

lemma make {k : UniqueHash} {ok : Bool} {tuple : ℕ → FileMetaTuple}
    (hfr : ∀ i ∈ v.files.free, v.files.item i = none)
    (heff : MakeEffect k false (v.createFile ⟨0, 0, tuple⟩) ok v') : BlockInv n v' := by
  unfold createFile at heff
  rcases v.files.create_cases ⟨0, 0, tuple⟩ with ⟨-, heq⟩ | ⟨i, rest, hhd, heq⟩
  · rw [heq] at heff
    cases heff with
    | full => exact h
    | noItem hsome | made hsome => cases hsome
  · rw [heq] at heff
    have hnew := hfr i (by rw [hhd]; exact mem_cons_self)
    cases heff with
    | full hno => cases hno
    | noItem hsome => exact h.create hnew rfl rfl (.inl rfl)
    | made hsome =>
      cases hsome
      exact h.create hnew rfl rfl (.inr ⟨k, rfl⟩)

end

end BlockInv

end Steps

/-! ## Runs -/

namespace Storage

/-- The metadata of a file in the hash table. -/
def fileOf (st : Storage) (k : UniqueHash) : Option FileMeta :=
  match lookupFile k st with
  | .done (f, _) => f.map Prod.snd
  | _ => none

lemma Shows.fileOf {sz : StoreSize} {st : Storage} {v : StoreView} (h : st.Shows sz v)
    (k : UniqueHash) : st.fileOf k = (v.file k).map Prod.snd := by
  rw [Storage.fileOf, h.lookupFile]

end Storage

section Runs

variable {cfg : Config} {sz : StoreSize}

end Runs

/-! ## Small runs -/

end Librdpma.Octopus
