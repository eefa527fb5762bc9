import Librdpma.Octopus.StoreView

/-!
# What the extent calls do to the tables

Seen through `Storage.Shows`, `extentWrite` takes the first blocks of the free
list and appends them to the extents of the file (`FileMeta.grow`), `truncate`
and `removecd` give blocks back (`TableView.freed`), and `extentRead` changes
nothing.
-/

namespace Librdpma.Octopus

open Lib Outcome List Program Storage FileMeta TableView

/-! ## Slots taken and given back -/

namespace TableView

variable {v : TableView Unit}

/-- The table after `n` calls of `create`. -/
def taken (v : TableView Unit) (n : ℕ) : TableView Unit :=
  ⟨v.free.drop n, fun i => if i ∈ v.free.take n then some () else v.item i⟩

/-- The table after a `remove` of each slot. -/
def freed (v : TableView Unit) (bs : List ℕ) : TableView Unit :=
  bs.foldl (fun v b => (v.remove b).2) v

lemma taken_zero (v : TableView Unit) : v.taken 0 = v := by
  simp [taken]

lemma taken_nil (h : v.free = []) (n : ℕ) : v.taken n = v := by
  obtain ⟨free, item⟩ := v
  cases h
  simp [taken]

lemma taken_succ {b : ℕ} {rest : List ℕ} (h : v.free = b :: rest) (n : ℕ) :
    v.taken (n + 1) = (v.create ()).2.taken n := by
  unfold taken create
  rw [h]
  simp only [drop_succ_cons, take_succ_cons, mem_cons, mk.injEq, true_and]
  funext i
  by_cases hi : i = b
  · simp [hi]
  · simp [hi]

lemma item_taken (v : TableView Unit) (n i : ℕ) :
    (v.taken n).item i = if i ∈ v.free.take n then some () else v.item i := rfl

lemma item_remove (v : TableView Unit) (b i : ℕ) :
    (v.remove b).2.item i = if i = b then none else v.item i := by
  cases hb : v.item b with
  | none =>
    rw [remove_of_none hb]
    by_cases hi : i = b
    · rw [if_pos hi, hi, hb]
    · rw [if_neg hi]
  | some x =>
    rw [remove_of_some hb]
    simp [Function.update_apply]

lemma item_freed (v : TableView Unit) (bs : List ℕ) (i : ℕ) :
    (v.freed bs).item i = if i ∈ bs then none else v.item i := by
  induction bs generalizing v with
  | nil => simp [freed]
  | cons b bs ih =>
    rw [freed, foldl_cons, ← freed, ih, item_remove]
    by_cases hi : i = b
    · simp [hi]
    · simp [hi]

variable {bs : List ℕ}

lemma live_freed {i : ℕ} (h : v.item i = some ()) (hi : i ∉ bs) :
    (v.freed bs).item i = some () := by
  rw [item_freed, if_neg hi]
  exact h

lemma freed_append (v : TableView Unit) (bs bs' : List ℕ) :
    v.freed (bs ++ bs') = (v.freed bs).freed bs' := by
  rw [freed, foldl_append, ← freed, ← freed]

/-- Blocks that can be given back one after the other. -/
def Removable (v : TableView Unit) (bs : List ℕ) : Prop :=
  bs.Nodup ∧ ∀ b ∈ bs, v.item b = some ()

lemma Removable.append_left {bs' : List ℕ} (h : Removable v (bs ++ bs')) : Removable v bs :=
  ⟨(nodup_append.mp h.1).1, fun b hb => h.2 b (mem_append_left _ hb)⟩

lemma Removable.append_right {bs' : List ℕ} (h : Removable v (bs ++ bs')) :
    Removable (v.freed bs) bs' := by
  obtain ⟨-, hnd, hds⟩ := nodup_append.mp h.1
  refine ⟨hnd, fun b hb => ?_⟩
  rw [item_freed, if_neg (fun hb' => hds b hb' b hb rfl)]
  exact h.2 b (mem_append_right _ hb)

end TableView

/-! ## Taking blocks -/

/-- The loop of `extentWrite` with the blocks that `create` hands out. -/
def FileMeta.grow (hashLocalNode : ℕ) : List ℕ → ℕ → FileMeta → Outcome FileMeta
  | [], _, m => .done m
  | index :: rest, next, m =>
      let last := m.tuple (next - 1)
      if 0 < next ∧ index = (last.indexExtentStartBlock + last.countExtentBlock) % 2 ^ 32 then
        grow hashLocalNode rest next (m.setTuple (next - 1)
          { last with countExtentBlock := (last.countExtentBlock + 1) % 2 ^ 32 })
      else do
        let m ← m.addExtent next ⟨hashLocalNode, index % 2 ^ 32, 1⟩
        grow hashLocalNode rest (next + 1) m

/-- The blocks `removeExtents` goes through. -/
def extentBlocks (m : FileMeta) (is : List ℕ) : List ℕ :=
  is.flatMap fun i => (m.tuple i).blocksDown (m.tuple i).lastBlock 0

lemma extentBlocks_cons (m : FileMeta) (i : ℕ) (is : List ℕ) : extentBlocks m (i :: is)
      = (m.tuple i).blocksDown (m.tuple i).lastBlock 0 ++ extentBlocks m is :=
  flatMap_cons

namespace Storage.Shows

variable {sz : StoreSize} {st : Storage} {v : StoreView}

lemma allocate (h : st.Shows sz v) (node count next : ℕ) (m : FileMeta) :
    ∃ st', st'.Shows sz { v with blocks := v.blocks.taken count } ∧
      allocate node count next m st
        = m.grow node (v.blocks.free.take count) next >>= fun m' =>
            .done (if count ≤ v.blocks.free.length then some m' else none, st') := by
  induction count generalizing st v next m with
  | zero =>
    refine ⟨st, ?_, rfl⟩
    rw [taken_zero]
    exact h
  | succ count ih =>
    obtain ⟨st1, hcr, h1⟩ := h.createBlock
    rw [allocate, bind_apply, hcr, done_bind]
    cases hfr : v.blocks.free with
    | nil =>
      have hno : v.blocks.create () = (none, v.blocks) := by
        rw [create, hfr]
      rw [hno] at h1 ⊢
      rw [taken_nil hfr]
      exact ⟨st1, h1, rfl⟩
    | cons b rest =>
      have hsome : (v.blocks.create ()).1 = some b := by
        rw [create, hfr]
      have hrs : (v.blocks.create ()).2.free = rest := by
        rw [create, hfr]
      rw [hsome, taken_succ hfr]
      dsimp only
      rw [take_succ_cons, grow, length_cons]
      -- the two loops take the same branch
      split
      · obtain ⟨st', hst', heq⟩ := ih h1 next (m.setTuple (next - 1) _)
        refine ⟨st', hst', ?_⟩
        rw [heq, hrs]
        simp only [Nat.add_le_add_iff_right]
      · rw [bind_apply, ofOutcome]
        unfold addExtent
        split
        · rw [done_bind, done_bind, done_bind]
          obtain ⟨st', hst', heq⟩ := ih h1 (next + 1)
            { m.setTuple next ⟨node, b % 2 ^ 32, 1⟩ with count := m.count + 1 }
          refine ⟨st', hst', ?_⟩
          rw [heq, hrs]
          simp only [Nat.add_le_add_iff_right]
        · obtain ⟨st', hst', -⟩ := ih h1 (next + 1) m
          exact ⟨st', hst', rfl⟩

/-! ## Giving blocks back -/

lemma removeBlocksAnyway (h : st.Shows sz v) (bs : List ℕ) :
    ∃ st', removeBlocksAnyway bs st = .done ((), st') ∧
      st'.Shows sz { v with blocks := v.blocks.freed bs } := by
  induction bs generalizing st v with
  | nil => exact ⟨st, rfl, h⟩
  | cons b bs ih =>
    obtain ⟨st1, hrem, h1⟩ := h.removeBlock b
    obtain ⟨st', hrs, h'⟩ := ih h1
    refine ⟨st', ?_, h'⟩
    rw [removeBlocksAnyway, bind_apply, hrem, done_bind, hrs]

/-- `removeBlocks` answers true if it has given back the whole list, which it
does if the blocks are taken and distinct. -/
lemma removeBlocks (h : st.Shows sz v) (bs : List ℕ) :
    ∃ ok pre st', removeBlocks bs st = .done (ok, st') ∧
      st'.Shows sz { v with blocks := v.blocks.freed pre } ∧
      (ok = true → pre = bs) ∧ (v.blocks.Removable bs → ok = true) := by
  induction bs generalizing st v with
  | nil => exact ⟨true, [], st, rfl, h, fun _ => rfl, fun _ => rfl⟩
  | cons b bs ih =>
    obtain ⟨st1, hrem, h1⟩ := h.removeBlock b
    rw [removeBlocks, bind_apply, hrem, done_bind]
    cases hb : v.blocks.item b with
    | none =>
      rw [remove_of_none hb] at h1 ⊢
      refine ⟨false, [], st1, rfl, h1, nofun, fun hall => ?_⟩
      exact absurd (hb.symm.trans (hall.2 b mem_cons_self)) nofun
    | some x =>
      obtain ⟨ok, pre, st', hrs, h', hpre, hlv⟩ := ih h1
      rw [remove_of_some hb]
      refine ⟨ok, b :: pre, st', hrs, h', fun hok => by rw [hpre hok], fun hall => ?_⟩
      have hcn : v.blocks.Removable ([b] ++ bs) := hall
      exact hlv hcn.append_right

lemma removeExtents (h : st.Shows sz v) (m : FileMeta) (is : List ℕ) :
    ∃ ok pre st', removeExtents m is st = .done (ok, st') ∧
      st'.Shows sz { v with blocks := v.blocks.freed pre } ∧
      (ok = true → pre = extentBlocks m is) ∧
      (v.blocks.Removable (extentBlocks m is) → ok = true) := by
  induction is generalizing st v with
  | nil => exact ⟨true, [], st, rfl, h, fun _ => rfl, fun _ => rfl⟩
  | cons i is ih =>
    obtain ⟨ok1, pre1, st1, hfst, h1, hpre1, hlv1⟩ :=
      h.removeBlocks ((m.tuple i).blocksDown (m.tuple i).lastBlock 0)
    obtain ⟨ok2, pre2, st2, hrs, h2, hpre2, hlv2⟩ := ih h1
    refine ⟨ok1 && ok2, pre1 ++ pre2, st2, ?_, ?_, fun hok => ?_, fun hall => ?_⟩
    · rw [removeExtents, bind_apply, hfst, done_bind, bind_apply, hrs]
      rfl
    · rw [freed_append]
      exact h2
    · obtain ⟨hok1, hok2⟩ := Bool.and_eq_true_iff.mp hok
      rw [hpre1 hok1, hpre2 hok2, extentBlocks_cons]
    · rw [extentBlocks_cons] at hall
      have hok1 := hlv1 hall.append_left
      rw [hok1, Bool.true_and]
      dsimp only at hlv2
      rw [hpre1 hok1] at hlv2
      exact hlv2 hall.append_right

end Storage.Shows

/-! ## Writing -/

/-- The metadata `extentWrite` stores: grown, and of the new size. -/
def FileMeta.sized (m' m : FileMeta) (size offset : ℕ) : FileMeta :=
  { m' with size := max (offset + size) m.size }

/-- The arguments `extentWrite` accepts. -/
def Writable (size offset : ℕ) : Prop := ¬ (2 ^ 64 - 1 - offset < size ∨ size = 0)

/-- What a write to file `m` at index `i` does: the blocks it needs are taken;
if there were enough, the metadata are stored and the positions returned. -/
inductive WriteEffect (node size offset i : ℕ) (m : FileMeta) (v : StoreView) :
    Option FilePosInfo → StoreView → Prop where
  | full (h : v.blocks.free.length < countExtraBlock m size offset) :
      WriteEffect node size offset i m v none
        { v with blocks := v.blocks.taken (countExtraBlock m size offset) }
  | fits {m' : FileMeta} {fpi : FilePosInfo}
      (h : countExtraBlock m size offset ≤ v.blocks.free.length)
      (hgrow : m.grow node (v.blocks.free.take (countExtraBlock m size offset))
        (firstExtraExtent m) = .done m')
      (hfill : fillFilePositionInformation size offset (m'.sized m size offset) = .done fpi) :
      WriteEffect node size offset i m v (some fpi)
        { v with
          files := (v.files.put i (m'.sized m size offset)).2
          blocks := v.blocks.taken (countExtraBlock m size offset) }

/-- The write runs into an array bound. -/
def WriteOverruns (node size offset : ℕ) (m : FileMeta) (v : StoreView) : Prop :=
  m.grow node (v.blocks.free.take (countExtraBlock m size offset)) (firstExtraExtent m)
      = .undefined ∨
    ∃ m', countExtraBlock m size offset ≤ v.blocks.free.length ∧
      m.grow node (v.blocks.free.take (countExtraBlock m size offset))
        (firstExtraExtent m) = .done m' ∧
      fillFilePositionInformation size offset (m'.sized m size offset) = .undefined

/-- The blocks `truncate` gives back when extent `e`, with `till` blocks
before it, is the last to keep. -/
def cutBlocks (m : FileMeta) (size e till : ℕ) : List ℕ :=
  (m.tuple e).blocksDown (m.tuple e).lastBlock (toInt (countBlocks size - till)) ++
    extentBlocks m (range' (e + 1) (m.count - (e + 1)))

/-- What a `truncate` of file `m` at index `i` does. -/
inductive ShrinkEffect (size i : ℕ) (m : FileMeta) (v : StoreView) :
    Bool → StoreView → Prop where
  | refused (h : m.size ≤ size ∨ findLastExtent m (countBlocks size) m.count 0 0 = none) :
      ShrinkEffect size i m v false v
  | stuck {e till : ℕ} {pre : List ℕ} (hlt : size < m.size)
      (hfind : findLastExtent m (countBlocks size) m.count 0 0 = some (e, till))
      (h : ¬ v.blocks.Removable (cutBlocks m size e till)) :
      ShrinkEffect size i m v false { v with blocks := v.blocks.freed pre }
  | cut {e till : ℕ} (hlt : size < m.size)
      (hfind : findLastExtent m (countBlocks size) m.count 0 0 = some (e, till)) :
      ShrinkEffect size i m v true
        { v with
          files := (v.files.put i { m with size, count := e + 1 }).2
          blocks := v.blocks.freed (cutBlocks m size e till) }

lemma size_le_of_extra {m : FileMeta} {size offset : ℕ}
    (h : 0 < countExtraBlock m size offset) : m.size ≤ offset + size := by
  unfold countExtraBlock at h
  split at h
  · omega
  · by_contra hlt
    have hle : offset + size - 1 ≤ m.size - 1 := by omega
    have hdiv := Nat.div_le_div_right (c := blockSize) hle
    omega

lemma grow_ends (node : ℕ) (bs : List ℕ) (next : ℕ) (m : FileMeta) :
    (∃ m', m.grow node bs next = .done m') ∨ m.grow node bs next = .undefined := by
  induction bs generalizing next m with
  | nil => exact .inl ⟨m, rfl⟩
  | cons b bs ih =>
    rw [grow]
    split
    · exact ih next _
    · unfold addExtent
      split
      · exact ih (next + 1) _
      · exact .inr rfl

lemma fill_ends (size offset : ℕ) (m : FileMeta) :
    (∃ fpi, fillFilePositionInformation size offset m = .done fpi) ∨
      fillFilePositionInformation size offset m = .undefined := by
  unfold fillFilePositionInformation
  dsimp only
  split
  · split
    · exact .inl ⟨_, rfl⟩
    · split
      · exact .inl ⟨_, rfl⟩
      · exact .inr rfl
  · exact .inr rfl

namespace Storage.Shows

variable {sz : StoreSize} {st : Storage} {v : StoreView} {bad : Prop}

variable {i size : ℕ} {m : FileMeta}

/-- Compute the positions and store the metadata, the end of both branches of
`extentWrite`. -/
lemma storePositions (h : st.Shows sz v) {offset : ℕ} {P : Option FilePosInfo → StoreView → Prop}
    (hbad : fillFilePositionInformation size offset m = .undefined → bad)
    (hP : ∀ fpi, fillFilePositionInformation size offset m = .done fpi → P (some fpi)
      { v with files := (v.files.put i m).2 }) :
    Ends bad ((do
        let fpi ← ofOutcome (fillFilePositionInformation size offset m)
        let _ ← Storage.putFileMeta i m
        return some fpi : Program Storage (Option FilePosInfo)) st) fun r =>
      ∃ v', r.2.Shows sz v' ∧ P r.1 v' := by
  rcases fill_ends size offset m with ⟨fpi, hfill⟩ | hund
  · obtain ⟨st', hput, h'⟩ := h.putFileMeta i m
    rw [bind_apply, hfill, ofOutcome, done_bind, done_bind, bind_apply, hput, done_bind]
    exact .done ⟨_, h', hP fpi hfill⟩
  · rw [bind_apply, hund]
    exact .undefined (hbad hund)

lemma positionsToWrite (h : st.Shows sz v) {node offset : ℕ} {k : UniqueHash}
    (hfl : v.file k = some (i, m)) (har : Writable size offset)
    (hbad : WriteOverruns node size offset m v → bad) :
    Ends bad (positionsToWrite node k size offset st) fun r =>
      ∃ v', r.2.Shows sz v' ∧ WriteEffect node size offset i m v r.1 v' := by
  rw [Storage.positionsToWrite, Program.bind_apply, h.lookupFile, hfl, done_bind]
  dsimp only
  rw [if_neg har]
  by_cases hext : 0 < countExtraBlock m size offset
  · rw [if_pos hext, bind_apply]
    obtain ⟨st1, h1, halc⟩ := h.allocate node (countExtraBlock m size offset) (firstExtraExtent m) m
    rw [halc]
    rcases grow_ends node (v.blocks.free.take (countExtraBlock m size offset))
      (firstExtraExtent m) m with ⟨m', hgrow⟩ | hund
    · rw [hgrow, done_bind, done_bind]
      by_cases hle : countExtraBlock m size offset ≤ v.blocks.free.length
      · rw [if_pos hle]
        have hszd : m'.sized m size offset = { m' with size := offset + size } := by
          rw [sized, Nat.max_eq_left (size_le_of_extra hext)]
        refine h1.storePositions (fun hund => hbad (.inr ⟨m', hle, hgrow, ?_⟩)) fun fpi hfill => ?_
        · rw [hszd]
          exact hund
        · rw [← hszd] at hfill ⊢
          exact .fits hle hgrow hfill
      · rw [if_neg hle]
        exact .done ⟨_, h1, .full (Nat.lt_of_not_le hle)⟩
    · rw [hund]
      exact .undefined (hbad (.inl hund))
  · have hz : countExtraBlock m size offset = 0 := Nat.eq_zero_of_not_pos hext
    have hgrow : m.grow node (v.blocks.free.take (countExtraBlock m size offset))
        (firstExtraExtent m) = .done m := by
      rw [hz]
      rfl
    rw [if_neg hext]
    have hle : countExtraBlock m size offset ≤ v.blocks.free.length := by omega
    refine h.storePositions (fun hund => hbad (.inr ⟨m, hle, hgrow, hund⟩)) fun fpi hfill => ?_
    have hft := WriteEffect.fits (i := i) (v := v) hle hgrow hfill
    rw [hz, taken_zero] at hft
    exact hft

/-! ## Cutting -/

lemma shrink (h : st.Shows sz v) {k : UniqueHash} (hfl : v.file k = some (i, m)) :
    ∃ r st' v', shrink k size st = .done (r, st') ∧ st'.Shows sz v' ∧
      ShrinkEffect size i m v r v' := by
  rw [Storage.shrink, Program.bind_apply, h.lookupFile, hfl, done_bind]
  dsimp only
  by_cases hge : m.size ≤ size
  · rw [if_pos hge]
    exact ⟨false, st, v, rfl, h, .refused (.inl hge)⟩
  rw [if_neg hge]
  have hlt : size < m.size := Nat.lt_of_not_le hge
  cases hfind : findLastExtent m (countBlocks size) m.count 0 0 with
  | none => exact ⟨false, st, v, rfl, h, .refused (.inr hfind)⟩
  | some r =>
    obtain ⟨e, till⟩ := r
    dsimp only
    obtain ⟨ok1, pre1, st1, hfst, h1, hpre1, hlv1⟩ :=
      h.removeBlocks ((m.tuple e).blocksDown (m.tuple e).lastBlock
        (toInt (countBlocks size - till)))
    rw [bind_apply, hfst, done_bind]
    cases ok1 with
    | false =>
      refine ⟨false, st1, _, rfl, h1, .stuck hlt hfind fun hall => ?_⟩
      rw [cutBlocks] at hall
      exact absurd (hlv1 hall.append_left) nofun
    | true =>
      dsimp only
      obtain ⟨ok2, pre2, st2, hrs, h2, hpre2, hlv2⟩ :=
        h1.removeExtents m (range' (e + 1) (m.count - (e + 1)))
      rw [bind_apply, hrs, done_bind]
      rw [hpre1 rfl] at h2 hlv2
      dsimp only at h2 hlv2
      rw [← freed_append] at h2
      cases ok2 with
      | false =>
        refine ⟨false, st2, _, rfl, h2, .stuck hlt hfind fun hall => ?_⟩
        rw [cutBlocks] at hall
        exact absurd (hlv2 hall.append_right) nofun
      | true =>
        rw [hpre2 rfl, ← cutBlocks] at h2
        obtain ⟨st3, hput, h3⟩ := h2.putFileMeta i { m with size, count := e + 1 }
        have hok : (v.files.put i { m with size, count := e + 1 }).1 = true := by
          rw [put_of_some (StoreView.file_eq_some.mp hfl).2]
        dsimp only at hput h3
        rw [hok] at hput
        exact ⟨true, st3, _, hput, h3, .cut hlt hfind⟩

/-! ## Reading -/

lemma positionsToRead (h : st.Shows sz v) (k : UniqueHash) (size offset : ℕ) :
    Storage.positionsToRead k size offset st
      = match v.file k with
        | none => .done (none, st)
        | some (_, m) =>
            if (offset + 1) % 2 ^ 64 > m.size then .done (some [], st)
            else fillFilePositionInformation (min size (m.size - offset)) offset m >>=
              fun fpi => .done (some fpi, st) := by
  rw [Storage.positionsToRead, Program.bind_apply, h.lookupFile, done_bind]
  cases v.file k with
  | none => rfl
  | some f =>
    dsimp only
    split
    · rfl
    · rw [Program.bind_apply, Program.ofOutcome]
      cases fillFilePositionInformation (min size (f.2.size - offset)) offset f.2 with
      | done fpi => rfl
      | exit => rfl
      | undefined => rfl
      | loop => rfl

end Storage.Shows

end Librdpma.Octopus
