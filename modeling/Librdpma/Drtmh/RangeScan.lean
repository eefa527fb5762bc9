import Librdpma.Drtmh.BPlusTreeIter

/-!
# Range scans of a transaction (`src/db/txs/dbtx.cc`)

`DBTXIterator` moves an iterator of the tree and puts the `seq` of the leaves it
passes into the read set, so that `Validate` finds keys inserted into the range.
What it puts there is the link of the iterator. `Seek` sets the link to the leaf
of its key; if that leaf has no key from there on, the iterator stands in the
next leaf while the link stays behind, and `Next` only links the leaf after it.
-/

namespace Librdpma.Drtmh.BPlusTree

open Lib List Outcome

variable {K : Type} [LinearOrder K]

/-! ## The read set -/

/-- What a scan reads of a `MemNode`: `seq`, and whether `value` is not `NULL`. -/
structure MemNode where
  seq : ℕ
  hasValue : Bool

/-- `seqs` are nodes and `nexts` leaves, both with the `seq` that was seen. -/
structure ReadSet where
  seqs : List (ℕ × ℕ)
  nexts : List (ℕ × ℕ)

def ReadSet.add (rs : ReadSet) (nodes : ℕ → MemNode) (n : ℕ) : ReadSet :=
  { rs with seqs := rs.seqs ++ [(n, (nodes n).seq)] }

/-- `AddNext(GetLink(), GetLinkTarget())`; `Seek` has set the link. -/
def ReadSet.addNext (rs : ReadSet) (iter : Iterator K) : ReadSet :=
  { rs with nexts := rs.nexts ++ iter.link.toList }

def ReadSet.validate (rs : ReadSet) (nodes : ℕ → MemNode) (m : Mem K) : Bool :=
  rs.seqs.all (fun p => p.2 = (nodes p.1).seq) && rs.nexts.all (fun p => p.2 = (m.leaf p.1).seq)

/-! ## `DBTXIterator` -/

/-- `cur` is `cur_`, `prevLink` the leaf of `prev_link`, and the read set is that
of the transaction. -/
structure DbtxIterator (K : Type) where
  iter : Iterator K
  cur : Option ℕ
  prevLink : Option ℕ
  readset : ReadSet

instance Iterator.decidableValid (m : Mem K) (it : Iterator K) : Decidable (it.Valid m) :=
  match h : it.node with
  | none => .isFalse fun ⟨a, ha, _⟩ => by rw [h] at ha; cases ha
  | some a => decidable_of_iff (0 < (m.leaf a).entries.length)
      ⟨fun hlen => ⟨a, h, hlen⟩, fun ⟨a', ha, hlen⟩ => by rw [h] at ha; cases ha; exact hlen⟩

def Iterator.curNode (m : Mem K) (it : Iterator K) : Option ℕ :=
  if it.Valid m then it.cur.map Prod.snd else none

namespace DbtxIterator

/-- The constructor. -/
def new (readset : ReadSet) : DbtxIterator K := ⟨.new, none, none, readset⟩

section

variable (nodes : ℕ → MemNode) (m : Mem K)

/-- The loop of `Seek`, up to a node with a value. -/
def seekLoop : ℕ → DbtxIterator K → Outcome (DbtxIterator K)
  | 0, _ => .loop
  | fuel + 1, it =>
      if it.iter.Valid m then
        let it := { it with readset := it.readset.addNext it.iter }
        match it.cur with
        | none => .undefined
        | some n =>
            if (nodes n).hasValue then .done it
            else do
              let (_, iter) ← it.iter.next m
              seekLoop fuel { it with iter := iter, cur := iter.curNode m }
      else .done { it with cur := none }

/-- One round of the loop of `Next` adds the link if it is new, and the node. -/
def note (it : DbtxIterator K) (n : ℕ) : DbtxIterator K :=
  let link := it.iter.link.map Prod.fst
  let it :=
    if it.prevLink ≠ link then
      { it with readset := it.readset.addNext it.iter, prevLink := link }
    else it
  { it with readset := it.readset.add nodes n }

def nextLoop : ℕ → DbtxIterator K → Outcome (DbtxIterator K)
  | 0, _ => .loop
  | fuel + 1, it =>
      if it.iter.Valid m then
        let it := { it with cur := it.iter.curNode m }
        match it.cur with
        | none => .undefined
        | some n =>
            let it := it.note nodes n
            if (nodes n).hasValue then .done it
            else do
              let (_, iter) ← it.iter.next m
              nextLoop fuel { it with iter := iter }
      else .done { it with cur := none }

end

/-- The loops pass each node of the tree at most once. -/
def rounds (m : Mem K) : ℕ := m.dummyval + 1

def seek (nodes : ℕ → MemNode) (t : Tree K) (key : K) (it : DbtxIterator K) :
    Outcome (DbtxIterator K) := do
  let iter ← it.iter.seek t key
  let it := { it with iter := iter, cur := iter.curNode t.mem }
  if it.iter.Valid t.mem then seekLoop nodes t.mem (rounds t.mem) it
  else return { it with readset := it.readset.addNext it.iter }

def next (nodes : ℕ → MemNode) (m : Mem K) (it : DbtxIterator K) : Outcome (DbtxIterator K) := do
  let (_, iter) ← it.iter.next m
  nextLoop nodes m (rounds m) { it with iter := iter }

/-- `n` calls of `Next`. -/
def nexts (nodes : ℕ → MemNode) (m : Mem K) : ℕ → DbtxIterator K → Outcome (DbtxIterator K)
  | 0, it => .done it
  | n + 1, it => do nexts nodes m n (← it.next nodes m)

/-- `Seek` and `n` calls of `Next`, with a new iterator. -/
def scan (nodes : ℕ → MemNode) (t : Tree K) (lo : K) (n : ℕ) (readset : ReadSet) :
    Outcome (DbtxIterator K) := do
  nexts nodes t.mem n (← seek nodes t lo (new readset))

end DbtxIterator

/-! ## What the read set has seen -/

section

variable {m : Mem K} {nodes : ℕ → MemNode} {rs0 rs : ReadSet} {ids ids' : List ℕ} {bound : ℕ}

/-- Beyond `rs0` the read set has exactly the leaves `ids`, and some nodes, as
they are. -/
structure Seen (m : Mem K) (nodes : ℕ → MemNode) (rs0 : ReadSet) (ids : List ℕ) (rs : ReadSet) :
    Prop where
  seqs : ∃ S, rs.seqs = rs0.seqs ++ S ∧ ∀ p ∈ S, p.2 = (nodes p.1).seq ∧ p.1 < m.dummyval
  nexts : ∃ N, rs.nexts = rs0.nexts ++ N ∧ (∀ p ∈ N, p.2 = (m.leaf p.1).seq) ∧
    ∀ x, x ∈ N.map Prod.fst ↔ x ∈ ids

omit [LinearOrder K] in
lemma Seen.nil : Seen m nodes rs0 [] rs0 :=
  ⟨⟨[], (append_nil _).symm, nofun⟩, ⟨[], (append_nil _).symm, nofun, fun _ => Iff.rfl⟩⟩

section

variable (h : Seen m nodes rs0 ids rs)

include h

section

omit [LinearOrder K]

lemma Seen.congr (hids : ∀ x, x ∈ ids ↔ x ∈ ids') : Seen m nodes rs0 ids' rs := by
  obtain ⟨N, hN, hseq, hmem⟩ := h.nexts
  exact ⟨h.seqs, N, hN, hseq, fun x => (hmem x).trans (hids x)⟩

lemma Seen.addNext {iter : Iterator K} {x : ℕ} (hln : iter.link = some (x, (m.leaf x).seq)) :
    Seen m nodes rs0 (x :: ids) (rs.addNext iter) := by
  obtain ⟨N, hN, hseq, hmem⟩ := h.nexts
  refine ⟨h.seqs, N ++ [(x, (m.leaf x).seq)], ?_, fun p hp => ?_, fun y => ?_⟩
  · rw [ReadSet.addNext, hln, hN]
    exact append_assoc _ _ _
  · rcases mem_append.mp hp with hp | hp
    · exact hseq p hp
    · rw [mem_singleton.mp hp]
  · rw [map_append, mem_append, hmem, mem_cons]
    simp only [map_cons, map_nil, mem_singleton]
    exact or_comm

lemma Seen.add {n : ℕ} (hn : n < m.dummyval) : Seen m nodes rs0 ids (rs.add nodes n) := by
  obtain ⟨S, hS, hseq⟩ := h.seqs
  refine ⟨⟨S ++ [(n, (nodes n).seq)], ?_, fun p hp => ?_⟩, h.nexts⟩
  · rw [ReadSet.add, hS]
    exact append_assoc _ _ _
  · rcases mem_append.mp hp with hp | hp
    · exact hseq p hp
    · rw [mem_singleton.mp hp]
      exact ⟨rfl, hn⟩

end

/-- After a new key in leaf `a`, the read set is valid if `rs0` is and it has not
seen `a`. -/
lemma Seen.validate {m' : Mem K} {nodes' : ℕ → MemNode} {L L' : List (Region K)} {key : K} {a : ℕ}
    (had : Adds m m' L L' key a) (hfr : ∀ x ∈ ids, x < m.fresh)
    (hns : ∀ n, n < m.dummyval → (nodes' n).seq = (nodes n).seq) :
    rs.validate nodes' m' = (rs0.validate nodes' m' && decide (a ∉ ids)) := by
  obtain ⟨S, hS, hseqS⟩ := h.seqs
  obtain ⟨N, hN, hseqN, hmem⟩ := h.nexts
  have hSall : S.all (fun p => p.2 = (nodes' p.1).seq) = true := by
    rw [all_eq_true]
    intro p hp
    obtain ⟨hseq, hlt⟩ := hseqS p hp
    rw [hns _ hlt]
    exact decide_eq_true hseq
  have hNall : N.all (fun p => p.2 = (m'.leaf p.1).seq) = decide (a ∉ ids) := by
    rw [Bool.eq_iff_iff, all_eq_true, decide_eq_true_iff]
    constructor
    · intro hall ha
      obtain ⟨p, hp, rfl⟩ := mem_map.mp ((hmem a).mpr ha)
      have hp' := of_decide_eq_true (hall p hp)
      have hbump := had.touches.seq
      have := hseqN p hp
      omega
    · intro ha p hp
      have hin : p.1 ∈ ids := (hmem _).mp (mem_map_of_mem hp)
      have hne : p.1 ≠ a := fun heq => ha (heq ▸ hin)
      rw [(had.touches.same p.1 (hfr _ hin) hne).2.2]
      exact decide_eq_true (hseqN p hp)
  rw [ReadSet.validate, ReadSet.validate, hS, hN, all_append, all_append, hSall, hNall,
    Bool.and_true, Bool.and_assoc]

end

end

/-! ## The path of a scan -/

/-- The leaves of a path that the link has been set to: not the second one, if
`Seek` has passed the first. -/
def linked (skip : Bool) (P : List (Region K)) : List ℕ :=
  (if skip then P.take 1 ++ P.drop 2 else P).map Region.id

/-- The iterator stands at the end of the path `P`, which is the start of `R`, and
its link is at leaf `x`. -/
structure At (m : Mem K) (R : List (Region K)) (skip : Bool) (P : List (Region K))
    (it : Iterator K) (x : ℕ) : Prop where
  path : ∃ P' r Lb E1 e E2, P = P' ++ [r] ∧ R = P ++ Lb ∧ On m r E1 e E2 it
  link : it.link = some (x, (m.leaf x).seq)
  mem : x ∈ linked skip P
  long : skip = true → 2 ≤ P.length

section

variable {t : Tree K} {L0 L1 R P : List (Region K)} {r0 : Region K} {skip : Bool} {x : ℕ}
  {it : Iterator K} {lo : K}

omit [LinearOrder K] in
lemma linked_snoc {r : Region K} (hln : skip = true → 2 ≤ P.length) :
    linked skip (P ++ [r]) = linked skip P ++ [r.id] := by
  cases skip with
  | false => exact map_append
  | true =>
    have hlen := hln rfl
    simp only [linked, if_true]
    rw [take_append_of_le_length (by omega), drop_append_of_le_length hlen,
      ← append_assoc, map_append]
    rfl

/-- `Seek` ends in the leaf of its key, or in the next one if that has no key from
there on. -/
lemma Inv.seek_at (h : Inv t (L0 ++ r0 :: L1)) (hfd : t.findLeaf lo = .done r0.id)
    (hsk : skip = true ↔ ∀ e ∈ (t.mem.leaf r0.id).entries, e.1 < lo) (it : Iterator K) :
    ∃ it', it.seek t lo = .done it' ∧ (it'.node = none ∨
      ∃ P, At t.mem (r0 :: L1) skip P it' r0.id ∧ linked skip P = [r0.id]) := by
  have hok := h.leaves.each r0 (mem_append_right _ mem_cons_self)
  have hp := hok.increasing.place lo
  rw [Iterator.seek, hfd, done_bind]
  generalize (t.mem.leaf r0.id).entries.takeWhile (fun e => e.1 < lo) = E1 at hp ⊢
  generalize (t.mem.leaf r0.id).entries.dropWhile (fun e => e.1 < lo) = E2 at hp
  cases E2 with
  | cons e E2 =>
    have hf : skip = false := by
      rw [← Bool.not_eq_true, hsk]
      intro hall
      have he : e ∈ (t.mem.leaf r0.id).entries := by rw [hp.eq]; simp
      exact absurd (hall e he) (not_lt_of_ge (hp.above e mem_cons_self))
    subst hf
    obtain ⟨it', hland, hon, hln⟩ := land_here
      { it with link := some (r0.id, (t.mem.leaf r0.id).seq) } false hp.eq
    exact ⟨it', hland, .inr ⟨[r0], ⟨⟨[], r0, L1, E1, e, E2, rfl, rfl, hon⟩, hln,
      mem_singleton_self _, fun h => by cases h⟩, rfl⟩⟩
  | nil =>
    have hent : (t.mem.leaf r0.id).entries = E1 := hp.eq.trans (append_nil _)
    have htr : skip = true := hsk.mpr (hent ▸ hp.below)
    subst htr
    have hrt := h.leaves.right_eq
    rw [← hent]
    cases L1 with
    | nil => exact ⟨_, land_off _ _ hrt, .inl rfl⟩
    | cons r1 L1 =>
      obtain ⟨e, E, he⟩ := h.leaves.first_entry
      obtain ⟨it', hland, hon, hln⟩ := land_next
        { it with link := some (r0.id, (t.mem.leaf r0.id).seq) } false hrt he
      exact ⟨it', hland, .inr ⟨[r0, r1], ⟨⟨[r0], r1, L1, [], e, E, rfl, rfl, hon⟩, hln,
        mem_singleton_self _, fun _ => le_refl 2⟩, rfl⟩⟩

lemma At.next (hat : At t.mem R skip P it x) (h : Inv t (L0 ++ R)) :
    ∃ b it', it.next t.mem = .done (b, it') ∧ (it'.node = none ∨ At t.mem R skip P it' x ∨
      ∃ r, At t.mem R skip (P ++ [r]) it' r.id) := by
  obtain ⟨P', r, Lb, E1, e, E2, rfl, rfl, hon⟩ := hat.path
  have hlvs : Leaves t.mem ((L0 ++ P') ++ r :: Lb) := by
    simpa only [append_assoc, singleton_append] using h.leaves
  have hnx : it.next t.mem = do return (true, ← it.land t.mem r.id (E1.length + 1) true) := by
    rw [Iterator.next, hon.node]
    dsimp only
    rw [if_neg (not_not.mpr hon.seq.symm), hon.index]
  have hent : (t.mem.leaf r.id).entries = (E1 ++ [e]) ++ E2 := by
    rw [hon.entries, append_cons]
  have hlen : (E1 ++ [e]).length = E1.length + 1 := by
    rw [length_append, length_singleton]
  rw [hnx, ← hlen]
  cases E2 with
  | cons e' E2 =>
    obtain ⟨it', hland, hon', hln⟩ := land_here it true hent
    rw [hland]
    exact ⟨true, it', rfl, .inr (.inl ⟨⟨P', r, Lb, E1 ++ [e], e', E2, rfl, rfl, hon'⟩,
      hln.trans hat.link, hat.mem, hat.long⟩)⟩
  | nil =>
    rw [append_nil] at hent
    have hrt := hlvs.right_eq
    rw [← hent]
    cases Lb with
    | nil =>
      rw [land_off it true hrt]
      exact ⟨true, _, rfl, .inl rfl⟩
    | cons r' Lb =>
      obtain ⟨e', E, he'⟩ := hlvs.first_entry
      obtain ⟨it', hland, hon', hln⟩ := land_next it true hrt he'
      rw [hland]
      refine ⟨true, it', rfl, .inr (.inr ⟨r', ⟨_, r', Lb, [], e', E, rfl, ?_, hon'⟩, hln, ?_,
        fun hs => ?_⟩)⟩
      · exact append_cons _ _ _
      · rw [linked_snoc hat.long]
        exact mem_append_right _ (mem_singleton_self _)
      · rw [length_append]
        exact Nat.le_add_right_of_le (hat.long hs)

end

/-! ## The invariant of a scan -/

namespace DbtxIterator

section

variable {t : Tree K} {nodes : ℕ → MemNode} {rs0 : ReadSet} {L0 R : List (Region K)} {skip : Bool}
  {it it' : DbtxIterator K}

/-- The link of the iterator may still have to go into the read set. -/
def Moved (m : Mem K) (nodes : ℕ → MemNode) (rs0 : ReadSet) (R : List (Region K)) (skip : Bool)
    (it : DbtxIterator K) : Prop :=
  ∃ P x ids, At m R skip P it.iter x ∧ (∀ y, y ∈ linked skip P ↔ y = x ∨ y ∈ ids) ∧
    Seen m nodes rs0 ids it.readset ∧ ∀ y, it.prevLink = some y → y ∈ ids

/-- All links of the path are in the read set. -/
def Noted (m : Mem K) (nodes : ℕ → MemNode) (rs0 : ReadSet) (R : List (Region K)) (skip : Bool)
    (it : DbtxIterator K) : Prop :=
  ∃ P x, At m R skip P it.iter x ∧ Seen m nodes rs0 (linked skip P) it.readset ∧
    ∀ y, it.prevLink = some y → y ∈ linked skip P

omit [LinearOrder K] in
lemma Moved.addNext (h : Moved t.mem nodes rs0 R skip it) :
    Noted t.mem nodes rs0 R skip { it with readset := it.readset.addNext it.iter } := by
  obtain ⟨P, x, ids, hat, hids, hsn, hpr⟩ := h
  refine ⟨P, x, hat, (hsn.addNext hat.link).congr fun y => ?_, fun y hy => ?_⟩
  · rw [hids, mem_cons]
  · exact (hids y).mpr (.inr (hpr y hy))

omit [LinearOrder K] in
lemma Moved.note (h : Moved t.mem nodes rs0 R skip it) {n : ℕ} (hn : n < t.mem.dummyval) :
    Noted t.mem nodes rs0 R skip (it.note nodes n) := by
  obtain ⟨P, x, ids, hat, hids, hsn, hpr⟩ := h
  have hln : it.iter.link.map Prod.fst = some x := by rw [hat.link]; rfl
  rw [DbtxIterator.note, hln]
  split
  · refine ⟨P, x, hat, ((hsn.addNext hat.link).congr fun y => ?_).add hn, fun y hy => ?_⟩
    · rw [hids, mem_cons]
    · cases hy
      exact hat.mem
  · rename_i hsm
    have hx : x ∈ ids := hpr x (not_not.mp hsm)
    refine ⟨P, x, hat, (hsn.congr fun y => ?_).add hn, fun y hy =>
      (hids y).mpr (.inr (hpr y hy))⟩
    rw [hids]
    exact ⟨.inr, fun hy => hy.elim (fun heq => heq ▸ hx) id⟩

lemma Noted.next (h : Noted t.mem nodes rs0 R skip it) (hinv : Inv t (L0 ++ R)) :
    ∃ b iter, it.iter.next t.mem = .done (b, iter) ∧
      ∀ cur, iter.node = none ∨
        Moved t.mem nodes rs0 R skip { it with iter := iter, cur := cur } := by
  obtain ⟨P, x, hat, hsn, hpr⟩ := h
  obtain ⟨b, iter, hnx, hno | hat' | ⟨r, hat'⟩⟩ := hat.next hinv
  · exact ⟨b, iter, hnx, fun _ => .inl hno⟩
  · refine ⟨b, iter, hnx, fun _ => .inr ⟨P, x, linked skip P, hat', fun y => ?_, hsn, hpr⟩⟩
    exact ⟨.inr, fun hy => hy.elim (fun heq => heq ▸ hat'.mem) id⟩
  · refine ⟨b, iter, hnx, fun _ => .inr ⟨P ++ [r], r.id, linked skip P, hat', fun y => ?_, hsn,
      hpr⟩⟩
    rw [linked_snoc hat.long, mem_append, mem_singleton]
    exact or_comm

lemma Moved.curNode (h : Moved t.mem nodes rs0 R skip it) (hinv : Inv t (L0 ++ R)) :
    ∃ n, it.iter.Valid t.mem ∧ it.iter.curNode t.mem = some n ∧ n < t.mem.dummyval := by
  obtain ⟨P, x, ids, hat, -⟩ := h
  obtain ⟨P', r, Lb, E1, e, E2, rfl, rfl, hon⟩ := hat.path
  refine ⟨e.2, hon.valid, ?_, hinv.given e (mem_contents.mpr ⟨r, by simp, hon.mem⟩)⟩
  rw [Iterator.curNode, if_pos hon.valid, hon.cur]
  rfl

lemma seekLoop_noted {fuel : ℕ} (hinv : Inv t (L0 ++ R))
    (h : it.iter.node = none ∨ Moved t.mem nodes rs0 R skip it)
    (hlp : seekLoop nodes t.mem fuel it = .done it') :
    (it'.iter.node = none ∧ it'.cur = none) ∨ Noted t.mem nodes rs0 R skip it' := by
  induction fuel generalizing it with
  | zero => cases hlp
  | succ fuel ih =>
    rw [seekLoop] at hlp
    rcases h with hno | h
    · rw [if_neg (Iterator.not_valid_of_node hno)] at hlp
      cases hlp
      exact .inl ⟨hno, rfl⟩
    · obtain ⟨n, hval, -, -⟩ := h.curNode hinv
      rw [if_pos hval] at hlp
      dsimp only at hlp
      split at hlp
      · cases hlp
      · split at hlp
        · cases hlp
          exact .inr h.addNext
        · obtain ⟨b, iter, hnx, hmv⟩ := h.addNext.next hinv
          rw [hnx, done_bind] at hlp
          exact ih (hmv _) hlp

lemma nextLoop_noted {fuel : ℕ} (hinv : Inv t (L0 ++ R))
    (h : it.iter.node = none ∨ Moved t.mem nodes rs0 R skip it)
    (hlp : nextLoop nodes t.mem fuel it = .done it') :
    (it'.iter.node = none ∧ it'.cur = none) ∨ Noted t.mem nodes rs0 R skip it' := by
  induction fuel generalizing it with
  | zero => cases hlp
  | succ fuel ih =>
    rw [nextLoop] at hlp
    rcases h with hno | h
    · rw [if_neg (Iterator.not_valid_of_node hno)] at hlp
      cases hlp
      exact .inl ⟨hno, rfl⟩
    · obtain ⟨n, hval, hcur, hn⟩ := h.curNode hinv
      rw [if_pos hval] at hlp
      rw [hcur] at hlp
      have hmv : Moved t.mem nodes rs0 R skip { it with cur := some n } := h
      have hntd := hmv.note hn
      dsimp only at hlp
      split at hlp
      · cases hlp
        exact .inr hntd
      · obtain ⟨b, iter, hnx, hmv⟩ := hntd.next hinv
        rw [hnx, done_bind] at hlp
        exact ih (hmv _) hlp

lemma nexts_noted {n : ℕ} (hinv : Inv t (L0 ++ R))
    (h : (it.iter.node = none ∧ it.cur = none) ∨ Noted t.mem nodes rs0 R skip it)
    (hrun : nexts nodes t.mem n it = .done it') :
    (it'.iter.node = none ∧ it'.cur = none) ∨ Noted t.mem nodes rs0 R skip it' := by
  induction n generalizing it with
  | zero =>
    cases hrun
    exact h
  | succ n ih =>
    rw [nexts, bind_eq_done] at hrun
    obtain ⟨it1, hnx, hrun⟩ := hrun
    refine ih ?_ hrun
    rw [next] at hnx
    rcases h with ⟨hno, -⟩ | h
    · rw [Iterator.next, hno] at hnx
      cases hnx
    · obtain ⟨b, iter, hiter, hmv⟩ := h.next hinv
      rw [hiter, done_bind] at hnx
      exact nextLoop_noted hinv (hmv _) hnx

/-- A scan that has not run off the tree has all links of its path in the read
set. -/
lemma scan_noted {L1 : List (Region K)} {r0 : Region K} {lo : K} {n : ℕ}
    (hinv : Inv t (L0 ++ r0 :: L1)) (hfd : t.findLeaf lo = .done r0.id)
    (hskip : skip = true ↔ ∀ e ∈ (t.mem.leaf r0.id).entries, e.1 < lo)
    (hsc : scan nodes t lo n rs0 = .done it) (hcur : it.cur ≠ none) :
    Noted t.mem nodes rs0 (r0 :: L1) skip it := by
  rw [scan, bind_eq_done] at hsc
  obtain ⟨it1, hsk, hnxt⟩ := hsc
  obtain ⟨iter, hiter, hat⟩ := hinv.seek_at hfd hskip .new
  rw [seek, new, hiter, done_bind] at hsk
  have hfst : (it1.iter.node = none ∧ it1.cur = none) ∨
      Noted t.mem nodes rs0 (r0 :: L1) skip it1 := by
    rcases hat with hno | ⟨P, hat, hlk⟩
    · have hnot : ¬ iter.Valid t.mem := Iterator.not_valid_of_node hno
      rw [if_neg hnot] at hsk
      cases hsk
      exact .inl ⟨hno, if_neg hnot⟩
    · have hmv : Moved t.mem nodes rs0 (r0 :: L1) skip ⟨iter, iter.curNode t.mem, none, rs0⟩ := by
        refine ⟨P, r0.id, [], hat, fun y => ?_, Seen.nil, nofun⟩
        rw [hlk, mem_singleton]
        exact ⟨.inl, fun hy => hy.elim id nofun⟩
      obtain ⟨n, hval, -⟩ := hmv.curNode hinv
      rw [if_pos hval] at hsk
      exact seekLoop_noted hinv (.inr hmv) hsk
  rcases nexts_noted hinv hfst hnxt with ⟨-, hno⟩ | h
  · exact absurd hno hcur
  · exact h

end

end DbtxIterator

/-! ## Keys inserted into the range -/

section

variable {t : Tree K} {L0 L1 Lb P : List (Region K)} {r0 r r' : Region K} {lo hi key : K}

lemma Inv.mem_path (h : Inv t (L0 ++ (P ++ r :: Lb))) (hfst : (P ++ [r]).head? = some r0)
    (hlo : AtLeast r0.lo lo) (hhi : InRange r.lo r.hi hi) (hr' : r' ∈ L0 ++ (P ++ r :: Lb))
    (hkey : InRange r'.lo r'.hi key) (hle : lo ≤ key) (hge : key ≤ hi) : r' ∈ P ++ [r] := by
  obtain ⟨-, hrs, hcrs⟩ := pairwise_append.mp h.tiles.pairwise
  rcases mem_append.mp hr' with hlf | hr'
  · have hr0 : r0 ∈ P ++ r :: Lb := by
      have := mem_of_head? hfst
      simp only [mem_append, mem_cons, not_mem_nil, or_false] at this ⊢
      tauto
    exact absurd (hcrs r' hlf r0 hr0 key lo hkey hlo) (not_lt_of_ge hle)
  · rcases mem_append.mp hr' with hr' | hr'
    · exact mem_append_left _ hr'
    · rcases mem_cons.mp hr' with rfl | hr'
      · exact mem_append_right _ (mem_singleton_self _)
      · have hbef := (pairwise_cons.mp (pairwise_append.mp hrs).2.1).1 r' hr'
        exact absurd (hbef hi key hhi hkey.1) (not_lt_of_ge hge)

omit [LinearOrder K] in
lemma mem_of_mem_linked {skip : Bool} {y : ℕ} (hy : y ∈ linked skip P) : ∃ q ∈ P, q.id = y := by
  obtain ⟨q, hq, rfl⟩ := mem_map.mp hy
  refine ⟨q, ?_, rfl⟩
  split at hq
  · exact (mem_append.mp hq).elim mem_of_mem_take mem_of_mem_drop
  · exact hq

omit [LinearOrder K] in
/-- The leaf of the path that is not linked is the one behind the first. -/
lemma mem_linked_iff {skip : Bool} (hR : r0 :: L1 = P ++ Lb) (hln : skip = true → 2 ≤ P.length)
    (hnd : ((r0 :: L1).map Region.id).Nodup) (hr : r ∈ P) :
    r.id ∈ linked skip P ↔ skip = false ∨ ∀ b, L1.head?.map Region.id = some b → r.id ≠ b := by
  cases skip with
  | false => exact ⟨fun _ => .inl rfl, fun _ => mem_map_of_mem hr⟩
  | true =>
    obtain ⟨r1, r2, P2, rfl⟩ : ∃ r1 r2 P2, P = r1 :: r2 :: P2 := by
      match P, hln rfl with
      | r1 :: r2 :: P2, _ => exact ⟨r1, r2, P2, rfl⟩
    obtain ⟨rfl, hL1⟩ := cons.inj hR
    obtain rfl : L1 = r2 :: (P2 ++ Lb) := hL1
    rw [map_cons, map_cons, map_append, nodup_cons, nodup_cons] at hnd
    obtain ⟨h0, h2, -⟩ := hnd
    simp only [mem_cons, mem_append, not_or] at h0 h2
    simp only [linked, if_true, take_succ_cons, take_zero, drop_succ_cons,
      drop_zero, map_cons, mem_cons, cons_append,
      head?_cons, Option.map_some, Option.some.injEq, forall_eq', Bool.true_eq_false,
      false_or]
    rcases mem_cons.mp hr with rfl | hr
    · exact ⟨fun _ => h0.1, fun _ => .inl rfl⟩
    · rcases mem_cons.mp hr with rfl | hr
      · refine ⟨?_, fun hne => absurd rfl hne⟩
        rintro (heq | hmem)
        · exact absurd heq.symm h0.1
        · exact absurd hmem h2.1
      · have hmem : r.id ∈ P2.map Region.id := mem_map_of_mem hr
        exact ⟨fun _ heq => h2.1 (heq ▸ hmem), fun _ => .inr hmem⟩

end

/-- A scan from `lo` to `hi`, then the insertion of a new key of the range:
`Validate` fails exactly if it would have failed without the scan, or the leaf of
`lo` had a key from `lo` on, or the leaf of the new key was not the one behind
it. -/
theorem scan_detects_iff (calls : List (Call K)) (results : List (Option ℕ)) (t t' : Tree K)
    (ht : runCalls calls .empty = .done (results, t)) (nodes nodes' : ℕ → MemNode) (rs0 : ReadSet)
    (lo hi key : K) (n v w : ℕ) (it : DbtxIterator K)
    (hscan : DbtxIterator.scan nodes t lo n rs0 = .done it) (hcur : it.cur ≠ none)
    (hhi : it.iter.cur = some (hi, v)) (hle : lo ≤ key) (hge : key ≤ hi)
    (hnew : t.get key = .done none) (hins : t.insert key = .done (w, t'))
    (hnodes : ∀ n, n ≠ w → nodes' n = nodes n) :
    it.readset.validate nodes' t'.mem = false ↔ rs0.validate nodes' t'.mem = false ∨
      ∃ a, t.findLeaf lo = .done a ∧ ((∃ e ∈ (t.mem.leaf a).entries, lo ≤ e.1) ∨
        ∀ b, (t.mem.leaf a).right = some b → t.findLeaf key ≠ .done b) := by
  obtain ⟨t1, node, ⟨results1, hrun, -⟩, L, hinv, -⟩ := after_calls calls
  rw [ht] at hrun
  cases hrun
  obtain ⟨L0, r0, L1, rfl, hlo, hfd⟩ := hinv.findLeaf lo
  obtain ⟨P, x, hat, hsn, -⟩ := DbtxIterator.scan_noted hinv hfd decide_eq_true_iff hscan hcur
  obtain ⟨P', r, Lb, E1, e, E2, rfl, hR, hon⟩ := hat.path
  obtain rfl : e = (hi, v) := Option.some.inj (hon.cur.symm.trans hhi)
  obtain ⟨La, rk, Lb', hL, hkey, hfindKey⟩ := hinv.findLeaf key
  have hst := hinv.insert key
  rw [hins] at hst
  cases hst with
  | found hv =>
    rw [hinv.get_found hv] at hnew
    cases hnew
  | added _ ha hadds _ =>
    rw [hfindKey] at ha
    cases ha
    have hrk : rk ∈ L0 ++ r0 :: L1 := hL ▸ mem_append_right _ mem_cons_self
    have hpt : rk ∈ P' ++ [r] := by
      have hR' : r0 :: L1 = P' ++ r :: Lb := by rw [hR, ← append_cons]
      have hinv' := hinv
      rw [hR'] at hinv' hrk
      have hr : r ∈ L0 ++ (P' ++ r :: Lb) := by simp
      refine hinv'.mem_path ?_ hlo.1 ((hinv'.leaves.each r hr).range _ hon.mem) hrk hkey hle hge
      cases P' with
      | nil | cons y P' => exact congrArg head? hR'.symm
    have hnd : ((r0 :: L1).map Region.id).Nodup := by
      have := hinv.leaves.nodup
      rw [map_append] at this
      exact this.of_append_right
    have hfr : ∀ y ∈ linked (decide (∀ e ∈ (t.mem.leaf r0.id).entries, e.1 < lo)) (P' ++ [r]),
        y < t.mem.fresh := by
      intro y hy
      obtain ⟨q, hq, rfl⟩ := mem_of_mem_linked hy
      refine (hinv.leaves.each q (mem_append_right _ ?_)).fresh
      rw [hR]
      exact mem_append_left _ hq
    rw [hsn.validate hadds hfr fun n hn => by rw [hnodes n hn.ne], Bool.and_eq_false_iff,
      decide_eq_false_iff_not, not_not, mem_linked_iff hR hat.long hnd hpt]
    refine or_congr_right ?_
    rw [decide_eq_false_iff_not, hfd, hfindKey]
    constructor
    · rintro (hsk | hrt)
      · obtain ⟨e, he⟩ := not_forall.mp hsk
        obtain ⟨he, hlt⟩ := Classical.not_imp.mp he
        exact ⟨_, rfl, .inl ⟨e, he, not_lt.mp hlt⟩⟩
      · refine ⟨_, rfl, .inr fun b hb heq => ?_⟩
        rw [hinv.leaves.right_eq] at hb
        exact hrt b hb (done.inj heq)
    · rintro ⟨a, ha, ⟨e, he, hle⟩ | hrt⟩
      · cases ha
        exact .inl fun hall => absurd (hall e he) (not_lt_of_ge hle)
      · cases ha
        refine .inr fun b hb heq => ?_
        rw [← hinv.leaves.right_eq] at hb
        exact hrt b hb (congrArg done heq)

/-- The keys 2, 4, .., 30 are in one leaf, 32 and 36 in the next. -/
def twoLeaves : List (Call ℕ) :=
  (range 15).map (fun i => .insert (2 * i + 2)) ++ [.insert 32, .insert 36]

/-- A scan from 30, which is in the first leaf. -/
theorem scan_detects_iff_thirty :
    ∃ results t t' it w, runCalls twoLeaves .empty = .done (results, t) ∧
      DbtxIterator.scan (fun _ => ⟨2, true⟩) t 30 2 ⟨[], []⟩ = .done it ∧
      it.iter.cur = some (36, 16) ∧ t.insert 34 = .done (w, t') ∧
      it.readset.validate (fun _ => ⟨2, true⟩) t'.mem = false := by
  refine ⟨_, _, _, _, _, rfl, rfl, rfl, rfl, ?_⟩
  refine (scan_detects_iff twoLeaves _ _ _ rfl (fun _ => ⟨2, true⟩) (fun _ => ⟨2, true⟩) ⟨[], []⟩
    30 36 34 2 16 _ _ rfl (Option.some_ne_none 16) rfl (by decide) (by decide) rfl rfl
    fun _ _ => rfl).mpr ?_
  exact .inr ⟨0, rfl, .inl ⟨(30, 14), by decide, by decide⟩⟩

/-- A scan from 31, which belongs to the first leaf, starts at 32 in the second:
34 is inserted and not detected. -/
theorem scan_misses_insert : ∃ results t t' it w, runCalls twoLeaves .empty = .done (results, t) ∧
      DbtxIterator.scan (fun _ => ⟨2, true⟩) t 31 1 ⟨[], []⟩ = .done it ∧
      it.cur ≠ none ∧ it.iter.cur = some (36, 16) ∧ t.get 34 = .done none ∧
      t.insert 34 = .done (w, t') ∧ it.readset.validate (fun _ => ⟨2, true⟩) t'.mem = true := by
  exact ⟨_, _, _, _, _, rfl, rfl, Option.some_ne_none 16, rfl, rfl, rfl, rfl⟩

end Librdpma.Drtmh.BPlusTree
