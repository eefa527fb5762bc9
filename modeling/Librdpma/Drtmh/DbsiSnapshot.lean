import Librdpma.Drtmh.DbsiSeq

/-!
# Reading a snapshot in DBSI (`DBSI::_get_ro_versioned_helper`)

A reader with the snapshot timestamp `ts_vec[0]` takes the newest version of a
record whose number is at most the timestamp. With `EM_OCC` the numbers are not
commit timestamps: `CommitLocalWrite` leaves the number before plus 2 and
`commit_rpc_handler2` leaves 2, so one transaction leaves different numbers on
its records.

A history is a list of committed transactions, the latest first.
-/

namespace Librdpma.Drtmh

open Lib Function List Outcome

def siGetServer (x : BitVec 64) : BitVec 64 := (x >>> 48) &&& 0xffff#64

def siGetCounter (x : BitVec 64) : BitVec 64 := x &&& 0xffffffffffff#64

/-- A value that was read, and how many links were followed from `value`. -/
structure SiRead where
  hop : ℕ
  version : BitVec 64
  val : List (BitVec 8)
deriving DecidableEq

namespace SiNode

/-- The test of a version. With one clock `ts_vec` has one entry. -/
def seen (ts version : BitVec 64) : Outcome Bool :=
  if siGetServer version ≠ 0#64 then .undefined else .done (decide (siGetCounter version ≤ ts))

/-- The loop over the older values, with the assertion behind it. -/
def traverse (ts : BitVec 64) :
    ℕ → List (BitVec 64 × List (BitVec 8)) → Outcome (Option SiRead)
  | _, [] => .done none
  | hop, (version, val) :: rest => do
      if ← seen ts version then
        if version = 0#64 then .exit else .done (some ⟨hop, version, val⟩)
      else traverse ts (hop + 1) rest

/-- `_get_ro_versioned_helper` on the record of a key. Nothing is found with the
result 1, and the marker 1 makes it start again. -/
def getRoVersionedHelper (n : SiNode) (ts : BitVec 64) : Outcome (Option SiRead) :=
  if n.seq = 0#64 then .done none
  else do
    if ← seen ts n.seq then
      match n.value with
      -- reading a deleted value is not supported
      | none => .exit
      | some val => if n.seq = 1#64 then .loop else .done (some ⟨0, n.seq, val⟩)
    else if n.seq = 1#64 then .loop
    else traverse ts 1 n.oldValue

end SiNode

/-- What a transaction writes: records of its own node, and records of others. -/
structure SiTx (R : Type) where
  rwset : List (R × Option (List (BitVec 8)))
  remoteset : List (R × Option (List (BitVec 8)))

namespace SiTx

variable {R : Type} [DecidableEq R]

/-- `CommitLocalWrite`. `LockAllSet` has checked that the records still have the
numbers that were read. -/
def commitLocalWrite :
    List (R × Option (List (BitVec 8))) → (R → SiNode) → Outcome (R → SiNode)
  | [], nodes => .done nodes
  | (r, addr) :: rest, nodes => do
      let n ← (nodes r).commitLocalWrite (nodes r).seq addr
      commitLocalWrite rest (update nodes r n)

/-- `commit_remote`, with `commit_rpc_handler2` at the owners. -/
def commitRemote (writes : List (R × Option (List (BitVec 8)))) (nodes : R → SiNode) :
    R → SiNode :=
  writes.foldl (fun nodes e => update nodes e.1 ((nodes e.1).commitRemote e.2)) nodes

/-- `end`, once all records are locked. -/
def commit (tx : SiTx R) (nodes : R → SiNode) : Outcome (R → SiNode) := do
  let nodes ← commitLocalWrite tx.rwset nodes
  return commitRemote tx.remoteset nodes

omit [DecidableEq R] in
def writes (tx : SiTx R) : List (R × Option (List (BitVec 8))) := tx.rwset ++ tx.remoteset

/-- The writes with the numbers that the commit leaves. -/
def numbers (tx : SiTx R) (nodes : R → SiNode) :
    List (R × BitVec 64 × Option (List (BitVec 8))) :=
  tx.rwset.map (fun e => (e.1, (nodes e.1).seq + 2#64, e.2)) ++
    tx.remoteset.map fun e => (e.1, 2#64, e.2)

/-- A record is locked once, nothing is deleted, and the numbers stay below the
bits of the server. -/
structure Plain (tx : SiTx R) (nodes : R → SiNode) : Prop where
  nodup : (tx.writes.map Prod.fst).Nodup
  value : ∀ e ∈ tx.writes, e.2 ≠ none
  small : ∀ e ∈ tx.rwset, (nodes e.1).seq.toNat + 2 < 2 ^ 48

/-- The numbers are on one side of the snapshot. -/
def Uniform (ts : BitVec 64) (tx : SiTx R) (nodes : R → SiNode) : Prop :=
  ∀ a ∈ tx.numbers nodes, ∀ b ∈ tx.numbers nodes, a.2.1 ≤ ts ↔ b.2.1 ≤ ts

end SiTx

/-- A record as `MemDB` loads it, or as `GetWithInsert` makes it. -/
def SiNode.Loaded (n : SiNode) : Prop :=
  n.oldValue = [] ∧ (n.seq = 0#64 ∧ n.value = none ∨ n.seq = 2#64 ∧ n.value ≠ none)

section

variable {R : Type} [DecidableEq R]

/-- The states after a history whose commits meet `ok`. -/
inductive Committed (ok : (R → SiNode) → SiTx R → Prop) : List (SiTx R) → (R → SiNode) → Prop where
  | start {nodes : R → SiNode} (h : ∀ r, (nodes r).Loaded) : Committed ok [] nodes
  | commit {H : List (SiTx R)} {tx : SiTx R} {nodes nodes' : R → SiNode}
      (h : Committed ok H nodes) (hok : ok nodes tx) (hs : tx.commit nodes = .done nodes') :
      Committed ok (tx :: H) nodes'

/-- The writes to a record, the latest first, with the number of the transaction
in the history. -/
def writesTo (r : R) : List (SiTx R) → List (ℕ × Option (List (BitVec 8)))
  | [] => []
  | tx :: H =>
      ((tx.writes.filter (·.1 = r)).map fun e => (H.length, e.2)) ++ writesTo r H

/-- The snapshot has the write of transaction `i` to `r`. -/
def Returns (ts : BitVec 64) (H : List (SiTx R)) (nodes : R → SiNode) (r : R) (i : ℕ) : Prop :=
  ∃ x, (nodes r).getRoVersionedHelper ts = .done (some x) ∧
    (writesTo r H)[x.hop]? = some (i, some x.val)

/-- If the snapshot has one write of a transaction, it has all of them that it
has not from a later transaction. -/
def AtomicSnapshot (ts : BitVec 64) (H : List (SiTx R)) (nodes : R → SiNode) : Prop :=
  ∀ i r r', (∃ v, (i, v) ∈ writesTo r H) → (∃ v, (i, v) ∈ writesTo r' H) →
    Returns ts H nodes r i → ∃ j, i ≤ j ∧ Returns ts H nodes r' j

end

/-! ## One record -/

lemma siGetServer_eq {x : BitVec 64} (h : x.toNat < 2 ^ 48) : siGetServer x = 0#64 := by
  have hshf : x >>> 48 = 0#64 := by
    apply BitVec.eq_of_toNat_eq
    rw [BitVec.toNat_ushiftRight, Nat.shiftRight_eq_div_pow, Nat.div_eq_of_lt h]
    rfl
  rw [siGetServer, hshf]
  rfl

lemma siGetCounter_eq {x : BitVec 64} (h : x.toNat < 2 ^ 48) : siGetCounter x = x := by
  apply BitVec.eq_of_toNat_eq
  rw [siGetCounter, BitVec.toNat_and]
  exact (Nat.and_two_pow_sub_one_eq_mod x.toNat 48).trans (Nat.mod_eq_of_lt h)

namespace SiNode

variable {n : SiNode} {ts : BitVec 64}

lemma seen_eq {x : BitVec 64} (h : x.toNat < 2 ^ 48) : seen ts x = .done (decide (x ≤ ts)) := by
  rw [seen, siGetServer_eq h, if_neg (not_not.mpr rfl), siGetCounter_eq h]

/-- The versions of the record, with numbers that are neither markers nor have
bits of a server. -/
structure Sound (n : SiNode) : Prop where
  fresh : n.value = none → n.seq = 0#64
  range : ∀ e ∈ n.chain n.seq, 2 ≤ e.1.toNat ∧ e.1.toNat < 2 ^ 48

/-- The first version that the snapshot sees. -/
def firstSeen (ts : BitVec 64) : ℕ → List (BitVec 64 × List (BitVec 8)) → Option SiRead
  | _, [] => none
  | hop, (version, val) :: rest =>
      if version ≤ ts then some ⟨hop, version, val⟩ else firstSeen ts (hop + 1) rest

lemma firstSeen_some {hop : ℕ} {l : List (BitVec 64 × List (BitVec 8))} {x : SiRead}
    (h : firstSeen ts hop l = some x) :
    ∃ k, x.hop = hop + k ∧ l[k]? = some (x.version, x.val) ∧ x.version ≤ ts := by
  induction l generalizing hop with
  | nil => cases h
  | cons e l ih =>
    rw [firstSeen] at h
    split_ifs at h with hle
    · cases h
      exact ⟨0, rfl, rfl, hle⟩
    · obtain ⟨k, hk, hget, hle⟩ := ih h
      exact ⟨k + 1, by omega, hget, hle⟩

lemma firstSeen_of_seen (hop : ℕ) (l1 l2 : List (BitVec 64 × List (BitVec 8)))
    {e : BitVec 64 × List (BitVec 8)} (he : e.1 ≤ ts) :
    ∃ x, firstSeen ts hop (l1 ++ e :: l2) = some x ∧ x.hop ≤ hop + l1.length := by
  induction l1 generalizing hop with
  | nil => exact ⟨⟨hop, e.1, e.2⟩, if_pos he, le_rfl⟩
  | cons d l1 ih =>
    rw [cons_append, firstSeen]
    split
    · exact ⟨_, rfl, Nat.le_add_right _ _⟩
    · obtain ⟨x, hx, hhop⟩ := ih (hop + 1)
      refine ⟨x, hx, ?_⟩
      rw [length_cons]
      omega

lemma traverse_eq {hop : ℕ} {l : List (BitVec 64 × List (BitVec 8))}
    (h : ∀ e ∈ l, 2 ≤ e.1.toNat ∧ e.1.toNat < 2 ^ 48) :
    traverse ts hop l = .done (firstSeen ts hop l) := by
  induction l generalizing hop with
  | nil => rfl
  | cons e l ih =>
    obtain ⟨hlow, hhg⟩ := h e mem_cons_self
    have hne : e.1 ≠ 0#64 := by
      intro h0
      rw [h0] at hlow
      cases hlow
    have hrs : ∀ e ∈ l, 2 ≤ e.1.toNat ∧ e.1.toNat < 2 ^ 48 := fun e he => h e (mem_cons_of_mem _ he)
    rw [traverse, seen_eq hhg, done_bind, firstSeen]
    by_cases hle : e.1 ≤ ts
    · rw [if_pos (decide_eq_true hle), if_neg hne, if_pos hle]
    · rw [if_neg (by simpa using hle), if_neg hle, ih hrs]

lemma Sound.helper_eq (h : n.Sound) :
    n.getRoVersionedHelper ts = .done (firstSeen ts 0 (n.chain n.seq)) := by
  cases hval : n.value with
  | none => rw [getRoVersionedHelper, if_pos (h.fresh hval), chain, hval, firstSeen]
  | some val =>
    have hch : n.chain n.seq = (n.seq, val) :: n.oldValue := by rw [chain, hval]
    have hrng := h.range
    rw [hch] at hrng ⊢
    obtain ⟨hlow, hhg⟩ := hrng _ mem_cons_self
    have hne : ∀ k, k < 2 → n.seq ≠ BitVec.ofNat 64 k := by
      intro k hk heq
      rw [heq, BitVec.toNat_ofNat, Nat.mod_eq_of_lt (by omega)] at hlow
      omega
    rw [getRoVersionedHelper, if_neg (hne 0 (by decide)), seen_eq hhg, done_bind, firstSeen]
    by_cases hle : n.seq ≤ ts
    · rw [if_pos (decide_eq_true hle), hval, if_pos hle]
      exact if_neg (hne 1 (by decide))
    · rw [if_neg (by simpa using hle), if_neg (hne 1 (by decide)), if_neg hle]
      exact traverse_eq fun e he => hrng e (mem_cons_of_mem _ he)

lemma Loaded.sound (h : n.Loaded) : n.Sound := by
  obtain ⟨hold, ⟨hseq, hval⟩ | ⟨hseq, hval⟩⟩ := h
  · refine ⟨fun _ => hseq, fun e he => ?_⟩
    rw [chain, hval] at he
    cases he
  · obtain ⟨val, hval⟩ := Option.ne_none_iff_exists'.mp hval
    refine ⟨fun hno => absurd (hval.symm.trans hno) nofun, fun e he => ?_⟩
    rw [chain, hval, hold, hseq] at he
    rw [mem_singleton.mp he]
    have htwo : (2#64).toNat = 2 := rfl
    exact ⟨htwo.ge, htwo.trans_lt (by decide)⟩

/-- A commit replaces the value. -/
def overwrite (n : SiNode) (number : BitVec 64) (val : Option (List (BitVec 8))) : SiNode :=
  { lock := 0#64, seq := number, value := val, oldValue := n.chain n.seq }

lemma Sound.commitLocalWrite_eq (h : n.Sound) (val : Option (List (BitVec 8))) :
    n.commitLocalWrite n.seq val = .done (n.overwrite (n.seq + 2#64) val) := by
  refine if_neg ?_
  rintro ⟨hval, hseq⟩
  obtain ⟨v, hval⟩ := Option.ne_none_iff_exists'.mp hval
  have hval : n.value = some v := hval
  have hmem : (n.seq, v) ∈ n.chain n.seq := by
    rw [chain, hval]
    exact mem_cons_self
  have hlow : 2 ≤ n.seq.toNat := (h.range _ hmem).1
  rw [hseq] at hlow
  cases hlow

lemma Sound.overwrite (h : n.Sound) {number : BitVec 64} {val : Option (List (BitVec 8))}
    (hval : val ≠ none) (hlow : 2 ≤ number.toNat) (hhg : number.toNat < 2 ^ 48) :
    (n.overwrite number val).Sound := by
  obtain ⟨v, rfl⟩ := Option.ne_none_iff_exists'.mp hval
  refine ⟨nofun, fun e he => ?_⟩
  rcases mem_cons.mp he with rfl | he
  · exact ⟨hlow, hhg⟩
  · exact h.range e he

end SiNode

/-! ## A commit -/

namespace SiTx

section

variable {R : Type} [DecidableEq R]

/-- Each entry changes the record it names, with what is there. -/
def install (f : SiNode → Option (List (BitVec 8)) → SiNode)
    (l : List (R × Option (List (BitVec 8)))) (nodes : R → SiNode) : R → SiNode :=
  l.foldl (fun nodes e => update nodes e.1 (f (nodes e.1) e.2)) nodes

variable {f : SiNode → Option (List (BitVec 8)) → SiNode}
  {l : List (R × Option (List (BitVec 8)))} {nodes nodes' : R → SiNode} {tx : SiTx R} {r : R}

lemma install_of_notMem (h : r ∉ l.map Prod.fst) : install f l nodes r = nodes r := by
  induction l generalizing nodes with
  | nil => rfl
  | cons e l ih =>
    have hne : r ≠ e.1 := fun heq => h (by simp [heq])
    have hrs : r ∉ l.map Prod.fst := fun hmem => h (mem_cons_of_mem _ hmem)
    exact (ih hrs).trans (update_of_ne hne _ _)

lemma install_of_mem (hnd : (l.map Prod.fst).Nodup) {e : R × Option (List (BitVec 8))}
    (he : e ∈ l) : install f l nodes e.1 = f (nodes e.1) e.2 := by
  induction l generalizing nodes with
  | nil => cases he
  | cons d l ih =>
    obtain ⟨hd, hnd⟩ := nodup_cons.mp hnd
    rcases mem_cons.mp he with rfl | he
    · exact (install_of_notMem hd).trans (update_self ..)
    · have hne : e.1 ≠ d.1 := fun heq => hd (heq ▸ mem_map_of_mem he)
      refine (ih hnd he).trans (congrArg (f · e.2) ?_)
      exact update_of_ne hne _ _

lemma commitLocalWrite_eq (hnd : (l.map Prod.fst).Nodup) (h : ∀ e ∈ l, (nodes e.1).Sound) :
    commitLocalWrite l nodes =
      .done (install (fun n val => n.overwrite (n.seq + 2#64) val) l nodes) := by
  induction l generalizing nodes with
  | nil => rfl
  | cons e l ih =>
    obtain ⟨he, hnd⟩ := nodup_cons.mp hnd
    rw [commitLocalWrite, (h e mem_cons_self).commitLocalWrite_eq, done_bind, ih hnd fun d hd => ?_]
    · rfl
    · have hne : d.1 ≠ e.1 := fun heq => he (heq ▸ mem_map_of_mem hd)
      rw [update_of_ne hne]
      exact h d (mem_cons_of_mem _ hd)

/-- The commit of a plain transaction returns, and overwrites its records with
the new numbers. -/
lemma Plain.commit (h : tx.Plain nodes) (hsnd : ∀ r, (nodes r).Sound) :
    ∃ nodes', tx.commit nodes = .done nodes' ∧
      (∀ r, r ∉ tx.writes.map Prod.fst → nodes' r = nodes r) ∧
      ∀ e ∈ tx.numbers nodes, nodes' e.1 = (nodes e.1).overwrite e.2.1 e.2.2 := by
  have hnd := h.nodup
  rw [writes, map_append, nodup_append] at hnd
  obtain ⟨hloc, hrmt, hds⟩ := hnd
  refine ⟨install (fun n val => n.commitRemote val) tx.remoteset
    (install (fun n val => n.overwrite (n.seq + 2#64) val) tx.rwset nodes), ?_, fun r hr => ?_,
    fun e he => ?_⟩
  · rw [SiTx.commit, commitLocalWrite_eq hloc fun e _ => hsnd e.1]
    rfl
  · rw [writes, map_append, mem_append, not_or] at hr
    exact (install_of_notMem hr.2).trans (install_of_notMem hr.1)
  · rcases mem_append.mp he with he | he
    · obtain ⟨d, hd, rfl⟩ := mem_map.mp he
      have hmem : d.1 ∈ tx.rwset.map Prod.fst := mem_map_of_mem hd
      have hnot : d.1 ∉ tx.remoteset.map Prod.fst := fun hmem' => hds _ hmem _ hmem' rfl
      exact (install_of_notMem hnot).trans (install_of_mem hloc hd)
    · obtain ⟨d, hd, rfl⟩ := mem_map.mp he
      have hmem : d.1 ∈ tx.remoteset.map Prod.fst := mem_map_of_mem hd
      have hnot : d.1 ∉ tx.rwset.map Prod.fst := fun hmem' => hds _ hmem' _ hmem rfl
      refine (install_of_mem hrmt hd).trans ?_
      rw [install_of_notMem hnot]
      rfl

omit [DecidableEq R] in
lemma numbers_map (tx : SiTx R) (nodes : R → SiNode) :
    (tx.numbers nodes).map (fun e => (e.1, e.2.2)) = tx.writes := by
  rw [numbers, writes, map_append, map_map, map_map]
  congr 1 <;> exact map_id _

omit [DecidableEq R] in
lemma Plain.number_range (h : tx.Plain nodes) {e : R × BitVec 64 × Option (List (BitVec 8))}
    (he : e ∈ tx.numbers nodes) : e.2.2 ≠ none ∧ 2 ≤ e.2.1.toNat ∧ e.2.1.toNat < 2 ^ 48 := by
  have hval : e.2.2 ≠ none := by
    refine h.value (e.1, e.2.2) ?_
    rw [← numbers_map tx nodes]
    exact mem_map_of_mem he
  refine ⟨hval, ?_⟩
  rcases mem_append.mp he with he | he
  · obtain ⟨d, hd, rfl⟩ := mem_map.mp he
    have hsm := h.small d hd
    have hsum : ((nodes d.1).seq + 2#64).toNat = (nodes d.1).seq.toNat + 2 := by
      rw [BitVec.toNat_add]
      exact Nat.mod_eq_of_lt (lt_trans hsm (by decide))
    rw [hsum]
    omega
  · obtain ⟨d, hd, rfl⟩ := mem_map.mp he
    have htwo : (2#64).toNat = 2 := rfl
    exact ⟨htwo.ge, htwo.trans_lt (by decide)⟩

lemma Plain.numbers_filter (h : tx.Plain nodes)
    {e : R × BitVec 64 × Option (List (BitVec 8))} (he : e ∈ tx.numbers nodes) :
    (tx.numbers nodes).filter (·.1 = e.1) = [e] := by
  have hks : ((tx.numbers nodes).map fun e => e.1).Nodup := by
    have := h.nodup
    rwa [← numbers_map tx nodes, map_map] at this
  obtain ⟨l1, l2, hl⟩ := append_of_mem he
  rw [hl, map_append, map_cons] at hks
  have hnot := (nodup_cons.mp (nodup_middle.mp hks)).1
  rw [mem_append, not_or] at hnot
  have hoth : ∀ l : List (R × BitVec 64 × Option (List (BitVec 8))),
      e.1 ∉ l.map (fun e => e.1) → l.filter (·.1 = e.1) = [] := by
    intro l hl
    rw [filter_eq_nil_iff]
    intro d hd heq
    exact hl (mem_map.mpr ⟨d, hd, of_decide_eq_true heq⟩)
  rw [hl, filter_append, filter_cons_of_pos (by simp), hoth l1 hnot.1, hoth l2 hnot.2]
  rfl

end

end SiTx

/-! ## A history -/

section

variable {R : Type} [DecidableEq R] {ts : BitVec 64} {H : List (SiTx R)} {tx : SiTx R}
  {nodes nodes' : R → SiNode} {stamps stamps' : R → List (ℕ × BitVec 64 × List (BitVec 8))}
  {r : R} {i : ℕ}

/-- The versions of each record that the history has written, the latest first:
the transaction, the number and the value. -/
structure Stamped (H : List (SiTx R)) (nodes : R → SiNode)
    (stamps : R → List (ℕ × BitVec 64 × List (BitVec 8))) : Prop where
  sound : ∀ r, (nodes r).Sound
  writes : ∀ r, writesTo r H = (stamps r).map fun e => (e.1, some e.2.2)
  chain : ∀ r, (stamps r).map Prod.snd <+: (nodes r).chain (nodes r).seq
  older : ∀ r, ∀ e ∈ stamps r, e.1 < H.length
  sorted : ∀ r, (stamps r).Pairwise fun d e => e.1 < d.1

/-- The versions of one transaction are on one side of the snapshot. -/
def UniformStamps (ts : BitVec 64) (stamps : R → List (ℕ × BitVec 64 × List (BitVec 8))) : Prop :=
  ∀ r r', ∀ d ∈ stamps r, ∀ e ∈ stamps r', d.1 = e.1 → (d.2.1 ≤ ts ↔ e.2.1 ≤ ts)

lemma Stamped.start (h : ∀ r, (nodes r).Loaded) : Stamped [] nodes fun _ => [] where
  sound r := (h r).sound
  writes _ := rfl
  chain _ := nil_prefix
  older _ _ he := absurd he not_mem_nil
  sorted _ := Pairwise.nil

variable {e : ℕ × BitVec 64 × List (BitVec 8)}

lemma Stamped.chain_get (h : Stamped H nodes stamps) {k : ℕ} (he : (stamps r)[k]? = some e) :
    ((nodes r).chain (nodes r).seq)[k]? = some e.2 := by
  obtain ⟨rest, hrs⟩ := h.chain r
  have hk := (List.getElem?_eq_some_iff.mp he).1
  rw [← hrs, List.getElem?_append_left (by rwa [List.length_map]), List.getElem?_map, he]
  rfl

lemma Stamped.of_returns (h : Stamped H nodes stamps) (hret : Returns ts H nodes r i) :
    ∃ e ∈ stamps r, e.1 = i ∧ e.2.1 ≤ ts := by
  obtain ⟨x, hx, hget⟩ := hret
  rw [(h.sound r).helper_eq] at hx
  obtain ⟨k, hk, hch, hle⟩ := SiNode.firstSeen_some (done.inj hx)
  rw [zero_add] at hk
  -- the place of the value in the chain is that of its write in the history
  rw [h.writes r, getElem?_map, Option.map_eq_some_iff, hk] at hget
  obtain ⟨e, he, hei⟩ := hget
  have hsm := h.chain_get he
  rw [hch] at hsm
  refine ⟨e, mem_of_getElem? he, congrArg Prod.fst hei, ?_⟩
  rw [← Option.some.inj hsm]
  exact hle

lemma Stamped.returns (h : Stamped H nodes stamps) (he : e ∈ stamps r) (hle : e.2.1 ≤ ts) :
    ∃ j, e.1 ≤ j ∧ Returns ts H nodes r j := by
  obtain ⟨l1, l2, hl⟩ := append_of_mem he
  obtain ⟨rest, hrs⟩ := h.chain r
  have hspl : (nodes r).chain (nodes r).seq =
      l1.map Prod.snd ++ e.2 :: (l2.map Prod.snd ++ rest) := by
    rw [← hrs, hl, map_append, map_cons, append_assoc, cons_append]
  obtain ⟨x, hx, hhop⟩ := SiNode.firstSeen_of_seen 0 (l1.map Prod.snd) (l2.map Prod.snd ++ rest) hle
  rw [← hspl] at hx
  obtain ⟨k, hk, hch, -⟩ := SiNode.firstSeen_some hx
  rw [length_map] at hhop
  have hlt : k < (stamps r).length := by
    rw [hl, length_append, length_cons]
    omega
  -- the version read is `e` or one before it in the list
  obtain ⟨d, hd⟩ : ∃ d, (stamps r)[k]? = some d := ⟨_, getElem?_eq_getElem hlt⟩
  have hnwr : e.1 ≤ d.1 := by
    have hsrt := h.sorted r
    rw [hl] at hd hsrt
    rcases lt_or_ge k l1.length with hkl | hkl
    · rw [getElem?_append_left hkl] at hd
      exact le_of_lt ((pairwise_append.mp hsrt).2.2 d (mem_of_getElem? hd) e mem_cons_self)
    · have hkl : k = l1.length := by omega
      rw [hkl, getElem?_append_right le_rfl, Nat.sub_self] at hd
      rw [← Option.some.inj hd]
  refine ⟨d.1, hnwr, x, ?_, ?_⟩
  · rw [(h.sound r).helper_eq, hx]
  · have hsm := h.chain_get hd
    rw [hch] at hsm
    have hval : x.val = d.2.2 := congrArg Prod.snd (Option.some.inj hsm)
    rw [h.writes r, getElem?_map, hk, zero_add, hd, hval]
    rfl

/-- The versions after one more transaction. -/
def stampsAfter (tx : SiTx R) (i : ℕ) (nodes : R → SiNode)
    (stamps : R → List (ℕ × BitVec 64 × List (BitVec 8))) (r : R) :
    List (ℕ × BitVec 64 × List (BitVec 8)) :=
  (((tx.numbers nodes).filter (·.1 = r)).map fun e => (i, e.2.1, e.2.2.getD [])) ++ stamps r

lemma mem_stampsAfter : e ∈ stampsAfter tx i nodes stamps r ↔
      (∃ a ∈ tx.numbers nodes, a.1 = r ∧ e = (i, a.2.1, a.2.2.getD [])) ∨ e ∈ stamps r := by
  rw [stampsAfter, mem_append, mem_map]
  refine or_congr_left ⟨?_, ?_⟩
  · rintro ⟨a, ha, rfl⟩
    obtain ⟨hmem, heq⟩ := mem_filter.mp ha
    exact ⟨a, hmem, of_decide_eq_true heq, rfl⟩
  · rintro ⟨a, hmem, heq, rfl⟩
    exact ⟨a, mem_filter.mpr ⟨hmem, decide_eq_true heq⟩, rfl⟩

lemma Stamped.commit (h : Stamped H nodes stamps) (hpln : tx.Plain nodes)
    (hcom : tx.commit nodes = .done nodes') :
    Stamped (tx :: H) nodes' (stampsAfter tx H.length nodes stamps) := by
  obtain ⟨nodes1, hdn, hkp, hnew⟩ := hpln.commit h.sound
  rw [hdn] at hcom
  cases hcom
  -- a record of the transaction has one new version, the others have none
  have hcs : ∀ r, (∃ a ∈ tx.numbers nodes, a.1 = r) ∨
      (r ∉ tx.writes.map Prod.fst ∧ (tx.numbers nodes).filter (·.1 = r) = []) := by
    intro r
    by_cases hr : ∃ a ∈ tx.numbers nodes, a.1 = r
    · exact .inl hr
    · refine .inr ⟨fun hmem => hr ?_, ?_⟩
      · rw [← SiTx.numbers_map tx nodes, map_map] at hmem
        exact mem_map.mp hmem
      · rw [filter_eq_nil_iff]
        exact fun a ha heq => hr ⟨a, ha, of_decide_eq_true heq⟩
  refine ⟨fun r => ?_, fun r => ?_, fun r => ?_, fun r e he => ?_, fun r => ?_⟩
  · rcases hcs r with ⟨a, ha, rfl⟩ | ⟨hr, -⟩
    · obtain ⟨hval, hlow, hhg⟩ := hpln.number_range ha
      rw [hnew a ha]
      exact (h.sound a.1).overwrite hval hlow hhg
    · rw [hkp r hr]
      exact h.sound r
  · rw [writesTo, stampsAfter, map_append, ← h.writes r, ← SiTx.numbers_map tx nodes,
      filter_map, map_map, map_map]
    congr 1
    refine map_congr_left fun a ha => ?_
    obtain ⟨v, hv⟩ := Option.ne_none_iff_exists'.mp (hpln.number_range (mem_of_mem_filter ha)).1
    simp [hv]
  · rcases hcs r with ⟨a, ha, rfl⟩ | ⟨hr, hno⟩
    · obtain ⟨v, hv⟩ := Option.ne_none_iff_exists'.mp (hpln.number_range ha).1
      have hget : a.2.2.getD [] = v := by rw [hv, Option.getD_some]
      rw [stampsAfter, hpln.numbers_filter ha, hnew a ha, hv, SiNode.overwrite,
        map_singleton, singleton_append, map_cons, hget]
      exact (prefix_cons_inj _).mpr (h.chain a.1)
    · rw [stampsAfter, hno, hkp r hr]
      exact h.chain r
  · rw [length_cons]
    rcases mem_stampsAfter.mp he with ⟨a, -, -, rfl⟩ | he
    · exact Nat.lt_succ_self _
    · exact Nat.lt_succ_of_lt (h.older r e he)
  · rcases hcs r with ⟨a, ha, rfl⟩ | ⟨hr, hno⟩
    · rw [stampsAfter, hpln.numbers_filter ha]
      exact pairwise_cons.mpr ⟨h.older a.1, h.sorted a.1⟩
    · rw [stampsAfter, hno]
      exact h.sorted r

lemma uniformStamps_after (h : Stamped H nodes stamps) (huni : UniformStamps ts stamps) :
    UniformStamps ts (stampsAfter tx H.length nodes stamps) ↔ tx.Uniform ts nodes := by
  constructor
  · intro hall a ha b hb
    exact hall a.1 b.1 _ (mem_stampsAfter.mpr (.inl ⟨a, ha, rfl, rfl⟩)) _
      (mem_stampsAfter.mpr (.inl ⟨b, hb, rfl, rfl⟩)) rfl
  · intro htx r r' d hd e he heq
    -- an older version never has the number of the new transaction
    rcases mem_stampsAfter.mp hd with ⟨a, ha, -, rfl⟩ | hd <;>
      rcases mem_stampsAfter.mp he with ⟨b, hb, -, rfl⟩ | he
    · exact htx a ha b hb
    · exact absurd heq (ne_of_gt (h.older r' e he))
    · exact absurd heq (ne_of_lt (h.older r d hd))
    · exact huni r r' d hd e he heq

lemma UniformStamps.atomic (huni : UniformStamps ts stamps) (h : Stamped H nodes stamps) :
    AtomicSnapshot ts H nodes := by
  rintro i r r' - ⟨v, hv⟩ hret
  obtain ⟨d, hd, hdi, hle⟩ := h.of_returns hret
  rw [h.writes r'] at hv
  obtain ⟨e, he, hev⟩ := mem_map.mp hv
  have hei : e.1 = i := congrArg Prod.fst hev
  rw [← hei]
  exact h.returns he ((huni r r' d hd e he (hdi.trans hei.symm)).mp hle)

lemma Committed.stamped
    (h : Committed (fun nodes tx => tx.Plain nodes ∧ tx.Uniform ts nodes) H nodes) :
    ∃ stamps, Stamped H nodes stamps ∧ UniformStamps ts stamps := by
  induction h with
  | start hld => exact ⟨_, Stamped.start hld, fun _ _ _ hd => absurd hd not_mem_nil⟩
  | commit _ hok hs ih =>
    obtain ⟨stamps, hst, huni⟩ := ih
    exact ⟨_, hst.commit hok.1 hs, (uniformStamps_after hst huni).mpr hok.2⟩

/-- A snapshot after the commit of a transaction that deletes nothing is atomic
exactly if the numbers that the transaction leaves are on one side of it. -/
theorem snapshot_atomic_iff
    (h : Committed (fun nodes tx => tx.Plain nodes ∧ tx.Uniform ts nodes) H nodes)
    (hplain : tx.Plain nodes) (hcommit : tx.commit nodes = .done nodes') :
    (∀ r, ∃ res, (nodes' r).getRoVersionedHelper ts = .done res) ∧
      (AtomicSnapshot ts (tx :: H) nodes' ↔ tx.Uniform ts nodes) := by
  obtain ⟨stamps, hst, huni⟩ := h.stamped
  have hst' := hst.commit hplain hcommit
  refine ⟨fun r => ⟨_, (hst'.sound r).helper_eq⟩, fun hatm => ?_, fun htx => ?_⟩
  · -- the write with the number of `b` is the only one to `b.1` that is as new as the transaction
    have hsn : ∀ a ∈ tx.numbers nodes, ∀ b ∈ tx.numbers nodes, a.2.1 ≤ ts → b.2.1 ≤ ts := by
      intro a ha b hb hle
      have hws : ∀ c ∈ tx.numbers nodes, ∃ v, (H.length, v) ∈ writesTo c.1 (tx :: H) := by
        intro c hc
        rw [hst'.writes c.1]
        exact ⟨_, mem_map.mpr ⟨_, mem_stampsAfter.mpr (.inl ⟨c, hc, rfl, rfl⟩), rfl⟩⟩
      have hla : ∀ r j, H.length ≤ j → Returns ts (tx :: H) nodes' r j →
          j = H.length ∧ ∃ c ∈ tx.numbers nodes, c.1 = r ∧ c.2.1 ≤ ts := by
        intro r j hj hret
        obtain ⟨e, he, hej, hle⟩ := hst'.of_returns hret
        rcases mem_stampsAfter.mp he with ⟨c, hc, hcr, rfl⟩ | he
        · exact ⟨hej.symm, c, hc, hcr, hle⟩
        · have := hst.older r e he
          omega
      obtain ⟨j, hj, hret⟩ := hst'.returns (mem_stampsAfter.mpr (.inl ⟨a, ha, rfl, rfl⟩)) hle
      obtain ⟨rfl, -⟩ := hla a.1 j hj hret
      obtain ⟨k, hk, hret'⟩ := hatm H.length a.1 b.1 (hws a ha) (hws b hb) hret
      obtain ⟨-, c, hc, hcb, hcle⟩ := hla b.1 k hk hret'
      have hsm : [c] = [b] := by
        rw [← hplain.numbers_filter hc, ← hplain.numbers_filter hb, hcb]
      cases hsm
      exact hcle
    exact fun a ha b hb => ⟨hsn a ha b hb, hsn b hb a ha⟩
  · exact ((uniformStamps_after hst huni).mpr htx).atomic hst'

/-- Two records as they are loaded. -/
def twoRecords : Bool → SiNode := fun _ => ⟨0#64, 2#64, some [0#8], []⟩

theorem snapshot_atomic_iff_local : ∃ (tx : SiTx Bool) (nodes' : Bool → SiNode),
      (Committed (fun nodes tx => tx.Plain nodes ∧ tx.Uniform 2#64 nodes) [] twoRecords ∧
        tx.Plain twoRecords ∧ tx.commit twoRecords = .done nodes') ∧
      (∀ r, ∃ res, (nodes' r).getRoVersionedHelper 2#64 = .done res) ∧
      (AtomicSnapshot 2#64 [tx] nodes' ↔ tx.Uniform 2#64 twoRecords) := by
  have hld : ∀ r, (twoRecords r).Loaded := fun _ => ⟨rfl, .inr ⟨rfl, nofun⟩⟩
  have hpln : SiTx.Plain ⟨[(true, some [1#8]), (false, some [1#8])], []⟩ twoRecords :=
    ⟨by decide, by decide, by decide⟩
  exact ⟨_, _, ⟨.start hld, hpln, rfl⟩, snapshot_atomic_iff (.start hld) hpln rfl⟩

/-- One record is written locally and the other at its owner: the snapshot of
timestamp 2 has the old value of the one and the new value of the other. -/
theorem snapshot_splits_transaction : ∃ (tx : SiTx Bool) (nodes' : Bool → SiNode),
      Committed (fun nodes tx => tx.Plain nodes) [tx] nodes' ∧
      (nodes' true).getRoVersionedHelper 2#64 = .done (some ⟨1, 2#64, [0#8]⟩) ∧
      (nodes' false).getRoVersionedHelper 2#64 = .done (some ⟨0, 2#64, [1#8]⟩) ∧
      ¬ AtomicSnapshot 2#64 [tx] nodes' := by
  have hld : ∀ r, (twoRecords r).Loaded := fun _ => ⟨rfl, .inr ⟨rfl, nofun⟩⟩
  have hpln : SiTx.Plain ⟨[(true, some [1#8])], [(false, some [1#8])]⟩ twoRecords :=
    ⟨by decide, by decide, by decide⟩
  refine ⟨_, _, .commit (.start hld) hpln rfl, rfl, rfl, fun hatm => ?_⟩
  obtain ⟨j, -, x, hx, hget⟩ := hatm 0 false true ⟨_, mem_singleton_self _⟩
    ⟨_, mem_singleton_self _⟩ ⟨_, rfl, rfl⟩
  cases hx
  cases hget

end

end Librdpma.Drtmh
