import Librdpma.Drtmh.CommitMessage

/-!
# The sequence number of a record in DBSI (`src/db/txs/dbsi.cc`)

With `ONE_CLOCK` = 1 (which defines `EM_OCC`) and `SI_VEC`, a transaction reads
a sequence number, locks the record, checks that the number is still the same,
and writes. `CommitLocalWrite` leaves the number read plus 2. For a record of
another node `commit_rpc_handler2` first stores the marker 1 and then increments
what it has just stored.

One record is followed through the interleaved steps of any number of
transactions. A step is a read, the locking with its check, a commit, or the
release of a transaction that aborts, after a failed check or after a passed one
(another record of it has failed).
-/

namespace Librdpma.Drtmh

open Lib Function List

/-- `CommitLocalWrite` on one record, with the number the transaction has read.
A record that has a value must not have been read with number 0. -/
def SiNode.commitLocalWrite (n : SiNode) (readSeq : BitVec 64)
    (addr : Option (List (BitVec 8))) : Outcome SiNode :=
  let n := { n with seq := 1#64 }
  if n.value ≠ none ∧ readSeq = 0#64 then .exit
  else .done { lock := 0#64, seq := readSeq + 2#64, value := addr, oldValue := n.chain readSeq }

namespace DbsiSeq

/-- How far a transaction is with the record. -/
inductive Stage : Type where
  | idle
  | read (seq : BitVec 64)
  /-- locked and checked -/
  | locked (seq : BitVec 64)
  /-- locked, but the check has failed -/
  | failed
  | ended
deriving DecidableEq

/-- A commit: the number the transaction had read, and the one it leaves. -/
structure Entry where
  readSeq : BitVec 64
  seq : BitVec 64
deriving DecidableEq

/-- The record, the transactions, and the commits so far. -/
structure State (T : Type) where
  node : SiNode
  stage : T → Stage
  log : List Entry

inductive Act (T : Type) : Type where
  | read (t : T)
  /-- `LockAllSet` or `lock_rpc_handler` -/
  | lock (t : T)
  /-- `CommitLocalWrite` -/
  | commitLocal (t : T) (addr : Option (List (BitVec 8)))
  /-- `commit_rpc_handler2` -/
  | commitRemote (t : T) (newVal : Option (List (BitVec 8)))
  | release (t : T)

section

variable {T : Type} [DecidableEq T]

/-- The transaction goes on to `stage`. -/
def State.to (s : State T) (t : T) (stage : Stage) : State T :=
  { s with stage := update s.stage t stage }

/-- The transaction writes the record. -/
def State.commit (s : State T) (t : T) (readSeq : BitVec 64) (n : SiNode) : State T :=
  { node := n, stage := update s.stage t .ended, log := s.log ++ [⟨readSeq, n.seq⟩] }

@[simp] lemma State.to_self (s : State T) (t : T) (stage : Stage) :
    (s.to t stage).stage t = stage := update_self ..

lemma State.to_of_ne (s : State T) {t t' : T} (h : t' ≠ t) (stage : Stage) :
    (s.to t stage).stage t' = s.stage t' := update_of_ne h ..

@[simp] lemma State.commit_self (s : State T) (t : T) (readSeq : BitVec 64) (n : SiNode) :
    (s.commit t readSeq n).stage t = .ended := update_self ..

lemma State.commit_of_ne (s : State T) {t t' : T} (h : t' ≠ t) (readSeq : BitVec 64)
    (n : SiNode) : (s.commit t readSeq n).stage t' = s.stage t' := update_of_ne h ..

variable (content : T → BitVec 64)

/-- A reader waits while the number is the marker 1. A commit that does not
return ends the process. -/
def Act.step (s : State T) : Act T → Option (State T)
  | .read t =>
      if s.stage t = .idle ∧ s.node.seq ≠ 1#64 then some (s.to t (.read s.node.seq)) else none
  | .lock t =>
      match s.stage t with
      | .read seq =>
          if s.node.lock ≠ 0#64 then some (s.to t .ended)
          else
            let s := { s with node := { s.node with lock := content t } }
            if s.node.seq ≠ seq then some (s.to t .failed) else some (s.to t (.locked seq))
      | _ => none
  | .commitLocal t addr =>
      match s.stage t with
      | .locked seq =>
          match s.node.commitLocalWrite seq addr with
          | .done n => some (s.commit t seq n)
          | _ => none
      | _ => none
  | .commitRemote t newVal =>
      match s.stage t with
      | .locked seq => some (s.commit t seq (s.node.commitRemote newVal))
      | _ => none
  | .release t =>
      match s.stage t with
      | .locked _ | .failed => some ({ s with node := { s.node with lock := 0#64 } }.to t .ended)
      | _ => none

/-- `commit_rpc_handler2` finds the number 0. -/
def Act.Meets (s : State T) : Act T → Prop
  | .commitRemote _ _ => s.node.seq = 0#64
  | _ => True

/-- The states of the runs from a free record in which every step meets
`ok`. -/
inductive Reached (ok : State T → Act T → Prop) : State T → Prop where
  | start (n : SiNode) (h : n.lock = 0#64) : Reached ok ⟨n, fun _ => .idle, []⟩
  | step {s s' : State T} (h : Reached ok s) (a : Act T) (hok : ok s a)
      (hs : a.step content s = some s') : Reached ok s'

/-! ## What a step does -/

/-- The four kinds of steps, as far as the numbers are concerned. -/
inductive Effect (s : State T) (a : Act T) (s' : State T) : Prop where
  /-- a transaction that does not come to hold the lock -/
  | other (t : T) (stage : Stage) (hnot : ∀ seq, stage ≠ .locked seq) (hfailed : stage ≠ .failed)
      (h : s' = s.to t stage)
  | locks (t : T) (stage : Stage) (hfree : s.node.lock = 0#64)
      (hstage : stage = .locked s.node.seq ∨ stage = .failed)
      (h : s' = { s with node := { s.node with lock := content t } }.to t stage)
  | commits (t : T) (seq : BitVec 64) (n : SiNode) (hlocked : s.stage t = .locked seq)
      (hseq : n.seq = seq + 2#64 ∨
        ((∃ newVal, a = .commitRemote t newVal) ∧ n.seq = 2#64)) (hlock : n.lock = 0#64)
      (h : s' = s.commit t seq n)
  | releases (t : T) (hheld : s.stage t = .failed ∨ ∃ seq, s.stage t = .locked seq)
      (h : s' = { s with node := { s.node with lock := 0#64 } }.to t .ended)

variable {content} {s s' : State T} {a : Act T}

lemma commitLocalWrite_done {n n' : SiNode} {seq : BitVec 64}
    {addr : Option (List (BitVec 8))} (h : n.commitLocalWrite seq addr = .done n') :
    n'.seq = seq + 2#64 ∧ n'.lock = 0#64 := by
  rw [SiNode.commitLocalWrite] at h
  split at h
  · cases h
  · cases h
    exact ⟨rfl, rfl⟩

lemma step_effect (h : a.step content s = some s') : Effect content s a s' := by
  cases a with
  | read t =>
    rw [Act.step] at h
    split at h
    · cases h
      exact .other t (.read s.node.seq) (fun _ => nofun) nofun rfl
    · cases h
  | lock t =>
    rw [Act.step] at h
    split at h
    · split at h
      · cases h
        exact .other t .ended (fun _ => nofun) nofun rfl
      · rename_i hfree
        dsimp only at h
        split at h
        · cases h
          exact .locks t .failed (not_not.mp hfree) (.inr rfl) rfl
        · rename_i hsm
          cases h
          refine .locks t _ (not_not.mp hfree) (.inl ?_) rfl
          rw [not_not.mp hsm]
    · cases h
  | commitLocal t addr =>
    rw [Act.step] at h
    split at h
    · rename_i seq hlocked
      split at h
      · rename_i n hn
        cases h
        obtain ⟨hseq, hlock⟩ := commitLocalWrite_done hn
        exact .commits t seq n hlocked (.inl hseq) hlock rfl
      · cases h
    · cases h
  | commitRemote t newVal =>
    rw [Act.step] at h
    split at h
    · rename_i seq hlocked
      cases h
      exact .commits t seq _ hlocked (.inr ⟨⟨newVal, rfl⟩, rfl⟩) rfl rfl
    · cases h
  | release t =>
    rw [Act.step] at h
    cases hst : s.stage t with
    | idle | read seq | ended =>
      rw [hst] at h
      cases h
    | locked seq =>
      rw [hst] at h
      exact .releases t (.inr ⟨seq, hst⟩) (Option.some.inj h).symm
    | failed =>
      rw [hst] at h
      exact .releases t (.inl hst) (Option.some.inj h).symm

/-! ## The lock -/

/-- Who holds the lock has its content in the record; who has checked still
sees the number it has read. -/
structure Guarded (content : T → BitVec 64) (s : State T) : Prop where
  locked : ∀ t seq, s.stage t = .locked seq → s.node.lock = content t ∧ s.node.seq = seq
  failed : ∀ t, s.stage t = .failed → s.node.lock = content t

variable (hinj : Injective content) (hne : ∀ t, content t ≠ 0#64)
include hinj hne

lemma Guarded.step (h : Guarded content s) (hs : a.step content s = some s') :
    Guarded content s' := by
  -- a transaction other than `t` that holds the lock while `t` does is `t`
  have hhd : ∀ t t' c, s.node.lock = content t → t' ≠ t →
      ¬ (s.stage t' = .locked c ∨ s.stage t' = .failed) := by
    rintro t t' c hlock hne' (hl | hf)
    · exact hne' (hinj ((h.locked t' c hl).1.symm.trans hlock))
    · exact hne' (hinj ((h.failed t' hf).symm.trans hlock))
  have hfrd : ∀ t' c, s.node.lock = 0#64 → ¬ (s.stage t' = .locked c ∨ s.stage t' = .failed) := by
    rintro t' c hlock (hl | hf)
    · exact hne t' ((h.locked t' c hl).1.symm.trans hlock)
    · exact hne t' ((h.failed t' hf).symm.trans hlock)
  cases step_effect hs with
  | other t stage hnot hfailed heq =>
    subst heq
    refine ⟨fun t' seq ht' => ?_, fun t' ht' => ?_⟩
    · by_cases heq : t' = t
      · rw [heq, State.to_self] at ht'
        exact absurd ht' (hnot seq)
      · rw [State.to_of_ne _ heq] at ht'
        exact h.locked t' seq ht'
    · by_cases heq : t' = t
      · rw [heq, State.to_self] at ht'
        exact absurd ht' hfailed
      · rw [State.to_of_ne _ heq] at ht'
        exact h.failed t' ht'
  | locks t stage hfree hstage heq =>
    subst heq
    refine ⟨fun t' seq ht' => ?_, fun t' ht' => ?_⟩
    · by_cases heq : t' = t
      · subst heq
        rw [State.to_self] at ht'
        refine ⟨rfl, ?_⟩
        rcases hstage with hst | hst
        · rw [hst] at ht'
          exact Stage.locked.inj ht'
        · rw [hst] at ht'
          cases ht'
      · rw [State.to_of_ne _ heq] at ht'
        exact absurd (.inl ht') (hfrd t' seq hfree)
    · by_cases heq : t' = t
      · rw [heq]
        rfl
      · rw [State.to_of_ne _ heq] at ht'
        exact absurd (.inr ht') (hfrd t' 0#64 hfree)
  | commits t seq n hlocked _ _ heq =>
    subst heq
    have hlock := (h.locked t seq hlocked).1
    refine ⟨fun t' seq' ht' => ?_, fun t' ht' => ?_⟩
    · by_cases heq : t' = t
      · rw [heq, State.commit_self] at ht'
        cases ht'
      · rw [State.commit_of_ne _ heq] at ht'
        exact absurd (.inl ht') (hhd t t' seq' hlock heq)
    · by_cases heq : t' = t
      · rw [heq, State.commit_self] at ht'
        cases ht'
      · rw [State.commit_of_ne _ heq] at ht'
        exact absurd (.inr ht') (hhd t t' 0#64 hlock heq)
  | releases t hheld heq =>
    subst heq
    have hlock : s.node.lock = content t :=
      hheld.elim (h.failed t) fun ⟨seq, hl⟩ => (h.locked t seq hl).1
    refine ⟨fun t' seq' ht' => ?_, fun t' ht' => ?_⟩
    · by_cases heq : t' = t
      · rw [heq, State.to_self] at ht'
        cases ht'
      · rw [State.to_of_ne _ heq] at ht'
        exact absurd (.inl ht') (hhd t t' seq' hlock heq)
    · by_cases heq : t' = t
      · rw [heq, State.to_self] at ht'
        cases ht'
      · rw [State.to_of_ne _ heq] at ht'
        exact absurd (.inr ht') (hhd t t' 0#64 hlock heq)

lemma Reached.guarded {ok : State T → Act T → Prop} (h : Reached content ok s) :
    Guarded content s := by
  induction h with
  | start n _ => exact ⟨fun _ _ => nofun, fun _ => nofun⟩
  | step _ a _ hs ih => exact ih.step hinj hne hs

omit hinj hne in
/-- The `i`-th commit of a record that starts with number `seq0`. -/
def nthEntry (seq0 : BitVec 64) (i : ℕ) : Entry :=
  ⟨seq0 + BitVec.ofNat 64 (2 * i), seq0 + BitVec.ofNat 64 (2 * (i + 1))⟩

lemma Reached.log_eq (h : Reached content Act.Meets s) :
    ∃ seq0, s.node.seq = seq0 + BitVec.ofNat 64 (2 * s.log.length) ∧
      s.log = (range s.log.length).map (nthEntry seq0) := by
  induction h with
  | start n _ => exact ⟨n.seq, by simp, rfl⟩
  | @step s s' h a hok hs ih =>
    obtain ⟨seq0, hseq, hlog⟩ := ih
    refine ⟨seq0, ?_⟩
    cases step_effect hs with
    | other t stage _ _ heq | locks t stage _ _ heq | releases t _ heq =>
      subst heq
      exact ⟨hseq, hlog⟩
    | commits t seq n hlocked hnew _ heq =>
      subst heq
      have hrd : s.node.seq = seq := ((h.guarded hinj hne).locked t seq hlocked).2
      have had : n.seq = seq + 2#64 := by
        rcases hnew with hnew | ⟨⟨newVal, rfl⟩, hnew⟩
        · exact hnew
        · have hz : s.node.seq = 0#64 := hok
          rw [hnew, ← hrd, hz]
          rfl
      have hnx : n.seq = seq0 + BitVec.ofNat 64 (2 * (s.log.length + 1)) := by
        rw [had, ← hrd, hseq, mul_add, BitVec.ofNat_add, BitVec.add_assoc]
      constructor
      · rw [State.commit, length_append, length_singleton]
        exact hnx
      · rw [State.commit, length_append, length_singleton, range_succ,
          map_append, ← hlog, ← hrd, hseq, hnx]
        rfl

omit hinj hne in
lemma seqs_injective (seq0 : BitVec 64) {i j : ℕ} (hi : i < 2 ^ 63) (hj : j < 2 ^ 63)
    (h : seq0 + BitVec.ofNat 64 (2 * i) = seq0 + BitVec.ofNat 64 (2 * j)) : i = j := by
  have hnat := congrArg BitVec.toNat ((BitVec.add_right_inj seq0).mp h)
  simp only [BitVec.toNat_ofNat] at hnat
  omega

/-- **No number comes back** in a run in which `commit_rpc_handler2` only meets
records with number 0, for fewer than 2⁶³ commits: the numbers after any two
commits differ, and so do the numbers that the committing transactions had
read. -/
theorem no_lost_update (s : State T) (h : Reached content Act.Meets s)
    (hcommits : s.log.length < 2 ^ 63) :
    (s.log.map Entry.seq).Nodup ∧ (s.log.map Entry.readSeq).Nodup := by
  obtain ⟨seq0, -, hlog⟩ := h.log_eq hinj hne
  rw [hlog, map_map, map_map]
  constructor
  · refine Nodup.map_on (fun i hi j hj hij => ?_) nodup_range
    have hi' := mem_range.mp hi
    have hj' := mem_range.mp hj
    have hsc : i + 1 = j + 1 := seqs_injective seq0 (by omega) (by omega) hij
    omega
  · refine Nodup.map_on (fun i hi j hj hij => ?_) nodup_range
    have hi' := mem_range.mp hi
    have hj' := mem_range.mp hj
    exact seqs_injective seq0 (by omega) (by omega) hij

end

/-- Two transactions with lock contents 1 and 2. -/
def twoContents : Bool → BitVec 64 := fun t => if t then 2#64 else 1#64

lemma twoContents_injective : Injective twoContents := by
  intro t t' h
  revert t t'
  decide

/-- Both read number 4. The first commits; the check of the second fails, and it
releases the record. -/
theorem no_lost_update_stale : Injective twoContents ∧ (∀ t, twoContents t ≠ 0#64) ∧
      ∃ s, Reached twoContents Act.Meets s ∧ s.stage true = .ended ∧ s.stage false = .ended ∧
        s.node.lock = 0#64 ∧ s.log = [⟨4#64, 6#64⟩] ∧
        (s.log.map Entry.seq).Nodup ∧ (s.log.map Entry.readSeq).Nodup := by
  have hinj := twoContents_injective
  have hne : ∀ t, twoContents t ≠ 0#64 := by decide
  have h0 : Reached twoContents Act.Meets ⟨⟨0#64, 4#64, some [1#8], []⟩, fun _ => .idle, []⟩ :=
    .start _ rfl
  have h1 := h0.step (.read true) trivial rfl
  have h2 := h1.step (.read false) trivial rfl
  have h3 := h2.step (.lock true) trivial rfl
  have h4 := h3.step (.commitLocal true (some [2#8])) trivial rfl
  have h5 := h4.step (.lock false) trivial rfl
  have h6 := h5.step (.release false) trivial rfl
  exact ⟨hinj, hne, _, h6, rfl, rfl, rfl, rfl, no_lost_update hinj hne _ h6 (by decide)⟩

/-- Two transactions read number 2, and both commit through
`commit_rpc_handler2`. -/
theorem update_lost : ¬ ∀ (content : Bool → BitVec 64) (s : State Bool), Injective content →
        (∀ t, content t ≠ 0#64) → Reached content (fun _ _ => True) s →
        s.log.length < 2 ^ 63 →
        (s.log.map Entry.seq).Nodup ∧ (s.log.map Entry.readSeq).Nodup := by
  intro hall
  have h0 : Reached twoContents (fun _ _ => True)
      ⟨⟨0#64, 2#64, some [1#8], []⟩, fun _ => .idle, []⟩ := .start _ rfl
  have h1 := h0.step (.read true) trivial rfl
  have h2 := h1.step (.read false) trivial rfl
  have h3 := h2.step (.lock true) trivial rfl
  have h4 := h3.step (.commitRemote true (some [2#8])) trivial rfl
  have h5 := h4.step (.lock false) trivial rfl
  have h6 := h5.step (.commitRemote false (some [3#8])) trivial rfl
  have h := hall twoContents _ twoContents_injective (by decide) h6 (by decide)
  exact absurd h.1 (by decide)

end DbsiSeq

end Librdpma.Drtmh
