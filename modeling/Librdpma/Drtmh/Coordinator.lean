import Librdpma.Drtmh.LockWrites
import Librdpma.Lib.Occ

/-!
# Committing a transaction by messages

RTX and DBTX end a transaction in the same rounds: lock the records to be
written, validate those that were read, write back, or release the locks after a
failure. In each round a message goes to every node concerned, and the
coordinator goes on when all answers are there. A handler call is one step, so
that the messages of different coroutines are handled in any order.

What the transaction does before it commits, which items it sends, and how a read
is validated is left to a `Protocol`.
-/

namespace Librdpma.Drtmh

open Lib Function

section Handlers

variable {V : Type}

/-- The loop of a validation handler at node `responseNode`. -/
def validateItems (valid : BitVec 64 → MemNode V → Bool) (responseNode : ℕ) :
    List RtxLockItem → Store V → Bool
  | [], _ => true
  | item :: rest, s =>
      if item.rid.pid ≠ responseNode then validateItems valid responseNode rest s
      else if valid item.seq (s item.rid) = false then false
      else validateItems valid responseNode rest s

/-- The loop of `release_rpc_handler`. -/
def releaseItems (lockContent : BitVec 64) (responseNode : ℕ) :
    List RtxLockItem → Store V → Store V
  | [], s => s
  | item :: rest, s =>
      if item.rid.pid ≠ responseNode then releaseItems lockContent responseNode rest s
      else releaseItems lockContent responseNode rest
        (update s item.rid ((s item.rid).localTryReleaseOp lockContent).2)

/-- Writing the records of a commit message. -/
def writeItems : List (RecordId × V) → Store V → Store V
  | [], s => s
  | e :: rest, s => writeItems rest (update s e.1 ((s e.1).inplaceWriteOp e.2))

lemma validateItems_eq_true {valid : BitVec 64 → MemNode V → Bool} {p : ℕ}
    {items : List RtxLockItem} {s : Store V} :
    validateItems valid p items s = true ↔
      ∀ it ∈ items, it.rid.pid = p → valid it.seq (s it.rid) = true := by
  induction items with
  | nil => exact ⟨fun _ => nofun, fun _ => rfl⟩
  | cons it rest ih =>
    rw [validateItems, List.forall_mem_cons]
    by_cases hp : it.rid.pid = p
    · rw [if_neg (not_not.mpr hp)]
      by_cases hval : valid it.seq (s it.rid) = true
      · rw [if_neg (by rw [hval]; nofun), ih]
        exact ⟨fun h => ⟨fun _ => hval, h⟩, And.right⟩
      · rw [if_pos (Bool.eq_false_iff.mpr hval)]
        exact ⟨nofun, fun h => absurd (h.1 hp) hval⟩
    · rw [if_pos hp, ih]
      exact ⟨fun h => ⟨fun heq => absurd heq hp, h⟩, And.right⟩

end Handlers

/-! ## The machine -/

/-- The parts that differ. `L` is what a coroutine knows of its transaction, `A`
what it can do before it commits. -/
structure Protocol (L A V : Type) where
  start : L
  exec : A → Store V → L → Option L
  /-- no answer is missing -/
  ready : L → Bool
  /-- the values read, in the order in which they came -/
  seen : L → List (RecordId × V)
  lockBatch : L → List RtxLockItem
  validateBatch : L → List RtxLockItem
  /-- the new values of the records of the lock batch -/
  writes : L → List (RecordId × V)
  commitMsgs : L → List (List (RecordId × V))
  valid : BitVec 64 → MemNode V → Bool

/-- How far a coroutine is. `todo` are the nodes, or messages, of the round that
have not been served yet, and `ok` says that no answer so far was a failure. -/
inductive Stage (V : Type) : Type where
  | running
  | locking (todo : List ℕ) (ok : Bool)
  | validating (todo : List ℕ) (ok : Bool)
  | committing (todo : List (List (RecordId × V)))
  | releasing (todo : List ℕ)

/-- The `i`-th commit message that has not been served yet. -/
def Stage.message {V : Type} (stage : Stage V) (i : ℕ) : List (RecordId × V) :=
  match stage with
  | .committing todo => todo[i]?.getD []
  | _ => []

/-- A coroutine runs one transaction after the other. -/
structure Coroutine (L V : Type) where
  num : ℕ
  loc : L
  stage : Stage V

structure System (C L V : Type) where
  store : Store V
  cor : C → Coroutine L V
  /-- the transactions that have passed validation -/
  committed : List (Occ.Txn RecordId V)

inductive Act (C A : Type) : Type where
  | exec (c : C) (a : A)
  | commit (c : C)
  | lockMsg (c : C) (p : ℕ)
  | lockDone (c : C)
  | validateMsg (c : C) (p : ℕ)
  | validateDone (c : C)
  | commitMsg (c : C) (i : ℕ)
  | releaseMsg (c : C) (p : ℕ)
  | next (c : C)

def writeMap {V : Type} (ws : List (RecordId × V)) (x : RecordId) : Option V :=
  (ws.find? fun e => e.1 = x).map Prod.snd

variable {C L A V : Type} [DecidableEq C]

def System.setCor (σ : System C L V) (c : C) (k : Coroutine L V) : System C L V :=
  { σ with cor := update σ.cor c k }

def System.setStage (σ : System C L V) (c : C) (stage : Stage V) : System C L V :=
  σ.setCor c { σ.cor c with stage := stage }

def Protocol.lockRids (P : Protocol L A V) (l : L) : List RecordId :=
  (P.lockBatch l).map RtxLockItem.rid

/-- What a coroutine puts on record when its transaction has passed. -/
def Protocol.txn (P : Protocol L A V) (l : L) : Occ.Txn RecordId V :=
  ⟨P.seen l, writeMap (P.writes l)⟩

/-- One step. `none` if it is not its turn. -/
def Protocol.step (P : Protocol L A V) (content : C → BitVec 64) (σ : System C L V) :
    Act C A → Option (System C L V)
  | .exec c a =>
      match (σ.cor c).stage, P.exec a σ.store (σ.cor c).loc with
      | .running, some loc => some (σ.setCor c { σ.cor c with loc := loc })
      | _, _ => none
  | .commit c =>
      match (σ.cor c).stage with
      | .running =>
          if P.ready (σ.cor c).loc then
            some (σ.setStage c (.locking (macSet (P.lockBatch (σ.cor c).loc)) true))
          else none
      | _ => none
  | .lockMsg c p =>
      match (σ.cor c).stage with
      | .locking todo ok =>
          if p ∈ todo then
            let r := lockRpcHandler (content c) p (P.lockBatch (σ.cor c).loc) σ.store
            some ({ σ with store := r.2 }.setStage c
              (.locking (todo.filter fun q => q ≠ p) (ok && r.1)))
          else none
      | _ => none
  | .lockDone c =>
      match (σ.cor c).stage with
      | .locking [] true =>
          some (σ.setStage c (.validating (macSet (P.validateBatch (σ.cor c).loc)) true))
      | .locking [] false =>
          some (σ.setStage c (.releasing (macSet (P.lockBatch (σ.cor c).loc))))
      | _ => none
  | .validateMsg c p =>
      match (σ.cor c).stage with
      | .validating todo ok =>
          if p ∈ todo then
            let r := validateItems P.valid p (sentItems (P.validateBatch (σ.cor c).loc)) σ.store
            some (σ.setStage c (.validating (todo.filter fun q => q ≠ p) (ok && r)))
          else none
      | _ => none
  | .validateDone c =>
      match (σ.cor c).stage with
      | .validating [] true =>
          some ({ σ with committed := σ.committed ++ [P.txn (σ.cor c).loc] }.setStage c
            (.committing (P.commitMsgs (σ.cor c).loc)))
      | .validating [] false =>
          some (σ.setStage c (.releasing (macSet (P.lockBatch (σ.cor c).loc))))
      | _ => none
  | .commitMsg c i =>
      match (σ.cor c).stage with
      | .committing todo =>
          match todo[i]? with
          | some msg =>
              some ({ σ with store := writeItems msg σ.store }.setStage c
                (.committing (todo.eraseIdx i)))
          | none => none
      | _ => none
  | .releaseMsg c p =>
      match (σ.cor c).stage with
      | .releasing todo =>
          if p ∈ todo then
            let s := releaseItems (content c) p (sentItems (P.lockBatch (σ.cor c).loc)) σ.store
            some ({ σ with store := s }.setStage c (.releasing (todo.filter fun q => q ≠ p)))
          else none
      | _ => none
  | .next c =>
      match (σ.cor c).stage with
      | .committing [] => some (σ.setCor c ⟨(σ.cor c).num + 1, P.start, .running⟩)
      | .releasing [] => some (σ.setCor c ⟨(σ.cor c).num + 1, P.start, .running⟩)
      | _ => none

def Protocol.begin (P : Protocol L A V) (C : Type) (s0 : Store V) : System C L V :=
  ⟨s0, fun _ => ⟨0, P.start, .running⟩, []⟩

/-- The states of the runs from `s0` in which every step meets `ok`. -/
inductive Protocol.Reached (P : Protocol L A V) (content : C → BitVec 64)
    (ok : System C L V → Act C A → Prop) (s0 : Store V) : System C L V → Prop where
  | start : P.Reached content ok s0 (P.begin C s0)
  | step {σ σ' : System C L V} (h : P.Reached content ok s0 σ) (a : Act C A) (hok : ok σ a)
      (hs : P.step content σ a = some σ') : P.Reached content ok s0 σ'

/-- The state after the given steps, if each has its turn and meets `ok`. -/
def Protocol.run (P : Protocol L A V) (content : C → BitVec 64)
    (ok : System C L V → Act C A → Prop) [∀ σ a, Decidable (ok σ a)] :
    List (Act C A) → System C L V → Option (System C L V)
  | [], σ => some σ
  | a :: rest, σ =>
      if ok σ a then (P.step content σ a).bind (P.run content ok rest) else none

lemma Protocol.Reached.of_run {P : Protocol L A V} {content : C → BitVec 64}
    {ok : System C L V → Act C A → Prop} [∀ σ a, Decidable (ok σ a)] {s0 : Store V}
    {acts : List (Act C A)} {σ σ' : System C L V} (h : P.Reached content ok s0 σ)
    (hrun : P.run content ok acts σ = some σ') : P.Reached content ok s0 σ' := by
  induction acts generalizing σ with
  | nil =>
    cases hrun
    exact h
  | cons a rest ih =>
    rw [Protocol.run] at hrun
    split at hrun
    · rename_i hok
      obtain ⟨σ1, hs, hrs⟩ := Option.bind_eq_some_iff.mp hrun
      exact ih (h.step a hok hs) hrs
    · cases hrun

/-- Some order of the committed transactions gives each the values it has read
and leaves the records that no coroutine has yet to write. -/
def System.Serializable (s0 : Store V) (σ : System C L V) : Prop :=
  ∃ l : List (Occ.Txn RecordId V), l.Perm σ.committed ∧ Occ.Serial (fun x => (s0 x).value) l ∧
    ∀ x, (∀ c todo, (σ.cor c).stage = .committing todo → x ∉ todo.flatten.map Prod.fst) →
      Occ.replay (fun x => (s0 x).value) l x = (σ.store x).value

omit [DecidableEq C] in
lemma System.not_serializable_of_two {s0 : Store V} {σ : System C L V}
    {t u : Occ.Txn RecordId V} (hcom : σ.committed = [t, u])
    (htu : ∃ r ∈ u.reads, Occ.replay (fun x => (s0 x).value) [t] r.1 ≠ r.2)
    (hut : (∃ r ∈ t.reads, Occ.replay (fun x => (s0 x).value) [u] r.1 ≠ r.2) ∨
      ∃ r ∈ u.reads, (s0 r.1).value ≠ r.2) : ¬ σ.Serializable s0 := by
  rintro ⟨l, hperm, hser, -⟩
  rw [hcom, List.perm_pair] at hperm
  rcases hperm with rfl | rfl
  · obtain ⟨r, hr, hne⟩ := htu
    exact hne (hser [t] u [] rfl r hr)
  · rcases hut with ⟨r, hr, hne⟩ | ⟨r, hr, hne⟩
    · exact hne (hser [u] t [] rfl r hr)
    · exact hne (hser [] u [t] rfl r hr)

/-- The lock contents of the first two coroutines of a thread. -/
def twoCoroutines (c : Bool) : BitVec 64 := encodeLockContent 0 0 (if c then 2 else 1)

lemma twoCoroutines_injective : Injective twoCoroutines := by
  intro c c' h
  revert c c'
  decide

/-! ## What is asked of a protocol -/

/-- The conditions on a step: batches of at most 127 items, no validated record
that another coroutine has locked, no sequence number that wraps round, and
`okExec` before the commit. -/
def Protocol.Meets (P : Protocol L A V) (content : C → BitVec 64)
    (okExec : Store V → L → A → Prop) (σ : System C L V) : Act C A → Prop
  | .exec c a => okExec σ.store (σ.cor c).loc a
  | .commit c => (P.lockBatch (σ.cor c).loc).length ≤ 127 ∧
      (P.validateBatch (σ.cor c).loc).length ≤ 127
  | .validateMsg c p => ∀ it ∈ P.validateBatch (σ.cor c).loc, it.rid.pid = p →
      P.valid it.seq (σ.store it.rid) = true →
      (σ.store it.rid).lock = 0#64 ∨ (σ.store it.rid).lock = content c
  | .commitMsg c i => ∀ e ∈ (σ.cor c).stage.message i, (σ.store e.1).seq.toNat + 2 < 2 ^ 64
  | _ => True

/-- `Tracks l R` says that the transaction has read the records of `R`, each with
the sequence number it then had; a read that is not checked by the locks or by
the validation then has a record that is locked twice. -/
structure Protocol.Lawful (P : Protocol L A V) (okExec : Store V → L → A → Prop)
    (Tracks : L → List (RecordId × ℕ) → Prop) : Prop where
  valid_seq : ∀ seq n, P.valid seq n = true → n.seq = seq
  writes_rids : ∀ l, (P.writes l).map Prod.fst = P.lockRids l
  commit_perm : ∀ l, (P.commitMsgs l).flatten.Perm (P.writes l)
  seen_start : P.seen P.start = []
  tracks_start : Tracks P.start []
  tracks_exec : ∀ a s l l' R, okExec s l a → P.exec a s l = some l' → Tracks l R →
    ∃ new : List RecordId, P.seen l' = P.seen l ++ new.map (fun x => (x, (s x).value)) ∧
      Tracks l' (R ++ new.map fun x => (x, (s x).seq.toNat))
  covered : ∀ l R, Tracks l R → (P.lockRids l).Nodup → ∀ r ∈ R,
    ∃ it ∈ P.lockBatch l ++ P.validateBatch l, it.rid = r.1 ∧ it.seq.toNat ≤ r.2

end Librdpma.Drtmh
