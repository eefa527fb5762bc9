import Librdpma.Drtmh.Record

/-!
# Local records in DBTX (`src/db/txs/dbtx.cc`)

`DBTX::end` deals with the records of its own node through `RWSet`: `LockAllSet`
locks every item that is not read-only and compares its number, and
`CommitLocalWrite` writes these items back. `CheckLocalSet`, which compares the
numbers of the items that are only read, stands in `end` under `#if 0`, as does
`ReadSet::Validate`.

Any number of coroutines run transactions on the records of one node, one item
at a time. Next to each record we count the writes installed in it, and next to
each item how many there were when it was added. The two locks and checks of
`end` that go to other nodes are only seen through what they return, and what the
handlers write into these records for transactions of other nodes is not in the
machine.
-/

namespace Librdpma.Drtmh.DbtxLocal

open List Function

/-- `RWSetItem`; `seen` is the count of writes at the time of the read. -/
structure Item (R V : Type) where
  node : R
  addr : Option V
  seq : BitVec 64
  ro : Bool
  seen : ℕ

/-- How far a transaction is. The loops over the items keep what is left. -/
inductive Stage (R V : Type) : Type where
  | running
  /-- `LockAllSet` behind the items `past` -/
  | locking (past todo : List (Item R V))
  /-- `validate_remote` -/
  | validating
  /-- `CommitLocalWrite` -/
  | committing (todo : List (Item R V))
  /-- inside `CommitLocalWrite`, between the two stores to `seq` -/
  | installing (item : Item R V) (todo : List (Item R V))
  /-- `ReleaseAllSet` -/
  | releasing (todo : List (Item R V))
  | ended (result : Bool)

structure Tx (R V : Type) where
  items : List (Item R V)
  stage : Stage R V

structure State (T R V : Type) where
  node : R → MemNode (Option V)
  tx : T → Tx R V
  /-- the writes installed so far -/
  writes : R → ℕ

inductive Act (T R V : Type) : Type where
  | begin (t : T)
  | get (t : T) (r : R)
  | getRo (t : T) (r : R)
  /-- `write(tableid, key, ..)` with the contents of the buffer -/
  | write (t : T) (r : R) (addr : Option V)
  /-- `write()`, on the last item -/
  | writeLast (t : T) (addr : Option V)
  | insert (t : T) (r : R) (addr : Option V)
  | delete (t : T) (r : R)
  /-- `end` is called, `lock_remote` returns the flag -/
  | callEnd (t : T) (lockRemote : Bool)
  | lock (t : T)
  | validate (t : T) (validateRemote : Bool)
  | commit (t : T)
  | install (t : T)
  | release (t : T)

section

variable {T R V : Type} [DecidableEq T] [DecidableEq R] (content : T → BitVec 64)

def Tx.fresh : Tx R V := ⟨[], .running⟩

/-- The first item of the record is no longer read-only. -/
def setWritten (r : R) (addr : Option V) : List (Item R V) → Option (List (Item R V))
  | [] => none
  | it :: rest =>
      if it.node = r then some ({ it with ro := false, addr := addr } :: rest)
      else (setWritten r addr rest).map (it :: ·)

def State.setTx (s : State T R V) (t : T) (x : Tx R V) : State T R V :=
  { s with tx := update s.tx t x }

def State.setNode (s : State T R V) (r : R) (n : MemNode (Option V)) : State T R V :=
  { s with node := update s.node r n }

/-- The item that an access to `r` adds. -/
def State.item (s : State T R V) (r : R) (addr : Option V) (ro : Bool) : Item R V :=
  { node := r, addr := addr, seq := (s.node r).seq, ro := ro, seen := s.writes r }

def State.add (s : State T R V) (t : T) (it : Item R V) : State T R V :=
  s.setTx t { s.tx t with items := (s.tx t).items ++ [it] }

def State.goto (s : State T R V) (t : T) (stage : Stage R V) : State T R V :=
  s.setTx t { s.tx t with stage := stage }

/-- One round of `LockAllSet`. -/
def State.lockItem (s : State T R V) (t : T) (past : List (Item R V)) (it : Item R V)
    (todo : List (Item R V)) : State T R V :=
  if it.ro then s.goto t (.locking (past ++ [it]) todo)
  else if (s.node it.node).lock ≠ 0#64 then s.goto t (.releasing past)
  else
    let s := s.setNode it.node { s.node it.node with lock := content t }
    if (s.node it.node).seq ≠ it.seq then s.goto t (.releasing (past ++ [it]))
    else s.goto t (.locking (past ++ [it]) todo)

/-- One round of `ReleaseAllSet`. -/
def State.releaseItem (s : State T R V) (t : T) (it : Item R V) (todo : List (Item R V)) :
    State T R V :=
  let s := s.goto t (.releasing todo)
  if it.ro = false ∧ (s.node it.node).lock = content t then
    s.setNode it.node { s.node it.node with lock := 0#64 }
  else s

/-- The second half of a round of `CommitLocalWrite`. -/
def State.installItem (s : State T R V) (t : T) (it : Item R V) (todo : List (Item R V)) :
    State T R V :=
  { (s.setNode it.node { lock := 0#64, seq := it.seq + 2#64, value := it.addr }).goto t
      (.committing todo) with
    writes := update s.writes it.node (s.writes it.node + 1) }

/-- `get` asserts that there is a value and waits while the number is 1; `get_ro`
returns when there is no value; a `write` to a record that is not in the set ends
the process. -/
def Act.step (s : State T R V) : Act T R V → Option (State T R V)
  | .begin t =>
      match (s.tx t).stage with
      | .ended _ => some (s.setTx t Tx.fresh)
      | _ => none
  | .get t r =>
      match (s.tx t).stage with
      | .running =>
          if (s.node r).value = none ∨ (s.node r).seq = 1#64 then none
          else some (s.add t (s.item r (s.node r).value true))
      | _ => none
  | .getRo t r =>
      match (s.tx t).stage with
      | .running =>
          if (s.node r).value = none then some s
          else if (s.node r).seq = 1#64 then none
          else some (s.add t (s.item r none true))
      | _ => none
  | .write t r addr =>
      match (s.tx t).stage with
      | .running =>
          (setWritten r addr (s.tx t).items).map fun items => s.setTx t ⟨items, .running⟩
      | _ => none
  | .writeLast t addr =>
      match (s.tx t).stage, (s.tx t).items.getLast? with
      | .running, some it =>
          some (s.setTx t
            ⟨(s.tx t).items.dropLast ++ [{ it with ro := false, addr := addr }], .running⟩)
      | _, _ => none
  | .insert t r addr =>
      match (s.tx t).stage with
      | .running => some (s.add t (s.item r addr false))
      | _ => none
  | .delete t r =>
      match (s.tx t).stage with
      | .running =>
          match setWritten r none (s.tx t).items with
          | some items => some (s.setTx t ⟨items, .running⟩)
          | none => some (s.add t (s.item r none false))
      | _ => none
  | .callEnd t lockRemote =>
      match (s.tx t).stage with
      | .running =>
          some (s.goto t (if lockRemote then .locking [] (s.tx t).items else .releasing []))
      | _ => none
  | .lock t =>
      match (s.tx t).stage with
      | .locking _ [] => some (s.goto t .validating)
      | .locking past (it :: todo) => some (s.lockItem content t past it todo)
      | _ => none
  | .validate t validateRemote =>
      match (s.tx t).stage with
      | .validating =>
          some (s.goto t
            (if validateRemote then .committing (s.tx t).items else .releasing (s.tx t).items))
      | _ => none
  | .commit t =>
      match (s.tx t).stage with
      | .committing [] => some (s.goto t (.ended true))
      | .committing (it :: todo) =>
          if it.ro then some (s.goto t (.committing todo))
          else some ((s.setNode it.node { s.node it.node with seq := 1#64 }).goto t
            (.installing it todo))
      | _ => none
  | .install t =>
      match (s.tx t).stage with
      | .installing it todo => some (s.installItem t it todo)
      | _ => none
  | .release t =>
      match (s.tx t).stage with
      | .releasing [] => some (s.goto t (.ended false))
      | .releasing (it :: todo) => some (s.releaseItem content t it todo)
      | _ => none

/-- The states of the runs from unlocked records. -/
inductive Reached : State T R V → Prop where
  | start (node : R → MemNode (Option V)) (hlock : ∀ r, (node r).lock = 0#64) :
      Reached ⟨node, fun _ => Tx.fresh, fun _ => 0⟩
  | step {s s' : State T R V} (h : Reached s) (a : Act T R V)
      (hs : a.step content s = some s') : Reached s'

/-! ## What a step does -/

/-- The items that a transaction has locked and not yet begun to write. -/
def Tx.held (x : Tx R V) : List (Item R V) :=
  match x.stage with
  | .locking past _ => past.filter fun it => !it.ro
  | .validating => x.items.filter fun it => !it.ro
  | .committing todo => todo.filter fun it => !it.ro
  | .installing _ todo => todo.filter fun it => !it.ro
  | _ => []

/-- The item whose record has the number 1. -/
def Tx.marked (x : Tx R V) : Option (Item R V) :=
  match x.stage with
  | .installing it _ => some it
  | _ => none

/-- `LockAllSet` goes through the items in their order. -/
def Tx.InOrder (x : Tx R V) : Prop :=
  ∀ past todo, x.stage = .locking past todo → past ++ todo = x.items

omit [DecidableEq R] in
lemma inOrder_of {items : List (Item R V)} {stage : Stage R V}
    (h : ∀ past todo, stage ≠ .locking past todo) : (⟨items, stage⟩ : Tx R V).InOrder :=
  fun past todo he => absurd he (h past todo)

/-- What is known of an item of the new list of a transaction. -/
def Keeps (s : State T R V) (old : List (Item R V)) (it : Item R V) : Prop :=
  (∃ it0 ∈ old, it0.node = it.node ∧ it0.seq = it.seq ∧ it0.seen = it.seen ∧
    (it.ro = true → it0.ro = true)) ∨
  (it.seq = (s.node it.node).seq ∧ it.seen = s.writes it.node ∧ (it.ro = true → it.seq ≠ 1#64))

/-- The kinds of steps, as far as locks and numbers are concerned. -/
inductive Effect (s : State T R V) (s' : State T R V) : Prop where
  | nothing (h : s' = s)
  /-- an access, or the next transaction -/
  | items (t : T) (items : List (Item R V))
      (hitems : ∀ it ∈ items, Keeps s (s.tx t).items it) (hmarked : (s.tx t).marked = none)
      (h : s' = s.setTx t ⟨items, .running⟩)
  /-- the transaction goes on and keeps its locks, or takes no more part -/
  | moves (t : T) (stage : Stage R V)
      (hheld : (⟨(s.tx t).items, stage⟩ : Tx R V).held = (s.tx t).held ∨
        (⟨(s.tx t).items, stage⟩ : Tx R V).held = [])
      (hmarked : (s.tx t).marked = none)
      (hmarked' : (⟨(s.tx t).items, stage⟩ : Tx R V).marked = none)
      (horder : (⟨(s.tx t).items, stage⟩ : Tx R V).InOrder)
      (h : s' = s.goto t stage)
  | locks (t : T) (it : Item R V) (stage : Stage R V) (hmem : it ∈ (s.tx t).items)
      (hmarked : (s.tx t).marked = none) (hfree : (s.node it.node).lock = 0#64)
      (hheld : ((⟨(s.tx t).items, stage⟩ : Tx R V).held = (s.tx t).held ++ [it] ∧
          (s.node it.node).seq = it.seq) ∨
        (⟨(s.tx t).items, stage⟩ : Tx R V).held = [])
      (hmarked' : (⟨(s.tx t).items, stage⟩ : Tx R V).marked = none)
      (horder : (⟨(s.tx t).items, stage⟩ : Tx R V).InOrder)
      (h : s' = (s.setNode it.node { s.node it.node with lock := content t }).goto t stage)
  | marks (t : T) (it : Item R V) (todo : List (Item R V))
      (hheld : (s.tx t).held = it :: (todo.filter fun it => !it.ro))
      (hmarked : (s.tx t).marked = none)
      (h : s' = (s.setNode it.node { s.node it.node with seq := 1#64 }).goto t
        (.installing it todo))
  | installs (t : T) (it : Item R V) (todo : List (Item R V))
      (hstage : (s.tx t).stage = .installing it todo) (h : s' = s.installItem t it todo)
  | unlocks (t : T) (r : R) (todo : List (Item R V)) (hheld : (s.tx t).held = [])
      (hmarked : (s.tx t).marked = none) (hlock : (s.node r).lock = content t)
      (h : s' = (s.setNode r { s.node r with lock := 0#64 }).goto t (.releasing todo))

variable {content} {s s' : State T R V} {a : Act T R V} {t : T} {r : R} {addr : Option V}
  {it : Item R V} {past todo : List (Item R V)}

lemma setWritten_mem {items items' : List (Item R V)}
    (h : setWritten r addr items = some items') (hit : it ∈ items') :
    ∃ it0 ∈ items, it0.node = it.node ∧ it0.seq = it.seq ∧ it0.seen = it.seen ∧
      (it.ro = true → it0.ro = true) := by
  induction items generalizing items' with
  | nil => cases h
  | cons it1 rest ih =>
    rw [setWritten] at h
    split at h
    · cases h
      rcases mem_cons.mp hit with rfl | hit
      · exact ⟨it1, mem_cons_self, rfl, rfl, rfl, nofun⟩
      · exact ⟨it, mem_cons_of_mem _ hit, rfl, rfl, rfl, id⟩
    · obtain ⟨rest', hrs, rfl⟩ := Option.map_eq_some_iff.mp h
      rcases mem_cons.mp hit with rfl | hit
      · exact ⟨it, mem_cons_self, rfl, rfl, rfl, id⟩
      · obtain ⟨it0, hmem, hkp⟩ := ih hrs hit
        exact ⟨it0, mem_cons_of_mem _ hmem, hkp⟩

lemma Effect.add {ro : Bool} (hstage : (s.tx t).stage = .running)
    (hro : ro = true → (s.node r).seq ≠ 1#64) :
    Effect content s (s.add t (s.item r addr ro)) := by
  refine .items t ((s.tx t).items ++ [s.item r addr ro]) (fun it hit => ?_) ?_ ?_
  · rcases mem_append.mp hit with hit | hit
    · exact .inl ⟨it, hit, rfl, rfl, rfl, id⟩
    · rw [mem_singleton.mp hit]
      exact .inr ⟨rfl, rfl, hro⟩
  · rw [Tx.marked, hstage]
  · rw [State.add, ← hstage]

lemma lockItem_effect (hstage : (s.tx t).stage = .locking past (it :: todo))
    (horder : (s.tx t).InOrder) : Effect content s (s.lockItem content t past it todo) := by
  have hitems : past ++ it :: todo = (s.tx t).items := horder _ _ hstage
  have hord' : (⟨(s.tx t).items, .locking (past ++ [it]) todo⟩ : Tx R V).InOrder := by
    intro p q hpq
    cases hpq
    rw [← hitems, append_assoc, singleton_append]
  have hmarked : (s.tx t).marked = none := by rw [Tx.marked, hstage]
  rw [State.lockItem]
  split
  · rename_i hro
    refine .moves t _ (.inl ?_) hmarked rfl hord' rfl
    rw [Tx.held, Tx.held, hstage]
    simp [filter_append, hro]
  · rename_i hro
    split
    · exact .moves t _ (.inr rfl) hmarked rfl (inOrder_of (by nofun)) rfl
    · rename_i hfree
      have hmem : it ∈ (s.tx t).items := by
        rw [← hitems]
        exact mem_append_right _ mem_cons_self
      dsimp only
      split
      · exact .locks t it _ hmem hmarked (not_not.mp hfree) (.inr rfl) rfl (inOrder_of (by nofun))
          rfl
      · rename_i hseq
        refine .locks t it _ hmem hmarked (not_not.mp hfree) (.inl ⟨?_, ?_⟩) rfl hord' rfl
        · rw [Tx.held, Tx.held, hstage]
          simp [filter_append, hro]
        · simpa [State.setNode] using hseq

lemma writeLast_effect (h : (Act.writeLast t addr : Act T R V).step content s = some s') :
    Effect content s s' := by
  rw [Act.step] at h
  split at h
  · rename_i it hstage hla
    cases h
    refine .items t _ (fun it' hit => .inl ?_) (by rw [Tx.marked, hstage]) rfl
    rcases mem_append.mp hit with hit | hit
    · exact ⟨it', (dropLast_sublist _).subset hit, rfl, rfl, rfl, id⟩
    · rw [mem_singleton.mp hit]
      exact ⟨it, mem_of_getLast? hla, rfl, rfl, rfl, nofun⟩
  · cases h

lemma delete_effect (h : (Act.delete t r : Act T R V).step content s = some s') :
    Effect content s s' := by
  rw [Act.step] at h
  split at h
  · rename_i hstage
    split at h
    · rename_i items hitems
      cases h
      exact .items t items (fun it hit => .inl (setWritten_mem hitems hit))
        (by rw [Tx.marked, hstage]) rfl
    · cases h
      exact Effect.add hstage nofun
  · cases h

lemma callEnd_effect {lockRemote : Bool}
    (h : (Act.callEnd t lockRemote : Act T R V).step content s = some s') :
    Effect content s s' := by
  rw [Act.step] at h
  split at h
  · rename_i hstage
    cases h
    have hmarked : (s.tx t).marked = none := by rw [Tx.marked, hstage]
    cases lockRemote with
    | true =>
      refine .moves t _ (.inr rfl) hmarked rfl (fun past todo hpq => ?_) rfl
      cases hpq
      rfl
    | false => exact .moves t _ (.inr rfl) hmarked rfl (inOrder_of (by nofun)) rfl
  · cases h

lemma lock_effect (horder : (s.tx t).InOrder)
    (h : (Act.lock t : Act T R V).step content s = some s') :
    Effect content s s' := by
  rw [Act.step] at h
  split at h
  · rename_i past hstage
    cases h
    have hitems := horder _ _ hstage
    rw [append_nil] at hitems
    refine .moves t _ (.inl ?_) (by rw [Tx.marked, hstage]) rfl (inOrder_of (by nofun)) rfl
    rw [Tx.held, Tx.held, hstage, hitems]
  · rename_i past it todo hstage
    cases h
    exact lockItem_effect hstage horder
  · cases h

lemma validate_effect {validateRemote : Bool}
    (h : (Act.validate t validateRemote : Act T R V).step content s = some s') :
    Effect content s s' := by
  rw [Act.step] at h
  split at h
  · rename_i hstage
    cases h
    have hmarked : (s.tx t).marked = none := by rw [Tx.marked, hstage]
    cases validateRemote with
    | true =>
      refine .moves t _ (.inl ?_) hmarked rfl (inOrder_of (by nofun)) rfl
      rw [Tx.held, Tx.held, hstage]
      rfl
    | false => exact .moves t _ (.inr rfl) hmarked rfl (inOrder_of (by nofun)) rfl
  · cases h

lemma commit_effect (h : (Act.commit t : Act T R V).step content s = some s') :
    Effect content s s' := by
  rw [Act.step] at h
  split at h
  · rename_i hstage
    cases h
    exact .moves t _ (.inr rfl) (by rw [Tx.marked, hstage]) rfl (inOrder_of (by nofun)) rfl
  · rename_i it todo hstage
    have hmarked : (s.tx t).marked = none := by rw [Tx.marked, hstage]
    split_ifs at h with hro
    · cases h
      refine .moves t _ (.inl ?_) hmarked rfl (inOrder_of (by nofun)) rfl
      rw [Tx.held, Tx.held, hstage]
      simp [hro]
    · cases h
      refine .marks t it todo ?_ hmarked rfl
      rw [Tx.held, hstage]
      simp [hro]
  · cases h

lemma release_effect (h : (Act.release t : Act T R V).step content s = some s') :
    Effect content s s' := by
  rw [Act.step] at h
  split at h
  · rename_i hstage
    cases h
    exact .moves t _ (.inr rfl) (by rw [Tx.marked, hstage]) rfl (inOrder_of (by nofun)) rfl
  · rename_i it todo hstage
    cases h
    have hmarked : (s.tx t).marked = none := by rw [Tx.marked, hstage]
    rw [State.releaseItem]
    split_ifs with hlock
    · exact .unlocks t it.node todo (by rw [Tx.held, hstage]) hmarked hlock.2 rfl
    · exact .moves t _ (.inr rfl) hmarked rfl (inOrder_of (by nofun)) rfl
  · cases h

lemma step_effect (horder : ∀ t, (s.tx t).InOrder) (h : a.step content s = some s') :
    Effect content s s' := by
  cases a with
  | begin t =>
    rw [Act.step] at h
    split at h
    · rename_i hstage
      cases h
      exact .items t [] nofun (by rw [Tx.marked, hstage]) rfl
    · cases h
  | get t r =>
    rw [Act.step] at h
    split at h
    · rename_i hstage
      split at h
      · cases h
      · rename_i hrd
        cases h
        exact Effect.add hstage fun _ hseq => hrd (.inr hseq)
    · cases h
  | getRo t r =>
    rw [Act.step] at h
    split at h
    · rename_i hstage
      split at h
      · cases h
        exact .nothing rfl
      · split at h
        · cases h
        · rename_i hseq
          cases h
          exact Effect.add hstage fun _ => hseq
    · cases h
  | write t r addr =>
    rw [Act.step] at h
    split at h
    · rename_i hstage
      obtain ⟨items, hitems, rfl⟩ := Option.map_eq_some_iff.mp h
      exact .items t items (fun it hit => .inl (setWritten_mem hitems hit))
        (by rw [Tx.marked, hstage]) rfl
    · cases h
  | writeLast t addr => exact writeLast_effect h
  | insert t r addr =>
    rw [Act.step] at h
    split at h
    · rename_i hstage
      cases h
      exact Effect.add hstage nofun
    · cases h
  | delete t r => exact delete_effect h
  | callEnd t lockRemote => exact callEnd_effect h
  | lock t => exact lock_effect (horder t) h
  | validate t validateRemote => exact validate_effect h
  | commit t => exact commit_effect h
  | install t =>
    rw [Act.step] at h
    split at h
    · rename_i it todo hstage
      cases h
      exact .installs t it todo hstage rfl
    · cases h
  | release t => exact release_effect h

/-! ## Locks and numbers -/

/-- A transaction has the lock content in the records it holds, which still have
the number it has read; the record it is writing has the number 1. -/
structure TxInv (base : R → BitVec 64) (c : BitVec 64) (node : R → MemNode (Option V))
    (writes : R → ℕ) (x : Tx R V) : Prop where
  order : x.InOrder
  read : ∀ it ∈ x.items, it.ro = true → it.seq ≠ 1#64
  seen : ∀ it ∈ x.items, it.seq ≠ 1#64 → it.seen ≤ writes it.node ∧
    it.seq = base it.node + BitVec.ofNat 64 (2 * it.seen)
  held : ∀ it ∈ x.held, (node it.node).lock = c ∧ (node it.node).seq = it.seq
  apart : (x.held.map Item.node).Nodup
  marked : ∀ it, x.marked = some it → (node it.node).lock = c ∧ (node it.node).seq = 1#64 ∧
    it.seq = base it.node + BitVec.ofNat 64 (2 * writes it.node) ∧
    it.node ∉ x.held.map Item.node

/-- Nobody is writing the record. -/
def State.Quiet (s : State T R V) (r : R) : Prop :=
  ∀ t it, (s.tx t).marked = some it → it.node ≠ r

/-- A record that nobody is writing has been advanced by 2 for each write. -/
structure Inv (content : T → BitVec 64) (base : R → BitVec 64) (s : State T R V) : Prop where
  tx : ∀ t, TxInv base (content t) s.node s.writes (s.tx t)
  seq : ∀ r, s.Quiet r → (s.node r).seq = base r + BitVec.ofNat 64 (2 * s.writes r)

section

variable {base : R → BitVec 64} {c : BitVec 64} {node node' : R → MemNode (Option V)}
  {writes writes' : R → ℕ} {x : Tx R V}

omit [DecidableEq R]

lemma TxInv.frame (h : TxInv base c node writes x)
    (hnd : ∀ r, (node r).lock = c → node' r = node r ∧ writes' r = writes r)
    (hle : ∀ r, writes r ≤ writes' r) : TxInv base c node' writes' x where
  order := h.order
  read := h.read
  seen it hit hseq := ⟨Nat.le_trans (h.seen it hit hseq).1 (hle _), (h.seen it hit hseq).2⟩
  held it hit := by
    rw [(hnd _ (h.held it hit).1).1]
    exact h.held it hit
  apart := h.apart
  marked it hit := by
    obtain ⟨hn, hw⟩ := hnd _ (h.marked it hit).1
    rw [hn, hw]
    exact h.marked it hit

lemma TxInv.of_held_nil (horder : x.InOrder) (hrd : ∀ it ∈ x.items, it.ro = true → it.seq ≠ 1#64)
    (hsn : ∀ it ∈ x.items, it.seq ≠ 1#64 → it.seen ≤ writes it.node ∧
      it.seq = base it.node + BitVec.ofNat 64 (2 * it.seen))
    (hheld : x.held = []) (hmarked : x.marked = none) : TxInv base c node writes x where
  order := horder
  read := hrd
  seen := hsn
  held it hit := by
    rw [hheld] at hit
    cases hit
  apart := by
    rw [hheld]
    exact nodup_nil
  marked it hit := by
    rw [hmarked] at hit
    cases hit

/-- The transaction moves on, and one record, which no other transaction holds,
changes. -/
lemma Inv.update (h : Inv content base s) (r : R)
    (hlock : ∀ t', t' ≠ t → (s.node r).lock ≠ content t')
    (hnd : ∀ r', r' ≠ r → node' r' = s.node r' ∧ writes' r' = s.writes r')
    (hle : ∀ r, s.writes r ≤ writes' r) (hx : TxInv base (content t) node' writes' x)
    (hseq : ∀ r, (⟨node', update s.tx t x, writes'⟩ : State T R V).Quiet r →
      (node' r).seq = base r + BitVec.ofNat 64 (2 * writes' r)) :
    Inv content base ⟨node', update s.tx t x, writes'⟩ := by
  refine ⟨fun t' => ?_, hseq⟩
  by_cases heq : t' = t
  · subst heq
    dsimp only
    rw [update_self]
    exact hx
  · dsimp only
    rw [update_of_ne heq]
    refine (h.tx t').frame (fun r' hr' => hnd r' ?_) hle
    rintro rfl
    exact hlock t' heq hr'

lemma Quiet.of_update (hr : ∀ it, (s.tx t).marked = some it → it.node ≠ r)
    (h : (⟨node', update s.tx t x, writes'⟩ : State T R V).Quiet r) : s.Quiet r := by
  intro t' it hit
  by_cases heq : t' = t
  · subst heq
    exact hr it hit
  · refine h t' it ?_
    dsimp only
    rw [update_of_ne heq]
    exact hit

lemma Inv.of_tx (h : Inv content base s) (hx : TxInv base (content t) s.node s.writes x)
    (hmarked : (s.tx t).marked = none) : Inv content base (s.setTx t x) := by
  refine ⟨fun t' => ?_, fun r hr => h.seq r (Quiet.of_update (by rw [hmarked]; nofun) hr)⟩
  by_cases heq : t' = t
  · subst heq
    rw [State.setTx]
    dsimp only
    rw [update_self]
    exact hx
  · rw [State.setTx]
    dsimp only
    rw [update_of_ne heq]
    exact h.tx t'

omit [DecidableEq T] in
/-- A number other than 1 is the one of a record that nobody is writing. -/
lemma Inv.quiet_of_ne (h : Inv content base s) (hseq : (s.node r).seq ≠ 1#64) : s.Quiet r := by
  rintro t it hit rfl
  exact hseq ((h.tx t).marked it hit).2.1

lemma Inv.moves (h : Inv content base s) {stage : Stage R V}
    (hheld : (⟨(s.tx t).items, stage⟩ : Tx R V).held = (s.tx t).held ∨
      (⟨(s.tx t).items, stage⟩ : Tx R V).held = [])
    (hmarked : (s.tx t).marked = none)
    (hmarked' : (⟨(s.tx t).items, stage⟩ : Tx R V).marked = none)
    (horder : (⟨(s.tx t).items, stage⟩ : Tx R V).InOrder) :
    Inv content base (s.goto t stage) := by
  have ht := h.tx t
  refine h.of_tx ?_ hmarked
  rcases hheld with hheld | hheld
  · refine ⟨horder, ht.read, ht.seen, ?_, ?_, fun it hit => ?_⟩
    · rw [hheld]
      exact ht.held
    · rw [hheld]
      exact ht.apart
    · rw [hmarked'] at hit
      cases hit
  · exact .of_held_nil horder ht.read ht.seen hheld hmarked'

lemma Inv.items (h : Inv content base s) {items : List (Item R V)}
    (hitems : ∀ it ∈ items, Keeps s (s.tx t).items it) (hmarked : (s.tx t).marked = none) :
    Inv content base (s.setTx t ⟨items, .running⟩) := by
  have ht := h.tx t
  refine h.of_tx (.of_held_nil (inOrder_of (by nofun)) ?_ ?_ rfl rfl) hmarked
  · intro it hit hro
    rcases hitems it hit with ⟨it0, hmem, -, hseq, -, hro0⟩ | ⟨-, -, hrd⟩
    · rw [← hseq]
      exact ht.read it0 hmem (hro0 hro)
    · exact hrd hro
  · intro it hit hne'
    rcases hitems it hit with ⟨it0, hmem, hnd, hseq, hsn, -⟩ | ⟨hseq, hsn, -⟩
    · rw [← hseq, ← hsn, ← hnd]
      exact ht.seen it0 hmem (hseq ▸ hne')
    · rw [hsn]
      refine ⟨Nat.le_refl _, hseq.trans (h.seq it.node (h.quiet_of_ne ?_))⟩
      rw [← hseq]
      exact hne'

end

variable (hinj : Injective content) (hne : ∀ t, content t ≠ 0#64) {base : R → BitVec 64}

lemma goto_setNode (r : R) (n : MemNode (Option V)) (t : T) (stage : Stage R V) :
    (s.setNode r n).goto t stage = ⟨update s.node r n,
      update s.tx t ⟨(s.tx t).items, stage⟩, s.writes⟩ := rfl

lemma installItem_eq (t : T) (it : Item R V) (todo : List (Item R V)) : s.installItem t it todo =
      ⟨update s.node it.node { lock := 0#64, seq := it.seq + 2#64, value := it.addr },
        update s.tx t ⟨(s.tx t).items, .committing todo⟩,
        update s.writes it.node (s.writes it.node + 1)⟩ := rfl

omit [DecidableEq T] in
lemma seq_update_lock {l : BitVec 64} (r' : R) :
    (update s.node r { s.node r with lock := l } r').seq = (s.node r').seq := by
  by_cases heq : r' = r
  · rw [heq, update_self]
  · rw [update_of_ne heq]

section

include hinj

omit [DecidableEq R] [DecidableEq T] in
lemma Inv.quiet_of_lock (h : Inv content base s) (hlock : (s.node r).lock = content t)
    (hmarked : ∀ it, (s.tx t).marked = some it → it.node ≠ r) : s.Quiet r := by
  rintro t' it hit rfl
  have ht : t' = t := hinj (((h.tx t').marked it hit).1.symm.trans hlock)
  subst ht
  exact hmarked it hit rfl

lemma Inv.marks (h : Inv content base s)
    (hheld : (s.tx t).held = it :: (todo.filter fun it => !it.ro))
    (hmarked : (s.tx t).marked = none) :
    Inv content base ((s.setNode it.node { s.node it.node with seq := 1#64 }).goto t
      (.installing it todo)) := by
  have ht := h.tx t
  obtain ⟨hlock, hseq⟩ := ht.held it (by rw [hheld]; exact mem_cons_self)
  have hap := ht.apart
  rw [hheld, map_cons, nodup_cons] at hap
  rw [goto_setNode]
  refine h.update it.node (fun t' hne' hl => hne' (hinj (hl.symm.trans hlock)))
    (fun r hr => ⟨update_of_ne hr _ _, rfl⟩) (fun _ => Nat.le_refl _) ⟨?_, ?_, ?_, ?_, ?_, ?_⟩ ?_
  · exact inOrder_of (by nofun)
  · exact ht.read
  · exact ht.seen
  · intro it' hit'
    have hne' : it'.node ≠ it.node := fun heq =>
      hap.1 (heq ▸ mem_map_of_mem hit')
    rw [update_of_ne hne']
    exact ht.held it' (by rw [hheld]; exact mem_cons_of_mem _ hit')
  · exact hap.2
  · rintro _ ⟨⟩
    rw [update_self]
    refine ⟨hlock, rfl, ?_, hap.1⟩
    rw [← hseq]
    exact h.seq _ (h.quiet_of_lock hinj hlock (by rw [hmarked]; nofun))
  · intro r hr
    have hne' : r ≠ it.node := fun heq =>
      hr t it (by dsimp only; rw [update_self]; rfl) heq.symm
    rw [update_of_ne hne']
    exact h.seq r (Quiet.of_update (by rw [hmarked]; nofun) hr)

lemma Inv.installs (h : Inv content base s) (hstage : (s.tx t).stage = .installing it todo) :
    Inv content base (s.installItem t it todo) := by
  have ht := h.tx t
  have hmarked : (s.tx t).marked = some it := by rw [Tx.marked, hstage]
  have hheld : (s.tx t).held = todo.filter fun it => !it.ro := by rw [Tx.held, hstage]
  obtain ⟨hlock, -, hseq, hout⟩ := ht.marked it hmarked
  rw [hheld] at hout
  have hap := ht.apart
  rw [hheld] at hap
  have hle : ∀ r, s.writes r ≤ Function.update s.writes it.node (s.writes it.node + 1) r := by
    intro r
    by_cases hr : r = it.node
    · rw [hr, update_self]
      omega
    · exact Nat.le_of_eq (update_of_ne hr _ _).symm
  rw [installItem_eq]
  refine h.update it.node (fun t' hne' hl => hne' (hinj (hl.symm.trans hlock)))
    (fun r hr => ⟨update_of_ne hr _ _, update_of_ne hr _ _⟩) hle
    ⟨?_, ?_, ?_, ?_, ?_, nofun⟩ ?_
  · exact inOrder_of (by nofun)
  · exact ht.read
  · intro it' hit' hseq'
    exact ⟨Nat.le_trans (ht.seen it' hit' hseq').1 (hle _), (ht.seen it' hit' hseq').2⟩
  · intro it' hit'
    have hne' : it'.node ≠ it.node := fun heq => hout (heq ▸ mem_map_of_mem hit')
    rw [update_of_ne hne']
    exact ht.held it' (by rw [hheld]; exact hit')
  · exact hap
  · intro r hr
    by_cases heq : r = it.node
    · rw [heq, update_self, update_self, hseq, Nat.mul_add, BitVec.ofNat_add, BitVec.add_assoc]
    · rw [update_of_ne heq, update_of_ne heq]
      refine h.seq r (Quiet.of_update (fun it' hit' hr' => ?_) hr)
      rw [hmarked] at hit'
      cases hit'
      exact heq hr'.symm

lemma Inv.unlocks (h : Inv content base s)
    (hmarked : (s.tx t).marked = none) (hlock : (s.node r).lock = content t) :
    Inv content base ((s.setNode r { s.node r with lock := 0#64 }).goto t (.releasing todo)) := by
  have ht := h.tx t
  rw [goto_setNode]
  refine h.update r (fun t' hne' hl => hne' (hinj (hl.symm.trans hlock)))
    (fun r' hr => ⟨update_of_ne hr _ _, rfl⟩) (fun _ => Nat.le_refl _)
    (.of_held_nil (inOrder_of (by nofun)) ht.read ht.seen rfl rfl) ?_
  intro r' hr'
  refine Eq.trans ?_ (h.seq r' (Quiet.of_update (by rw [hmarked]; nofun) hr'))
  exact seq_update_lock r'

end

include hne in
lemma Inv.locks (h : Inv content base s) {stage : Stage R V}
    (hmarked : (s.tx t).marked = none) (hfree : (s.node it.node).lock = 0#64)
    (hheld : ((⟨(s.tx t).items, stage⟩ : Tx R V).held = (s.tx t).held ++ [it] ∧
        (s.node it.node).seq = it.seq) ∨
      (⟨(s.tx t).items, stage⟩ : Tx R V).held = [])
    (hmarked' : (⟨(s.tx t).items, stage⟩ : Tx R V).marked = none)
    (horder : (⟨(s.tx t).items, stage⟩ : Tx R V).InOrder) :
    Inv content base
      ((s.setNode it.node { s.node it.node with lock := content t }).goto t stage) := by
  have ht := h.tx t
  rw [goto_setNode]
  refine h.update it.node (fun t' _ hl => hne t' (hl.symm.trans hfree))
    (fun r hr => ⟨update_of_ne hr _ _, rfl⟩) (fun _ => Nat.le_refl _) ?_ ?_
  · rcases hheld with ⟨hheld, hseq⟩ | hheld
    · -- the record was free, so none of the items held before is on it
      have hout : ∀ it' ∈ (s.tx t).held, it'.node ≠ it.node := by
        intro it' hit' heq
        refine hne t ((ht.held it' hit').1.symm.trans ?_)
        rw [heq]
        exact hfree
      refine ⟨horder, ht.read, ht.seen, fun it' hit' => ?_, ?_, fun it' hit' => ?_⟩
      · rw [hheld] at hit'
        rcases mem_append.mp hit' with hit' | hit'
        · rw [update_of_ne (hout it' hit')]
          exact ht.held it' hit'
        · rw [mem_singleton.mp hit', update_self]
          exact ⟨rfl, hseq⟩
      · rw [hheld, map_append]
        refine ht.apart.append (nodup_singleton _) ?_
        intro r hr hr'
        obtain ⟨it', hit', rfl⟩ := mem_map.mp hr
        exact hout it' hit' (mem_singleton.mp hr')
      · rw [hmarked'] at hit'
        cases hit'
    · exact .of_held_nil horder ht.read ht.seen hheld hmarked'
  · intro r hr
    refine Eq.trans ?_ (h.seq r (Quiet.of_update (by rw [hmarked]; nofun) hr))
    exact seq_update_lock r

include hinj hne in
lemma Inv.step (h : Inv content base s) (hs : a.step content s = some s') :
    Inv content base s' := by
  cases step_effect (fun t => (h.tx t).order) hs with
  | nothing heq =>
    subst heq
    exact h
  | items t items hitems hmarked heq =>
    subst heq
    exact h.items hitems hmarked
  | moves t stage hheld hmarked hmarked' horder heq =>
    subst heq
    exact h.moves hheld hmarked hmarked' horder
  | locks t it stage hmem hmarked hfree hheld hmarked' horder heq =>
    subst heq
    exact h.locks hne hmarked hfree hheld hmarked' horder
  | marks t it todo hheld hmarked heq =>
    subst heq
    exact h.marks hinj hheld hmarked
  | installs t it todo hstage heq =>
    subst heq
    exact h.installs hinj hstage
  | unlocks t r todo hheld hmarked hlock heq =>
    subst heq
    exact h.unlocks hinj hmarked hlock

include hinj hne in
lemma Reached.inv (h : Reached content s) : ∃ base, Inv content base s := by
  induction h with
  | start node hlock =>
    refine ⟨fun r => (node r).seq, fun t => ?_, fun r _ => ?_⟩
    · exact .of_held_nil (inOrder_of (by nofun)) nofun nofun rfl rfl
    · exact (BitVec.add_zero _).symm
  | step _ a hs ih =>
    obtain ⟨base, hinv⟩ := ih
    exact ⟨base, hinv.step hinj hne hs⟩

/-! ## The reads of a transaction that installs its writes -/

/-- `end` has passed its last check and runs `CommitLocalWrite`, so that it
returns true. -/
def Tx.Installing (x : Tx R V) : Prop :=
  ∃ todo, x.stage = .committing todo ∨ ∃ it, x.stage = .installing it todo

/-- The record of the item is only read by the transaction. -/
def Tx.OnlyReads (x : Tx R V) (it : Item R V) : Prop :=
  it ∈ x.items ∧ ∀ it' ∈ x.items, it'.node = it.node → it'.ro = true

/-- Since the read no write to the record has been begun or installed, up to a
multiple of the 2^63 writes after which the numbers come back. -/
def State.Unwritten (s : State T R V) (it : Item R V) : Prop :=
  s.Quiet it.node ∧ 2 ^ 63 ∣ s.writes it.node - it.seen

lemma ofNat_two_mul_inj {b : BitVec 64} {m n : ℕ} (hle : m ≤ n) :
    b + BitVec.ofNat 64 (2 * n) = b + BitVec.ofNat 64 (2 * m) ↔ 2 ^ 63 ∣ n - m := by
  rw [BitVec.add_right_inj, ← BitVec.toNat_inj, BitVec.toNat_ofNat, BitVec.toNat_ofNat]
  omega

omit [DecidableEq R] [DecidableEq T] in
/-- The number of a record that was read is the same exactly if the record was
not written since. -/
lemma Inv.seq_eq_iff (h : Inv content base s) (hit : it ∈ (s.tx t).items) (hro : it.ro = true) :
    (s.node it.node).seq = it.seq ↔ s.Unwritten it := by
  have hne' := (h.tx t).read it hit hro
  obtain ⟨hle, hsn⟩ := (h.tx t).seen it hit hne'
  constructor
  · intro heq
    have hqt : s.Quiet it.node := h.quiet_of_ne (heq ▸ hne')
    refine ⟨hqt, (ofNat_two_mul_inj (b := base it.node) hle).mp ?_⟩
    rw [← h.seq _ hqt, ← hsn, heq]
  · rintro ⟨hqt, hdvd⟩
    rw [h.seq _ hqt, hsn]
    exact (ofNat_two_mul_inj hle).mpr hdvd

include hinj hne in
/-- At any time, and so while a transaction installs its writes, the records it has
read and does not write have the numbers it has read exactly if no other
transaction has written them in the meantime: `end` has not looked. -/
theorem local_reads_iff (h : Reached content s) (t : T) :
    (∀ it, (s.tx t).OnlyReads it → (s.node it.node).seq = it.seq) ↔
      ∀ it, (s.tx t).OnlyReads it → s.Unwritten it := by
  obtain ⟨base, hinv⟩ := h.inv hinj hne
  refine forall_congr' fun it => imp_congr_right fun hit => ?_
  exact hinv.seq_eq_iff hit.1 (hit.2 it hit.1 rfl)

end

/-- Lock contents of two coroutines. -/
def twoContents : Bool → BitVec 64
  | false => 1#64
  | true => 2#64

lemma twoContents_injective : Injective twoContents := by
  intro a b h
  revert a b
  decide

/-- One record, loaded with the value `false`. -/
def loaded : State Bool Unit Bool :=
  ⟨fun _ => ⟨0#64, 2#64, some false⟩, fun _ => Tx.fresh, fun _ => 0⟩

/-- A transaction reads the record and installs nothing. -/
theorem local_reads_alone :
    ∃ s : State Bool Unit Bool, Reached twoContents s ∧ (s.tx false).Installing ∧
      ((∀ it, (s.tx false).OnlyReads it → (s.node it.node).seq = it.seq) ↔
        ∀ it, (s.tx false).OnlyReads it → s.Unwritten it) := by
  have h0 : Reached twoContents loaded := .start _ fun _ => rfl
  have h1 := h0.step (.get false ()) rfl
  have h2 := h1.step (.callEnd false true) rfl
  have h3 := h2.step (.lock false) rfl
  have h4 := h3.step (.lock false) rfl
  have h5 := h4.step (.validate false true) rfl
  exact ⟨_, h5, ⟨_, .inl rfl⟩,
    local_reads_iff twoContents_injective (by decide) h5 false⟩

/-- One transaction reads the record, another writes it and ends, and the first
one passes all checks of `end`. -/
theorem local_read_overwritten :
    ∃ s : State Bool Unit Bool, Reached twoContents s ∧ (s.tx false).Installing ∧
      ∃ it, (s.tx false).OnlyReads it ∧ (s.node it.node).seq ≠ it.seq := by
  have h0 : Reached twoContents loaded := .start _ fun _ => rfl
  have h1 := h0.step (.get false ()) rfl
  have h2 := h1.step (.get true ()) rfl
  have h3 := h2.step (.write true () (some true)) rfl
  have h4 := h3.step (.callEnd true true) rfl
  have h5 := h4.step (.lock true) rfl
  have h6 := h5.step (.lock true) rfl
  have h7 := h6.step (.validate true true) rfl
  have h8 := h7.step (.commit true) rfl
  have h9 := h8.step (.install true) rfl
  have h10 := h9.step (.callEnd false true) rfl
  have h11 := h10.step (.lock false) rfl
  have h12 := h11.step (.lock false) rfl
  have h13 := h12.step (.validate false true) rfl
  refine ⟨_, h13, ⟨_, .inl rfl⟩, ⟨(), some false, 2#64, true, 0⟩, ⟨mem_cons_self, ?_⟩, ?_⟩
  · intro it hit _
    rw [mem_singleton.mp hit]
    rfl
  · decide

end Librdpma.Drtmh.DbtxLocal
