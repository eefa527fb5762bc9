import Librdpma.Octopus.Start

/-!
# Locks of a request

Most requests lock and unlock the words they need before they answer. The
update of a directory by a client is spread over two requests on purpose: the
first one answers with the directory locked, the second one unlocks the word
its message names. `Settles` lists the requests of the first sort; for these
`Balanced` holds between the locks before and after.

The requests that `Settles` leaves out besides the two of a directory update
are `rmdir` of a directory that exists, `rename` of a file that fails, and the
extent calls that return before they have locked anything.
-/

namespace Librdpma.Octopus

open Lib Outcome Function List Program

/-! ## Events -/

/-- Every unlock has a lock of the same kind and word before it, each its
own. -/
def Matched (es : List LockEvent) : Prop :=
  ∀ p, p <+: es → ∀ mode a, p.count (.unlocked mode a) ≤ p.count (.locked mode a)

namespace Matched

variable {es es1 es2 : List LockEvent} {mode : LockMode} {a : AddressHash}

lemma nil : Matched [] := by
  intro p hp mode a
  rw [prefix_nil.mp hp]
  exact le_rfl

lemma append (h1 : Matched es1) (h2 : Matched es2) : Matched (es1 ++ es2) := by
  intro p hp mode a
  rcases prefix_or_prefix_of_prefix hp (prefix_append es1 es2) with h | ⟨q, rfl⟩
  · exact h1 p h mode a
  · have hq := h2 q ((prefix_append_right_inj es1).mp hp) mode a
    have hes := h1 es1 prefix_rfl mode a
    rw [count_append, count_append]
    omega

lemma locked_cons (h : Matched es) : Matched (.locked mode a :: es) := by
  intro p hp mode' a'
  rcases prefix_cons_iff.mp hp with rfl | ⟨q, rfl, hq⟩
  · exact le_rfl
  · have := h q hq mode' a'
    rw [count_cons, count_cons]
    simp only [beq_iff_eq, reduceCtorEq, if_false]
    omega

lemma enclose (h : Matched es) : Matched (.locked mode a :: (es ++ [.unlocked mode a])) := by
  intro p hp mode' a'
  rcases prefix_cons_iff.mp hp with rfl | ⟨q, rfl, hq⟩
  · exact le_rfl
  rcases prefix_concat_iff.mp hq with rfl | hq
  · have hes := h es prefix_rfl mode' a'
    simp only [count_cons, count_append, count_nil, beq_iff_eq,
      LockEvent.locked.injEq, LockEvent.unlocked.injEq, reduceCtorEq, if_false]
    omega
  · exact h.locked_cons _ (prefix_cons_inj _ |>.mpr hq) mode' a'

end Matched

/-! ## Balance -/

namespace LockService

/-- The words are as before, and what was unlocked in between had been locked
in between. -/
def Balanced (l l' : LockService) : Prop :=
  l'.word = l.word ∧ ∃ es, l'.trace = l.trace ++ es ∧ Matched es

/-- What unlocking makes of a word. -/
def release : LockMode → BitVec 64 → BitVec 64
  | .read, word => word - 1#64
  | .write, word => LockWord.clearUpper word

/-- The word of `a` is locked; unlocking it gives back the word it had. -/
def Held (mode : LockMode) (a : AddressHash) (l l' : LockService) : Prop :=
  ∃ word es, l'.word = update l.word a word ∧ release mode word = l.word a ∧
    l'.trace = l.trace ++ .locked mode a :: es ∧ Matched es

variable {mode : LockMode} {a : AddressHash} {l l1 l2 : LockService}

lemma Balanced.refl (l : LockService) : l.Balanced l := ⟨rfl, [], (append_nil _).symm, Matched.nil⟩

lemma Balanced.trans (h1 : l.Balanced l1) (h2 : l1.Balanced l2) : l.Balanced l2 := by
  obtain ⟨hw1, es1, ht1, hm1⟩ := h1
  obtain ⟨hw2, es2, ht2, hm2⟩ := h2
  exact ⟨hw2.trans hw1, es1 ++ es2, by rw [ht2, ht1, append_assoc], hm1.append hm2⟩

lemma Held.balanced (h : Held mode a l l1) (hb : l1.Balanced l2) : Held mode a l l2 := by
  obtain ⟨word, es, hw, hr, ht, hm⟩ := h
  obtain ⟨hw2, es2, ht2, hm2⟩ := hb
  refine ⟨word, es ++ es2, hw2.trans hw, hr, ?_, hm.append hm2⟩
  rw [ht2, ht, append_assoc, cons_append]

lemma Held.unlock (h : Held mode a l l1) :
    l.Balanced (l1.log a (release mode (l1.word a)) (.unlocked mode a)) := by
  obtain ⟨word, es, hw, hr, ht, hm⟩ := h
  refine ⟨?_, .locked mode a :: (es ++ [.unlocked mode a]), ?_, hm.enclose⟩
  · unfold log
    rw [hw, update_self, hr, update_idem, update_eq_self]
  · unfold log
    rw [ht, append_assoc, cons_append]

end LockService

/-- Every node's locks are balanced. -/
def Balanced (l l' : ℕ → LockService) : Prop := ∀ i, (l i).Balanced (l' i)

/-- The word of `a` on node `i` is locked, and everything else balanced. -/
def Held (i : ℕ) (mode : LockMode) (a : AddressHash) (l l' : ℕ → LockService) : Prop :=
  (l i).Held mode a (l' i) ∧ ∀ j, j ≠ i → (l j).Balanced (l' j)

section Rules

variable {i : ℕ} {mode : LockMode} {a : AddressHash} {l l1 l2 : ℕ → LockService}

lemma Balanced.refl (l : ℕ → LockService) : Balanced l l := fun i => .refl (l i)

lemma Balanced.trans (h1 : Balanced l l1) (h2 : Balanced l1 l2) : Balanced l l2 :=
  fun i => (h1 i).trans (h2 i)

lemma Held.balanced (h : Held i mode a l l1) (hb : Balanced l1 l2) : Held i mode a l l2 :=
  ⟨h.1.balanced (hb i), fun j hj => (h.2 j hj).trans (hb j)⟩

end Rules

/-! ## Programs -/

/-- The program leaves the locks balanced when it returns. -/
structure Balances {α : Type} (x : Sys α) : Prop where
  ends : ∀ c, Ends True (x c) fun r => Balanced c.lock r.2.lock

section Programs

variable {α β : Type} {x : Sys α} {i : ℕ} {a : AddressHash} {mode : LockMode} {c0 c : Cluster}

lemma keepsLock_onStorage (i : ℕ) (y : Program Storage α) : Keeps Cluster.lock (onStorage i y) :=
  .zoom (fun st c => Cluster.lock_setStorage i st c) y

lemma keepsLock_onTx (i : ℕ) (f : TxManager → α × TxManager) : Keeps Cluster.lock (onTx i f) :=
  .zoom (fun t c => Cluster.lock_setTx i t c) _

namespace Balances

lemma pure (r : α) : Balances (Pure.pure r : Sys α) :=  ⟨fun c => .done (Balanced.refl c.lock)⟩

lemma bind {f : α → Sys β} (hx : Balances x) (hf : ∀ r, Balances (f r)) : Balances (x >>= f) :=
  ⟨fun c => (hx.ends c).bind fun r hr => ((hf r.1).ends r.2).mono fun _ h => hr.trans h⟩

lemma of_keeps (h : Keeps Cluster.lock x) : Balances x := by
  refine ⟨fun c => ends_of_done fun r hr => ?_⟩
  rw [h.eq hr]
  exact Balanced.refl _

lemma onStorage (i : ℕ) (y : Program Storage α) : Balances (Octopus.onStorage i y) :=
  of_keeps (keepsLock_onStorage i y)

lemma onTx (i : ℕ) (f : TxManager → α × TxManager) : Balances (Octopus.onTx i f) :=
  of_keeps (keepsLock_onTx i f)

lemma ofOutcome (y : Outcome α) : Balances (ofOutcome y : Sys α) := of_keeps (Keeps.ofOutcome y)

lemma guard {p : Prop} [Decidable p] (hx : Balances x) (r : α) :
    Balances (if p then x else Pure.pure r) := by
  split
  · exact hx
  · exact .pure r

lemma held (hx : Balances x) (h : Held i mode a c0.lock c.lock) :
    Ends True (x c) fun r => Held i mode a c0.lock r.2.lock :=
  (hx.ends c).mono fun _ hr => h.balanced hr

end Balances

lemma held_onLock {y : Program LockService α}
    (h : Ends True (y (c.lock i)) fun r => (c.lock i).Held mode a r.2) :
    Ends True (onLock i y c) fun r => Held i mode a c.lock r.2.lock := by
  refine h.bind fun r hr => .done ?_
  rw [Cluster.lock_setLock]
  refine ⟨?_, fun j hj => ?_⟩
  · rw [update_self]
    exact hr
  · rw [update_of_ne hj]
    exact .refl _

lemma clearUpper_writeKey (nodeID ID : BitVec 16) :
    LockWord.clearUpper (LockWord.writeKey nodeID ID) = 0#64 := by
  apply BitVec.eq_of_toNat_eq
  rw [LockWord.toNat_clearUpper, LockWord.toNat_writeKey]
  simp

lemma held_lockWrite (i : ℕ) (a : AddressHash) (c : Cluster) :
    Ends True (lockWriteHashItem i a c) fun r => Held i .write a c.lock r.2.lock := by
  apply held_onLock
  unfold LockService.writeLock
  split_ifs with hz
  · refine .done ⟨_, [], rfl, ?_, rfl, Matched.nil⟩
    rw [hz]
    exact clearUpper_writeKey _ _
  · exact .loop

lemma held_lockRead (i : ℕ) (a : AddressHash) (c : Cluster) :
    Ends True (lockReadHashItem i a c) fun r => Held i .read a c.lock r.2.lock := by
  apply held_onLock
  unfold LockService.readLock
  split
  · exact .done ⟨_, [], rfl, BitVec.add_sub_cancel _ _, rfl, Matched.nil⟩
  · exact .loop

lemma balanced_unlock {y : Program LockService Unit}
    (hy : ∀ l : LockService,
      y l = .done ((), l.log a (LockService.release mode (l.word a)) (.unlocked mode a)))
    (h : Held i mode a c0.lock c.lock) :
    Ends True (onLock i y c) fun r => Balanced c0.lock r.2.lock := by
  unfold onLock zoom
  rw [hy, done_bind]
  refine .done fun j => ?_
  rw [Cluster.lock_setLock]
  by_cases hj : j = i
  · rw [hj, update_self]
    exact h.1.unlock
  · rw [update_of_ne hj]
    exact h.2 j hj

lemma balanced_unlockWrite (h : Held i .write a c0.lock c.lock) :
    Ends True (unlockWriteHashItem i a c) fun r => Balanced c0.lock r.2.lock :=
  balanced_unlock (fun _ => rfl) h

lemma balanced_unlockRead (h : Held i .read a c0.lock c.lock) :
    Ends True (unlockReadHashItem i a c) fun r => Balanced c0.lock r.2.lock :=
  balanced_unlock (fun _ => rfl) h

lemma Balances.writeSection (hx : Balances x) (i : ℕ) (a : AddressHash) (f : α → β) :
    Balances (do
      let _ ← lockWriteHashItem i a
      let r ← x
      unlockWriteHashItem i a
      return f r) := by
  refine ⟨fun c => (held_lockWrite i a c).bind fun _ h => (hx.held h).bind fun _ h => ?_⟩
  exact (balanced_unlockWrite h).bind fun _ h => .done h

lemma Balances.readSection (hx : Balances x) (i : ℕ) (a : AddressHash) (f : α → β) :
    Balances (do
      lockReadHashItem i a
      let r ← x
      unlockReadHashItem i a
      return f r) := by
  refine ⟨fun c => (held_lockRead i a c).bind fun _ h => (hx.held h).bind fun _ h => ?_⟩
  exact (balanced_unlockRead h).bind fun _ h => .done h

end Programs

/-! ## Words that nobody holds -/

section Free

variable {i : ℕ} {a : AddressHash} {c : Cluster}

lemma lockWrite_free (h : (c.lock i).word a = 0#64) :
    ∃ key l, lockWriteHashItem i a c = .done (key, c.setLock i l) ∧
      ∀ b, b ≠ a → l.word b = (c.lock i).word b := by
  unfold lockWriteHashItem onLock zoom LockService.writeLock
  rw [if_pos h, done_bind]
  exact ⟨_, _, rfl, fun b hb => update_of_ne hb _ _⟩

lemma lockRead_free (h : (c.lock i).word a = 0#64) :
    ∃ l, lockReadHashItem i a c = .done ((), c.setLock i l) := by
  unfold lockReadHashItem onLock zoom LockService.readLock
  rw [if_pos (by rw [h]; rfl), done_bind]
  exact ⟨_, rfl⟩

lemma readDirectoryMeta_free {cfg : Config} {path : Path} {r : Option (ℕ × DirectoryMeta)}
    (h : (c.lock (cfg.nodeOf path)).word (cfg.addressOf path) = 0#64)
    (hr : Storage.lookupDirectory (cfg.sha256 path) (c.storage (cfg.nodeOf path))
      = .done (r, c.storage (cfg.nodeOf path))) :
    ∃ c', readDirectoryMeta cfg path c = .done (r, c') ∧ c'.storage = c.storage := by
  obtain ⟨l, hl⟩ := lockRead_free h
  unfold readDirectoryMeta
  rw [bind_apply, hl, done_bind, bind_apply, Cluster.Shows.onStorage_reads (r := r), done_bind]
  · refine ⟨_, rfl, ?_⟩
    rw [Cluster.storage_setLock, Cluster.storage_setLock]
  · rw [Cluster.storage_setLock]
    exact hr

end Free

/-! ## Operations -/

section Operations

variable (cfg : Config) (unset : Unset) (self : ℕ)

lemma balances_readDirectoryMeta (path : Path) : Balances (readDirectoryMeta cfg path) :=
  (Balances.onStorage _ _).readSection _ _ _

lemma balances_changecd {path : Path} {prepare : Sys Prepared} (h : Balances prepare) :
    Balances (changecd cfg self path prepare) := by
  unfold changecd
  split
  · refine ⟨fun c => (held_lockWrite self _ c).bind fun _ hl => (h.held hl).bind fun p hl => ?_⟩
    have happ : Balances (applyChange self p.1.txID p.1.change) := by
      cases p.1.change with
      | none => exact .pure _
      | some ch =>
        exact ((Balances.onTx _ _).bind fun _ => .onStorage _ _).bind fun _ => .onStorage _ _
    refine (happ.held hl).bind fun _ hl => ?_
    have hfin : Ends True (finish cfg self path p.1.txID _) _ :=
      ((Balances.onTx _ _).held hl).bind fun _ hl => balanced_unlockWrite hl
    exact hfin.bind fun _ h => .done h
  · exact .pure _

lemma balances_prepareMake (path : Path) (isDirectories : Bool) (tables : Program Storage Bool) :
    Balances (prepareMake cfg self path isDirectories tables) := by
  refine (Balances.onTx _ _).bind fun txID =>
    (balances_readDirectoryMeta cfg _).bind fun parent => ?_
  cases parent with
  | none => exact .pure _
  | some p =>
    refine (Balances.onStorage _ _).bind fun e => ?_
    cases e with
    | some _ => exact .pure _
    | none =>
      dsimp only
      split
      · exact .ofOutcome _
      · exact (Balances.ofOutcome _).bind fun _ => .pure _

lemma balances_prepareUnlink (path : Path) (metaFile : Attribute)
    (tables : Program Storage Bool) :
    Balances (prepareUnlink cfg self path metaFile tables) := by
  refine (Balances.onTx _ _).bind fun txID =>
    (balances_readDirectoryMeta cfg _).bind fun parent => ?_
  cases parent with
  | none => exact .pure _
  | some p =>
    dsimp only
    split
    · exact .ofOutcome _
    · exact .pure _

lemma balances_prepareRemove (path : Path) : Balances (prepareRemove cfg self path) := by
  refine (Balances.onStorage _ _).bind fun e => ?_
  match e with
  | none => exact .pure _
  | some (index, true) =>
    refine (Balances.onStorage _ _).bind fun m => ?_
    cases m with
    | none => exact .pure _
    | some m =>
      dsimp only
      split
      · exact .pure _
      · exact balances_prepareUnlink cfg self path _ _
  | some (index, false) =>
    refine (Balances.onStorage _ _).bind fun m => ?_
    cases m with
    | none => exact .pure _
    | some m => exact balances_prepareUnlink cfg self path _ _

/-! ## The two messages of a directory update -/

/-- Only the word at `offset` of node `i` was unlocked, for writing. -/
def Releases (i offset : ℕ) (l l' : ℕ → LockService) : Prop :=
  ∃ h : offset < hashItemsCount, l' = update l i
    ((l i).log ⟨offset, h⟩ (LockWord.clearUpper ((l i).word ⟨offset, h⟩))
      (.unlocked .write ⟨offset, h⟩))

lemma Held.releases {i : ℕ} {a : AddressHash} {l l1 l2 : ℕ → LockService}
    (h : Held i .write a l l1) (hr : Releases i a.val l1 l2) : Balanced l l2 := by
  obtain ⟨ha, rfl⟩ := hr
  intro j
  by_cases hj : j = i
  · rw [hj, update_self]
    exact h.1.unlock
  · rw [update_of_ne hj]
    exact h.2 j hj

/-- The first message: the directory is locked, and the answer names its word. -/
lemma held_editDirectory (path : Path)
    (edit : DirectoryMeta → Outcome (Option DirectoryMeta)) (c : Cluster) :
    Ends True (editDirectory cfg unset path edit c) fun r =>
      Held (cfg.nodeOf path) .write (cfg.addressOf path) c.lock r.2.lock ∧
        ∀ u, r.1 = some u → u.offset = (cfg.addressOf path).val := by
  refine (held_lockWrite _ _ c).bind fun k h => ((Balances.onStorage _ _).held h).bind ?_
  rintro ⟨directory, c1⟩ h
  cases directory with
  | none => exact ((Balances.onTx _ _).held h).bind fun _ h => .done ⟨h, nofun⟩
  | some d =>
    refine ((Balances.onTx _ _).held h).bind fun tx h =>
      ((Balances.ofOutcome _).held h).bind ?_
    rintro ⟨edited, c2⟩ h
    cases edited with
    | none =>
      exact ((Balances.onTx _ _).held h).bind fun _ h =>
        ((Balances.onTx _ _).held h).bind fun _ h => .done ⟨h, nofun⟩
    | some m =>
      refine ((Balances.onTx _ _).held h).bind fun _ h =>
        ((Balances.onTx _ _).held h).bind fun _ h => .done ⟨h, ?_⟩
      rintro u ⟨⟩
      rfl

lemma unlockOffset_val (unlock : AddressHash → Sys Unit) (a : AddressHash) :
    unlockOffset unlock a.val = unlock a :=
  dif_pos a.isLt

lemma releases_unlockOffset (i offset : ℕ) (l : ℕ → LockService) :
    Spec True Cluster.lock (· = l) (unlockOffset (unlockWriteHashItem i) offset)
      fun _ => Releases i offset l := by
  unfold unlockOffset
  split_ifs with h
  · rintro c rfl
    exact .done ⟨h, Cluster.lock_setLock ..⟩
  · exact .ofOutcome fun _ _ => .undefined trivial

lemma releases_updateDirectoryMeta (path : Path) (u : DirectoryUpdate) (l : ℕ → LockService) :
    Spec True Cluster.lock (· = l) (updateDirectoryMeta cfg path u)
      fun _ => Releases (cfg.nodeOf path) u.offset l := by
  have hrs : ∀ r : Bool, Spec True Cluster.lock (· = l)
      (do
        unlockOffset (unlockWriteHashItem (cfg.nodeOf path)) u.offset
        txLocalCommit (cfg.nodeOf path) u.txID
        return r)
      fun _ => Releases (cfg.nodeOf path) u.offset l := by
    intro r
    refine (releases_unlockOffset _ _ l).bind fun _ => ?_
    exact ((keepsLock_onTx _ _).spec _).bind fun _ => (Keeps.pure r).spec _
  refine (keepsLock_onStorage _ _ l).bind fun entry => ?_
  refine Spec.bind (Q := fun _ l' => l' = l) (fun c hc => .done hc) fun m => ?_
  split
  · exact (keepsLock_onStorage _ _ l).bind fun _ => hrs _
  · exact hrs _

/-! ## Extents -/

/-- The reply of an extent call names the word it has locked, and the request
unlocks that one. -/
lemma balances_answer {κ : Type} {mode : LockMode} {a : AddressHash} {lock : Sys κ}
    {unlock : AddressHash → Sys Unit} (positions : Program Storage (Option FilePosInfo))
    (hlk : ∀ c, Ends True (lock c) fun r => Held self mode a c.lock r.2.lock)
    (hunl : ∀ c0 c : Cluster, Held self mode a c0.lock c.lock →
      Ends True (unlock a c) fun r => Balanced c0.lock r.2.lock) :
    Balances (do
      let r ← (do
        let _ ← lock
        let fpi ← onStorage self positions
        return (⟨some a, fpi⟩ : ExtentReply))
      unlockOffset unlock (r.offset.elim unset.offset Fin.val)
      return Response.positions r.fpi) := by
  refine ⟨fun c => ?_⟩
  rw [bind_apply]
  refine Ends.bind (P := fun r : ExtentReply × Cluster =>
    Held self mode a c.lock r.2.lock ∧ r.1.offset = some a) ?_ ?_
  · exact (hlk c).bind fun _ h => ((Balances.onStorage _ _).held h).bind fun _ h => .done ⟨h, rfl⟩
  · rintro ⟨⟨_, fpi⟩, c1⟩ ⟨hhd, rfl⟩
    rw [Option.elim_some, unlockOffset_val]
    exact (hunl c c1 hhd).bind fun _ h => .done h

lemma balances_answerRead (path : Path) (size offset : ℕ) (hsz : size ≠ 0)
    (hsf : cfg.nodeOf path = self) :
    Balances (answerRead cfg unset self path size offset) := by
  unfold answerRead extentRead
  rw [if_neg hsz, if_pos hsf]
  exact balances_answer unset self _ (held_lockRead self _) fun _ _ => balanced_unlockRead

lemma balances_answerWrite (path : Path) (size offset : ℕ) (hsf : cfg.nodeOf path = self) :
    Balances (answerWrite cfg unset self path size offset) := by
  unfold answerWrite extentWrite
  rw [if_pos hsf]
  exact balances_answer unset self _ (held_lockWrite self _) fun _ _ => balanced_unlockWrite

/-! ## Removing a directory, renaming a file -/

/-- The path is entered in the hash table with the given flag. -/
def Storage.Enters (st : Storage) (k : UniqueHash) (isDirectory : Bool) : Prop :=
  ∃ index st', getEntry k st = .done (some (index, isDirectory), st')

lemma storage_lockWrite (i : ℕ) (a : AddressHash) (c : Cluster) :
    Ends True (lockWriteHashItem i a c) fun r => r.2.storage = c.storage := by
  refine ends_of_done fun r hr => ?_
  obtain ⟨r', -, hr'⟩ := bind_eq_done.mp hr
  cases hr'
  exact Cluster.storage_setLock ..

lemma ends_getEntry (k : UniqueHash) (c : Cluster) :
    Ends True (onStorage self (Storage.getEntry k) c) fun r =>
      Balanced c.lock r.2.lock ∧
        ∀ index isDirectory, r.1 = some (index, isDirectory) →
          (c.storage self).Enters k isDirectory := by
  refine ((Balances.onStorage _ _).ends c).and (ends_of_done fun r hr index isDirectory he => ?_)
  obtain ⟨r', hr', heq⟩ := bind_eq_done.mp hr
  cases heq
  exact ⟨index, r'.2, by rw [hr', ← he]⟩

lemma balanced_rmdirLocked (path : Path) (c : Cluster)
    (h : ¬ (c.storage self).Enters (cfg.sha256 path) true) :
    Ends True (rmdirLocked cfg unset self path c) fun r => Balanced c.lock r.2.lock := by
  refine (ends_getEntry self _ c).bind ?_
  rintro ⟨e, c1⟩ ⟨hb, he⟩
  match e with
  | none | some (_, false) => exact .done hb
  | some (i, true) => exact absurd (he i true rfl) h

lemma balanced_rmdir (path : Path) (c : Cluster)
    (h : cfg.nodeOf path = self → ¬ (c.storage self).Enters (cfg.sha256 path) true) :
    Ends True (rmdir cfg unset self path c) fun r => Balanced c.lock r.2.lock := by
  unfold rmdir
  split_ifs with hsf
  · refine ((held_lockWrite self _ c).and (storage_lockWrite self _ c)).bind ?_
    rintro ⟨key, c1⟩ ⟨hhd, hst⟩
    have hbd := balanced_rmdirLocked cfg unset self path c1 (by rw [hst]; exact h hsf)
    exact hbd.bind fun _ hb => (balanced_unlockWrite (hhd.balanced hb)).bind fun _ h => .done h
  · exact .done (Balanced.refl _)

/-- A `rename` that succeeds has sent both messages; one that finds no file
only looks. -/
lemma balanced_renameLocked (pathOld : Path) (c : Cluster) :
    Ends True (renameLocked cfg unset self pathOld c) fun r =>
      (r.1 = true ∨ ¬ (c.storage self).Enters (cfg.sha256 pathOld) false) →
        Balanced c.lock r.2.lock := by
  refine (ends_getEntry self _ c).bind ?_
  rintro ⟨e, c1⟩ ⟨hb, he⟩
  match e with
  | none | some (_, true) => exact .done fun _ => hb
  | some (i, false) =>
    have hfl := he i false rfl
    cases getNameFromPath pathOld with
    | none => exact .undefined trivial
    | some name =>
      refine (held_editDirectory cfg unset _ _ c1).bind ?_
      rintro ⟨u, c2⟩ ⟨hhd, hoff⟩
      cases u with
      | none => exact .done fun h => absurd h (by simp [hfl])
      | some u =>
        refine ((Balances.onStorage _ _).held hhd).bind ?_
        rintro ⟨m, c3⟩ hhd
        cases m with
        | none => exact .done fun h => absurd h (by simp [hfl])
        | some m =>
          refine (releases_updateDirectoryMeta cfg _ u c3.lock c3 rfl).bind fun r hr => ?_
          rw [hoff u rfl] at hr
          have hb' := hb.trans (hhd.releases hr)
          exact ((Balances.onStorage _ _).ends r.2).mono fun _ h _ => hb'.trans h

lemma balanced_rename (pathOld : Path) (c : Cluster) :
    Ends True (rename cfg unset self pathOld c) fun r =>
      (r.1 = true ∨
        (cfg.nodeOf pathOld = self → ¬ (c.storage self).Enters (cfg.sha256 pathOld) false)) →
        Balanced c.lock r.2.lock := by
  unfold rename
  split_ifs with hsf
  · refine ((held_lockWrite self _ c).and (storage_lockWrite self _ c)).bind ?_
    rintro ⟨key, c1⟩ ⟨hhd, hst⟩
    refine (balanced_renameLocked cfg unset self pathOld c1).bind ?_
    rintro ⟨result, c2⟩ hb
    by_cases hok : result = true ∨ ¬ (c1.storage self).Enters (cfg.sha256 pathOld) false
    · exact (balanced_unlockWrite (hhd.balanced (hb hok))).bind fun _ h => .done fun _ => h
    · refine ends_of_done fun r hr h => absurd h ?_
      obtain ⟨r', -, hr'⟩ := bind_eq_done.mp hr
      cases hr'
      rw [hst] at hok
      simpa [hsf] using hok
  · exact .done fun _ => Balanced.refl _

end Operations

/-! ## Requests -/

/-- The requests that lock and unlock within themselves. -/
def Message.Settles (cfg : Config) (self : ℕ) (c : Cluster) : Message → Response → Prop
  | .addMetaToDirectory .., _ => False
  | .removeMetaFromDirectory .., _ => False
  | .doCommit .., _ => False
  | .extentRead path size _, _ => size ≠ 0 ∧ cfg.nodeOf path = self
  | .rawRead path size _, _ => size ≠ 0 ∧ cfg.nodeOf path = self
  | .extentWrite path _ _, _ => cfg.nodeOf path = self
  | .rawWrite path _ _, _ => cfg.nodeOf path = self
  | .rmdir path, _ =>
      cfg.nodeOf path = self → ¬ (c.storage self).Enters (cfg.sha256 path) true
  | .rename pathOld _, r => r = .result true ∨
      (cfg.nodeOf pathOld = self → ¬ (c.storage self).Enters (cfg.sha256 pathOld) false)
  | _, _ => True

/-- The locks after a request: as before if the request settles; with one
word more if it is the first message of an update, whether or not it has found
the directory; with one word less if it is the second. -/
structure LockEffect (cfg : Config) (node : ℕ) (c : Cluster) (msg : Message)
    (r : Response) (c' : Cluster) : Prop where
  settled : msg.Settles cfg node c r → Balanced c.lock c'.lock
  first : ∀ path, ((∃ name isDirectory, msg = .addMetaToDirectory path name isDirectory) ∨
      ∃ name, msg = .removeMetaFromDirectory path name) →
    Held (cfg.nodeOf path) .write (cfg.addressOf path) c.lock c'.lock ∧
      ∀ u, r = .update (some u) → u.offset = (cfg.addressOf path).val
  second : ∀ path u, msg = .doCommit path u → Releases (cfg.nodeOf path) u.offset c.lock c'.lock

section Requests

variable (cfg : Config) (unset : Unset) (self : ℕ)

lemma balances_blockFree (startBlock countBlock : ℕ) (result : Bool) :
    Balances (blockFree self startBlock countBlock result) := by
  refine Balances.bind ?_ ?_
  · exact .onStorage _ _
  · exact fun _ => .pure _

lemma balanced_parseMessage (msg : Message) (c : Cluster) :
    Ends True (parseMessage cfg unset self msg c) fun r =>
      msg.Settles cfg self c r.1 → Balanced c.lock r.2.lock := by
  have settled : ∀ {α : Type} {x : Sys α} {p : Response × Cluster → Prop} (f : α → Response),
      Balances x → Ends True ((x >>= fun a => pure (f a) : Sys Response) c) fun r =>
        p r → Balanced c.lock r.2.lock := fun f hx =>
    ((hx.bind fun _ => .pure _).ends c).mono fun _ h _ => h
  cases msg with
  | addMetaToDirectory | removeMetaFromDirectory | doCommit =>
    exact ends_of_done fun _ _ h => h.elim
  | mknod path | mkdir path =>
    exact settled _ ((balances_changecd cfg self
      (balances_prepareMake cfg self path _ _)).bind fun _ => .pure _)
  | getattr path | access path =>
    exact settled _ (((Balances.onStorage _ _).readSection _ _ _).guard _)
  | readdir path => exact settled _ (((Balances.onStorage _ _).readSection _ _ _).guard _)
  | readDirectoryMeta path => exact settled _ (balances_readDirectoryMeta cfg path)
  | extentRead path size offset | rawRead path size offset =>
    refine ends_of_done fun r hr h => ?_
    exact (balances_answerRead cfg unset self path size offset h.1 h.2).ends c |>.of_done hr
  | extentWrite path size offset | rawWrite path size offset =>
    refine ends_of_done fun r hr h => ?_
    exact (balances_answerWrite cfg unset self path size offset h).ends c |>.of_done hr
  | updateMeta | extentReadEnd | other => exact .done fun _ => Balanced.refl _
  | truncate path size | mknodWithMeta path m =>
    exact settled _ (((Balances.onStorage _ _).writeSection _ _ _).guard _)
  | rmdir path =>
    refine ends_of_done fun r hr h => ?_
    obtain ⟨r', hr', heq⟩ := bind_eq_done.mp hr
    cases heq
    exact (balanced_rmdir cfg unset self path c h).of_done hr'
  | remove path =>
    exact settled _ (balances_changecd cfg self (balances_prepareRemove cfg self path))
  | freeBlock startBlock countBlock =>
    exact settled _ (balances_blockFree self startBlock countBlock _)
  | rename pathOld pathNew =>
    refine ends_of_done fun r hr h => ?_
    obtain ⟨r', hr', heq⟩ := bind_eq_done.mp hr
    cases heq
    exact (balanced_rename cfg unset self pathOld c).of_done hr'
      (h.imp_left fun hok => by injection hok)

/-- **A request leaves the locks as it found them**, up to the word that the
two messages of a directory update hand over. -/
theorem request_locks (msg : Message) (c : Cluster) (r : Response) (c' : Cluster)
    (h : parseMessage cfg unset self msg c = .done (r, c')) :
    LockEffect cfg self c msg r c' := by
  refine ⟨(balanced_parseMessage cfg unset self msg c).of_done h, ?_, ?_⟩
  · rintro path (⟨name, isDirectory, rfl⟩ | ⟨name, rfl⟩)
    all_goals
      obtain ⟨⟨u, c1⟩, hr', heq⟩ := bind_eq_done.mp h
      cases heq
      have hend := (held_editDirectory cfg unset path _ c).of_done hr'
      refine ⟨hend.1, ?_⟩
      rintro v ⟨⟩
      exact hend.2 v rfl
  · rintro path u rfl
    obtain ⟨r', hr', heq⟩ := bind_eq_done.mp h
    cases heq
    exact (releases_updateDirectoryMeta cfg path u c.lock c rfl).of_done hr'

end Requests

/-- `mkdir` in a file system that has just started. -/
theorem request_locks_mkdir : ∃ c r c', (sampleSetup 64).start oneNode = .done c ∧
      parseMessage oneNode sampleUnset 1 (.mkdir pathA) c = .done (r, c') ∧
      LockEffect oneNode 1 c (.mkdir pathA) r c' := by
  obtain ⟨c, hc, ⟨r, c'⟩, hmsg, -⟩ : ∃ c, (sampleSetup 64).start oneNode = .done c ∧
      ∃ r, parseMessage oneNode sampleUnset 1 (.mkdir pathA) c = .done r ∧ True := by
    decide +kernel
  exact ⟨c, r, c', hc, hmsg, request_locks oneNode sampleUnset 1 _ c r c' hmsg⟩

/-- A request to add a name to the root directory returns with the root
locked. -/
theorem first_message_keeps_lock :
    ¬ ∀ (cfg : Config) (unset : Unset) (self : ℕ) (msg : Message) (c c' : Cluster)
        (r : Response), parseMessage cfg unset self msg c = .done (r, c') →
        Balanced c.lock c'.lock := by
  intro hall
  obtain ⟨c, -, ⟨r, c'⟩, hmsg, hwr⟩ : ∃ c, (sampleSetup 64).start oneNode = .done c ∧
      ∃ r, parseMessage oneNode sampleUnset 1 (.addMetaToDirectory root [97#8] false) c = .done r ∧
        (r.2.lock 1).word (oneNode.addressOf root)
          ≠ (c.lock 1).word (oneNode.addressOf root) := by
    decide +kernel
  have hbal := (hall _ _ _ _ _ _ _ hmsg 1).1
  simp [hbal] at hwr

end Librdpma.Octopus
