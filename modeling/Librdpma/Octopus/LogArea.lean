import Librdpma.Octopus.LockBalance

/-!
# The local log and its area

`TxLocalBegin` hands out the next entry of the log and never starts over. The
log has room for `40 * 2 ^ 20 / 4096 = 10240` entries, so a server that only
makes and removes paths stays inside the area exactly as long as it has begun
at most that many transactions (`log_inside_iff`).
-/

namespace Librdpma.Octopus

open Lib Outcome Function List Program

/-! ## What one call does to the log -/

/-- The bytes lie in entry `j` of the log. -/
def ByteRange.InEntry (r : ByteRange) (j : ℕ) : Prop :=
  j * localLogEntrySize ≤ r.offset ∧ r.offset + r.length ≤ (j + 1) * localLogEntrySize

lemma ByteRange.inEntry_first {j l : ℕ} (h : l ≤ localLogEntrySize) :
    InEntry ⟨j * localLogEntrySize, l⟩ j := by
  refine ⟨le_rfl, ?_⟩
  rw [add_mul, one_mul]
  exact Nat.add_le_add_left h _

lemma ByteRange.inEntry {j k l : ℕ} (h : k + l ≤ localLogEntrySize) :
    InEntry ⟨j * localLogEntrySize + k, l⟩ j := by
  refine ⟨Nat.le_add_right _ _, ?_⟩
  rw [add_mul, one_mul, add_assoc]
  exact Nat.add_le_add_left h _

namespace TxManager

/-- The entry a call works on: the next one if it begins a transaction, and
otherwise the first. -/
def entry (begins : Bool) (t : TxManager) : ℕ := if begins then t.localLogIndex else 0

/-- The call took the log from `t` to `t'`, with a new transaction if
`begins`. -/
structure Logs (begins : Bool) (t t' : TxManager) : Prop where
  index : t'.localLogIndex = t.localLogIndex + begins.toNat
  keeps : ∀ r ∈ t.written, r ∈ t'.written
  begun : begins = true → ⟨t.localLogIndex * localLogEntrySize, 8⟩ ∈ t'.written
  new : ∀ r ∈ t'.written, r ∈ t.written ∨ r.InEntry (entry begins t)

namespace Logs

variable {begins : Bool} {t t' : TxManager}

lemma refl (t : TxManager) : Logs false t t := ⟨rfl, fun _ h => h, nofun, fun _ h => .inl h⟩

lemma txLocalBegin (t : TxManager) : Logs true t t.txLocalBegin.2 := by
  refine ⟨rfl, fun r h => ?_, fun _ => mem_cons_self, fun r h => ?_⟩
  · exact mem_cons_of_mem _ (mem_cons_of_mem _ h)
  · rcases mem_cons.mp h with rfl | h
    · exact .inr (ByteRange.inEntry_first (by decide))
    · rcases mem_cons.mp h with rfl | h
      · exact .inr (ByteRange.inEntry (by decide))
      · exact .inl h

lemma cons (h : Logs begins t t') {r : ByteRange} (hr : r.InEntry (entry begins t))
    (logData : ℕ → DirectoryMeta) :
    Logs begins t { t' with logData, written := r :: t'.written } := by
  refine ⟨h.index, fun r' h' => mem_cons_of_mem _ (h.keeps r' h'),
    fun hb => mem_cons_of_mem _ (h.begun hb), fun r' h' => ?_⟩
  rcases mem_cons.mp h' with rfl | h'
  · exact .inr hr
  · exact h.new r' h'

lemma txWriteData (h : Logs begins t t') (data : DirectoryMeta) :
    Logs begins t (t'.txWriteData (entry begins t) data).2 :=
  h.cons (ByteRange.inEntry (by decide)) _

lemma txLocalCommit (h : Logs begins t t') : Logs begins t (t'.txLocalCommit (entry begins t)).2 :=
  h.cons (ByteRange.inEntry (by decide)) _

end Logs

/-- A rule for what a call does to the log, whether it begins a transaction or not:
`P` holds until it commits, and then `Q`. -/
structure LogRule (P Q : Bool → TxManager → TxManager → Prop) : Prop where
  idle : ∀ t, P false t t
  begins : ∀ t, P true t t.txLocalBegin.2
  write : ∀ {b t t'} (data : DirectoryMeta), P b t t' → P b t (t'.txWriteData (entry b t) data).2
  commit : ∀ {b t t'}, P b t t' → Q b t (t'.txLocalCommit (entry b t)).2

lemma Logs.rule : LogRule Logs Logs :=
  ⟨Logs.refl, Logs.txLocalBegin, fun data h => h.txWriteData data, fun h => h.txLocalCommit⟩

/-! ## The invariant of the log -/

/-- The entries of the transactions begun are written; everything written is
in one of them or in the first. -/
structure LogInv (t : TxManager) : Prop where
  begun : ∀ j < t.localLogIndex, ⟨j * localLogEntrySize, 8⟩ ∈ t.written
  inside : ∀ r ∈ t.written, ∃ j, (j = 0 ∨ j < t.localLogIndex) ∧ r.InEntry j

variable {t : TxManager}

lemma LogInv.empty (hidx : t.localLogIndex = 0) (hwrt : t.written = []) : LogInv t := by
  refine ⟨fun j hj => ?_, fun r hr => ?_⟩
  · rw [hidx] at hj
    exact absurd hj (Nat.not_lt_zero j)
  · rw [hwrt] at hr
    cases hr

lemma LogInv.logs {begins : Bool} {t' : TxManager} (h : LogInv t) (hl : Logs begins t t') :
    LogInv t' := by
  refine ⟨fun j hj => ?_, fun r hr => ?_⟩
  · rw [hl.index] at hj
    by_cases hlt : j < t.localLogIndex
    · exact hl.keeps _ (h.begun j hlt)
    · cases begins with
      | false => exact absurd hj (by simpa using hlt)
      | true =>
        obtain rfl : j = t.localLogIndex := by
          simp only [Bool.toNat_true] at hj
          omega
        exact hl.begun rfl
  · rcases hl.new r hr with hr | hr
    · obtain ⟨j, hj, hin⟩ := h.inside r hr
      refine ⟨j, ?_, hin⟩
      rw [hl.index]
      omega
    · refine ⟨entry begins t, ?_, hr⟩
      rw [hl.index]
      cases begins with
      | false => exact .inl rfl
      | true => exact .inr (Nat.lt_succ_self _)

/-- Every byte written lies in `[LocalLogAddress, LocalLogAddress +
LOCALLOGSIZE)`. -/
def Inside (t : TxManager) : Prop :=
  ∀ r ∈ t.written, r.offset + r.length ≤ localLogSize

/-- The entries the area has room for. -/
def capacity : ℕ := localLogSize / localLogEntrySize

lemma LogInv.inside_iff (h : LogInv t) : t.Inside ↔ t.localLogIndex ≤ capacity := by
  have hcap : capacity = 10240 := by decide
  constructor
  · intro hin
    by_contra hlt
    have hwr : capacity * localLogEntrySize + 8 ≤ localLogSize :=
      hin _ (h.begun capacity (by omega))
    rw [hcap, localLogEntrySize, localLogSize] at hwr
    omega
  · intro hle r hr
    obtain ⟨j, hj, -, hin⟩ := h.inside r hr
    have hj' : j + 1 ≤ 10240 := by omega
    calc r.offset + r.length ≤ (j + 1) * localLogEntrySize := hin
      _ ≤ 10240 * localLogEntrySize := Nat.mul_le_mul_right _ hj'
      _ = localLogSize := by decide

end TxManager

open TxManager

/-! ## Calls -/

section Calls

variable (cfg : Config) (self : ℕ)

/-- The log of the server. -/
abbrev ownLog (c : Cluster) : TxManager := c.tx self

variable {α : Type} {msg : Message}

lemma keeps_onStorage (i : ℕ) (x : Program Storage α) : Keeps (ownLog self) (onStorage i x) :=
  Keeps.zoom (fun st c => by rw [ownLog, Cluster.tx_setStorage]) x

lemma keeps_onLock (i : ℕ) (x : Program LockService α) : Keeps (ownLog self) (onLock i x) :=
  Keeps.zoom (fun l c => by rw [ownLog, Cluster.tx_setLock]) x

lemma keeps_readDirectoryMeta (path : Path) : Keeps (ownLog self) (readDirectoryMeta cfg path) :=
  (keeps_onLock self _ _).bind fun _ => (keeps_onStorage self _ _).bind fun _ =>
    (keeps_onLock self _ _).bind fun _ => Keeps.pure _

variable {t : TxManager} {begins : Bool} {P Q : Bool → TxManager → TxManager → Prop}

lemma spec_onTx {f : TxManager → α × TxManager} {P : TxManager → Prop} {Q : α → TxManager → Prop}
    (h : ∀ t, P t → Q (f t).1 (f t).2) :
    Spec True (ownLog self) P (onTx self f) Q := by
  intro c hc
  refine .done ?_
  rw [ownLog, Cluster.tx_setTx, update_self]
  exact h _ hc

section

variable (hP : LogRule P Q)

include hP

lemma spec_txLocalBegin : Spec True (ownLog self) (· = t) (txLocalBegin self)
      fun r t' => r = entry true t ∧ P true t t' :=
  spec_onTx self fun t' ht' => by
    subst ht'
    exact ⟨rfl, hP.begins t'⟩

lemma spec_txWriteData (m : DirectoryMeta) :
    Spec True (ownLog self) (P begins t) (txWriteData self (entry begins t) m)
      fun _ => P begins t :=
  spec_onTx self fun _ h => hP.write m h

lemma spec_txLocalCommit :
    Spec True (ownLog self) (P begins t) (txLocalCommit self (entry begins t))
      fun _ => Q begins t :=
  spec_onTx self fun _ h => hP.commit h

lemma spec_applyChange (change : Option Change) : Spec True (ownLog self) (P begins t)
      (applyChange self (entry begins t) change) fun _ => P begins t := by
  cases change with
  | none => exact (Keeps.pure _).spec _
  | some ch =>
    have hwr : Spec True (ownLog self) (P begins t)
        (writeParent self (entry begins t) ch) fun _ => P begins t :=
      (spec_txWriteData self hP ch.logged).bind fun _ =>
        (keeps_onStorage self _ _).spec _
    exact hwr.bind fun _ => (keeps_onStorage self _ _).spec _

lemma spec_finish (path : Path) : Spec True (ownLog self) (P begins t)
      (finish cfg self path (entry begins t)) fun _ => Q begins t :=
  (spec_txLocalCommit self hP).bind fun _ => (keeps_onLock self _ _).spec _

/-- `changecd` on the own node does to the log what `prepare` has begun. -/
lemma ends_changecd {path : Path} {prepare : Sys Prepared} {c : Cluster}
    (hsf : cfg.nodeOf path = self)
    (h : ∀ c1 : Cluster, c1.storage = c.storage → c1.tx = c.tx →
      Ends True (prepare c1) fun r =>
        r.1.txID = entry begins (ownLog self c) ∧ P begins (ownLog self c) (ownLog self r.2)) :
    Ends True (changecd cfg self path prepare c) fun r =>
      Q begins (ownLog self c) (ownLog self r.2) := by
  unfold changecd
  rw [if_pos hsf]
  have hlk : Ends True (lockWriteHashItem self (cfg.addressOf path) c) fun r =>
      r.2.storage = c.storage ∧ r.2.tx = c.tx := by
    refine ends_of_done fun r hr => ?_
    obtain ⟨r', -, hr'⟩ := bind_eq_done.mp hr
    cases hr'
    exact ⟨Cluster.storage_setLock .., Cluster.tx_setLock ..⟩
  refine hlk.bind fun r hr => (h r.2 hr.1 hr.2).bind ?_
  rintro ⟨p, c1⟩ ⟨htx, hlg⟩
  dsimp only
  rw [htx]
  refine (spec_applyChange self hP p.change c1 hlg).bind fun r' hr' => ?_
  exact (spec_finish cfg self hP path r'.2 hr').bind fun _ h => .done h

end

/-! ## Which calls begin a transaction -/

/-- There is a file or an empty directory to remove. -/
def Storage.removable (k : UniqueHash) (st : Storage) : Bool :=
  match getEntry k st with
  | .done (some (index, true), _) =>
      match st.tableDirectoryMeta.get index with
      | some m => m.length = 0
      | none => false
  | .done (some (index, false), _) => (st.tableFileMeta.get index).isSome
  | _ => false

/-- Does the request begin a transaction at this server? -/
def beginsTx (c : Cluster) : Message → Bool
  | .mknod path => cfg.nodeOf path = self
  | .mkdir path => cfg.nodeOf path = self
  | .remove path =>
      cfg.nodeOf path = self ∧ (c.storage self).removable (cfg.sha256 path)
  | _ => false

/-- Making a path begins a transaction before anything is looked up. -/
lemma spec_prepareMake (hP : LogRule P Q) (path : Path) (isDirectories : Bool)
    (tables : Program Storage Bool) :
    Spec True (ownLog self) (· = t) (prepareMake cfg self path isDirectories tables)
      fun p t' => p.txID = entry true t ∧ P true t t' := by
  refine (spec_txLocalBegin self hP).bind fun txID => .of_and fun htx => ?_
  refine ((keeps_readDirectoryMeta cfg self _).spec _).bind fun parent => ?_
  cases parent with
  | none => exact .pure fun _ h => ⟨htx, h⟩
  | some p =>
    refine ((keeps_onStorage self _ _).spec _).bind fun e => ?_
    cases e with
    | some _ => exact .pure fun _ h => ⟨htx, h⟩
    | none =>
      cases getNameFromPath path with
      | none => exact .ofOutcome fun _ _ => .undefined trivial
      | some name =>
        exact ((Keeps.ofOutcome _).spec _).bind fun _ =>
          .pure fun _ h => ⟨htx, h⟩

lemma spec_prepareUnlink (hP : LogRule P Q) (path : Path) (metaFile : Attribute)
    (tables : Program Storage Bool) :
    Spec True (ownLog self) (· = t) (prepareUnlink cfg self path metaFile tables)
      fun p t' => p.txID = entry true t ∧ P true t t' := by
  refine (spec_txLocalBegin self hP).bind fun txID => .of_and fun htx => ?_
  refine ((keeps_readDirectoryMeta cfg self _).spec _).bind fun parent => ?_
  cases parent with
  | none => exact .pure fun _ h => ⟨htx, h⟩
  | some p =>
    cases getNameFromPath path with
    | none => exact .ofOutcome fun _ _ => .undefined trivial
    | some name => exact .pure fun _ h => ⟨htx, h⟩

lemma getEntry_reads {k : UniqueHash} {st st' : Storage} {e : Option (ℕ × Bool)}
    (h : Storage.getEntry k st = .done (e, st')) : st' = st := by
  obtain ⟨r, -, hr⟩ := bind_eq_done.mp h
  cases hr
  rfl

lemma ends_prepareRemove (hP : LogRule P Q) (path : Path) (c : Cluster) :
    Ends True (prepareRemove cfg self path c) fun r =>
      r.1.txID = entry ((c.storage self).removable (cfg.sha256 path)) (ownLog self c) ∧
        P ((c.storage self).removable (cfg.sha256 path)) (ownLog self c) (ownLog self r.2) := by
  refine ends_of_done fun r hr => ?_
  obtain ⟨r1, hr1, hr⟩ := bind_eq_done.mp hr
  obtain ⟨⟨e, st⟩, hget, heq⟩ := bind_eq_done.mp hr1
  cases heq
  cases getEntry_reads hget
  rw [Cluster.setStorage_self] at hr
  unfold Storage.removable
  rw [hget]
  have nothing : ∀ p : Prepared, p.txID = 0 → (pure p : Sys Prepared) c = .done r →
      r.1.txID = entry false (ownLog self c) ∧ P false (ownLog self c) (ownLog self r.2) := by
    intro p hp hdn
    cases hdn
    exact ⟨hp, hP.idle _⟩
  match e with
  | none => exact nothing _ rfl hr
  | some (index, true) =>
    dsimp only at hr ⊢
    rw [bind_apply, Cluster.Shows.onStorage_reads (r := _) rfl, done_bind] at hr
    dsimp only at hr
    cases hm : (c.storage self).tableDirectoryMeta.get index with
    | none =>
      rw [hm] at hr
      exact nothing _ rfl hr
    | some m =>
      rw [hm] at hr
      dsimp only at hr ⊢
      by_cases hlen : m.length = 0
      · rw [if_neg (by simpa using hlen)] at hr
        rw [hlen]
        exact (spec_prepareUnlink cfg self hP path _ _ c rfl).of_done hr
      · rw [if_pos hlen] at hr
        rw [decide_eq_false hlen]
        exact nothing _ rfl hr
  | some (index, false) =>
    dsimp only at hr ⊢
    rw [bind_apply, Cluster.Shows.onStorage_reads (r := _) rfl, done_bind] at hr
    dsimp only at hr
    cases hm : (c.storage self).tableFileMeta.get index with
    | none =>
      rw [hm] at hr
      exact nothing _ rfl hr
    | some m =>
      rw [hm] at hr
      exact (spec_prepareUnlink cfg self hP path _ _ c rfl).of_done hr

/-- The request is for a path of this server. -/
def ownsPath : Message → Bool
  | .mknod path => cfg.nodeOf path = self
  | .mkdir path => cfg.nodeOf path = self
  | .remove path => cfg.nodeOf path = self
  | _ => false

lemma request_elsewhere (unset : Unset) (h : msg.ChangesPaths)
    (hown : ownsPath cfg self msg = false) (c : Cluster) :
    ∃ r, parseMessage cfg unset self msg c = .done (r, c) := by
  have hcl : ∀ (path : Path) (prepare : Sys Prepared), cfg.nodeOf path ≠ self →
      changecd cfg self path prepare c = .done ((false, none), c) := by
    intro path prepare hsf
    rw [changecd, if_neg hsf]
    rfl
  match msg, h with
  | .mknod path, _ =>
    rw [parseMessage, mknodcd, bind_apply, bind_apply, hcl path _ (of_decide_eq_false hown)]
    exact ⟨_, rfl⟩
  | .mkdir path, _ =>
    rw [parseMessage, mkdircd, bind_apply, bind_apply, hcl path _ (of_decide_eq_false hown)]
    exact ⟨_, rfl⟩
  | .remove path, _ =>
    rw [parseMessage, removecd, bind_apply, hcl path _ (of_decide_eq_false hown)]
    exact ⟨_, rfl⟩

lemma ends_request (hP : LogRule P Q) (unset : Unset) (h : msg.ChangesPaths)
    (hown : ownsPath cfg self msg = true) (c : Cluster) :
    Ends True (parseMessage cfg unset self msg c) fun r =>
      Q (beginsTx cfg self c msg) (ownLog self c) (ownLog self r.2) := by
  have make : ∀ (path : Path) (isDirectories : Bool) (tables : Program Storage Bool),
      decide (cfg.nodeOf path = self) = true → Ends True (changecd cfg self path
          (prepareMake cfg self path isDirectories tables) c) fun r =>
        Q (decide (cfg.nodeOf path = self)) (ownLog self c) (ownLog self r.2) := by
    intro path isDirectories tables hsf
    rw [hsf]
    refine ends_changecd cfg self hP (of_decide_eq_true hsf) fun c1 _ htx => ?_
    exact spec_prepareMake cfg self hP path isDirectories tables c1 (congrFun htx self)
  match msg, h with
  | .mknod path, _ | .mkdir path, _ =>
    refine ends_of_done fun r hr => ?_
    obtain ⟨r1, hr1, heq⟩ := bind_eq_done.mp hr
    cases heq
    obtain ⟨r2, hr2, heq⟩ := bind_eq_done.mp hr1
    cases heq
    exact (make path _ _ hown).of_done hr2
  | .remove path, _ =>
    have hsf : cfg.nodeOf path = self := of_decide_eq_true hown
    have hbgn : beginsTx cfg self c (.remove path)
        = (c.storage self).removable (cfg.sha256 path) := by
      simp [beginsTx, hsf]
    rw [hbgn]
    refine (ends_changecd cfg self hP hsf fun c1 hst htx => ?_).bind fun _ h => .done h
    have hrem := ends_prepareRemove cfg self hP path c1
    unfold ownLog at hrem ⊢
    rw [hst, htx] at hrem
    exact hrem

lemma beginsTx_elsewhere (hown : ownsPath cfg self msg = false) (c : Cluster) :
    beginsTx cfg self c msg = false := by
  unfold ownsPath at hown
  unfold beginsTx
  split <;> simp_all

lemma logs_request (unset : Unset) (h : msg.ChangesPaths) (c : Cluster) :
    Ends True (parseMessage cfg unset self msg c) fun r =>
      Logs (beginsTx cfg self c msg) (ownLog self c) (ownLog self r.2) := by
  cases hown : ownsPath cfg self msg with
  | true => exact ends_request cfg self Logs.rule unset h hown c
  | false =>
    obtain ⟨r, hr⟩ := request_elsewhere cfg self unset h hown c
    rw [hr, beginsTx_elsewhere cfg self hown c]
    exact .done (Logs.refl _)

/-! ## Runs -/

/-- The transactions a sequence of requests begins. -/
def begun : List (Unset × Message) → Cluster → ℕ
  | [], _ => 0
  | (unset, msg) :: rest, c =>
      (beginsTx cfg self c msg).toNat +
        match parseMessage cfg unset self msg c with
        | .done (_, c') => begun rest c'
        | _ => 0

lemma serve_logInv {reqs : List (Unset × Message)}
    (hrq : ∀ r ∈ reqs, r.2.ChangesPaths) {c c' : Cluster} {rs : List Response}
    (hrun : serve cfg self reqs c = .done (rs, c')) (h : LogInv (ownLog self c)) :
    LogInv (ownLog self c') ∧
      (ownLog self c').localLogIndex = (ownLog self c).localLogIndex + begun cfg self reqs c := by
  induction reqs generalizing c rs with
  | nil =>
    cases hrun
    exact ⟨h, rfl⟩
  | cons req reqs ih =>
    obtain ⟨unset, msg⟩ := req
    obtain ⟨⟨r, c1⟩, hst, hrun⟩ := bind_eq_done.mp hrun
    obtain ⟨⟨rs', c2⟩, hrs, heq⟩ := bind_eq_done.mp hrun
    cases heq
    have hlg := (logs_request cfg self unset (hrq _ mem_cons_self) c).of_done hst
    obtain ⟨hinv, hidx⟩ := ih (fun r hr => hrq r (mem_cons_of_mem _ hr)) hrs (h.logs hlg)
    refine ⟨hinv, ?_⟩
    rw [hidx, hlg.index, begun, hst]
    exact add_assoc _ _ _

/-- **The log stays in its area exactly as long as at most `capacity`
transactions have been begun.** -/
theorem log_inside_iff (reqs : List (Unset × Message)) (hreqs : ∀ r ∈ reqs, r.2.ChangesPaths)
    (c c' : Cluster) (rs : List Response) (hindex : (c.tx self).localLogIndex = 0)
    (hwritten : (c.tx self).written = []) (hrun : serve cfg self reqs c = .done (rs, c')) :
    (c'.tx self).Inside ↔ begun cfg self reqs c ≤ capacity := by
  obtain ⟨hinv, hidx'⟩ := serve_logInv cfg self hreqs hrun (.empty hindex hwritten)
  rw [hinv.inside_iff, hidx', ownLog, hindex, zero_add]

end Calls

/-- One `mkdir` after the start. -/
theorem log_inside_mkdir : ∃ c c' rs, (sampleSetup 64).start oneNode = .done c ∧
      serve oneNode 1 [(sampleUnset, .mkdir pathA)] c = .done (rs, c') ∧
      ((c'.tx 1).Inside ↔ begun oneNode 1 [(sampleUnset, .mkdir pathA)] c ≤ capacity) := by
  obtain ⟨c, hc, ⟨rs, c'⟩, hsrv, -⟩ : ∃ c, (sampleSetup 64).start oneNode = .done c ∧
      ∃ r, serve oneNode 1 [(sampleUnset, .mkdir pathA)] c = .done r ∧ True := by
    decide +kernel
  obtain ⟨w, hst⟩ := Setup.Sound.started (by decide) hc
  refine ⟨c, c', rs, hc, hsrv, log_inside_iff oneNode 1 _ (fun r hr => ?_) c c' rs
    (hst.tx 1).1 (hst.tx 1).2 hsrv⟩
  rw [mem_singleton.mp hr]
  trivial

/-! ## A run that leaves the area

`mknod` below a directory that does not exist fails, but not before it has
begun a transaction. -/

/-- Nothing is locked on the node, and the parent of `path` is not there. -/
structure Orphan (cfg : Config) (node : ℕ) (path : Path) (c : Cluster) : Prop where
  idle : ∀ a, (c.lock node).word a = 0#64
  missing : Storage.lookupDirectory (cfg.sha256 (getParentDirectory path).1) (c.storage node)
    = .done (none, c.storage node)

section Orphans

variable {cfg : Config} {self : ℕ} {path : Path}

lemma mknodcd_orphan (hsf : cfg.nodeOf path = self)
    (hpar : cfg.nodeOf (getParentDirectory path).1 = self)
    (hne : cfg.addressOf (getParentDirectory path).1 ≠ cfg.addressOf path)
    (unset : Unset) {c : Cluster} (h : Orphan cfg self path c) :
    ∃ c', mknodcd cfg unset self path c = .done (false, c') ∧ Orphan cfg self path c' := by
  obtain ⟨key, l, hlk, hl⟩ := lockWrite_free (h.idle (cfg.addressOf path))
  obtain ⟨txID, c1, htx, hlk1, hst1⟩ : ∃ txID c1,
      txLocalBegin self (c.setLock self l) = .done (txID, c1) ∧
        c1.lock = (c.setLock self l).lock ∧ c1.storage = c.storage :=
    ⟨_, _, rfl, Cluster.lock_setTx .., by rw [Cluster.storage_setTx, Cluster.storage_setLock]⟩
  obtain ⟨c2, hrd, hst2⟩ : ∃ c2, readDirectoryMeta cfg (getParentDirectory path).1 c1
      = .done (none, c2) ∧ c2.storage = c1.storage := by
    apply readDirectoryMeta_free
    · rw [hpar, hlk1, Cluster.lock_setLock, update_self, hl _ hne, h.idle]
    · rw [hpar, hst1]
      exact h.missing
  have hprp : prepareMknod cfg unset self path (c.setLock self l)
      = .done (⟨txID, none, none⟩, c2) := by
    rw [prepareMknod, prepareMake, bind_apply, htx, done_bind, bind_apply, hrd, done_bind]
    rfl
  have hdn : ∃ c3, mknodcd cfg unset self path c = .done (false, c3) ∧ c3.storage = c2.storage := by
    rw [mknodcd, changecd, if_pos hsf, bind_apply, bind_apply, hlk,
      done_bind, bind_apply, hprp, done_bind]
    refine ⟨_, rfl, ?_⟩
    rw [Cluster.storage_setLock, Cluster.storage_setTx]
  obtain ⟨c3, hdn, hst3⟩ := hdn
  have hbal : Balanced c.lock c3.lock :=
    (((balances_changecd cfg self (balances_prepareMake cfg self path _ _)).bind
      fun _ => .pure _).ends c).of_done hdn
  refine ⟨c3, hdn, fun a => ?_, ?_⟩
  · rw [(hbal self).1]
    exact h.idle a
  · rw [hst3, hst2, hst1]
    exact h.missing

lemma serve_orphans (hsf : cfg.nodeOf path = self)
    (hpar : cfg.nodeOf (getParentDirectory path).1 = self)
    (hne : cfg.addressOf (getParentDirectory path).1 ≠ cfg.addressOf path)
    (unset : Unset) {c : Cluster} (h : Orphan cfg self path c) (n : ℕ) :
    ∃ rs c', serve cfg self (replicate n (unset, .mknod path)) c = .done (rs, c') ∧
      begun cfg self (replicate n (unset, .mknod path)) c = n := by
  induction n generalizing c with
  | zero => exact ⟨_, _, rfl, rfl⟩
  | succ n ih =>
    obtain ⟨c1, hdn, h1⟩ := mknodcd_orphan hsf hpar hne unset h
    obtain ⟨rs, c', hrun, hcnt⟩ := ih h1
    have hmsg : parseMessage cfg unset self (.mknod path) c = .done (.result false, c1) := by
      rw [parseMessage, bind_apply, hdn, done_bind]
      rfl
    rw [replicate_succ, serve, begun, bind_apply, hmsg, done_bind, bind_apply, hrun]
    refine ⟨_, _, rfl, ?_⟩
    dsimp only
    rw [hcnt]
    simp [beginsTx, hsf, add_comm]

end Orphans

/-- The path `/a/b` -/
def pathAB : Path := pathA ++ pathB

/-- One transaction too many. -/
theorem log_overruns : ¬ ∀ (s : Setup) (cfg : Config) (self : ℕ) (reqs : List (Unset × Message))
        (c c' : Cluster) (rs : List Response), s.start cfg = .done c →
        (∀ r ∈ reqs, r.2.ChangesPaths) → serve cfg self reqs c = .done (rs, c') →
        (c'.tx self).Inside := by
  intro hall
  obtain ⟨c, w, hc, hst⟩ := Setup.Sound.start (s := sampleSetup 64) (by decide) oneNode
  have horp : Orphan oneNode 1 pathAB c := by
    refine ⟨hst.lock 1, ?_⟩
    have hno : (w 1).directory (oneNode.sha256 (getParentDirectory pathAB).1) = none := by
      have hrt : (w 1).entries = _ := hst.root.entries
      rw [StoreView.directory, hrt, update_of_ne (by decide)]
    rw [(hst.shows 1).lookupDirectory, hno]
  obtain ⟨rs, c', hrun, hcnt⟩ :=
    serve_orphans (by decide) (by decide) (by decide) sampleUnset horp (capacity + 1)
  have hrq : ∀ r ∈ replicate (capacity + 1) (sampleUnset, Message.mknod pathAB),
      r.2.ChangesPaths := by
    intro r hr
    rw [eq_of_mem_replicate hr]
    trivial
  obtain ⟨hinv, hidx⟩ := serve_logInv oneNode 1 hrq hrun (.empty (hst.tx 1).1 (hst.tx 1).2)
  have hin := hinv.inside_iff.mp (hall _ _ _ _ _ _ _ hc hrq hrun)
  rw [hidx, hcnt] at hin
  omega

end Librdpma.Octopus
