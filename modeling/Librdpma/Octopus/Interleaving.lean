import Librdpma.Lib.LostUpdate
import Librdpma.Octopus.Namespace

/-!
# Two calls on one directory at once

`mknodcd`, `mkdircd` and `removecd` lock the hash item of their own path. The
parent directory is locked only while `readDirectoryMeta` copies it; the copy
is changed at leisure and written back by `updateRemoteMeta`. Here two calls on
children of one directory run in turns, part by part. For the parent directory
they are two changes of one cell (`Cell`), so that the directory tells of both
exactly if they were not both between their read and their write.
-/

namespace Librdpma.Octopus

open Lib Outcome Function List Program

/-! ## The parts of a call, in turns -/

inductive NameCall : Type where
  | mknod (unset : Unset)
  | mkdir
  | remove

/-- A call on a path. It is made at the owner of the path, since anywhere else
it returns without success. -/
structure Job where
  call : NameCall
  path : Path

/-- How far a call has got. -/
inductive Stage : Type where
  | start
  | locked
  | prepared (p : Prepared)
  | written (p : Prepared)
  | applied (p : Prepared) (result : Bool)
  | ended (r : Bool × Option Attribute)

def Stage.succeeded : Stage → Bool
  | .ended (result, _) => result
  | _ => false

namespace Job

variable (cfg : Config) (j : Job)

def self : ℕ := cfg.nodeOf j.path

def name : Path := nameOf j.path

/-- The second part of the call. -/
def prepare : Sys Prepared :=
  match j.call with
  | .mknod unset => prepareMknod cfg unset (j.self cfg) j.path
  | .mkdir => prepareMkdir cfg (j.self cfg) j.path
  | .remove => prepareRemove cfg (j.self cfg) j.path

/-- The next part of the call: lock the own hash item, read the parent, write
the parent, change the own tables, unlock. -/
def step : Stage → Sys Stage
  | .start => do
      let _ ← lockWriteHashItem (j.self cfg) (cfg.addressOf j.path)
      return .locked
  | .locked => do
      let p ← j.prepare cfg
      return .prepared p
  | .prepared p =>
      match p.change with
      | none => return .written p
      | some ch => do
          writeParent (j.self cfg) p.txID ch
          return .written p
  | .written p =>
      match p.change with
      | none => return .applied p false
      | some ch => do
          let result ← onStorage (j.self cfg) ch.tables
          return .applied p result
  | .applied p result => do
      finish cfg (j.self cfg) j.path p.txID
      return .ended (result, p.metaFile)
  | .ended r => return .ended r

lemma steps_eq_changecd (c : Cluster) :
    (do
      let s ← j.step cfg .start
      let s ← j.step cfg s
      let s ← j.step cfg s
      let s ← j.step cfg s
      j.step cfg s : Sys Stage) c
      = (do
          let r ← changecd cfg (j.self cfg) j.path (j.prepare cfg)
          return .ended r : Sys Stage) c := by
  rw [changecd, if_pos (show cfg.nodeOf j.path = j.self cfg from rfl)]
  simp only [step, bind_apply, pure_apply]
  cases lockWriteHashItem (j.self cfg) (cfg.addressOf j.path) c with
  | exit | undefined | loop => rfl
  | done r =>
    simp only [done_bind, bind_apply, pure_apply]
    cases j.prepare cfg r.2 with
    | exit | undefined | loop => rfl
    | done r =>
      obtain ⟨⟨txID, change, metaFile⟩, c⟩ := r
      cases change with
      | none =>
        simp only [done_bind, pure_apply, applyChange, bind_apply]
        cases finish cfg (j.self cfg) j.path txID c <;> rfl
      | some ch =>
        simp only [done_bind, pure_apply, applyChange, bind_apply]
        cases writeParent (j.self cfg) txID ch c with
        | exit | undefined | loop => rfl
        | done r =>
          simp only [done_bind, pure_apply, bind_apply]
          cases onStorage (j.self cfg) ch.tables r.2 with
          | exit | undefined | loop => rfl
          | done r =>
            simp only [done_bind, pure_apply, bind_apply]
            cases finish cfg (j.self cfg) j.path txID r.2 <;> rfl

end Job

/-- Two calls in turns. A call that waits for a lock does not move, so that a
schedule lets it move when it gets the lock. -/
def interleave (cfg : Config) (job : Bool → Job) :
    List Bool → (Bool → Stage) → Sys (Bool → Stage)
  | [], s => return s
  | b :: sched, s => do
      let t ← (job b).step cfg (s b)
      interleave cfg job sched (update s b t)

/-! ## What a call is to do to the parent directory -/

namespace Job

variable (j : Job)

/-- The parent directory without anybody else at work. -/
def change (m : DirectoryMeta) : DirectoryMeta :=
  match j.call with
  | .mknod unset => m ++ [⟨j.name, unset.isDirectory⟩]
  | .mkdir => m ++ [⟨j.name, true⟩]
  | .remove => m.without j.name

/-- A created name is there, a removed one is not. -/
def Reflected (m : DirectoryMeta) : Prop :=
  match j.call with
  | .mknod _ => ∃ e ∈ m, e.names = j.name
  | .mkdir => ∃ e ∈ m, e.names = j.name
  | .remove => ∀ e ∈ m, e.names ≠ j.name

instance (m : DirectoryMeta) : Decidable (j.Reflected m) := by
  unfold Reflected
  cases j.call <;> infer_instance

lemma reflected_change (m : DirectoryMeta) : j.Reflected (j.change m) := by
  unfold Reflected change
  cases j.call with
  | mknod unset | mkdir => exact ⟨_, mem_append_right _ (mem_singleton_self _), rfl⟩
  | remove => exact fun e he => of_decide_eq_true (mem_filter.mp he).2

variable {j}

lemma filter_change {p : DirectoryMetaTuple → Bool} (hp : ∀ e, p e = true → e.names ≠ j.name)
    (m : DirectoryMeta) : (j.change m).filter p = m.filter p := by
  have hadd : ∀ flag, (m ++ [(⟨j.name, flag⟩ : DirectoryMetaTuple)]).filter p = m.filter p := by
    intro flag
    have hnot : p ⟨j.name, flag⟩ = false := by
      by_contra hp'
      exact hp _ (Bool.not_eq_false _ ▸ hp') rfl
    rw [filter_append, filter_cons_of_neg (Bool.not_eq_true _ ▸ hnot), filter_nil, append_nil]
  unfold change
  cases j.call with
  | mknod unset | mkdir => exact hadd _
  | remove =>
    rw [DirectoryMeta.without, filter_filter]
    refine filter_congr fun e _ => ?_
    by_cases he : p e = true
    · rw [he, decide_eq_true (hp e he)]
      rfl
    · rw [Bool.not_eq_true] at he
      rw [he]
      rfl

lemma mem_change_of_ne {e : DirectoryMetaTuple} (he : e.names ≠ j.name) (m : DirectoryMeta) :
    e ∈ j.change m ↔ e ∈ m := by
  have hflt := filter_change (j := j) (p := fun e => e.names ≠ j.name)
    (fun _ he => of_decide_eq_true he) m
  have hmem : ∀ l : DirectoryMeta, e ∈ l ↔ e ∈ l.filter fun e => e.names ≠ j.name := fun l => by
    rw [mem_filter]
    exact ⟨fun h => ⟨h, decide_eq_true he⟩, And.left⟩
  rw [hmem, hflt, ← hmem]

lemma reflected_change_iff {j' : Job} (hne : j'.name ≠ j.name) (m : DirectoryMeta) :
    j'.Reflected (j.change m) ↔ j'.Reflected m := by
  have hmem : ∀ e : DirectoryMetaTuple, e.names = j'.name → (e ∈ j.change m ↔ e ∈ m) :=
    fun e he => mem_change_of_ne (by rw [he]; exact hne) m
  unfold Reflected
  cases j'.call with
  | mknod unset | mkdir => exact exists_congr fun e => and_congr_left (hmem e)
  | remove =>
    refine forall_congr' fun e => ⟨fun h he hname => ?_, fun h he hname => ?_⟩
    · exact h ((hmem e hname).mpr he) hname
    · exact h ((hmem e hname).mp he) hname

end Job

/-- The directory `m'` tells of both calls, and has the other entries of `m`. -/
def Reflects (job : Bool → Job) (m m' : DirectoryMeta) : Prop :=
  (∀ b, (job b).Reflected m') ∧
    (m'.filter fun e => e.names ≠ (job true).name ∧ e.names ≠ (job false).name)
      = m.filter fun e => e.names ≠ (job true).name ∧ e.names ≠ (job false).name

instance (job : Bool → Job) (m m' : DirectoryMeta) : Decidable (Reflects job m m') := by
  unfold Reflects
  infer_instance

section Reflects

variable {job : Bool → Job} {m : DirectoryMeta}

section

variable (hname : (job true).name ≠ (job false).name)

include hname

lemma name_ne (b : Bool) : (job (!b)).name ≠ (job b).name := by
  cases b with
  | true => exact hname.symm
  | false => exact hname

lemma reflects_both (b : Bool) : Reflects job m ((job b).change ((job (!b)).change m)) := by
  have hoth : ∀ b' (e : DirectoryMetaTuple),
      decide (e.names ≠ (job true).name ∧ e.names ≠ (job false).name) = true →
        e.names ≠ (job b').name := fun b' e he => by
    cases b' with
    | true => exact (of_decide_eq_true he).1
    | false => exact (of_decide_eq_true he).2
  refine ⟨(Bool.forall_bool' b).mpr ⟨Job.reflected_change _ _, ?_⟩, ?_⟩
  · rw [Job.reflected_change_iff (name_ne hname b)]
    exact Job.reflected_change _ _
  · rw [Job.filter_change (hoth b), Job.filter_change (hoth !b)]

lemma not_reflects_one (hnew : ∀ b, ¬ (job b).Reflected m) (b : Bool) :
    ¬ Reflects job m ((job b).change m) := fun h =>
  hnew (!b) ((Job.reflected_change_iff (name_ne hname b) m).mp (h.1 !b))

end

end Reflects

/-! ## The parent directory is a cell -/

/-- The directory `k` has its metadata `m` at place `i`, which is nobody
else's. -/
structure StoreView.Holds (v : StoreView) (k : UniqueHash) (i : ℕ) (m : DirectoryMeta) :
    Prop where
  entry : v.entries k = some (i, true)
  item : v.dirs.item i = some m
  only : ∀ k', v.entries k' = some (i, true) → k' = k

/-- A successful change of the tables leaves the directory alone, if it is
`here`. -/
def Spares (sz : StoreSize) (k : UniqueHash) (i : ℕ) (here : Prop)
    (tables : Program Storage Bool) : Prop :=
  ∀ (st : Storage) (v : StoreView), st.Shows sz v →
    Ends True (tables st) fun r => r.1 = true →
      ∃ v', r.2.Shows sz v' ∧ (here → ∀ m, v.Holds k i m → v'.Holds k i m)

section Tables

variable {sz : StoreSize} {k k' : UniqueHash} {i : ℕ} {m : DirectoryMeta} {v v' : StoreView}
  {here : Prop}

lemma StoreView.Holds.directory (h : v.Holds k i m) : v.directory k = some (i, m) :=
  StoreView.directory_eq_some.mpr ⟨h.entry, h.item⟩

lemma StoreView.Holds.drop (h : v.Holds k i m) (hk : k ≠ k')
    (he : v'.entries = update v.entries k' none)
    (hi : v'.dirs.item i = v.dirs.item i) : v'.Holds k i m where
  entry := by rw [he, update_of_ne hk, h.entry]
  item := by rw [hi, h.item]
  only k1 h1 := by
    rw [he] at h1
    by_cases hk1 : k1 = k'
    · rw [hk1, update_self] at h1
      cases h1
    · rw [update_of_ne hk1] at h1
      exact h.only k1 h1

lemma StoreView.Holds.bind (h : v.Holds k i m) (hk : k ≠ k') {index : ℕ} {isDirectory : Bool}
    (hidx : isDirectory = true → i ≠ index)
    (he : v'.entries = update v.entries k' (some (index, isDirectory)))
    (hi : v'.dirs.item i = v.dirs.item i) : v'.Holds k i m where
  entry := by rw [he, update_of_ne hk, h.entry]
  item := by rw [hi, h.item]
  only k1 h1 := by
    rw [he] at h1
    by_cases hk1 : k1 = k'
    · rw [hk1, update_self] at h1
      cases h1
      exact absurd rfl (hidx rfl)
    · rw [update_of_ne hk1] at h1
      exact h.only k1 h1

lemma spares_makeEntry {create : StoreView → Option ℕ × StoreView} {isDirectory : Bool}
    {metadata : Program Storage (Option ℕ)} (hk : k ≠ k')
    (hcrt : ∀ (st : Storage) (v : StoreView), st.Shows sz v →
      ∃ st', metadata st = .done ((create v).1, st') ∧ st'.Shows sz (create v).2)
    (hcr : ∀ v, Creates isDirectory v (create v)) :
    Spares sz k i here (Storage.makeEntry k' metadata isDirectory) := by
  intro st v hst
  refine (Storage.Shows.makeEntry (hcrt st v hst) k' isDirectory).mono ?_
  rintro ⟨ok, st'⟩ ⟨v', hst', hmd⟩ hok
  refine ⟨v', hst', fun _ m hv => ?_⟩
  cases hmd with
  | full | noItem => cases hok
  | made hidx =>
    rename_i index items
    have hne : isDirectory = true → i ≠ index := by
      rintro hdir rfl
      have hno := hst.dirs.free_none ((hcr v).fresh i hidx hdir)
      exact absurd (hv.item.symm.trans hno) nofun
    refine hv.bind hk hne (by rw [← (hcr v).entries]) ?_
    rw [(hcr v).dirs index hidx i, if_neg fun h => hne h.1 h.2]

lemma spares_dropEntry {st : Storage} {remove : Program Storage Bool} {r : Bool}
    (hk : k ≠ k') (hrem : ∃ st', remove st = .done (r, st') ∧ st'.Shows sz v')
    (he : v'.entries = v.entries) (hi : here → v'.dirs.item i = v.dirs.item i) :
    Ends True (Storage.dropEntry k' remove st) fun r => r.1 = true →
      ∃ v', r.2.Shows sz v' ∧ (here → ∀ m, v.Holds k i m → v'.Holds k i m) := by
  obtain ⟨st1, hst1, h1⟩ := hrem
  rw [Storage.dropEntry, bind_apply, hst1, done_bind]
  cases r with
  | false => exact .done fun h => by cases h
  | true =>
    obtain ⟨ok, st2, items, hdel, -, h2⟩ := h1.delEntry k'
    dsimp only
    rw [hdel]
    exact .done fun _ => ⟨_, h2, fun hhr m hv => hv.drop hk (by rw [← he]) (hi hhr)⟩

lemma spares_removeTarget {node : ℕ} {a : Attribute} {tables : Program Storage Bool}
    (hk : k ≠ k') (hv : here → v.Holds k i m) (htgt : RemoveTarget v node k' a tables) :
    Spares sz k i here tables := by
  intro st v1 hst
  cases htgt with
  | directory he hm =>
    rename_i index
    have hne : here → i ≠ index := by
      rintro hhr rfl
      exact hk ((hv hhr).only _ he).symm
    obtain ⟨st1, hrem, h1⟩ := hst.removeDirectoryMeta index
    refine spares_dropEntry hk ⟨st1, hrem, h1⟩ rfl fun hhr => ?_
    unfold TableView.remove
    split
    · exact update_of_ne (hne hhr) ..
    · rfl
  | file he hm =>
    rename_i index fm
    obtain ⟨st0, hfr, h0⟩ := hst.removeBlocksAnyway (blocksToRemove node fm)
    obtain ⟨st1, hrem, h1⟩ := h0.removeFileMeta index
    rw [bind_apply, hfr, done_bind]
    exact spares_dropEntry hk ⟨st1, hrem, h1⟩ rfl fun _ => rfl

end Tables

lemma StoreView.RootOnly.holds {cfg : Config} {sz : StoreSize} {v : StoreView}
    (h : v.RootOnly cfg sz) : v.Holds (cfg.sha256 root) 0 [] where
  entry := by rw [h.entries, update_self]
  item := by rw [h.dirs, update_self]
  only k hk := by
    rw [h.entries] at hk
    by_contra hne
    rw [update_of_ne hne] at hk
    cases hk

section Simulation

variable {cfg : Config} {job : Bool → Job} {parent : Path} {i : ℕ} {sz : StoreSize}
  {c c' : Cluster} {w : World} {m : DirectoryMeta} {s : Bool → Stage}
  {cell : Cell DirectoryMeta} {b : Bool} {t : Stage}

/-- What a call is about to write into the parent directory is `copy`, and its
own tables are not those of the parent. -/
structure Planned (cfg : Config) (parent : Path) (i : ℕ) (sz : StoreSize) (owner : ℕ)
    (copy : DirectoryMeta) (ch : Change) : Prop where
  node : ch.parentNodeID = cfg.nodeOf parent
  address : ch.metaAddress = i
  written : ch.written = copy
  tables : Spares sz (cfg.sha256 parent) i (owner = cfg.nodeOf parent) ch.tables

lemma Job.prepare_planned {j : Job} (h : c.Shows sz w)
    (hw : (w (cfg.nodeOf parent)).Holds (cfg.sha256 parent) i m)
    (hpar : parentOf j.path = parent) (hne : cfg.sha256 parent ≠ cfg.sha256 j.path) :
    Ends True (j.prepare cfg c) fun r => r.2.Shows sz w ∧
      ∀ ch, r.1.change = some ch → Planned cfg parent i sz (j.self cfg) (j.change m) ch := by
  subst hpar
  have hname : ∀ {n}, getNameFromPath j.path = some n → n = j.name := fun hn => by
    rw [Job.name, nameOf, hn, Option.getD_some]
  -- the directory that was read is the one that is there
  have hsm : ∀ {i' m'}, (w (cfg.nodeOf (parentOf j.path))).directory
      (cfg.sha256 (parentOf j.path)) = some (i', m') → i' = i ∧ m' = m := fun hd => by
    cases hw.directory.symm.trans hd
    exact ⟨rfl, rfl⟩
  have hmk : ∀ {flag tables}, Spares sz (cfg.sha256 (parentOf j.path)) i
      (j.self cfg = cfg.nodeOf (parentOf j.path)) tables →
      Ends True (prepareMake cfg (j.self cfg) j.path flag tables c) fun r => r.2.Shows sz w ∧
        ∀ ch, r.1.change = some ch → Planned cfg (parentOf j.path) i sz (j.self cfg)
          (m ++ [⟨j.name, flag⟩]) ch := fun {flag tables} hspr => by
    refine (h.prepareMake flag tables fun _ => trivial).mono ?_
    rintro ⟨p, c1⟩ ⟨h1, hplan⟩
    refine ⟨h1, fun ch hch => ?_⟩
    obtain ⟨i', m', n, hd, -, hn, rfl⟩ := hplan.change ch hch
    obtain ⟨rfl, rfl⟩ := hsm hd
    rw [hname hn]
    exact ⟨rfl, rfl, rfl, hspr⟩
  unfold Job.prepare Job.change
  cases j.call with
  | mknod unset =>
    exact hmk (spares_makeEntry hne (fun _ _ hst => hst.createFileMeta _) (creates_createFile _))
  | mkdir =>
    exact hmk (spares_makeEntry hne (fun _ _ hst => hst.createDirectoryMeta _) creates_createDir)
  | remove =>
    refine (h.prepareRemove fun _ => trivial).mono ?_
    rintro ⟨p, c1⟩ ⟨h1, hplan⟩
    refine ⟨h1, fun ch hch => ?_⟩
    obtain ⟨a, i', m', n, htgt, -, hd, hn, heq⟩ := hplan.change ch hch
    obtain ⟨rfl, rfl⟩ := hsm hd
    rw [heq, ← hname hn]
    have hhr (hsf : j.self cfg = cfg.nodeOf (parentOf j.path)) :
        (w (j.self cfg)).Holds (cfg.sha256 (parentOf j.path)) i' m' := by
      rw [hsf]
      exact hw
    exact ⟨rfl, rfl, rfl, spares_removeTarget hne hhr htgt⟩

/-- A call that can only end without success. -/
def Stage.Fails : Stage → Prop
  | .prepared p => p.change = none
  | .written p => p.change = none
  | .applied _ result => result = false
  | .ended r => r.1 = false
  | _ => False

/-- A call after `n` parts, with the copy it has made of the parent
directory. -/
inductive Job.At (j : Job) (cfg : Config) (parent : Path) (i : ℕ) (sz : StoreSize) :
    Stage → ℕ → DirectoryMeta → Prop where
  | start {copy : DirectoryMeta} : At j cfg parent i sz .start 0 copy
  | locked {copy : DirectoryMeta} : At j cfg parent i sz .locked 1 copy
  | prepared {copy : DirectoryMeta} {p : Prepared} {ch : Change} (hch : p.change = some ch)
      (hplan : Planned cfg parent i sz (j.self cfg) copy ch) :
      At j cfg parent i sz (.prepared p) 2 copy
  | written {copy : DirectoryMeta} {p : Prepared} {ch : Change} (hch : p.change = some ch)
      (hplan : Planned cfg parent i sz (j.self cfg) copy ch) :
      At j cfg parent i sz (.written p) 3 copy
  | applied {copy : DirectoryMeta} {p : Prepared} : At j cfg parent i sz (.applied p true) 4 copy
  | ended {copy : DirectoryMeta} {n : ℕ} {a : Option Attribute} (hn : 5 ≤ n) :
      At j cfg parent i sz (.ended (true, a)) n copy

/-- The parent directory is the value of the cell, and the calls are where the
parties are. -/
structure Sim (cfg : Config) (job : Bool → Job) (parent : Path) (i : ℕ) (sz : StoreSize)
    (s : Bool → Stage) (c : Cluster) (cell : Cell DirectoryMeta) : Prop where
  shown : ∃ w, c.Shows sz w ∧ (w (cfg.nodeOf parent)).Holds (cfg.sha256 parent) i cell.value
  at_stage : ∀ b, (job b).At cfg parent i sz (s b) (cell.taken b) (cell.copy b)

/-- The cell of two calls: they read in their second part and write in their
third. -/
def cellStep (job : Bool → Job) : Cell DirectoryMeta → Bool → Cell DirectoryMeta :=
  Cell.step 1 2 fun b => (job b).change

section

variable (h : Sim cfg job parent i sz s c cell)

include h

lemma Sim.advance (hshw : ∃ w, c'.Shows sz w ∧
      (w (cfg.nodeOf parent)).Holds (cfg.sha256 parent) i (cellStep job cell b).value)
    (hat : (job b).At cfg parent i sz t (cell.taken b + 1) ((cellStep job cell b).copy b)) :
    Sim cfg job parent i sz (update s b t) c' (cellStep job cell b) := by
  refine ⟨hshw, fun b' => ?_⟩
  by_cases hb : b' = b
  · rw [hb, update_self, cellStep, Cell.taken_step_self]
    exact hat
  · rw [update_of_ne hb, cellStep, Cell.taken_step_of_ne hb, Cell.copy_step_of_ne hb]
    exact h.at_stage b'

lemma Sim.rest (hrd : cell.taken b ≠ 1) (hwr : cell.taken b ≠ 2)
    (hshw : ∃ w, c'.Shows sz w ∧ (w (cfg.nodeOf parent)).Holds (cfg.sha256 parent) i cell.value)
    (hat : (job b).At cfg parent i sz t (cell.taken b + 1) (cell.copy b)) :
    Sim cfg job parent i sz (update s b t) c' (cellStep job cell b) := by
  refine h.advance ?_ ?_
  · rw [cellStep, Cell.value_step_of_ne_writes hwr]
    exact hshw
  · rw [cellStep, Cell.copy_step_of_ne_reads hrd]
    exact hat

lemma Sim.prepare (hpar : ∀ b, parentOf (job b).path = parent)
    (hne : ∀ b, cfg.sha256 parent ≠ cfg.sha256 (job b).path) (hn : cell.taken b = 1)
    (hst : (job b).step cfg .locked c = .done (t, c')) :
    t.Fails ∨ Sim cfg job parent i sz (update s b t) c' (cellStep job cell b) := by
  obtain ⟨w, hw, hold⟩ := h.shown
  obtain ⟨⟨p, c1⟩, hprp, heq⟩ := bind_eq_done.mp hst
  cases heq
  obtain ⟨hw1, hplan⟩ := (Job.prepare_planned hw hold (hpar b) (hne b)).of_done hprp
  cases hch : p.change with
  | none => exact .inl hch
  | some ch =>
    refine .inr (h.advance ⟨w, hw1, ?_⟩ ?_)
    · rw [cellStep, Cell.value_step_of_ne_writes (by rw [hn]; decide)]
      exact hold
    · rw [hn, cellStep, Cell.copy_step_of_reads hn]
      exact .prepared hch (hplan ch hch)

lemma Sim.write {p : Prepared} {ch : Change} (hch : p.change = some ch)
    (hplan : Planned cfg parent i sz ((job b).self cfg) (cell.copy b) ch)
    (hn : cell.taken b = 2) (hst : (job b).step cfg (.prepared p) c = .done (t, c')) :
    Sim cfg job parent i sz (update s b t) c' (cellStep job cell b) := by
  obtain ⟨w, hw, hold⟩ := h.shown
  obtain ⟨c1, hwr, hw1⟩ := hw.writeParent p.txID ch
  rw [Job.step, hch] at hst
  dsimp only at hst
  rw [bind_apply, hwr, done_bind] at hst
  cases hst
  have hcp : (cellStep job cell b).copy b = cell.copy b := by
    rw [cellStep, Cell.copy_step_of_ne_reads (by rw [hn]; decide)]
  rw [hplan.node, hplan.address, hplan.written] at hw1
  refine h.advance ⟨_, hw1, ?_⟩ ?_
  · rw [cellStep, Cell.value_step_of_writes hn]
    constructor
    · rw [World.entries_writeDir]
      exact hold.entry
    · rw [World.item_writeDir_self hold.item, if_pos rfl]
    · rw [World.entries_writeDir]
      exact hold.only
  · rw [hn, hcp]
    exact .written hch hplan

lemma Sim.tables {p : Prepared} {ch : Change} (hch : p.change = some ch)
    (hplan : Planned cfg parent i sz ((job b).self cfg) (cell.copy b) ch)
    (hn : cell.taken b = 3) (hstep : (job b).step cfg (.written p) c = .done (t, c')) :
    t.Fails ∨ Sim cfg job parent i sz (update s b t) c' (cellStep job cell b) := by
  obtain ⟨w, hw, hold⟩ := h.shown
  rw [Job.step, hch] at hstep
  obtain ⟨⟨result, c1⟩, htbs, heq⟩ := bind_eq_done.mp hstep
  cases heq
  cases result with
  | false => exact .inl rfl
  | true =>
    refine .inr (h.rest (by omega) (by omega) ?_ (by rw [hn]; exact .applied))
    obtain ⟨⟨ok, st⟩, hst, heq⟩ := bind_eq_done.mp htbs
    cases heq
    obtain ⟨v, hv, hspr⟩ := (hplan.tables _ _ (hw _)).of_done hst rfl
    refine ⟨_, hw.setStorage hv, ?_⟩
    by_cases hsf : (job b).self cfg = cfg.nodeOf parent
    · rw [hsf, update_self]
      rw [hsf] at hspr
      exact hspr rfl _ hold
    · -- the parent belongs to another node
      rw [update_of_ne (Ne.symm hsf)]
      exact hold

/-- **One part of a call is one step of its party**, unless the call fails. -/
lemma Sim.step (hpar : ∀ b, parentOf (job b).path = parent)
    (hne : ∀ b, cfg.sha256 parent ≠ cfg.sha256 (job b).path)
    (hst : (job b).step cfg (s b) c = .done (t, c')) :
    t.Fails ∨ Sim cfg job parent i sz (update s b t) c' (cellStep job cell b) := by
  obtain ⟨w, hw, hold⟩ := h.shown
  have hat := h.at_stage b
  generalize hs : s b = st at hat hst
  generalize hn : cell.taken b = n at hat
  cases hat with
  | start =>
    obtain ⟨r, hlk, heq⟩ := bind_eq_done.mp hst
    cases heq
    have hlkd : Ends True (lockWriteHashItem ((job b).self cfg)
        (cfg.addressOf (job b).path) c) fun r => r.2.Shows sz w := hw.lockWrite _ _
    exact .inr (h.rest (by omega) (by omega) ⟨w, hlkd.of_done hlk, hold⟩
      (by rw [hn]; exact .locked))
  | locked => exact h.prepare hpar hne hn hst
  | prepared hch hplan => exact .inr (h.write hch hplan hn hst)
  | written hch hplan => exact h.tables hch hplan hn hst
  | applied =>
    rename_i p
    obtain ⟨r, hfin, heq⟩ := bind_eq_done.mp hst
    cases heq
    have hfns : Ends True (finish cfg ((job b).self cfg) (job b).path p.txID c)
        fun r => r.2.Shows sz w := hw.finish _ _
    exact .inr (h.rest (by omega) (by omega) ⟨w, hfns.of_done hfin, hold⟩
      (by rw [hn]; exact .ended (le_refl 5)))
  | ended hle =>
    cases hst
    exact .inr (h.rest (by omega) (by omega) ⟨w, hw, hold⟩ (.ended (by omega)))

end

lemma Stage.Fails.step {j : Job} (h : t.Fails) {t' : Stage}
    (hst : j.step cfg t c = .done (t', c')) : t'.Fails := by
  cases t with
  | start | locked => exact h.elim
  | prepared p =>
    rw [Job.step, show p.change = none from h] at hst
    cases hst
    exact h
  | written p =>
    rw [Job.step, show p.change = none from h] at hst
    cases hst
    rfl
  | applied p result =>
    obtain ⟨r, -, heq⟩ := bind_eq_done.mp hst
    cases heq
    exact h
  | ended r =>
    cases hst
    exact h

lemma Stage.Fails.run {sched : List Bool} {s' : Bool → Stage} (h : (s b).Fails)
    (hrun : interleave cfg job sched s c = .done (s', c')) : (s' b).Fails := by
  induction sched generalizing s c with
  | nil =>
    cases hrun
    exact h
  | cons b' sched ih =>
    obtain ⟨⟨t, c1⟩, hst, hrun⟩ := bind_eq_done.mp hrun
    refine ih ?_ hrun
    by_cases hb : b = b'
    · subst hb
      rw [update_self]
      exact h.step hst
    · rw [update_of_ne hb]
      exact h

lemma Stage.Fails.not_succeeded (h : t.Fails) : t.succeeded ≠ true := by
  cases t with
  | ended r =>
    rw [Stage.succeeded, show r.1 = false from h]
    exact nofun
  | _ => exact nofun

/-- **A run of two calls that succeed is a run of the cell.** -/
lemma Sim.run {sched : List Bool} {s' : Bool → Stage} (h : Sim cfg job parent i sz s c cell)
    (hpar : ∀ b, parentOf (job b).path = parent)
    (hne : ∀ b, cfg.sha256 parent ≠ cfg.sha256 (job b).path)
    (hrun : interleave cfg job sched s c = .done (s', c')) (hok : ∀ b, (s' b).succeeded = true) :
    Sim cfg job parent i sz s' c' (cell.run 1 2 (fun b => (job b).change) sched) := by
  induction sched generalizing s c cell with
  | nil =>
    cases hrun
    exact h
  | cons b sched ih =>
    obtain ⟨⟨t, c1⟩, hst, hrun⟩ := bind_eq_done.mp hrun
    rcases h.step hpar hne hst with hfls | h1
    · have hb : (update s b t b).Fails := by
        rw [update_self]
        exact hfls
      exact absurd (hok b) (hb.run hrun).not_succeeded
    · exact ih h1 hrun

lemma Job.At.taken {j : Job} {n : ℕ} {copy : DirectoryMeta} (h : j.At cfg parent i sz t n copy)
    (hok : t.succeeded = true) : 5 ≤ n := by
  cases h with
  | ended hn => exact hn
  | _ => cases hok

/-- **Two successful calls on different names leave a parent directory that
tells of both exactly if they were never both between their read and their
write.** -/
theorem interleave_reflects_iff {sched : List Bool} (hw : c.Shows sz w)
    (hold : (w (cfg.nodeOf parent)).Holds (cfg.sha256 parent) i m)
    (hparent : ∀ b, parentOf (job b).path = parent)
    (hne : ∀ b, cfg.sha256 parent ≠ cfg.sha256 (job b).path)
    (hname : (job true).name ≠ (job false).name) (hnew : ∀ b, ¬ (job b).Reflected m)
    (hrun : interleave cfg job sched (fun _ => .start) c = .done (s, c'))
    (hok : ∀ b, (s b).succeeded = true) :
    ∃ m', (c'.storage (cfg.nodeOf parent)).contents (cfg.sha256 parent) = some m' ∧
      (Reflects job m m' ↔ ¬ Cell.Overlap 1 2 sched) := by
  have hst : Sim cfg job parent i sz (fun _ => .start) c ⟨m, fun _ => [], fun _ => 0⟩ :=
    ⟨⟨w, hw, hold⟩, fun _ => .start⟩
  have hend := hst.run hparent hne hrun hok
  have hall : ∀ b, 2 < sched.count b := fun b => by
    have htk := (hend.at_stage b).taken (hok b)
    rw [Cell.taken_run, zero_add] at htk
    omega
  obtain ⟨w', hw', hold'⟩ := hend.shown
  refine ⟨_, by rw [(hw' _).contents, hold'.directory]; rfl, fun href ho => ?_, fun ho => ?_⟩
  · obtain ⟨b, hb⟩ := Cell.value_run_of_overlap (x := m) (by decide) (fun _ => []) hall ho
    rw [hb] at href
    exact not_reflects_one hname hnew b href
  · obtain ⟨b, hb⟩ := Cell.value_run_of_not_overlap (x := m) (by decide) (fun _ => []) hall ho
    rw [hb]
    exact reflects_both hname b

end Simulation

/-! ## Small runs -/

/-- `mknod` of `/a`, which node 1 owns, and of `/b`, which node 2 owns. -/
def sampleJobs (b : Bool) : Job := ⟨.mknod sampleUnset, if b then pathA else pathB⟩

/-- Both lock first; then one reads and writes, and then the other. -/
theorem interleave_reflects_iff_sample : ∃ c s c' m', (sampleSetup 8).start twoNodes = .done c ∧
      interleave twoNodes sampleJobs
        [true, false, true, true, false, false, true, false, false, true]
        (fun _ => .start) c = .done (s, c') ∧
      (∀ b, (s b).succeeded = true) ∧
      (c'.storage 2).contents (twoNodes.sha256 root) = some m' ∧
      (Reflects sampleJobs [] m' ↔
        ¬ Cell.Overlap 1 2 [true, false, true, true, false, false, true, false, false, true]) := by
  obtain ⟨c, hc, ⟨s, c'⟩, hrun, hok⟩ : ∃ c, (sampleSetup 8).start twoNodes = .done c ∧
      ∃ r, interleave twoNodes sampleJobs
        [true, false, true, true, false, false, true, false, false, true]
        (fun _ => .start) c = .done r ∧ ∀ b, (r.1 b).succeeded = true := by
    decide +kernel
  obtain ⟨w, hw⟩ := Setup.Sound.started (by decide) hc
  obtain ⟨m', hm', hiff⟩ := interleave_reflects_iff hw.shows hw.root.holds
    (by decide) (by decide) (by decide) (by decide) hrun hok
  exact ⟨c, s, c', m', hc, hrun, hok, hm', hiff⟩

/-- Both read before one writes: the entry of `/a` is gone. -/
theorem interleave_loses_entry :
    ¬ ∀ (setup : Setup) (cfg : Config) (job : Bool → Job) (parent : Path) (sched : List Bool)
        (c c' : Cluster) (s : Bool → Stage) (m : DirectoryMeta), setup.Sound →
        setup.start cfg = .done c →
        (∀ b, parentOf (job b).path = parent) →
        (job true).self cfg ≠ (job false).self cfg →
        (job true).name ≠ (job false).name →
        (c.storage (cfg.nodeOf parent)).contents (cfg.sha256 parent) = some m →
        interleave cfg job sched (fun _ => .start) c = .done (s, c') →
        (∀ b, (s b).succeeded = true) →
        ∃ m', (c'.storage (cfg.nodeOf parent)).contents (cfg.sha256 parent) = some m' ∧
          Reflects job m m' := by
  intro hall
  obtain ⟨c, hc, ⟨s, c'⟩, hrun, hok, hla⟩ : ∃ c, (sampleSetup 8).start twoNodes = .done c ∧
      ∃ r, interleave twoNodes sampleJobs
        [true, true, false, false, true, true, true, false, false, false]
        (fun _ => .start) c = .done r ∧ (∀ b, (r.1 b).succeeded = true) ∧
        (r.2.storage 2).contents (twoNodes.sha256 root) = some [⟨nameOf pathB, false⟩] := by
    decide +kernel
  obtain ⟨w, hw⟩ := Setup.Sound.started (s := sampleSetup 8) (by decide) hc
  have hfst : (c.storage (twoNodes.nodeOf root)).contents (twoNodes.sha256 root) = some [] := by
    rw [(hw.shows _).contents, hw.root.holds.directory]
    rfl
  obtain ⟨m', hm', href⟩ := hall _ _ sampleJobs root _ _ _ _ _ (by decide) hc (by decide)
    (by decide) (by decide) hfst hrun hok
  cases hla.symm.trans hm'
  exact absurd href (by decide)

end Librdpma.Octopus
