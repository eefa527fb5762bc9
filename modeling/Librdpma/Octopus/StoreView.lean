import Librdpma.Octopus.HashTableMap
import Librdpma.Octopus.Message
import Librdpma.Octopus.TableAlloc

/-!
# What the storage of a node stands for

Seen from the file system, the hash table is a map from hashes, and a table is
a free list together with a map from indices to items. `Storage.Shows` relates
a storage to such a view; each call of the storage is then the corresponding
change of the view. Only which hash items stay free after a `put` is left open.
-/

namespace Librdpma.Octopus

open Lib Function Outcome Program Storage

/-! ## Tables -/

structure TableView (T : Type) where
  free : List ℕ
  item : ℕ → Option T

namespace TableView

variable {T : Type}

def create (v : TableView T) (x : T) : Option ℕ × TableView T :=
  match v.free with
  | [] => (none, v)
  | i :: rest => (some i, ⟨rest, update v.item i (some x)⟩)

/-- Store an item where there is one. -/
def put (v : TableView T) (i : ℕ) (x : T) : Bool × TableView T :=
  if (v.item i).isSome then (true, { v with item := update v.item i (some x) })
  else (false, v)

def remove (v : TableView T) (i : ℕ) : Bool × TableView T :=
  if (v.item i).isSome then (true, ⟨i :: v.free, update v.item i none⟩)
  else (false, v)

variable {v : TableView T} {i : ℕ}

lemma put_of_some {y : T} (h : v.item i = some y) (x : T) :
    v.put i x = (true, { v with item := update v.item i (some x) }) := by
  rw [put, h]
  rfl

lemma remove_of_some {y : T} (h : v.item i = some y) :
    v.remove i = (true, ⟨i :: v.free, update v.item i none⟩) := by
  rw [remove, h]
  rfl

lemma create_cases (v : TableView T) (x : T) : (v.free = [] ∧ v.create x = (none, v)) ∨
      ∃ i rest, v.free = i :: rest ∧ v.create x = (some i, ⟨rest, update v.item i (some x)⟩) := by
  unfold create
  cases v.free with
  | nil => exact .inl ⟨rfl, rfl⟩
  | cons i rest => exact .inr ⟨i, rest, rfl, rfl⟩

lemma create_ne_none (h : v.free ≠ []) (x : T) : (v.create x).1 ≠ none := by
  rcases v.create_cases x with ⟨hnil, -⟩ | ⟨i, rest, -, heq⟩
  · exact absurd hnil h
  · rw [heq]
    exact nofun

lemma remove_of_none (h : v.item i = none) : v.remove i = (false, v) := by
  rw [remove, h]
  rfl

end TableView

namespace Table

variable {T : Type} {n : ℕ} {t : Table T} {v : TableView T}

/-- The table of `n` items stands for the view. -/
def Shows (n : ℕ) (t : Table T) (v : TableView T) : Prop :=
  ∃ a, Refines n t a ∧ t.headFreeBit = v.free ∧
    ∀ i x, v.item i = some x ↔ (i < n ∧ a.live i) ∧ a.item i = x

namespace Shows

lemma exact (h : Shows n t v) : FreeExact (· < n) (fun i => (v.item i).isSome = true) v.free := by
  obtain ⟨a, href, hfr, hitem⟩ := h
  have hex := href.chain
  unfold ChainExact at hex
  rw [hfr] at hex
  refine hex.congr fun i hi => ?_
  rw [href.live i hi, Option.isSome_iff_exists]
  constructor
  · intro hlv
    exact ⟨a.item i, (hitem i _).mpr ⟨⟨hi, hlv⟩, rfl⟩⟩
  · rintro ⟨x, hx⟩
    exact ((hitem i x).mp hx).1.2

lemma headFreeBit (h : Shows n t v) : t.headFreeBit = v.free := by
  obtain ⟨-, -, hfr, -⟩ := h
  exact hfr

variable {i : ℕ}

lemma free_none (h : Shows n t v) (hi : i ∈ v.free) : v.item i = none := by
  have := ((h.exact.mem_iff i).mp hi).2
  rwa [Bool.not_eq_true, Option.isSome_eq_false_iff, Option.isNone_iff_eq_none] at this

lemma lt_of_item (h : Shows n t v) {x : T} (hi : v.item i = some x) : i < n := by
  obtain ⟨a, -, -, hitem⟩ := h
  exact ((hitem i x).mp hi).1.1

lemma none_of_dead {a : Alloc T}
    (hitem : ∀ i x, v.item i = some x ↔ (i < n ∧ a.live i) ∧ a.item i = x)
    (hd : ¬ (i < n ∧ a.live i)) : v.item i = none :=
  Option.eq_none_iff_forall_ne_some.mpr fun x hx => hd ((hitem i x).mp hx).1

lemma get (h : Shows n t v) (i : ℕ) : t.get i = v.item i := by
  obtain ⟨a, href, -, hitem⟩ := h
  rcases href.get_cases i with ⟨hget, hi, hlv⟩ | ⟨hget, hd⟩
  · rw [(hitem i (a.item i)).mpr ⟨⟨hi, hlv⟩, rfl⟩]
    simp only [Table.get, hget, href.items]
  · rw [none_of_dead hitem hd, (fails_of_dead ⟨0, fun _ => t.items 0⟩ hget).1]

/-- An item is written over, alive or not; the view of a dead one stays. -/
lemma write (h : Shows n t v) (i : ℕ) (x : T) :
    Shows n { t with items := update t.items i x } (v.put i x).2 := by
  obtain ⟨a, href, hfr, hitem⟩ := h
  refine ⟨a.store i x, href.store i x, ?_, fun j y => ?_⟩
  · rw [hfr, TableView.put]
    split <;> rfl
  · unfold TableView.put Alloc.store
    by_cases hlv : i < n ∧ a.live i
    · rw [(hitem i (a.item i)).mpr ⟨hlv, rfl⟩]
      by_cases hj : j = i
      · subst hj
        simp [hlv]
      · simp [update_of_ne hj, hitem]
    · rw [none_of_dead hitem hlv]
      by_cases hj : j = i
      · subst hj
        simp [none_of_dead hitem hlv, hlv]
      · simp [update_of_ne hj, hitem]

lemma put (h : Shows n t v) (i : ℕ) (x : T) :
    (t.put i x).1 = (v.put i x).1 ∧ Shows n (t.put i x).2 (v.put i x).2 := by
  have hwr := h.write i x
  obtain ⟨a, href, hfr, hitem⟩ := h
  rcases href.get_cases i with ⟨hget, hi, hlv⟩ | ⟨hget, hd⟩
  · have hsome := (hitem i (a.item i)).mpr ⟨⟨hi, hlv⟩, rfl⟩
    have hput : t.put i x = (true, { t with items := update t.items i x }) := by
      simp only [Table.put, hget]
    rw [hput]
    exact ⟨by rw [TableView.put_of_some hsome], hwr⟩
  · rw [(fails_of_dead ⟨0, fun _ => t.items 0⟩ hget).2.1 x, TableView.put, none_of_dead hitem hd]
    exact ⟨rfl, a, href, hfr, hitem⟩

lemma remove (h : Shows n t v) (i : ℕ) :
    (t.remove i).1 = (v.remove i).1 ∧ Shows n (t.remove i).2 (v.remove i).2 := by
  obtain ⟨a, href, hfr, hitem⟩ := h
  rcases href.get_cases i with ⟨hget, hi, hlv⟩ | ⟨hget, hd⟩
  · obtain ⟨hok, href', hch⟩ := remove_live href hget hi
    rw [TableView.remove_of_some ((hitem i (a.item i)).mpr ⟨⟨hi, hlv⟩, rfl⟩)]
    refine ⟨hok, a.kill i, href', by rw [hch, hfr], fun j y => ?_⟩
    by_cases hj : j = i
    · subst hj
      simp [Alloc.kill]
    · simp [hitem, Alloc.kill, hj]
  · rw [(fails_of_dead ⟨0, fun _ => t.items 0⟩ hget).2.2.2,
      TableView.remove_of_none (none_of_dead hitem hd)]
    exact ⟨rfl, a, href, hfr, hitem⟩

lemma createWith (h : Shows n t v) (assign : (ℕ → T) → ℕ → ℕ → T) {x : T}
    (hasg : ∀ items i, assign items i = update items i x) :
    (Table.createWith assign t).1 = (v.create x).1 ∧
      Shows n (Table.createWith assign t).2 (v.create x).2 := by
  obtain ⟨a, href, hfr, hitem⟩ := h
  rcases createWith_cases assign href with
    ⟨heq, hall⟩ | ⟨i, t', heq, hi, hd, hits, href', hch⟩
  · have hnil : v.free = [] := by
      rw [← hfr]
      cases hc : t.headFreeBit with
      | nil => rfl
      | cons i rest =>
        have hex := href.chain
        unfold ChainExact at hex
        rw [hc] at hex
        obtain ⟨hi, hset⟩ := hex.head_free
        exact absurd ((href.live i hi).mpr (hall i hi)) hset
    rw [heq, TableView.create, hnil]
    exact ⟨rfl, a, href, hfr, hitem⟩
  · rw [heq, TableView.create, ← hfr, hch]
    refine ⟨rfl, (a.enliven i).store i x, ?_, rfl, fun j y => ?_⟩
    · have hst := href'.store i x
      rw [← hasg, ← hits] at hst
      exact hst
    · by_cases hj : j = i
      · subst hj
        simp [Alloc.enliven, Alloc.store, hi]
      · simp [hitem, Alloc.enliven, Alloc.store, hj]

lemma createItem (h : Shows n t v) (x : T) :
    (t.createItem x).1 = (v.create x).1 ∧ Shows n (t.createItem x).2 (v.create x).2 :=
  h.createWith _ fun _ _ => rfl

lemma create {t : Table Unit} {v : TableView Unit} (h : Shows n t v) :
    t.create.1 = (v.create ()).1 ∧ Shows n t.create.2 (v.create ()).2 :=
  h.createWith _ fun _ _ => rfl

end Shows

lemma construct_shows (lay : Layout T) (h8 : n % 8 = 0) (hn : n ≤ 2 ^ 31) :
    ∃ t, construct lay n (fun _ => 0#8) = .done t ∧ Shows n t ⟨List.range n, fun _ => none⟩ := by
  obtain ⟨t, ht, href⟩ := construct_refines lay h8 hn
  obtain ⟨-, heq⟩ := (construct_zero_iff h8).mp ht
  refine ⟨t, ht, Alloc.empty lay, href, ?_, by simp [Alloc.empty]⟩
  rw [heq, ← zero_chain h8 hn]

end Table

/-! ## Storage -/

structure StoreView where
  entries : HashTable.Entries
  /-- the free hash items -/
  items : List ℕ
  files : TableView FileMeta
  dirs : TableView DirectoryMeta
  blocks : TableView Unit

/-- The number of hash items, file metadata, directory metadata and blocks. -/
structure StoreSize where
  items : ℕ
  files : ℕ
  dirs : ℕ
  blocks : ℕ

namespace StoreView

/-- A directory in the hash table, with the index of its metadata. -/
def directory (v : StoreView) (k : UniqueHash) : Option (ℕ × DirectoryMeta) :=
  match v.entries k with
  | none => none
  | some (_, false) => none
  | some (i, true) => (v.dirs.item i).map fun m => (i, m)

/-- A file in the hash table, with the index of its metadata. -/
def file (v : StoreView) (k : UniqueHash) : Option (ℕ × FileMeta) :=
  match v.entries k with
  | none => none
  | some (_, true) => none
  | some (i, false) => (v.files.item i).map fun m => (i, m)

variable {v : StoreView} {k : UniqueHash} {i : ℕ}

lemma directory_eq_some {m : DirectoryMeta} :
    v.directory k = some (i, m) ↔ v.entries k = some (i, true) ∧ v.dirs.item i = some m := by
  unfold directory
  split
  · simp_all
  · simp_all
  · rename_i j hj
    rw [hj, Option.map_eq_some_iff]
    constructor
    · rintro ⟨m', hm', heq⟩
      cases heq
      exact ⟨rfl, hm'⟩
    · rintro ⟨heq, hm⟩
      cases heq
      exact ⟨m, hm, rfl⟩

lemma file_eq_some {m : FileMeta} :
    v.file k = some (i, m) ↔ v.entries k = some (i, false) ∧ v.files.item i = some m := by
  unfold file
  split
  · simp_all
  · simp_all
  · rename_i j hj
    rw [hj, Option.map_eq_some_iff]
    constructor
    · rintro ⟨m', hm', heq⟩
      cases heq
      exact ⟨rfl, hm'⟩
    · rintro ⟨heq, hm⟩
      cases heq
      exact ⟨m, hm, rfl⟩

end StoreView

namespace Storage

/-- The storage stands for the view. -/
structure Shows (sz : StoreSize) (st : Storage) (v : StoreView) : Prop where
  entries : HashTable.Models getAddressHash sz.items st.hashtable v.entries
  items : st.hashtable.headFreeBit = v.items
  files : st.tableFileMeta.Shows sz.files v.files
  dirs : st.tableDirectoryMeta.Shows sz.dirs v.dirs
  blocks : st.tableBlock.Shows sz.blocks v.blocks

namespace Shows

variable {sz : StoreSize} {st : Storage} {v : StoreView}

/-! Reading calls answer from the view and leave the storage. -/

section

variable (h : st.Shows sz v)

include h

lemma getEntry (k : UniqueHash) : getEntry k st = .done (v.entries k, st) := by
  obtain ⟨chain, hshp, hm⟩ := h.entries
  rw [Storage.getEntry, HashTable.get_eq hshp hm]
  rfl

lemma getFileMeta (i : ℕ) : Storage.getFileMeta i st = .done (v.files.item i, st) := by
  rw [Storage.getFileMeta, onFileMeta, h.files.get]

lemma getDirectoryMeta (i : ℕ) : Storage.getDirectoryMeta i st = .done (v.dirs.item i, st) := by
  rw [Storage.getDirectoryMeta, onDirectoryMeta, h.dirs.get]

lemma lookupDirectory (k : UniqueHash) : lookupDirectory k st = .done (v.directory k, st) := by
  unfold Storage.lookupDirectory StoreView.directory
  rw [bind_apply, h.getEntry, done_bind]
  cases v.entries k with
  | none => rfl
  | some e =>
    obtain ⟨i, isDirectory⟩ := e
    cases isDirectory with
    | false => rfl
    | true =>
      dsimp only
      rw [bind_apply, h.getDirectoryMeta, done_bind]
      rfl

lemma lookupFile (k : UniqueHash) : lookupFile k st = .done (v.file k, st) := by
  unfold Storage.lookupFile StoreView.file
  rw [bind_apply, h.getEntry, done_bind]
  cases v.entries k with
  | none => rfl
  | some e =>
    obtain ⟨i, isDirectory⟩ := e
    cases isDirectory with
    | true => rfl
    | false =>
      dsimp only
      rw [bind_apply, h.getFileMeta, done_bind]
      rfl

end

/-! Writing calls change the part of the view they are about. -/

variable {α : Type}

section

variable (h : st.Shows sz v)

include h

lemma onFileMeta {f : Table FileMeta → α × Table FileMeta} {r : α × TableView FileMeta}
    (hf : (f st.tableFileMeta).1 = r.1 ∧ (f st.tableFileMeta).2.Shows sz.files r.2) :
    ∃ st', onFileMeta f st = .done (r.1, st') ∧ st'.Shows sz { v with files := r.2 } :=
  ⟨{ st with tableFileMeta := (f st.tableFileMeta).2 }, by rw [← hf.1, Storage.onFileMeta],
    h.entries, h.items, hf.2, h.dirs, h.blocks⟩

lemma onDirectoryMeta {f : Table DirectoryMeta → α × Table DirectoryMeta}
    {r : α × TableView DirectoryMeta}
    (hf : (f st.tableDirectoryMeta).1 = r.1 ∧ (f st.tableDirectoryMeta).2.Shows sz.dirs r.2) :
    ∃ st', onDirectoryMeta f st = .done (r.1, st') ∧ st'.Shows sz { v with dirs := r.2 } :=
  ⟨{ st with tableDirectoryMeta := (f st.tableDirectoryMeta).2 },
    by rw [← hf.1, Storage.onDirectoryMeta],
    h.entries, h.items, h.files, hf.2, h.blocks⟩

lemma onBlock {f : Table Unit → α × Table Unit} {r : α × TableView Unit}
    (hf : (f st.tableBlock).1 = r.1 ∧ (f st.tableBlock).2.Shows sz.blocks r.2) :
    ∃ st', onBlock f st = .done (r.1, st') ∧ st'.Shows sz { v with blocks := r.2 } :=
  ⟨{ st with tableBlock := (f st.tableBlock).2 }, by rw [← hf.1, Storage.onBlock],
    h.entries, h.items, h.files, h.dirs, hf.2⟩

lemma putFileMeta (i : ℕ) (m : FileMeta) :
    ∃ st', putFileMeta i m st = .done ((v.files.put i m).1, st') ∧
      st'.Shows sz { v with files := (v.files.put i m).2 } :=
  h.onFileMeta (h.files.put i m)

lemma createFileMeta (m : FileMeta) :
    ∃ st', createFileMeta m st = .done ((v.files.create m).1, st') ∧
      st'.Shows sz { v with files := (v.files.create m).2 } :=
  h.onFileMeta (h.files.createItem m)

lemma removeFileMeta (i : ℕ) : ∃ st', removeFileMeta i st = .done ((v.files.remove i).1, st') ∧
      st'.Shows sz { v with files := (v.files.remove i).2 } :=
  h.onFileMeta (h.files.remove i)

lemma createDirectoryMeta (m : DirectoryMeta) :
    ∃ st', createDirectoryMeta m st = .done ((v.dirs.create m).1, st') ∧
      st'.Shows sz { v with dirs := (v.dirs.create m).2 } :=
  h.onDirectoryMeta (h.dirs.createItem m)

lemma removeDirectoryMeta (i : ℕ) :
    ∃ st', removeDirectoryMeta i st = .done ((v.dirs.remove i).1, st') ∧
      st'.Shows sz { v with dirs := (v.dirs.remove i).2 } :=
  h.onDirectoryMeta (h.dirs.remove i)

lemma writeDirectoryMeta (i : ℕ) (m : DirectoryMeta) :
    ∃ st', writeDirectoryMeta i m st = .done ((), st') ∧
      st'.Shows sz { v with dirs := (v.dirs.put i m).2 } :=
  h.onDirectoryMeta (r := ((), (v.dirs.put i m).2)) ⟨rfl, h.dirs.write i m⟩

lemma createBlock : ∃ st', createBlock st = .done ((v.blocks.create ()).1, st') ∧
      st'.Shows sz { v with blocks := (v.blocks.create ()).2 } :=
  h.onBlock h.blocks.create

lemma removeBlock (b : ℕ) : ∃ st', removeBlock b st = .done ((v.blocks.remove b).1, st') ∧
      st'.Shows sz { v with blocks := (v.blocks.remove b).2 } :=
  h.onBlock (h.blocks.remove b)

lemma putEntry (k : UniqueHash) (i : ℕ) (isDirectory : Bool) :
    (∃ st' items, putEntry k i isDirectory st = .done (true, st') ∧
        st'.Shows sz { v with
          entries := update v.entries k (some (i, isDirectory)), items }) ∨
      (putEntry k i isDirectory st = .done (false, st) ∧ v.items = []) := by
  rcases HashTable.put_models h.entries k (i, isDirectory) with
    ⟨t', heq, hmod⟩ | ⟨heq, hfr⟩
  · refine .inl ⟨{ st with hashtable := t' }, t'.headFreeBit, ?_,
      hmod, rfl, h.files, h.dirs, h.blocks⟩
    rw [Storage.putEntry, heq]
    rfl
  · refine .inr ⟨?_, by rw [← h.items, hfr]⟩
    rw [Storage.putEntry, heq]
    rfl

lemma delEntry (k : UniqueHash) :
    ∃ r st' items, delEntry k st = .done (r, st') ∧ (r = false → v.entries k = none) ∧
      st'.Shows sz { v with entries := update v.entries k none, items } := by
  rcases HashTable.del_models h.entries k with ⟨t', heq, hmod⟩ | ⟨heq, hno⟩
  · refine ⟨true, { st with hashtable := t' }, t'.headFreeBit, ?_, nofun,
      hmod, rfl, h.files, h.dirs, h.blocks⟩
    rw [Storage.delEntry, heq]
    rfl
  · refine ⟨false, st, v.items, ?_, fun _ => hno, ?_⟩
    · rw [Storage.delEntry, heq]
      rfl
    · rw [← hno, update_eq_self]
      exact h

end

end Shows

end Storage

/-! ## Clusters -/

/-- The view of each node. -/
abbrev World := ℕ → StoreView

namespace Cluster

/-- Each node's storage stands for its view. -/
def Shows (sz : StoreSize) (c : Cluster) (w : World) : Prop :=
  ∀ i, (c.storage i).Shows sz (w i)

lemma setStorage_self (i : ℕ) (c : Cluster) : c.setStorage i (c.storage i) = c := update_eq_self i c

namespace Shows

variable {sz : StoreSize} {c : Cluster} {w : World} {α : Type} {bad : Prop}

lemma of_storage {c' : Cluster} (h : c.Shows sz w) (heq : c'.storage = c.storage) :
    c'.Shows sz w := by
  unfold Shows
  rw [heq]
  exact h

variable {i : ℕ} {x : Program Storage α}

lemma setStorage (h : c.Shows sz w) {st : Storage} {v : StoreView} (hst : st.Shows sz v) :
    (c.setStorage i st).Shows sz (update w i v) := by
  intro j
  rw [storage_setStorage]
  by_cases hj : j = i
  · rw [hj, update_self, update_self]
    exact hst
  · rw [update_of_ne hj, update_of_ne hj]
    exact h j

lemma onStorage_reads {r : α} (hx : x (c.storage i) = .done (r, c.storage i)) :
    onStorage i x c = .done (r, c) := by
  rw [onStorage, zoom, hx, done_bind, setStorage_self]

lemma onStorage_done {r : α} {st : Storage} (hx : x (c.storage i) = .done (r, st)) :
    onStorage i x c = .done (r, c.setStorage i st) := by
  rw [onStorage, zoom, hx, done_bind]

section

variable (h : c.Shows sz w)

include h

lemma getEntry (i : ℕ) (k : UniqueHash) : onStorage i (getEntry k) c = .done ((w i).entries k, c) :=
  onStorage_reads ((h i).getEntry k)

lemma getFileMeta (i j : ℕ) : onStorage i (getFileMeta j) c = .done ((w i).files.item j, c) :=
  onStorage_reads ((h i).getFileMeta j)

lemma getDirectoryMeta (i j : ℕ) :
    onStorage i (getDirectoryMeta j) c = .done ((w i).dirs.item j, c) :=
  onStorage_reads ((h i).getDirectoryMeta j)

lemma lookupDirectory (i : ℕ) (k : UniqueHash) :
    onStorage i (lookupDirectory k) c = .done ((w i).directory k, c) :=
  onStorage_reads ((h i).lookupDirectory k)

lemma onStorage {P : α → StoreView → Prop}
    (hx : ∀ st, st.Shows sz (w i) → Outcome.Ends bad (x st) fun r =>
      ∃ v, r.2.Shows sz v ∧ P r.1 v) :
    Outcome.Ends bad (Octopus.onStorage i x c) fun r =>
      ∃ v, r.2.Shows sz (update w i v) ∧ P r.1 v := by
  refine (hx _ (h i)).bind fun r hr => ?_
  obtain ⟨v, hv, hP⟩ := hr
  exact .done ⟨v, h.setStorage hv, hP⟩

/-! Locks and log are not in the view. -/

lemma onLock {x : Program LockService α} (hx : ∀ l, x l ≠ .undefined) :
    Outcome.Ends bad (Octopus.onLock i x c) fun r => r.2.Shows sz w := by
  unfold Octopus.onLock zoom
  cases hl : x (c.lock i) with
  | done r => exact .done (h.of_storage (storage_setLock ..))
  | exit => exact .exit
  | undefined => exact absurd hl (hx _)
  | loop => exact .loop

lemma onTx (i : ℕ) (f : TxManager → α × TxManager) :
    ∃ r c', Octopus.onTx i f c = .done (r, c') ∧ c'.Shows sz w :=
  ⟨_, _, rfl, h.of_storage (storage_setTx ..)⟩

lemma lockWrite (i : ℕ) (a : AddressHash) :
    Outcome.Ends bad (lockWriteHashItem i a c) fun r => r.2.Shows sz w := by
  refine h.onLock fun l => ?_
  unfold LockService.writeLock
  split <;> nofun

lemma lockRead (i : ℕ) (a : AddressHash) :
    Outcome.Ends bad (lockReadHashItem i a c) fun r => r.2.Shows sz w := by
  refine h.onLock fun l => ?_
  unfold LockService.readLock
  split <;> nofun

lemma unlockWrite (i : ℕ) (a : AddressHash) :
    Outcome.Ends bad (unlockWriteHashItem i a c) fun r => r.2.Shows sz w :=
  h.onLock fun _ => nofun

lemma unlockRead (i : ℕ) (a : AddressHash) :
    Outcome.Ends bad (unlockReadHashItem i a c) fun r => r.2.Shows sz w :=
  h.onLock fun _ => nofun

end

end Shows

end Cluster

end Librdpma.Octopus
