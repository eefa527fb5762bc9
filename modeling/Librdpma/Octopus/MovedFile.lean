import Librdpma.Octopus.ExtentBlocks
import Librdpma.Octopus.Requests

/-!
# A file that moves to another node

`nrfsRename` hands the metadata of a file to the owner of the new path and
leaves its blocks where they are. From then on `extentWrite` at the new owner
takes blocks of its own for the file. Its loop merges a block into the last
extent if the number of the block follows, and does not ask on which node that
extent is: the block then counts as one of the old node.
-/

namespace Librdpma.Octopus

open Lib Outcome Function List StoreView Option

/-! ## The blocks taken for a file -/

namespace Storage

/-- A file in the hash table, with the index of its metadata. -/
def fileEntry (st : Storage) (k : UniqueHash) : Option (ℕ × FileMeta) :=
  match lookupFile k st with
  | .done (f, _) => f
  | _ => none

/-- The blocks that were free and no longer are. -/
def handedOut (st st' : Storage) : List ℕ :=
  st.tableBlock.headFreeBit.filter (· ∉ st'.tableBlock.headFreeBit)

/-- The request writes the file at `path`: its own path leads to the same
metadata. -/
def writesFile (cfg : Config) (path : Path) (st : Storage) (msg : Message) : Bool :=
  match msg.writeArgs with
  | none => false
  | some (p, _, _) =>
      (st.fileEntry (cfg.sha256 p)).map Prod.fst = (st.fileEntry (cfg.sha256 path)).map Prod.fst

lemma Shows.fileEntry {sz : StoreSize} {st : Storage} {v : StoreView} (h : st.Shows sz v)
    (k : UniqueHash) : st.fileEntry k = v.file k := by
  rw [Storage.fileEntry, h.lookupFile]

end Storage

/-- The blocks one request has taken for the file at `path`, with the node. -/
def takenFor (cfg : Config) (node : ℕ) (path : Path) (msg : Message) (c c' : Cluster) :
    List (ℕ × ℕ) :=
  if (c.storage node).writesFile cfg path msg then
    ((c.storage node).handedOut (c'.storage node)).map fun b => (node, b)
  else []

/-- The blocks a sequence of requests at a node takes for the file at `path`. -/
def allocatedFor (cfg : Config) (node : ℕ) (path : Path) :
    List (Unset × Message) → Cluster → List (ℕ × ℕ)
  | [], _ => []
  | (unset, msg) :: rest, c =>
      match parseMessage cfg unset node msg c with
      | .done (_, c') => takenFor cfg node path msg c c' ++ allocatedFor cfg node path rest c'
      | _ => []

/-! ## Growing on one node -/

namespace FileMeta

variable {n : ℕ} {m m' : FileMeta}

/-- The last extent, if there is one, is on the node. -/
def EndsOn (node : ℕ) (m : FileMeta) : Prop := 0 < m.count → m.endNode = node

/-- The file lists blocks from `allocated` only, on an area of `n` blocks. -/
structure Placed (n : ℕ) (allocated : List (ℕ × ℕ)) (m : FileMeta) : Prop where
  within : m.Within n
  empty : m.size = 0 → m.count = 0
  placed : ∀ p ∈ m.placed, p ∈ allocated

lemma Placed.mono {allocated allocated' : List (ℕ × ℕ)} (h : m.Placed n allocated)
    (hsub : allocated ⊆ allocated') : m.Placed n allocated' :=
  ⟨h.within, h.empty, fun p hp => hsub (h.placed p hp)⟩

lemma Placed.firstExtraExtent {allocated : List (ℕ × ℕ)} (h : m.Placed n allocated) :
    firstExtraExtent m = m.count := by
  unfold Octopus.firstExtraExtent
  split_ifs with hz
  · exact (h.empty hz).symm
  · rfl

lemma placed_new (tuple : ℕ → FileMetaTuple) : (⟨0, 0, tuple⟩ : FileMeta).Placed n [] :=
  ⟨fun _ he => absurd he not_mem_nil, fun _ => rfl, fun _ hp => absurd hp not_mem_nil⟩

end FileMeta

/-! ## One request -/

lemma filter_not_mem_drop {l : List ℕ} (h : l.Nodup) (k : ℕ) :
    l.filter (· ∉ l.drop k) = l.take k := by
  have hspl := take_append_drop k l
  rw [← hspl] at h
  obtain ⟨-, -, hds⟩ := nodup_append.mp h
  conv_lhs => rw [← hspl]
  rw [filter_append, hspl]
  rw [filter_eq_self.mpr, filter_eq_nil_iff.mpr, append_nil]
  · intro b hb
    simpa using hb
  · intro b hb
    simpa using fun hb' => hds b hb b hb' rfl

section Runs

variable {cfg : Config} {node : ℕ} {path : Path} {sz : StoreSize} {c : Cluster} {w : World}
  {unset : Unset} {msg : Message} {allocated : List (ℕ × ℕ)} {i : ℕ} {m : FileMeta}

lemma Cluster.Shows.made {c1 : Cluster} (h : c.Shows sz w)
    (hmk : Octopus.parseMessage cfg unset node (.mknod path) c = .done (.result true, c1)) :
    ∃ w1 i m1, c1.Shows sz w1 ∧ (w1 node).file (cfg.sha256 path) = some (i, m1) ∧
      m1.Placed sz.blocks [] ∧ m1.EndsOn node := by
  obtain ⟨⟨ok, c1'⟩, hok, heq⟩ := bind_eq_done.mp hmk
  cases heq
  obtain ⟨w1, h1, hst⟩ := (h.mknodcd unset fun _ => trivial : Ends True _ _).of_done hok
  cases hst with
  | change hpar hnew hnm hmd =>
    obtain ⟨i, hi⟩ := hmd.file
    refine ⟨_, i, _, h1, by rw [update_self]; exact hi, FileMeta.placed_new _, ?_⟩
    exact fun hpos => absurd hpos (lt_irrefl 0)

/-- The blocks a write takes are the ones that leave the free list. -/
lemma Cluster.Shows.handedOut {c' : Cluster} {v : StoreView} {k : ℕ} (h : c.Shows sz w)
    (h' : c'.Shows sz (update w node v)) (hv : v.blocks = (w node).blocks.taken k) :
    (c.storage node).handedOut (c'.storage node) = (w node).blocks.free.take k := by
  have haft := (h' node).blocks.headFreeBit
  rw [update_self, hv] at haft
  rw [Storage.handedOut, (h node).blocks.headFreeBit, haft]
  exact filter_not_mem_drop (h node).blocks.exact.nodup k

end Runs

/-! ## A move -/

/-- A file is made by `mknodcd`, which leaves `c1`; it is written by the
requests `before`, moved to the owner of another path, which leaves `c3`, and
there written by the requests `after`, which leave `c4`. -/
structure Moves (s : Setup) (cfg : Config) (oldpath newpath : Path)
    (before after : List (Unset × Message)) (c1 c3 c4 : Cluster) : Prop where
  cross : cfg.nodeOf (correct newpath) ≠ cfg.nodeOf (correct oldpath)
  make : ∃ c unset, s.Reached cfg c ∧
    parseMessage cfg unset (cfg.nodeOf (correct oldpath)) (.mknod (correct oldpath)) c
      = .done (.result true, c1)
  writes : ∀ r ∈ before ++ after, r.2.writeArgs ≠ none
  move : ∃ rs c2 unset, serve cfg (cfg.nodeOf (correct oldpath)) before c1 = .done (rs, c2) ∧
    nrfsRename cfg unset oldpath newpath c2 = .done (some 0, c3)
  go_on : ∃ rs, serve cfg (cfg.nodeOf (correct newpath)) after c3 = .done (rs, c4)

/-- The blocks taken for the file on both nodes. -/
def Moves.allocated (cfg : Config) (oldpath newpath : Path) (before after : List (Unset × Message))
    (c1 c3 : Cluster) : List (ℕ × ℕ) :=
  allocatedFor cfg (cfg.nodeOf (correct oldpath)) (correct oldpath) before c1 ++
    allocatedFor cfg (cfg.nodeOf (correct newpath)) (correct newpath) after c3

/-- The states `c1`, `c3` and `c4` of a move. -/
def moveRun (cfg : Config) (unset : Unset) (oldpath newpath : Path)
    (before after : List (Unset × Message)) (c : Cluster) :
    Outcome (Cluster × Cluster × Cluster) := do
  let (made, c1) ←
    parseMessage cfg unset (cfg.nodeOf (correct oldpath)) (.mknod (correct oldpath)) c
  let (_, c2) ← serve cfg (cfg.nodeOf (correct oldpath)) before c1
  let (renamed, c3) ← nrfsRename cfg unset oldpath newpath c2
  let (_, c4) ← serve cfg (cfg.nodeOf (correct newpath)) after c3
  match made, renamed with
  | .result true, some 0 => .done (c1, c3, c4)
  | _, _ => .exit

lemma Moves.of_run {s : Setup} {cfg : Config} {unset : Unset} {oldpath newpath : Path}
    {before after : List (Unset × Message)} {c c1 c3 c4 : Cluster} (hc : s.Reached cfg c)
    (hcrs : cfg.nodeOf (correct newpath) ≠ cfg.nodeOf (correct oldpath))
    (hws : ∀ r ∈ before ++ after, r.2.writeArgs ≠ none)
    (hrun : moveRun cfg unset oldpath newpath before after c = .done (c1, c3, c4)) :
    Moves s cfg oldpath newpath before after c1 c3 c4 := by
  obtain ⟨⟨made, c1⟩, hmk, hrun⟩ := bind_eq_done.mp hrun
  obtain ⟨⟨rs, c2⟩, hbef, hrun⟩ := bind_eq_done.mp hrun
  obtain ⟨⟨renamed, c3⟩, hmv, hrun⟩ := bind_eq_done.mp hrun
  obtain ⟨⟨rs', c4⟩, haft, hrun⟩ := bind_eq_done.mp hrun
  dsimp only at hmk hbef hmv haft hrun
  split at hrun
  · cases hrun
    exact ⟨hcrs, ⟨c, unset, hc, hmk⟩, hws, ⟨rs, c2, unset, hbef, hmv⟩, rs', haft⟩
  · cases hrun

/-- One block of `/a` is written on node 1. -/
def firstBlock : List (Unset × Message) := [(sampleUnset, .extentWrite pathA blockSize 0)]

/-- The next one is written on node 2, under the name `/b`. -/
def secondBlock : List (Unset × Message) :=
  [(sampleUnset, .extentWrite pathB blockSize blockSize)]

end Librdpma.Octopus
