import Librdpma.Octopus.Directory

/-!
# Requests and the client (`FileSystem::parseMessage`, `src/client/nrfs.cpp`)

`parseMessage` answers one request at one node. The functions of the client
send requests to the owners of paths and move bytes to and from the blocks of
the nodes. The client is modelled with `USE_R2` = 0.
-/

namespace Librdpma.Octopus

open Lib List

/-! ## Requests -/

inductive Message : Type where
  | addMetaToDirectory (path name : Path) (isDirectory : Bool)
  | removeMetaFromDirectory (path name : Path)
  | doCommit (path : Path) (u : DirectoryUpdate)
  | mknod (path : Path)
  | getattr (path : Path)
  | access (path : Path)
  | mkdir (path : Path)
  | readdir (path : Path)
  | readDirectoryMeta (path : Path)
  | extentRead (path : Path) (size offset : ℕ)
  | extentWrite (path : Path) (size offset : ℕ)
  | updateMeta
  | extentReadEnd
  | truncate (path : Path) (size : ℕ)
  | rmdir (path : Path)
  | remove (path : Path)
  | freeBlock (startBlock countBlock : ℕ)
  | mknodWithMeta (path : Path) (metaFile : FileMeta)
  | rename (pathOld pathNew : Path)
  | rawWrite (path : Path) (size offset : ℕ)
  | rawRead (path : Path) (size offset : ℕ)
  /-- the kinds `parseMessage` does not know -/
  | other

/-- The part of a response that is assigned; `none` stands for `result`
being false. -/
inductive Response : Type where
  | result (r : Bool)
  | update (u : Option DirectoryUpdate)
  | attributes (a : Option Attribute)
  | removed (r : Bool) (a : Option Attribute)
  | list (l : Option DirectoryMeta)
  | directory (d : Option (ℕ × DirectoryMeta))
  | positions (fpi : Option FilePosInfo)
  | unassigned

/-- The requests that make and remove paths. -/
def Message.ChangesPaths : Message → Prop
  | .mknod _ => True
  | .mkdir _ => True
  | .remove _ => True
  | _ => False

/-- The requests that make, grow, cut and remove files. -/
def Message.ChangesFiles : Message → Prop
  | .mknod _ => True
  | .extentWrite _ _ _ => True
  | .truncate _ _ => True
  | .remove _ => True
  | _ => False

section Server

variable (cfg : Config) (unset : Unset) (self : ℕ)

/-- The two requests that read: unlock whatever offset the response holds. -/
def answerRead (path : Path) (size offset : ℕ) : Sys Response := do
  let r ← extentRead cfg self path size offset
  unlockOffset (unlockReadHashItem self) (r.offset.elim unset.offset Fin.val)
  return .positions r.fpi

/-- The two requests that write. -/
def answerWrite (path : Path) (size offset : ℕ) : Sys Response := do
  let r ← extentWrite cfg self path size offset
  unlockOffset (unlockWriteHashItem self) (r.offset.elim unset.offset Fin.val)
  return .positions r.fpi

def parseMessage : Message → Sys Response
  | .addMetaToDirectory path name isDirectory => do
      return .update (← addMetaToDirectory cfg unset path name isDirectory)
  | .removeMetaFromDirectory path name => do
      return .update (← removeMetaFromDirectory cfg unset path name)
  | .doCommit path u => do return .result (← updateDirectoryMeta cfg path u)
  | .mknod path => do return .result (← mknodcd cfg unset self path)
  | .getattr path => do return .attributes (← getattr cfg self path)
  | .access path => do return .result (← access cfg self path)
  | .mkdir path => do return .result (← mkdircd cfg self path)
  | .readdir path => do return .list (← readdir cfg self path)
  | .readDirectoryMeta path => do return .directory (← readDirectoryMeta cfg path)
  | .extentRead path size offset => answerRead cfg unset self path size offset
  | .extentWrite path size offset => answerWrite cfg unset self path size offset
  | .updateMeta => return .unassigned
  | .extentReadEnd => return .unassigned
  | .truncate path size => do return .result (← truncate cfg self path size)
  | .rmdir path => do return .result (← rmdir cfg unset self path)
  | .remove path => do
      let r ← removecd cfg self path
      return .removed r.1 r.2
  | .freeBlock startBlock countBlock => do
      return .result (← blockFree self startBlock countBlock unset.result)
  | .mknodWithMeta path metaFile => do
      return .result (← mknodWithMeta cfg self path metaFile)
  | .rename pathOld _ => do return .result (← rename cfg unset self pathOld)
  | .rawWrite path size offset => answerWrite cfg unset self path size offset
  | .rawRead path size offset => answerRead cfg unset self path size offset
  | .other => return .unassigned

end Server

/-- A sequence of requests at one node, no two overlapping. Each comes with
the unassigned values its handler happens to find. -/
def serve (cfg : Config) (self : ℕ) : List (Unset × Message) → Sys (List Response)
  | [] => return []
  | (unset, msg) :: rest => do
      let r ← parseMessage cfg unset self msg
      let rs ← serve cfg self rest
      return r :: rs

/-- Each request of a sequence meets `ok` in the state it finds. -/
def Along (cfg : Config) (self : ℕ) (ok : Cluster → Unset → Message → Prop) :
    List (Unset × Message) → Cluster → Prop
  | [], _ => True
  | (unset, msg) :: rest, c =>
      ok c unset msg ∧
        ∀ r c', parseMessage cfg unset self msg c = .done (r, c') → Along cfg self ok rest c'

lemma Along.ends {cfg : Config} {self : ℕ} {ok : Cluster → Unset → Message → Prop}
    {bad : Prop} {Inv : Cluster → Prop}
    (hst : ∀ c unset msg, Inv c → ok c unset msg →
      Outcome.Ends bad (parseMessage cfg unset self msg c) fun r => Inv r.2)
    {reqs : List (Unset × Message)} {c : Cluster} (h : Along cfg self ok reqs c)
    (hc : Inv c) : Outcome.Ends bad (serve cfg self reqs c) fun r => Inv r.2 := by
  induction reqs generalizing c with
  | nil => exact .done hc
  | cons req reqs ih =>
    obtain ⟨unset, msg⟩ := req
    have hnx : Outcome.Ends True (parseMessage cfg unset self msg c) fun r =>
        Along cfg self ok reqs r.2 := Outcome.ends_of_done fun r hr => h.2 r.1 r.2 hr
    refine ((hst c unset msg hc h.1).and hnx).bind fun r hr => ?_
    exact (ih hr.2 hr.1).bind fun _ h => .done h

lemma along_append {cfg : Config} {self : ℕ} {ok : Cluster → Unset → Message → Prop}
    {pre post : List (Unset × Message)} {c : Cluster} :
    Along cfg self ok (pre ++ post) c ↔ Along cfg self ok pre c ∧
      ∀ rs c', serve cfg self pre c = .done (rs, c') → Along cfg self ok post c' := by
  induction pre generalizing c with
  | nil =>
    refine ⟨fun h => ⟨trivial, fun rs c' hrun => ?_⟩, fun h => h.2 [] c rfl⟩
    cases hrun
    exact h
  | cons req pre ih =>
    obtain ⟨unset, msg⟩ := req
    constructor
    · intro h
      refine ⟨⟨h.1, fun r c1 hr => (ih.mp (h.2 r c1 hr)).1⟩, fun rs c' hrun => ?_⟩
      obtain ⟨⟨r, c1⟩, hr, hrun⟩ := Outcome.bind_eq_done.mp hrun
      obtain ⟨⟨rs1, c2⟩, hrs, heq⟩ := Outcome.bind_eq_done.mp hrun
      cases heq
      exact (ih.mp (h.2 r c1 hr)).2 rs1 _ hrs
    · intro h
      refine ⟨h.1.1, fun r c1 hr => ih.mpr ⟨h.1.2 r c1 hr, fun rs c' hrs => ?_⟩⟩
      refine h.2 (r :: rs) c' ?_
      rw [serve, Program.bind_apply, hr, Outcome.done_bind, Program.bind_apply, hrs]
      rfl

/-! ## The client -/

section Client

variable (cfg : Config) (unset : Unset)

/-- Drop each `/` that another one follows. -/
def squeeze : Path → Path
  | [] => []
  | b :: rest => if b = slash ∧ rest.head? = some slash then squeeze rest
      else b :: squeeze rest

/-- `correct`, for a path of fewer than `2 ^ 31` characters: no doubled `/`, none at the
end, and `/` for nothing. -/
def correct (path : Path) : Path :=
  let p := squeeze path
  let p := if p.getLast? = some slash then p.dropLast else p
  if p = [] then root else p

/-- `RdmaCall` to the owner of a path. -/
def sendMessage (node : ℕ) (msg : Message) : Sys Response := parseMessage cfg unset node msg

/-- The bytes that a transfer of `size` bytes moves. From 4 MB on the two workers take
`shipSize` bytes each, a half in whole pages of 4 KB, and nothing moves the bytes behind
them. `shipSize` is an `int`: a negative one becomes a length of nearly `2 ^ 64`. -/
def shipped (size : ℕ) : Outcome ℕ :=
  if size < 4 * 1024 * 1024 then .done size
  else if size / 2 % 2 ^ 32 < 2 ^ 31 then .done (2 * (size / 2 % 2 ^ 32 / 4096 * 4096))
  else .undefined

/-- `RemoteWrite`: bytes of the buffer to a node. -/
def remoteWrite (node offset size : ℕ) (buffer : ℕ → BitVec 8) : Sys Unit := fun c => do
  let n ← shipped size
  return ((), c.setData node fun a =>
    if offset ≤ a ∧ a < offset + n then buffer (a - offset) else c.data node a)

/-- `RemoteRead` into the buffer from `position` on. -/
def remoteRead (node offset size position : ℕ) (buffer : ℕ → BitVec 8) :
    Sys (ℕ → BitVec 8) := fun c => do
  let n ← shipped size
  return (fun p =>
    if position ≤ p ∧ p < position + n then c.data node (offset + (p - position))
    else buffer p, c)

/-- The loop of `nrfsWrite`, whose body ends with `break`. -/
def writeLoop (buffer : ℕ → BitVec 8) : FilePosInfo → Sys Unit
  | [] => return ()
  | t :: _ => remoteWrite t.nodeId t.offset t.size buffer

/-- `nrfsWrite`. `length_copied` is still 0 when it is returned; the answer to
`MESSAGE_UPDATEMETA` is never assigned. -/
def nrfsWrite (file : Path) (buffer : ℕ → BitVec 8) (size offset : ℕ) : Sys ℤ := do
  let path := correct file
  match ← sendMessage cfg unset (cfg.nodeOf path) (.extentWrite path size offset) with
  | .positions (some fpi) => do
      writeLoop buffer fpi
      let _ ← sendMessage cfg unset (cfg.nodeOf path) .updateMeta
      return if unset.result then 0 else 1
  | _ => return -1

/-- The loop of `nrfsRead`: the bytes copied and the buffer. -/
def readLoop : FilePosInfo → ℕ → (ℕ → BitVec 8) → Sys (ℕ × (ℕ → BitVec 8))
  | [], lengthCopied, buffer => return (lengthCopied, buffer)
  | t :: rest, lengthCopied, buffer => do
      let buffer ← remoteRead t.nodeId t.offset t.size lengthCopied buffer
      readLoop rest (lengthCopied + t.size) buffer

lemma exists_shipped {size : ℕ} (h : size < 2 ^ 32) : ∃ n ≤ size, shipped size = .done n := by
  unfold shipped
  split_ifs with hsm hpos
  · exact ⟨size, le_rfl, rfl⟩
  · exact ⟨_, by omega, rfl⟩
  · omega

/-- `readLoop` changes nothing outside the bytes it counts, and the store not at all. -/
lemma readLoop_frame {fpi : FilePosInfo} (hsz : ∀ t ∈ fpi, t.size < 2 ^ 32) (k : ℕ)
    (buffer : ℕ → BitVec 8) (c : Cluster) :
    ∃ n buf', readLoop fpi k buffer c = .done ((n, buf'), c) ∧ k ≤ n ∧
      ∀ p, p < k ∨ n ≤ p → buf' p = buffer p := by
  induction fpi generalizing k buffer with
  | nil => exact ⟨k, buffer, rfl, le_rfl, fun p _ => rfl⟩
  | cons t rest ih =>
    obtain ⟨m, hm, hshp⟩ := exists_shipped (hsz t mem_cons_self)
    obtain ⟨n, buf', hrun, hle, hfrm⟩ :=
      ih (fun u hu => hsz u (mem_cons_of_mem _ hu)) (k + t.size) fun p =>
        if k ≤ p ∧ p < k + m then c.data t.nodeId (t.offset + (p - k)) else buffer p
    refine ⟨n, buf', ?_, by omega, fun p hp => ?_⟩
    · rw [readLoop, Program.bind_apply, remoteRead, hshp]
      exact hrun
    · rw [hfrm p (by omega), if_neg (by omega)]

/-- **Reading the positions just written** gives back the buffer as far as the transfer
of the first piece goes, leaves the rest of that piece as it was, and changes nothing
behind the `n` bytes it counts. -/
theorem readLoop_after_writeLoop (t : FilePosTuple) (rest : FilePosInfo)
    (buffer buf : ℕ → BitVec 8) (c : Cluster) (hsz : ∀ u ∈ t :: rest, u.size < 2 ^ 32) :
    ∃ m c' n buf', shipped t.size = .done m ∧
      writeLoop buffer (t :: rest) c = .done ((), c') ∧
      readLoop (t :: rest) 0 buf c' = .done ((n, buf'), c') ∧
      (∀ p < m, buf' p = buffer p) ∧ (∀ p, m ≤ p → p < t.size → buf' p = buf p) ∧
      ∀ p ≥ n, buf' p = buf p := by
  obtain ⟨m, hm, hshp⟩ := exists_shipped (hsz t mem_cons_self)
  let c' : Cluster := c.setData t.nodeId fun a =>
    if t.offset ≤ a ∧ a < t.offset + m then buffer (a - t.offset) else c.data t.nodeId a
  have hwr : writeLoop buffer (t :: rest) c = .done ((), c') := by
    rw [writeLoop, remoteWrite, hshp]
    rfl
  obtain ⟨n, buf', hrun, hle, hfrm⟩ :=
    readLoop_frame (fun u hu => hsz u (mem_cons_of_mem _ hu)) (0 + t.size)
      (fun p => if 0 ≤ p ∧ p < 0 + m then c'.data t.nodeId (t.offset + (p - 0)) else buf p) c'
  have hrd : readLoop (t :: rest) 0 buf c' = .done ((n, buf'), c') := by
    rw [readLoop, Program.bind_apply, remoteRead, hshp]
    exact hrun
  refine ⟨m, c', n, buf', hshp, hwr, hrd, fun p hp => ?_, fun p hlo hhi => ?_, fun p hp => ?_⟩
  · rw [hfrm p (by omega), if_pos (by omega)]
    simp [c', Cluster.data, Cluster.setData, hp]
  · rw [hfrm p (by omega), if_neg (by omega)]
  · rw [hfrm p (by omega), if_neg (by omega)]

/-- Of a first piece of 4 MB and a byte the last byte is not read back. -/
theorem readLoop_after_writeLoop_large :
    shipped (4 * 1024 * 1024 + 1) = .done (4 * 1024 * 1024) ∧ ∀ c : Cluster, ∃ c' n buf',
      writeLoop (fun _ => 7#8) [⟨0, 0, 4 * 1024 * 1024 + 1⟩, ⟨0, 4096, 8⟩] c = .done ((), c') ∧
      readLoop [⟨0, 0, 4 * 1024 * 1024 + 1⟩, ⟨0, 4096, 8⟩] 0 (fun _ => 0#8) c'
        = .done ((n, buf'), c') ∧
      (∀ p < 4 * 1024 * 1024, buf' p = 7#8) ∧ buf' (4 * 1024 * 1024) = 0#8 := by
  have hshp : shipped (4 * 1024 * 1024 + 1) = .done (4 * 1024 * 1024) := by decide
  refine ⟨hshp, fun c => ?_⟩
  obtain ⟨m, c', n, buf', hm, hwr, hrd, hin, hlst, -⟩ :=
    readLoop_after_writeLoop ⟨0, 0, 4 * 1024 * 1024 + 1⟩ [⟨0, 4096, 8⟩] (fun _ => 7#8)
      (fun _ => 0#8) c (by simp)
  rw [hshp] at hm
  cases hm
  exact ⟨c', n, buf', hwr, hrd, hin, hlst _ le_rfl (Nat.lt_succ_self _)⟩

/-- `nrfsRead`, with the buffer it fills. -/
def nrfsRead (file : Path) (buffer : ℕ → BitVec 8) (size offset : ℕ) :
    Sys (ℤ × (ℕ → BitVec 8)) := do
  let path := correct file
  match ← sendMessage cfg unset (cfg.nodeOf path) (.extentRead path size offset) with
  | .positions (some fpi) => do
      let (lengthCopied, buffer) ← readLoop fpi 0 buffer
      let _ ← sendMessage cfg unset (cfg.nodeOf path) .extentReadEnd
      return (toInt lengthCopied, buffer)
  | _ => return (-1, buffer)

/-- `nrfsFreeBlock` -/
def nrfsFreeBlock (node startBlock countBlock : ℕ) : Sys Unit := do
  let _ ← sendMessage cfg unset node (.freeBlock startBlock countBlock)

/-- The loop of `nrfsDelete` over the extents of other nodes. -/
def freeRemoteExtents (node : ℕ) : List FileMetaTuple → Sys Unit
  | [] => return ()
  | e :: rest => do
      if e.hashNode % 2 ^ 16 ≠ node ∧ e.hashNode ≠ 0 then
        nrfsFreeBlock cfg unset (e.hashNode % 2 ^ 16) e.indexExtentStartBlock e.countExtentBlock
      freeRemoteExtents node rest

/-- `nrfsDelete`; a file of `MAX_FILE_EXTENT_COUNT` extents is taken for a
directory. -/
def nrfsDelete (file : Path) : Sys ℤ := do
  let path := correct file
  match ← sendMessage cfg unset (cfg.nodeOf path) (.remove path) with
  | .removed true (some (.file m)) => do
      if m.count ≠ maxFileExtentCount then
        freeRemoteExtents cfg unset (cfg.nodeOf path) ((List.range m.count).map m.tuple)
      return 0
  | .removed true _ => return 0
  | _ => return 1

def nrfsGetAttribute (file : Path) : Sys (Option Attribute) := do
  let path := correct file
  match ← sendMessage cfg unset (cfg.nodeOf path) (.getattr path) with
  | .attributes a => return a
  | _ => return none

/-- `nrfsAddMetaToDirectory`: both messages. -/
def nrfsAddMetaToDirectory (parent name : Path) (isDirectory : Bool) : Sys Bool := do
  match ← sendMessage cfg unset (cfg.nodeOf parent)
      (.addMetaToDirectory parent name isDirectory) with
  | .update (some u) =>
      match ← sendMessage cfg unset (cfg.nodeOf parent) (.doCommit parent u) with
      | .result r => return r
      | _ => return false
  | _ => return false

/-- `nrfsMknodWithMeta` -/
def nrfsMknodWithMeta (path : Path) (metaFile : FileMeta) : Sys Bool := do
  match getParentDirectory path with
  | (_, false) => return false
  | (parent, true) =>
      match ← nrfsGetAttribute cfg unset parent with
      | none => return false
      | some a =>
          if a.count ≠ maxFileExtentCount then return false
          else
            match ← sendMessage cfg unset (cfg.nodeOf path) (.mknodWithMeta path metaFile) with
            | .result true =>
                match getNameFromPath path with
                | none => Program.ofOutcome .undefined
                | some name => nrfsAddMetaToDirectory cfg unset parent name false
            | _ => return false

/-- `nrfsRename` of a file of fewer than `MAX_FILE_EXTENT_COUNT` extents;
`none` stands for the branch that calls `renameDirectory`. -/
def nrfsRename (oldpath newpath : Path) : Sys (Option ℤ) := do
  let pathOld := correct oldpath
  let pathNew := correct newpath
  match ← nrfsGetAttribute cfg unset pathOld with
  | none => return some 1
  | some .directory => return none
  | some (.file m) =>
      if m.count = maxFileExtentCount then return none
      else
        match ← nrfsMknodWithMeta cfg unset pathNew m with
        | false => return some 1
        | true =>
            match ← sendMessage cfg unset (cfg.nodeOf pathOld) (.rename pathOld pathNew) with
            | .result true => return some 0
            | _ => return some 1

end Client

end Librdpma.Octopus
