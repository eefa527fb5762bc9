import Librdpma.Octopus.ClientCalls

/-!
# Every request keeps the tables

Whatever `parseMessage` is asked for, at whichever node and in whichever state,
the storage of every node still stands for a view when the answer is sent. The
tables are therefore consistent in every state a file system reaches.
-/

namespace Librdpma.Octopus

open Lib Outcome Program

/-- The arguments of a request that runs `extentWrite`. -/
def Message.writeArgs : Message → Option (Path × ℕ × ℕ)
  | .extentWrite path size offset => some (path, size, offset)
  | .rawWrite path size offset => some (path, size, offset)
  | _ => none

section Requests

variable {cfg : Config} {node : ℕ} {path : Path} {sz : StoreSize} {c : Cluster} {w : World}
  {unset : Unset} {msg : Message} {bad : Prop}

namespace Cluster.Shows

section

variable (h : c.Shows sz w)

include h

lemma writeMsg {size offset : ℕ} (hmsg : msg.writeArgs = some (path, size, offset)) :
    Ends True (parseMessage cfg unset node msg c) fun r =>
      ∃ fpi w', r.2.Shows sz w' ∧ WriteStep cfg node path size offset w fpi w' := by
  have hans : parseMessage cfg unset node msg
      = Octopus.answerWrite cfg unset node path size offset := by
    cases msg with
    | extentWrite | rawWrite =>
      cases hmsg
      rfl
    | _ => cases hmsg
  rw [hans]
  by_cases hsf : cfg.nodeOf path = node
  · refine (h.answerWrite unset hsf fun _ _ _ _ _ => trivial).mono ?_
    rintro ⟨r, c'⟩ ⟨fpi, w', -, h', hst⟩
    exact ⟨fpi, w', h', hst⟩
  · unfold Octopus.answerWrite Octopus.extentWrite
    rw [if_neg hsf, bind_apply, pure_apply, done_bind]
    exact (unlockOffset (h.unlockWrite _) _).bind fun _ h' => .done ⟨none, w, h', .nothing⟩

lemma rmdir : Ends True (rmdir cfg unset node path c) fun r => ∃ w', r.2.Shows sz w' := by
  have hlkd : ∀ c : Cluster, c.Shows sz w →
      Ends True (rmdirLocked cfg unset node path c) fun r => ∃ w', r.2.Shows sz w' := by
    intro c h
    unfold Octopus.rmdirLocked
    rw [bind_apply, h.getEntry, done_bind]
    match (w node).entries (cfg.sha256 path) with
    | none | some (_, false) => exact .done ⟨w, h⟩
    | some (index, true) =>
      cases getNameFromPath path with
      | none => exact .undefined trivial
      | some name =>
        refine (h.editDirectory _).bind ?_
        rintro ⟨u, c1⟩ h1
        cases u with
        | none => exact .done ⟨w, h1⟩
        | some u =>
          dsimp only
          rw [bind_apply, h1.getDirectoryMeta, done_bind]
          cases (w node).dirs.item index with
          | none => exact .done ⟨w, h1⟩
          | some m =>
            dsimp only
            split
            · exact .done ⟨w, h1⟩
            · refine (h1.onStorage (P := fun _ v => v.blocks = (w node).blocks)
                fun st hst => ?_).mono fun _ ⟨_, h2, _⟩ => ⟨_, h2⟩
              obtain ⟨st1, hrem, hst1⟩ := hst.removeDirectoryMeta index
              exact Storage.Shows.dropEntry_blocks hrem hst1 rfl _
  unfold Octopus.rmdir
  split
  · refine (h.lockWrite _ _).bind fun r h1 => (hlkd _ h1).bind ?_
    rintro ⟨ok, c2⟩ ⟨w', h2⟩
    exact (h2.unlockWrite _ _).bind fun _ h3 => .done ⟨w', h3⟩
  · exact .done ⟨w, h⟩

lemma blockFree (startBlock countBlock : ℕ) (result : Bool) :
    Ends True (blockFree node startBlock countBlock result c) fun r => ∃ w', r.2.Shows sz w' := by
  obtain ⟨ok, pre, st, hrem, hst, -⟩ := (h node).removeBlocks
    ((descend (toInt countBlock - 1) 0).map fun j => ((startBlock + j) % 2 ^ 64).toNat)
  unfold Octopus.blockFree
  rw [bind_apply, onStorage_done hrem, done_bind]
  exact .done ⟨_, h.setStorage hst⟩

lemma lookup {α β : Type} {x : Program Storage α} {a : α}
    (hx : ∀ c : Cluster, c.Shows sz w → Octopus.onStorage node x c = .done (a, c))
    (address : AddressHash) (answer : α → β) :
    Ends bad ((do
      lockReadHashItem node address
      let r ← Octopus.onStorage node x
      unlockReadHashItem node address
      return answer r : Sys β) c) fun r => r.2.Shows sz w ∧ r.1 = answer a := by
  refine (h.lockRead _ _).bind fun r h1 => ?_
  dsimp only
  rw [bind_apply, hx _ h1, done_bind]
  exact (h1.unlockRead _ _).bind fun _ h2 => .done ⟨h2, rfl⟩

lemma access : Ends bad (access cfg node path c) fun r => r.2.Shows sz w := by
  unfold Octopus.access
  split
  · exact (h.lookup (fun _ h1 => h1.getEntry _ _) _ _).mono fun _ hr => hr.1
  · exact .done h

lemma readdir : Ends bad (readdir cfg node path c) fun r => r.2.Shows sz w ∧
      ∀ l, r.1 = some l → ((w node).directory (cfg.sha256 path)).map Prod.snd = some l := by
  unfold Octopus.readdir
  split
  · exact (h.lookup (fun _ h1 => h1.lookupDirectory _ _) _ _).mono fun _ hr =>
      ⟨hr.1, fun l hl => hr.2.symm.trans hl⟩
  · exact .done ⟨h, nofun⟩

lemma truncate_any (size : ℕ) :
    Ends bad (Octopus.truncate cfg node path size c) fun r => ∃ w', r.2.Shows sz w' := by
  by_cases hsf : cfg.nodeOf path = node
  · exact (h.truncate hsf).mono fun _ ⟨w', h', _⟩ => ⟨w', h'⟩
  · unfold Octopus.truncate
    rw [if_neg hsf]
    exact .done ⟨w, h⟩

/-- **No request breaks the tables of any node.** -/
lemma parseMessage (unset : Unset) (msg : Message) :
    Ends True (parseMessage cfg unset node msg c) fun r => ∃ w', r.2.Shows sz w' := by
  match msg with
  | .addMetaToDirectory path name isDirectory | .removeMetaFromDirectory path name =>
    exact (h.editDirectory _).bind fun _ h' => .done ⟨w, h'⟩
  | .doCommit path u => exact (h.updateDirectoryMeta u).bind fun _ ⟨w', h', _⟩ => .done ⟨w', h'⟩
  | .mknod path =>
    exact (h.mknodcd unset fun _ => trivial).bind fun _ ⟨w', h', _⟩ => .done ⟨w', h'⟩
  | .getattr path => exact h.getattr.bind fun _ ⟨h', _⟩ => .done ⟨w, h'⟩
  | .access path => exact h.access.bind fun _ h' => .done ⟨w, h'⟩
  | .mkdir path => exact (h.mkdircd fun _ => trivial).bind fun _ ⟨w', h', _⟩ => .done ⟨w', h'⟩
  | .readdir path => exact h.readdir.bind fun _ ⟨h', _⟩ => .done ⟨w, h'⟩
  | .readDirectoryMeta path =>
    exact (h.readDirectoryMeta path).bind fun _ ⟨h', _⟩ => .done ⟨w, h'⟩
  | .extentRead path size offset | .rawRead path size offset =>
    exact (h.answerRead unset).mono fun _ h' => ⟨w, h'⟩
  | .extentWrite path size offset | .rawWrite path size offset =>
    exact (h.writeMsg rfl).mono fun _ ⟨_, w', h', _⟩ => ⟨w', h'⟩
  | .updateMeta | .extentReadEnd | .other => exact .done ⟨w, h⟩
  | .truncate path size => exact (h.truncate_any size).bind fun _ hr => .done hr
  | .rmdir path => exact h.rmdir.bind fun _ hr => .done hr
  | .remove path => exact (h.removecd fun _ => trivial).bind fun _ ⟨w', h', _⟩ => .done ⟨w', h'⟩
  | .freeBlock startBlock countBlock =>
    exact (h.blockFree startBlock countBlock unset.result).bind fun _ hr => .done hr
  | .mknodWithMeta path metaFile =>
    exact (h.mknodWithMeta metaFile).bind fun _ ⟨_, h', _⟩ => .done ⟨_, h'⟩
  | .rename pathOld pathNew => exact h.rename.bind fun _ ⟨w', h', _⟩ => .done ⟨w', h'⟩

end

end Cluster.Shows

end Requests

/-- The states of a file system: nodes answer requests, in any order and
whatever they find in unassigned variables, and clients write bytes into
blocks. -/
inductive Setup.Reached (s : Setup) (cfg : Config) : Cluster → Prop where
  | start {c : Cluster} (h : s.start cfg = .done c) : Reached s cfg c
  | request {c c' : Cluster} {node : ℕ} {unset : Unset} {msg : Message} {r : Response}
      (h : Reached s cfg c) (hr : parseMessage cfg unset node msg c = .done (r, c')) :
      Reached s cfg c'
  | remoteWrite {c c' : Cluster} {node offset size : ℕ} {buffer : ℕ → BitVec 8}
      (h : Reached s cfg c) (hw : remoteWrite node offset size buffer c = .done ((), c')) :
      Reached s cfg c'

lemma Setup.Reached.serve {s : Setup} {cfg : Config} {c c' : Cluster} {node : ℕ}
    {reqs : List (Unset × Message)} {rs : List Response} (h : s.Reached cfg c)
    (hrun : serve cfg node reqs c = .done (rs, c')) : s.Reached cfg c' := by
  induction reqs generalizing c rs with
  | nil =>
    cases hrun
    exact h
  | cons req reqs ih =>
    obtain ⟨⟨r, c1⟩, hr, hrun⟩ := bind_eq_done.mp hrun
    obtain ⟨⟨rs1, c2⟩, hrs, heq⟩ := bind_eq_done.mp hrun
    cases heq
    exact ih (h.request hr) hrs

/-! A call of the client is a sequence of requests. -/

section Client

variable {s : Setup} {cfg : Config} {unset : Unset}

/-- The program leads from reached states to reached states. -/
def Setup.Stays (s : Setup) (cfg : Config) {α : Type} (x : Sys α) : Prop :=
  Spec True id (s.Reached cfg) x fun _ => s.Reached cfg

lemma Setup.Stays.of_done {α : Type} {x : Sys α} (h : s.Stays cfg x) {c c' : Cluster} {a : α}
    (hc : s.Reached cfg c) (hx : x c = .done (a, c')) : s.Reached cfg c' :=
  Spec.of_done h hc hx

lemma Setup.stays_pure {α : Type} (a : α) : s.Stays cfg (pure a) := Spec.pure fun _ h => h

lemma Setup.stays_sendMessage (node : ℕ) (msg : Message) :
    s.Stays cfg (sendMessage cfg unset node msg) :=
  fun _ h => ends_of_done fun _ hr => Reached.request h hr

lemma Setup.stays_nrfsGetAttribute (file : Path) :
    s.Stays cfg (nrfsGetAttribute cfg unset file) := by
  refine (stays_sendMessage _ _).bind fun r => ?_
  split <;> exact stays_pure _

lemma Setup.stays_nrfsAddMetaToDirectory (parent name : Path) (isDirectory : Bool) :
    s.Stays cfg (nrfsAddMetaToDirectory cfg unset parent name isDirectory) := by
  refine (stays_sendMessage _ _).bind fun r => ?_
  split
  · refine (stays_sendMessage _ _).bind fun r => ?_
    split <;> exact stays_pure _
  · exact stays_pure _

lemma Setup.stays_nrfsMknodWithMeta (path : Path) (m : FileMeta) :
    s.Stays cfg (nrfsMknodWithMeta cfg unset path m) := by
  unfold Octopus.nrfsMknodWithMeta
  split
  · exact stays_pure _
  · refine (stays_nrfsGetAttribute _).bind fun a => ?_
    split
    · exact stays_pure _
    · split
      · exact stays_pure _
      · refine (stays_sendMessage _ _).bind fun r => ?_
        split
        · split
          · exact Spec.ofOutcome fun _ _ => .undefined trivial
          · exact stays_nrfsAddMetaToDirectory _ _ _
        · exact stays_pure _

lemma Setup.stays_nrfsRename (oldpath newpath : Path) :
    s.Stays cfg (nrfsRename cfg unset oldpath newpath) := by
  refine (stays_nrfsGetAttribute _).bind fun a => ?_
  split
  · exact stays_pure _
  · exact stays_pure _
  · split
    · exact stays_pure _
    · refine (stays_nrfsMknodWithMeta _ _).bind fun ok => ?_
      split
      · exact stays_pure _
      · refine (stays_sendMessage _ _).bind fun r => ?_
        split <;> exact stays_pure _

lemma Setup.stays_nrfsWrite (file : Path) (buffer : ℕ → BitVec 8) (size offset : ℕ) :
    s.Stays cfg (nrfsWrite cfg unset file buffer size offset) := by
  have hloop : ∀ fpi, s.Stays cfg (writeLoop buffer fpi) := by
    intro fpi
    cases fpi with
    | nil => exact stays_pure _
    | cons t rest => exact fun _ h => ends_of_done fun _ hwr => Reached.remoteWrite h hwr
  refine (stays_sendMessage _ _).bind fun r => ?_
  split
  · refine (hloop _).bind fun _ => ?_
    exact (stays_sendMessage _ _).bind fun _ => stays_pure _
  · exact stays_pure _

lemma Setup.stays_readLoop (fpi : FilePosInfo) (k : ℕ) (buffer : ℕ → BitVec 8) :
    s.Stays cfg (readLoop fpi k buffer) := by
  induction fpi generalizing k buffer with
  | nil => exact stays_pure _
  | cons t rest ih =>
    refine Spec.bind (Q := fun _ => s.Reached cfg) (fun c h => ends_of_done fun r hr => ?_)
      fun _ => ih _ _
    obtain ⟨n, -, heq⟩ := bind_eq_done.mp hr
    cases heq
    exact h

lemma Setup.stays_nrfsRead (file : Path) (buffer : ℕ → BitVec 8) (size offset : ℕ) :
    s.Stays cfg (nrfsRead cfg unset file buffer size offset) := by
  refine (stays_sendMessage _ _).bind fun r => ?_
  split
  · refine (stays_readLoop _ _ _).bind fun _ => ?_
    exact (stays_sendMessage _ _).bind fun _ => stays_pure _
  · exact stays_pure _

end Client

lemma Setup.Reached.shows {s : Setup} {cfg : Config} {c : Cluster} (h : s.Reached cfg c)
    (hs : s.Sound) : ∃ w, c.Shows s.size w := by
  induction h with
  | start h =>
    obtain ⟨w, hw⟩ := hs.started h
    exact ⟨w, hw.shows⟩
  | request _ hr ih =>
    obtain ⟨w, hw⟩ := ih
    exact (hw.parseMessage _ _).of_done hr
  | remoteWrite _ hwr ih =>
    obtain ⟨w, hw⟩ := ih
    obtain ⟨n, -, heq⟩ := bind_eq_done.mp hwr
    cases heq
    exact ⟨w, hw.of_storage (Cluster.storage_setData ..)⟩

end Librdpma.Octopus
