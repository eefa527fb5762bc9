import Librdpma.LevelKv.Phases

/-!
# Agreement of host and DPU

Every action leads from a phase to a phase, so that no interleaving has an
undefined step. In the phases in which neither side is in `Expand` the two have
the same table; in those in which the DPU can issue a DMA, the host serves the
regions of all its clients.
-/

namespace Librdpma.LevelKv.Handshake

open Lib List Outcome

variable {p : Setup} {k : ℕ}

/-! ## Steps of the host -/

variable {h : HostSide}

section Host

variable (d : DpuSide) (toHost toDpu : List ComchMsg)

/-- A host that is ready for the next expansion settles the last one or polls. -/
lemma HostIdle.stepHost (hid : HostIdle p k h) :
    (∃ h', HostIdle p k h' ∧ Sys.stepHost ⟨h, d, toHost, toDpu⟩ = ⟨h', d, toHost, toDpu⟩) ∨
      ∃ v, h = ⟨v, [], []⟩ ∧ HostAt p k (k + 2) v ∧
        Sys.stepHost ⟨h, d, toHost, toDpu⟩ = Sys.pollHost ⟨h, d, toHost, toDpu⟩ := by
  cases hid with
  | @run v hv =>
    cases hst : v.stop with
    | true => exact .inl ⟨_, .run hv, if_pos hst⟩
    | false => exact .inr ⟨v, rfl, hv, if_neg (by rw [hst]; decide)⟩
  | @leaving e v hre hv =>
    exact .inl ⟨_, .settling hv, if_neg (by rw [hre]; decide)⟩
  | @settling e v rest hv =>
    cases rest with
    | nil => exact .inl ⟨_, .run hv, rfl⟩
    | cons st rest =>
      exact .inl ⟨⟨(st.exec (e, v)).2, [], [((st.exec (e, v)).1, .settle rest)]⟩, .settling hv, rfl⟩

lemma HostIdle.stepHost_nil (hid : HostIdle p k h) :
    ∃ h', HostIdle p k h' ∧ Sys.stepHost ⟨h, d, [], toDpu⟩ = ⟨h', d, [], toDpu⟩ := by
  rcases hid.stepHost d [] toDpu with hloc | ⟨v, rfl, hv, hpoll⟩
  · exact hloc
  · exact ⟨_, .run hv, hpoll⟩

lemma HostExports.stepHost (hexp : HostExports p k [] h) :
    (∃ h', HostExports p k [] h' ∧ Sys.stepHost ⟨h, d, toHost, toDpu⟩ = ⟨h', d, toHost, toDpu⟩) ∨
      ∃ v, h = ⟨v, [], [(⟨k + 2, p.parts (k + 2)⟩, .rehash)]⟩ ∧ v.inRehash = true ∧
        HostAt p k (k + 3) v ∧
        Sys.stepHost ⟨h, d, toHost, toDpu⟩ = Sys.pollHost ⟨h, d, toHost, toDpu⟩ := by
  cases hexp with
  | sending hre hv => exact .inl ⟨_, .rehashing hre hv, rfl⟩
  | rehashing hre hv => exact .inr ⟨_, rfl, hre, hv, if_pos hre⟩

lemma HostExports.stepHost_nil (hexp : HostExports p k [] h) :
    ∃ h', HostExports p k [] h' ∧ Sys.stepHost ⟨h, d, [], toDpu⟩ = ⟨h', d, [], toDpu⟩ := by
  rcases hexp.stepHost d [] toDpu with hloc | ⟨v, rfl, hre, hv, hpoll⟩
  · exact hloc
  · exact ⟨_, .rehashing hre hv, hpoll⟩

lemma HostExports.stepHost_cons {r : Region} {rs : List Region}
    (hexp : HostExports p k (r :: rs) h) :
    ∃ h', HostExports p k rs h' ∧ Sys.stepHost ⟨h, d, toHost, toDpu⟩
      = ⟨h', d, toHost, toDpu ++ [.exportDescriptor r]⟩ := by
  cases hexp with
  | sending hre hv => exact ⟨_, .sending hre hv, rfl⟩

/-- So is the next one of the constructor, which then begins to poll. -/
lemma stepHost_construct (v : HostVars) (unsent : List Region) :
    (∃ r rs, unsent = r :: rs ∧
        Sys.stepHost ⟨⟨v, unsent.map .exportDescriptor, []⟩, d, [], toDpu⟩
          = ⟨⟨v, rs.map .exportDescriptor, []⟩, d, [], toDpu ++ [.exportDescriptor r]⟩) ∨
      Sys.stepHost ⟨⟨v, unsent.map .exportDescriptor, []⟩, d, [], toDpu⟩
        = ⟨⟨v, unsent.map .exportDescriptor, []⟩, d, [], toDpu⟩ := by
  cases unsent with
  | nil => exact .inr (ite_self _)
  | cons r rs => exact .inl ⟨r, rs, rfl, rfl⟩

end Host

lemma map_snoc (pend : List Region) (r : Region) :
    pend.map ComchMsg.exportDescriptor ++ [.exportDescriptor r]
      = (pend ++ [r]).map .exportDescriptor := by
  rw [map_append]
  rfl

lemma stepHost_phase {s : Sys} (hs : Phase p s) : Phase p s.stepHost := by
  cases hs with
  | fresh hv hw hsd =>
    exact .seeding hv hw hsd (show [] ++ (p.parts 0 ++ p.parts 1) = _ from rfl)
  | @seeding v w pend unsent hv hw hsd hspl =>
    rcases stepHost_construct ⟨w, .construct⟩ (.exportSeeds p.fSeed p.sSeed ::
      pend.map .exportDescriptor) v unsent with ⟨r, rs, rfl, hrun⟩ | hrun
    · rw [hrun, cons_append, map_snoc]
      exact .seeding hv hw hsd (by rw [← hspl, append_assoc]; rfl)
    · rw [hrun]
      exact .seeding hv hw hsd hspl
  | @constructing v w recd pend unsent hv hw hsd hf hs' hspl =>
    rcases stepHost_construct ⟨w, .construct⟩ (pend.map .exportDescriptor) v unsent with
      ⟨r, rs, rfl, hrun⟩ | hrun
    · rw [hrun, map_snoc]
      exact .constructing hv hw hsd hf hs' (by rw [← hspl, append_assoc pend]; rfl)
    · rw [hrun]
      exact .constructing hv hw hsd hf hs' hspl
  | @running k h d toHost hid hd hch =>
    rcases hid.stepHost d toHost [] with ⟨h', hid', hrun⟩ | ⟨v, rfl, hv, hrun⟩
    · rw [hrun]
      exact .running hid' hd hch
    · rw [hrun]
      rcases hch with rfl | ⟨hpc, rfl⟩
      · exact .running hid hd (.inl rfl)
      · -- the host receives `EXIT`
        refine .running (.run ?_) hd (.inl rfl)
        exact ⟨hv.addrCapacity, hv.blCapacity, hv.top, hv.bottom, hv.fSeed, hv.sSeed,
          hv.tlServer, hv.blServer, hv.allocated, hv.freed⟩
  | @announced k h d hid hd =>
    rcases hid.stepHost d [.control .expand] [] with ⟨h', hid', hrun⟩ | ⟨v, rfl, hv, hrun⟩
    · rw [hrun]
      exact .announced hid' hd
    · rw [hrun]
      exact .importing hv.expand hd (show [] ++ ([] ++ p.parts (k + 2)) = _ from rfl)
  | @importing k h d recd pend unsent hexp hd hspl =>
    cases unsent with
    | nil =>
      obtain ⟨h', hexp', hrun⟩ := hexp.stepHost_nil d (pend.map .exportDescriptor)
      rw [hrun]
      exact .importing hexp' hd hspl
    | cons r rs =>
      obtain ⟨h', hexp', hrun⟩ := hexp.stepHost_cons d [] (pend.map .exportDescriptor)
      rw [hrun, map_snoc]
      exact .importing hexp' hd (by rw [← hspl, append_assoc pend]; rfl)
  | @splitting k h w hexp hat hmap hre =>
    obtain ⟨h', hexp', hrun⟩ := hexp.stepHost_nil ⟨w, .split⟩ []
    rw [hrun]
    exact .splitting hexp' hat hmap hre
  | @finishing k h d hexp hd hre =>
    rcases hexp.stepHost d [.control .expandFinish] [] with
      ⟨h', hexp', hrun⟩ | ⟨v, rfl, -, hv, hrun⟩
    · rw [hrun]
      exact .finishing hexp' hd hre
    · rw [hrun]
      exact .answered (.leaving rfl hv.settled) hd hre
  | @answered k h d hid hd hre =>
    obtain ⟨h', hid', hrun⟩ := hid.stepHost_nil d [.control .expandFinish]
    rw [hrun]
    exact .answered hid' hd hre
  | @finished k h w hid hw hre =>
    obtain ⟨h', hid', hrun⟩ := hid.stepHost_nil ⟨w, .await⟩ []
    rw [hrun]
    exact .finished hid' hw hre

/-! ## Steps of the DPU -/

section Dpu

variable {d : DpuSide} {recd : List Region} (h : HostSide) (toHost toDpu : List ComchMsg)

/-- In the first part of `Dpu::Expand` new clients are added, then the DPU polls
until all of them have imported a region. -/
lemma DpuImports.stepDpu (hd : DpuImports p k recd d) :
    (∃ d', DpuImports p k recd d' ∧
        Sys.stepDpu ⟨h, d, toHost, toDpu⟩ = .done ⟨h, d', toHost, toDpu⟩) ∨
      ∃ v, d = ⟨v, .importing⟩ ∧ DpuAt p k v ∧ v.inRehash = true ∧ v.clients = 12 ∧
        Imported 12 ((range' k 2).flatMap p.parts ++ recd) v := by
  cases hd with
  | @emplacing v n hat hre hrc hn hcl hdma =>
    cases n with
    | zero =>
      refine .inl ⟨_, .importing hat hre hcl ⟨?_, hrc, by simp⟩, rfl⟩
      rw [append_nil]
      exact hdma
    | succ n =>
      refine .inl ⟨⟨{ v with
          dmaClient := v.dmaClient ++ [none]
          clients := v.clients + 1 }, .emplace n⟩,
        .emplacing ⟨hat.params, hat.fSeed, hat.sSeed, hat.inInit⟩ hre hrc (by omega) ?_ ?_, rfl⟩
      · show v.clients + 1 = _
        omega
      · rw [hdma, append_assoc, show 4 - n = 4 - (n + 1) + 1 by omega, replicate_succ']
  | importing hat hre hcl himp => exact .inr ⟨_, rfl, hat, hre, hcl, himp⟩

/-- In the last part the old clients are erased, then the DPU polls. -/
lemma DpuFinishes.stepDpu (hd : DpuFinishes p k d) (hre : d.vars.inRehash = true) :
    (∃ d', DpuFinishes p k d' ∧ d'.vars.inRehash = true ∧
        Sys.stepDpu ⟨h, d, toHost, toDpu⟩ = .done ⟨h, d', toHost, toDpu⟩) ∨
      ∃ v, d = ⟨v, .await⟩ ∧ DpuReady p (k + 1) v ∧
        Sys.stepDpu ⟨h, d, toHost, toDpu⟩ = Sys.pollDpu ⟨h, d, toHost, toDpu⟩ := by
  cases hd with
  | @finishing v rest hv =>
    cases rest with
    | nil => exact .inl ⟨_, .awaiting hv, hre, rfl⟩
    | cons st rest =>
      refine .inl ⟨⟨st.exec v, .finish rest⟩, .finishing hv, ?_, rfl⟩
      cases st with
      | updateParameters | eraseClient => exact hre
  | awaiting hv => exact .inr ⟨_, rfl, hv, if_pos hre⟩

end Dpu

variable {recd : List Region} {w : DpuVars} {s : Sys}

lemma eq_nil_of_length {rest all : List Region} (hspl : recd ++ rest = all)
    (hlen : all.length ≤ recd.length) : recd = all ∧ rest = [] := by
  have hl := congrArg length hspl
  rw [length_append] at hl
  have hnil : rest = [] := length_eq_zero_iff.mp (by omega)
  rw [hnil, append_nil] at hspl
  exact ⟨hspl, hnil⟩

lemma DpuConstructs.recv {r : Region} (hw : DpuConstructs p recd w) (hlt : recd.length < 8) :
    ∃ clients n i, w.recv (.exportDescriptor r)
        = .done { w with dmaClient := clients, mmapToRecv := n, inInit := i } ∧
      DpuConstructs p (recd ++ [r])
        { w with dmaClient := clients, mmapToRecv := n, inInit := i } := by
  obtain ⟨clients, n, hrun, himp⟩ := hw.imported.importMmap (r := r) hlt
  have hn : n = 8 - (recd ++ [r]).length := himp.mmapToRecv
  rw [length_append, length_singleton] at hn
  refine ⟨clients, n, if n = 0 then false else w.inInit, ?_, hw.params, hw.clients,
    ⟨himp.dmaClient, himp.mmapToRecv, himp.le⟩, ?_⟩
  · simp only [DpuVars.recv, hw.inInit hlt, if_true, hrun, done_bind, pure_eq]
    split
    · rfl
    · rfl
  · intro hlen
    rw [length_append, length_singleton] at hlen
    rw [if_neg (by omega)]
    exact hw.inInit hlt

lemma DpuConstructs.ready (hw : DpuConstructs p (p.parts 0 ++ p.parts 1) w)
    (hf : w.fSeed = p.fSeed) (hs : w.sSeed = p.sSeed) :
    DpuReady p 0 { w with inInit := false } := by
  refine ⟨⟨hw.params, hf, hs, rfl⟩, ⟨?_, hw.clients⟩⟩
  rw [hw.imported.dmaClient]
  rfl

lemma DpuAt.recv {v : DpuVars} {r : Region} (hat : DpuAt p k v) (hre : v.inRehash = true)
    (himp : Imported 12 recd v) (hlt : recd.length < 12) :
    ∃ clients n, v.recv (.exportDescriptor r)
        = .done { v with dmaClient := clients, mmapToRecv := n } ∧
      Imported 12 (recd ++ [r]) { v with dmaClient := clients, mmapToRecv := n } := by
  obtain ⟨clients, n, hrun, himp'⟩ := himp.importMmap (r := r) hlt
  refine ⟨clients, n, ?_, himp'⟩
  show (if v.inInit = true then _ else if v.inRehash = true then _ else _) = _
  rw [if_neg (by rw [hat.inInit]; decide), if_pos hre]
  exact hrun

lemma stepDpu_construct (h : HostSide) (toHost toDpu : List ComchMsg)
    (hw : 0 < w.mmapToRecv ∨ w.seedRecved = false) :
    Sys.stepDpu ⟨h, ⟨w, .construct⟩, toHost, toDpu⟩
      = Sys.pollDpu ⟨h, ⟨w, .construct⟩, toHost, toDpu⟩ := if_pos hw

lemma stepDpu_importing (h : HostSide) (toHost toDpu : List ComchMsg) (hw : 0 < w.mmapToRecv) :
    Sys.stepDpu ⟨h, ⟨w, .importing⟩, toHost, toDpu⟩
      = Sys.pollDpu ⟨h, ⟨w, .importing⟩, toHost, toDpu⟩ := if_pos hw

/-- While the DPU constructs, it polls for descriptors until the last one is there. -/
lemma DpuConstructs.stepDpu {v : HostVars} {pend unsent : List Region} (hv : HostAt p 0 2 v)
    (hw : DpuConstructs p recd w) (hsd : w.seedRecved = true) (hf : w.fSeed = p.fSeed)
    (hs : w.sSeed = p.sSeed) (hspl : recd ++ (pend ++ unsent) = p.parts 0 ++ p.parts 1) :
    (Sys.stepDpu ⟨⟨v, unsent.map .exportDescriptor, []⟩, ⟨w, .construct⟩, [],
      pend.map .exportDescriptor⟩).Sat False (Phase p) := by
  have hrc := hw.imported.mmapToRecv
  by_cases hlt : recd.length < 8
  · rw [stepDpu_construct _ _ _ (.inl (by omega))]
    cases pend with
    | nil => exact .constructing hv hw hsd hf hs hspl
    | cons r rest =>
      obtain ⟨clients, n, i, hrun, hw'⟩ := hw.recv (r := r) hlt
      show Sat False (w.recv (.exportDescriptor r) >>= _) _
      rw [hrun]
      exact .constructing hv hw' hsd hf hs (by rw [← hspl, append_assoc]; rfl)
  · obtain ⟨rfl, hnil⟩ := eq_nil_of_length hspl (not_lt.mp hlt)
    obtain ⟨rfl, rfl⟩ := append_eq_nil_iff.mp hnil
    have hrun : Sys.stepDpu ⟨⟨v, [], []⟩, ⟨w, .construct⟩, [], []⟩
        = .done ⟨⟨v, [], []⟩, ⟨{ w with inInit := false }, .run⟩, [], []⟩ := by
      refine if_neg ?_
      rw [hrc, hsd]
      simp
    rw [map_nil, hrun]
    exact .running (.run hv) (.run (hw.ready hf hs)) (.inl rfl)

/-- While the DPU imports the new level, it polls for descriptors; with the last of
them it goes on to the splits. -/
lemma Imported.stepDpu {h : HostSide} {v : DpuVars} {pend unsent : List Region}
    (hexp : HostExports p k unsent h) (hat : DpuAt p k v) (hre : v.inRehash = true)
    (hcl : v.clients = 12) (himp : Imported 12 ((range' k 2).flatMap p.parts ++ recd) v)
    (hspl : recd ++ (pend ++ unsent) = p.parts (k + 2)) :
    (Sys.stepDpu ⟨h, ⟨v, .importing⟩, [], pend.map .exportDescriptor⟩).Sat False (Phase p) := by
  have hlen : ((range' k 2).flatMap p.parts ++ recd).length = 8 + recd.length := by
    rw [length_append]
    rfl
  have hrc := himp.mmapToRecv
  rw [hlen] at hrc
  by_cases hlt : recd.length < 4
  · rw [stepDpu_importing _ _ _ (by omega)]
    cases pend with
    | nil => exact .importing hexp (.importing hat hre hcl himp) hspl
    | cons r rest =>
      obtain ⟨clients, n, hrun, himp'⟩ := hat.recv (r := r) hre himp (by omega)
      show Sat False (v.recv (.exportDescriptor r) >>= _) _
      rw [hrun]
      rw [append_assoc] at himp'
      exact .importing hexp (.importing ⟨hat.params, hat.fSeed, hat.sSeed, hat.inInit⟩
        hre hcl himp') (by rw [← hspl, append_assoc]; rfl)
  · obtain ⟨rfl, hnil⟩ := eq_nil_of_length hspl (not_lt.mp hlt)
    obtain ⟨rfl, rfl⟩ := append_eq_nil_iff.mp hnil
    have hrun : Sys.stepDpu ⟨h, ⟨v, .importing⟩, [], []⟩
        = .done ⟨h, ⟨v, .split⟩, [], []⟩ := if_neg (by omega)
    rw [map_nil, hrun]
    refine .splitting hexp hat ⟨?_, hcl⟩ hre
    rw [himp.dmaClient]
    rfl

lemma stepDpu_phase (hs : Phase p s) : s.stepDpu.Sat False (Phase p) := by
  cases hs with
  | @fresh v w hv hw hsd =>
    rw [stepDpu_construct _ _ _ (.inr hsd)]
    exact .fresh hv hw hsd
  | @seeding v w pend unsent hv hw hsd hspl =>
    rw [stepDpu_construct _ _ _ (.inr hsd)]
    exact .constructing hv ⟨hw.params, hw.clients,
      ⟨hw.imported.dmaClient, hw.imported.mmapToRecv, hw.imported.le⟩, hw.inInit⟩ rfl rfl rfl
      hspl
  | constructing hv hw hsd hf hs' hspl => exact hw.stepDpu hv hsd hf hs' hspl
  | @running k h d toHost hid hd hch =>
    cases hd with
    | run hv => exact .running hid (.run hv) hch
    | stopped hv => exact .running hid (.stopped hv) hch
    | @announce v hv hre hrc =>
      rcases hch with rfl | ⟨hpc, -⟩
      · refine .announced hid (.emplacing hv.at_k hre hrc (le_refl 4) hv.mapped.clients ?_)
        rw [hv.mapped.dmaClient, Nat.sub_self, replicate_zero, append_nil]
      · cases hpc
  | @announced k h d hid hd =>
    rcases hd.stepDpu h [.control .expand] [] with ⟨d', hd', hrun⟩ | ⟨v, rfl, -, -, -, himp⟩
    · rw [hrun]
      exact .announced hid hd'
    · have hrc : v.mmapToRecv = 4 := himp.mmapToRecv
      rw [stepDpu_importing _ _ _ (by omega)]
      exact .announced hid hd
  | @importing k h d recd pend unsent hexp hd hspl =>
    rcases hd.stepDpu h [] (pend.map .exportDescriptor) with
      ⟨d', hd', hrun⟩ | ⟨v, rfl, hat, hre, hcl, himp⟩
    · rw [hrun]
      exact .importing hexp hd' hspl
    · exact himp.stepDpu hexp hat hre hcl hspl
  | @splitting k h w hexp hat hmap hre =>
    exact .finishing hexp (.finishing (hat.finished hmap)) hre
  | @finishing k h d hexp hd hre =>
    rcases hd.stepDpu h [.control .expandFinish] [] hre with
      ⟨d', hd', hre', hrun⟩ | ⟨v, rfl, hv, hrun⟩
    · rw [hrun]
      exact .finishing hexp hd' hre'
    · rw [hrun]
      exact .finishing hexp hd hre
  | @answered k h d hid hd hre =>
    rcases hd.stepDpu h [] [.control .expandFinish] hre with
      ⟨d', hd', hre', hrun⟩ | ⟨v, rfl, hv, hrun⟩
    · rw [hrun]
      exact .answered hid hd' hre'
    · rw [hrun]
      exact .finished hid ⟨⟨hv.at_k.params, hv.at_k.fSeed, hv.at_k.sSeed,
        hv.at_k.inInit⟩, ⟨hv.mapped.dmaClient, hv.mapped.clients⟩⟩ rfl
  | @finished k h w hid hw hre =>
    have hrun : Sys.stepDpu ⟨h, ⟨w, .await⟩, [], []⟩ = .done ⟨h, ⟨w, .run⟩, [], []⟩ :=
      if_neg (by rw [hre]; decide)
    rw [hrun]
    exact .running hid (.run hw) (.inl rfl)

/-! ## Requests -/

/-- The phases in which the DPU takes requests, splits buckets or has stopped. -/
lemma Phase.pc_cases (hs : Phase p s) :
    (∃ k h v toHost pc, s = ⟨h, ⟨v, pc⟩, toHost, []⟩ ∧ HostIdle p k h ∧ DpuReady p k v ∧
        (pc = .run ∧ toHost = [] ∨ pc = .stopped)) ∨
      (∃ k h v, s = ⟨h, ⟨v, .split⟩, [], []⟩ ∧ HostExports p k [] h ∧ DpuAt p k v ∧
        Mapped p k 3 v) ∨
      (s.dpu.pc ≠ .run ∧ s.dpu.pc ≠ .split ∧ s.dpu.pc ≠ .stopped) := by
  cases hs with
  | running hid hd hch =>
    cases hd with
    | run hv =>
      rcases hch with rfl | ⟨hpc, -⟩
      · exact .inl ⟨_, _, _, _, _, rfl, hid, hv, .inl ⟨rfl, rfl⟩⟩
      · cases hpc
    | stopped hv => exact .inl ⟨_, _, _, _, _, rfl, hid, hv, .inr rfl⟩
    | announce hv _ _ => exact .inr (.inr (by simp))
  | splitting hexp hat hmap _ => exact .inr (.inl ⟨_, _, _, rfl, hexp, hat, hmap⟩)
  | announced _ hd | importing _ hd _ | finishing _ hd _ | answered _ hd _ =>
    cases hd <;> exact .inr (.inr (by simp))
  | fresh _ _ _ | seeding _ _ _ _ | constructing _ _ _ _ _ _ | finished _ _ _ =>
    exact .inr (.inr (by simp))

/-- Every DMA that the DPU can issue goes to a region that the host serves. -/
lemma Phase.target {bucket : ℕ} (hs : Phase p s) (hpc : s.dpu.pc = .run ∨ s.dpu.pc = .split)
    (hlo : s.dpu.vars.blStartBucketId ≤ bucket) (hhi : bucket < s.dpu.vars.hi) :
    ∃ r offset, s.dpu.vars.target bucket = some (r, offset) ∧ s.host.Serves r ∧
      offset + 128 ≤ r.len := by
  rcases hs.pc_cases with
    ⟨k, h, v, th, pc, rfl, hid, hv, -⟩ | ⟨k, h, v, rfl, hexp, hat, hmap⟩ | ⟨hrun, hspl, -⟩
  · obtain ⟨i, r, offset, hi, ht, hr, hlen⟩ := hv.at_k.target hv.mapped (.inl rfl) hlo hhi
    exact ⟨r, offset, ht, hid.serves (by omega) hr, hlen⟩
  · obtain ⟨i, r, offset, hi, ht, hr, hlen⟩ := hat.target hmap (.inr rfl) hlo hhi
    exact ⟨r, offset, ht, hexp.serves (by omega) hr, hlen⟩
  · exact absurd hpc (not_or.mpr ⟨hrun, hspl⟩)

lemma dma_phase (hs : Phase p s) (bucket : ℕ) : (s.dma bucket).Sat False (Phase p) := by
  unfold Sys.dma
  split_ifs with hgd
  · obtain ⟨r, offset, ht, hsrv, hlen⟩ := hs.target hgd.1 hgd.2.1 hgd.2.2
    rw [ht]
    dsimp only
    rw [if_pos ⟨hsrv, hlen⟩]
    exact hs
  · exact hs

lemma expand_of_ne (hpc : s.dpu.pc ≠ .run) : s.expand = s := by
  unfold Sys.expand
  split
  · rename_i v heq
    rw [heq] at hpc
    exact absurd rfl hpc
  · rfl

lemma exit_of_ne (hpc : s.dpu.pc ≠ .run) : s.exit = s := by
  unfold Sys.exit
  split
  · rename_i v heq
    rw [heq] at hpc
    exact absurd rfl hpc
  · rfl

lemma request_phase (hs : Phase p s) : Phase p s.expand ∧ Phase p s.exit := by
  by_cases hpc : s.dpu.pc = .run
  · rcases hs.pc_cases with
      ⟨k, h, v, toHost, pc, rfl, hid, hv, hcs⟩ | ⟨k, h, v, rfl, -⟩ | ⟨hrun, -⟩
    · rcases hcs with ⟨rfl, rfl⟩ | rfl
      · have hv' : DpuReady p k { v with inRehash := true, mmapToRecv := 4 } :=
          ⟨⟨hv.at_k.params, hv.at_k.fSeed, hv.at_k.sSeed, hv.at_k.inInit⟩,
            ⟨hv.mapped.dmaClient, hv.mapped.clients⟩⟩
        exact ⟨.running hid (.announce hv' rfl rfl) (.inl rfl),
          .running hid (.stopped hv) (.inr ⟨rfl, rfl⟩)⟩
      · cases hpc
    · cases hpc
    · exact absurd hpc hrun
  · rw [expand_of_ne hpc, exit_of_ne hpc]
    exact ⟨hs, hs⟩

/-! ## Runs -/

lemma step_phase (hs : Phase p s) (act : Act) : (s.step act).Sat False (Phase p) := by
  cases act with
  | host => exact stepHost_phase hs
  | dpu => exact stepDpu_phase hs
  | dma bucket => exact dma_phase hs bucket
  | expand => exact (request_phase hs).1
  | exit => exact (request_phase hs).2

lemma init_phase {level : ℕ} (hlev : 3 ≤ level) (fSeed sSeed : ℕ) (own : ℕ × ℕ) :
    Phase ⟨2 ^ (level - 3), fSeed, sSeed⟩ (Sys.init level fSeed sSeed own) := by
  -- the DPU starts with the parameters of the constructor of the table
  have hgeo := Dpu.init_geometry (K := Unit) (V := Unit) hlev
  have h2 : 2 ^ (level - 1) = 4 * 2 ^ (level - 3) := hgeo.blCapacity
  have h3 : 2 ^ level = 8 * 2 ^ (level - 3) := hgeo.addrCapacity
  have hbot : dmaServers 0 (2 ^ (level - 1) / 4 * 128)
      = Setup.parts ⟨2 ^ (level - 3), fSeed, sSeed⟩ 0 := by
    rw [Setup.parts, Setup.group, h2]
    dsimp only
    exact congrArg (dmaServers 0) (by omega)
  have htop : dmaServers 1 (2 ^ level / 4 * 128)
      = Setup.parts ⟨2 ^ (level - 3), fSeed, sSeed⟩ 1 := by
    rw [Setup.parts, Setup.group, h3]
    dsimp only
    exact congrArg (dmaServers 1) (by omega)
  rw [← mul_one (2 ^ (level - 3))] at hgeo
  unfold Sys.init
  rw [hbot, htop]
  exact .fresh ⟨hgeo.addrCapacity, hgeo.blCapacity, rfl, rfl, rfl, rfl, rfl, rfl, rfl,
    fun a h => Bool.noConfusion h⟩ ⟨hgeo, rfl, ⟨rfl, rfl, Nat.zero_le 8⟩, fun _ => rfl⟩ rfl

lemma run_phase {level : ℕ} (hlev : 3 ≤ level) (fSeed sSeed : ℕ) (own : ℕ × ℕ) (acts : List Act) :
    ∃ s, acts.foldlM Sys.step (Sys.init level fSeed sSeed own) = .done s ∧
      Phase ⟨2 ^ (level - 3), fSeed, sSeed⟩ s := by
  have hrun : (acts.foldlM Sys.step (Sys.init level fSeed sSeed own)).Sat False
      (Phase ⟨2 ^ (level - 3), fSeed, sSeed⟩) :=
    Sat.foldlM (I := fun _ => Phase ⟨2 ^ (level - 3), fSeed, sSeed⟩)
      (fun act _ s hs => step_phase hs act) (init_phase hlev fSeed sSeed own)
  exact hrun.exists_done fun h => absurd h id

/-- The two sides have the same table: the same capacities and seeds, and the DMA
clients are those of the bottom array and those of the top array, in order. -/
structure Agreed (s : Sys) : Prop where
  addrCapacity : s.dpu.vars.addrCapacity = s.host.vars.addrCapacity
  blCapacity : s.dpu.vars.blCapacity = s.host.vars.blCapacity
  bottom : s.dpu.vars.dmaClient.take 4
    = (dmaServers s.host.vars.buckets1 (s.host.vars.blCapacity / 4 * 128)).map some
  top : s.dpu.vars.dmaClient.drop 4
    = (dmaServers s.host.vars.buckets0 (s.host.vars.addrCapacity / 4 * 128)).map some
  fSeed : s.dpu.vars.fSeed = s.host.vars.fSeed
  sSeed : s.dpu.vars.sSeed = s.host.vars.sSeed

lemma HostAt.agreed {v : HostVars} {n : ℕ} {pc : DpuPc} {toHost toDpu : List ComchMsg}
    (hv : HostAt p k n v) (hw : DpuReady p k w) :
    Agreed ⟨⟨v, [], []⟩, ⟨w, pc⟩, toHost, toDpu⟩ := by
  have hg := p.group_succ k
  have hbot : dmaServers v.buckets1 (v.blCapacity / 4 * 128) = p.parts k := by
    rw [hv.bottom, hv.blCapacity, Setup.parts, Nat.mul_div_cancel_left _ (by decide)]
  have htop : dmaServers v.buckets0 (v.addrCapacity / 4 * 128) = p.parts (k + 1) := by
    rw [hv.top, hv.addrCapacity, Setup.parts, hg]
    exact congrArg (dmaServers (k + 1)) (by omega)
  refine ⟨hw.at_k.params.addrCapacity.trans hv.addrCapacity.symm,
    hw.at_k.params.blCapacity.trans hv.blCapacity.symm, ?_, ?_,
    hw.at_k.fSeed.trans hv.fSeed.symm, hw.at_k.sSeed.trans hv.sSeed.symm⟩
  · rw [hbot, hw.mapped.dmaClient]
    rfl
  · rw [htop, hw.mapped.dmaClient]
    rfl

/-- When neither side is in its constructor or in `Expand`, they agree. -/
lemma Phase.agreed (hs : Phase p s) (hpc : s.dpu.pc = .run ∨ s.dpu.pc = .stopped)
    (hexp : s.host.expands = []) : Agreed s := by
  rcases hs.pc_cases with
    ⟨k, h, v, th, pc, rfl, hid, hv, -⟩ | ⟨k, h, v, rfl, -⟩ | ⟨hrun, -, hst⟩
  · cases hid with
    | run hv' => exact hv'.agreed hv
    | leaving _ _ | settling _ => cases hexp
  · simp at hpc
  · exact absurd hpc (not_or.mpr ⟨hrun, hst⟩)

/-- **Every interleaving of host and DPU**, with any number of expansions, runs
without an undefined step. Whenever the DPU is in `Run` and the host not in
`Expand`, the two sides agree; and every DMA that the DPU can issue goes to a
region that the host still serves, so the host releases an array only after the
last DMA to it. -/
theorem handshake_agrees (level fSeed sSeed : ℕ) (own : ℕ × ℕ) (hlevel : 3 ≤ level)
    (acts : List Act) :
    ∃ s, acts.foldlM Sys.step (Sys.init level fSeed sSeed own) = .done s ∧
      ((s.dpu.pc = .run ∨ s.dpu.pc = .stopped) → s.host.expands = [] → Agreed s) ∧
      ∀ bucket, (s.dpu.pc = .run ∨ s.dpu.pc = .split) →
        s.dpu.vars.blStartBucketId ≤ bucket → bucket < s.dpu.vars.hi →
        ∃ r offset, s.dpu.vars.target bucket = some (r, offset) ∧ s.host.Serves r := by
  obtain ⟨s, hdn, hs⟩ := run_phase hlevel fSeed sSeed own acts
  refine ⟨s, hdn, hs.agreed, fun bucket hpc hlo hhi => ?_⟩
  obtain ⟨r, offset, ht, hsrv, -⟩ := hs.target hpc hlo hhi
  exact ⟨r, offset, ht, hsrv⟩

/-- A run through one expansion: each action with the number of its repetitions.
The host settles it when the DPU has issued a DMA to the new bottom level already. -/
def oneExpansion : List Act :=
  [(9, Act.host), (10, .dpu), (1, .dma 0), (1, .expand), (6, .dpu), (6, .host), (5, .dpu),
    (1, .dma 0), (1, .dma 12), (1, .dpu), (1, .host), (8, .dpu), (1, .dma 4),
    (7, .host)].flatMap fun (n, act) => replicate n act

theorem oneExpansion_agrees : ∃ s, oneExpansion.foldlM Sys.step (Sys.init 3 5 7 (0, 0)) = .done s ∧
      s.dpu.vars.addrCapacity = 16 ∧ Agreed s := by
  obtain ⟨s, hrun, hpc, hnil, hcap⟩ :
      ∃ s, oneExpansion.foldlM Sys.step (Sys.init 3 5 7 (0, 0)) = .done s ∧ s.dpu.pc = .run ∧
        s.host.expands = [] ∧ s.dpu.vars.addrCapacity = 16 := by
    decide +kernel
  obtain ⟨s', hrun', hagr, -⟩ := handshake_agrees 3 5 7 (0, 0) (by decide) oneExpansion
  cases hrun.symm.trans hrun'
  exact ⟨s, hrun, hcap, hagr (.inl hpc) hnil⟩

end Librdpma.LevelKv.Handshake
