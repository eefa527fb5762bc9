import Librdpma.Drtmh.CoordinatorSim

/-!
# Runs of a lawful protocol are serializable

Each step of a coroutine that meets the conditions is some steps of the
optimistic machine, so that the relation between the two holds along a run.
-/

namespace Librdpma.Drtmh

open Lib Function List

variable {C L A V : Type} {P : Protocol L A V} {Tracks : L → List (RecordId × ℕ) → Prop}
  {content : C → BitVec 64} {s0 : Store V} [DecidableEq C] {σ σ' : System C L V} {a : OccState C V}

/-! ## Steps -/

omit [DecidableEq C] in
lemma SameFor.refl (t : C × ℕ) (a : OccState C V) : SameFor t a a :=
  ⟨rfl, rfl, rfl, rfl, fun _ => Iff.rfl, fun _ _ => rfl⟩

lemma ver_of_speaks {t : C × ℕ} {o : Occ.Obs RecordId V} {it : RtxLockItem}
    (hrch : Occ.Reachable (initValue s0) a) (ho : o ∈ a.reads t) (hs : Speaks s0 it o)
    (hseq : it.seq.toNat = seqAt s0 it.rid (a.hist it.rid).length) :
    o.ver = (a.hist o.key).length := by
  have hle := (hrch.inv.seen t o ho).1
  obtain ⟨hkey, hspk⟩ := hs
  rw [hkey] at hseq
  unfold seqAt at hseq hspk
  omega

variable {okExec : Store V → L → A → Prop} {c : C}

section

variable (h : Rel P Tracks content s0 σ a)

include h

lemma Rel.stage {stage : Stage V} (hstg : (σ.cor c).stage = stage) :
    StageRel P s0 (c, (σ.cor c).num) (σ.cor c).loc a stage :=
  hstg ▸ (h.cor c).stage

lemma Rel.setStage (c : C) {stage : Stage V}
    (hstg : StageRel P s0 (c, (σ.cor c).num) (σ.cor c).loc a stage) :
    Rel P Tracks content s0 (σ.setStage c stage) a :=
  h.update c h.reach h.lock h.hist rfl (fun t _ => .refl t a)
    ⟨(h.cor c).seen, (h.cor c).tracks, hstg⟩ h.recorded

/-- A transaction that is given up has to release what it has locked. -/
lemma Rel.giveUp (c : C)
    (hph : a.phase (c, (σ.cor c).num) = .executing ∨ a.phase (c, (σ.cor c).num) = .prepared)
    (hsm : (P.lockBatch (σ.cor c).loc).length ≤ 127)
    (how : ∀ x, a.owner x = some (c, (σ.cor c).num) → x ∈ P.lockRids (σ.cor c).loc) :
    Rel P Tracks content s0 (σ.setStage c (.releasing (macSet (P.lockBatch (σ.cor c).loc))))
      (a.setPhase (c, (σ.cor c).num) .aborted) := by
  set t := (c, (σ.cor c).num)
  have hphase_of : ∀ u, u ≠ t → (a.setPhase t .aborted).phase u = a.phase u :=
    fun u hu => update_of_ne hu ..
  have hsf : (a.setPhase t .aborted).phase t = .aborted := update_self ..
  refine h.update c (h.reach.step (.abort a t hph)) h.lock ⟨h.hist.seq, h.hist.value⟩ rfl
    (fun u hu => ⟨hphase_of u hu, rfl, rfl, rfl, fun _ => Iff.rfl, fun _ _ => rfl⟩)
    ⟨(h.cor c).seen, (h.cor c).tracks, hsf, hsm, fun x hx => ?_⟩ ?_
  · exact ⟨how x hx, pid_mem_macSet (how x hx)⟩
  · refine h.recorded.of_same (fun u => ?_) fun u _ => rfl
    by_cases hu : u = t
    · rw [hu, hsf]
      refine ⟨nofun, fun hc => ?_⟩
      rcases hph with hp | hp <;> rw [hp] at hc <;> cases hc
    · rw [hphase_of u hu]

lemma Rel.exec (hlaw : P.Lawful okExec Tracks) {act : A}
    {loc : L} (hstg : (σ.cor c).stage = .running) (hok : okExec σ.store (σ.cor c).loc act)
    (hex : P.exec act σ.store (σ.cor c).loc = some loc) :
    ∃ a', Rel P Tracks content s0 (σ.setCor c { σ.cor c with loc := loc }) a' := by
  set t := (c, (σ.cor c).num)
  have hcor := h.cor c
  have hrun := h.stage hstg
  obtain ⟨new, hsn, htr⟩ := hlaw.tracks_exec act σ.store _ loc _ hok hex hcor.tracks
  set r := Function.update a.reads t (a.reads t ++ new.map (obsNow s0 a)) with hr
  have hsf : r t = a.reads t ++ new.map (obsNow s0 a) := update_self ..
  refine ⟨{ a with reads := r }, h.update c (reads_sim new h.reach hrun.1 hr) h.lock
    ⟨h.hist.seq, h.hist.value⟩ rfl (fun u hu => ⟨rfl, update_of_ne hu .., rfl, rfl,
      fun _ => Iff.rfl, fun _ _ => rfl⟩) ⟨?_, ?_, ?_⟩ ?_⟩
  · change P.seen loc = (r t).map _
    rw [hsf, hsn, List.map_append, hcor.seen, List.map_map]
    congr 1
    refine List.map_congr_left fun x _ => ?_
    change (x, (σ.store x).value) = (x, Occ.lastValue (s0 x).value (a.hist x))
    rw [h.hist.value]
  · change Tracks loc ((r t).map _)
    rw [hsf, List.map_append, List.map_map]
    have hsm : new.map (fun x => (x, (σ.store x).seq.toNat))
        = new.map ((fun o : Occ.Obs RecordId V => (o.key, seqAt s0 o.key o.ver)) ∘
          obsNow s0 a) := by
      refine List.map_congr_left fun x _ => ?_
      rw [h.hist.seq]
      rfl
    rw [← hsm]
    exact htr
  · change StageRel P s0 t loc _ (σ.cor c).stage
    rw [hstg]
    exact hrun
  · refine h.recorded.of_same (fun _ => Iff.rfl) fun u hu => ?_
    have hut : u ≠ t := by
      rintro rfl
      exact absurd (hrun.1.symm.trans hu) nofun
    have hrd : r u = a.reads u := update_of_ne hut ..
    change Occ.Txn.mk ((r u).map _) _ = _
    rw [hrd]
    rfl

lemma Rel.commit (hstg : (σ.cor c).stage = .running)
    (hlk : (P.lockBatch (σ.cor c).loc).length ≤ 127)
    (hvld : (P.validateBatch (σ.cor c).loc).length ≤ 127) :
    Rel P Tracks content s0
      (σ.setStage c (.locking (macSet (P.lockBatch (σ.cor c).loc)) true)) a := by
  have hrun := h.stage hstg
  refine h.setStage c ⟨hrun.1, hlk, hvld, fun x hx => absurd hx (hrun.2 x), fun _ =>
    ⟨fun it hit hp => absurd (mem_macSet hit) hp, fun p hp => ?_⟩⟩
  have hno : ownRids p (P.lockBatch (σ.cor c).loc) = [] := by
    rw [eq_nil_iff_forall_not_mem]
    intro x hx
    obtain ⟨rfl, hin⟩ := mem_ownRids.mp hx
    exact hp (pid_mem_macSet hin)
  rw [hno]
  exact nodup_nil

variable {todo : List ℕ} {p : ℕ}

lemma Rel.lockMsg (hne : ∀ c, content c ≠ 0#64) {ok : Bool}
    (hstg : (σ.cor c).stage = .locking todo ok) {r : Bool × Store V}
    (hr : r = lockRpcHandler (content c) p (P.lockBatch (σ.cor c).loc) σ.store) :
    ∃ a', Rel P Tracks content s0 ({ σ with store := r.2 }.setStage c
      (.locking (todo.filter fun q => q ≠ p) (ok && r.1))) a' := by
  set t := (c, (σ.cor c).num)
  have hcor := h.cor c
  obtain ⟨hph, hl, hv, hown, hok⟩ := h.stage hstg
  rw [lockRpcHandler, sentItems_of_le hl] at hr
  obtain ⟨f, hrch, hlk, hdt, how, htr⟩ :=
    lockItems_sim (t := t) hne p (P.lockBatch (σ.cor c).loc) h.reach hph h.lock
  rw [← hr] at hlk hdt htr
  have hntn : ∀ q, q ∉ todo.filter (fun q => q ≠ p) → q ∉ todo ∨ q = p := by
    intro q hq
    by_cases hqp : q = p
    · exact .inr hqp
    · exact .inl fun hin => hq (mem_filter.mpr ⟨hin, by simpa using hqp⟩)
  have hflt : ∀ q, q ∈ todo.filter (fun q => q ≠ p) → q ∈ todo ∧ q ≠ p := by
    intro q hq
    obtain ⟨hin, hqp⟩ := mem_filter.mp hq
    exact ⟨hin, by simpa using hqp⟩
  refine ⟨{ a with owner := f }, h.update c hrch hlk (h.hist.of_sameData hdt f) rfl (fun u hu => ?_)
    ⟨hcor.seen, hcor.tracks, hph, hl, hv, fun x hx => ?_, fun hbt => ?_⟩ ?_⟩
  · refine ⟨rfl, rfl, rfl, rfl, fun x => ?_, fun _ _ => rfl⟩
    rcases how x with hsm | ⟨hno, hsome, -⟩
    · exact ⟨hsm.symm.trans, hsm.trans⟩
    · constructor
      · intro hx
        exact absurd (Option.some.inj (hsome.symm.trans hx)).symm hu
      · intro hx
        rw [hno] at hx
        cases hx
  · rcases how x with hsm | ⟨-, -, hmem⟩
    · obtain ⟨hin, hpid⟩ := hown x (hsm.symm.trans hx)
      exact ⟨hin, fun hq => hpid (hflt _ hq).1⟩
    · obtain ⟨hpid, hin⟩ := mem_ownRids.mp hmem
      exact ⟨hin, fun hq => (hflt _ hq).2 hpid⟩
  · obtain ⟨hok', hr'⟩ := Bool.and_eq_true_iff.mp hbt
    obtain ⟨hits, hnd⟩ := hok hok'
    obtain ⟨hnd', hits'⟩ := htr hr'
    refine ⟨fun it hit hpid => ?_, fun q hq => ?_⟩
    · rcases hntn _ hpid with hq | hq
      · obtain ⟨ho, hseq⟩ := hits it hit hq
        exact ⟨how.keeps ho, hseq⟩
      · obtain ⟨-, hsome, hseq⟩ := hits' it hit hq
        refine ⟨hsome, ?_⟩
        rw [← hseq, h.hist.seq]
        rfl
    · rcases hntn q hq with hq | rfl
      · exact hnd q hq
      · exact hnd'
  · exact h.recorded.of_same (fun _ => Iff.rfl) fun _ _ => rfl

lemma Rel.locked (hlaw : P.Lawful okExec Tracks)
    (hstg : (σ.cor c).stage = .locking [] true) :
    ∃ a', Rel P Tracks content s0
      (σ.setStage c (.validating (macSet (P.validateBatch (σ.cor c).loc)) true)) a' := by
  set t := (c, (σ.cor c).num)
  set l := (σ.cor c).loc
  have hcor := h.cor c
  obtain ⟨hph, hl, hv, hown, hok⟩ := h.stage hstg
  obtain ⟨hits, hnd⟩ := hok rfl
  have howner : ∀ x, a.owner x = some t ↔ x ∈ P.lockRids l := by
    refine fun x => ⟨fun hx => (hown x hx).1, fun hx => ?_⟩
    obtain ⟨it, hit, rfl⟩ := mem_map.mp hx
    exact (hits it hit not_mem_nil).1
  have hrd : (P.lockRids l).Nodup :=
    (nodup_rids_iff fun it hit => mem_macSet hit).mpr fun p _ => hnd p not_mem_nil
  have hprp : Occ.Step (initValue s0) a (a.prepare t (writeMap (P.writes l))) := by
    refine .prepare a t _ hph fun x => ?_
    rw [howner x, writeMap_isSome, hlaw.writes_rids]
  set a1 := a.prepare t (writeMap (P.writes l))
  have hphase_of : ∀ u, u ≠ t → a1.phase u = a.phase u := fun u hu => update_of_ne hu ..
  have hwrites_of : ∀ u, u ≠ t → a1.writes u = a.writes u := fun u hu => update_of_ne hu ..
  have hph1 : a1.phase t = .prepared := update_self ..
  have hcur : ∀ o ∈ a.reads t, (∃ it ∈ P.lockBatch l, Speaks s0 it o) →
      (a.owner o.key = none ∨ a.owner o.key = some t) ∧ o.ver = (a.hist o.key).length := by
    rintro o hin ⟨it, hit, hspk⟩
    obtain ⟨hkey, hseq⟩ := hits it hit not_mem_nil
    have hver : o.ver = (a.hist o.key).length := ver_of_speaks h.reach hin hspk hseq
    rw [hspk.1] at hkey
    exact ⟨.inr hkey, hver⟩
  obtain ⟨r, hrch, hr_of, -, hr⟩ := checks_where (h.reach.step hprp) hph1 hcur
  refine ⟨{ a1 with checked := r }, h.update c hrch h.lock ⟨h.hist.seq, h.hist.value⟩ rfl
    (fun u hu => ⟨hphase_of u hu, rfl, hwrites_of u hu, ?_, fun _ => Iff.rfl, fun _ _ => rfl⟩)
    ⟨hcor.seen, hcor.tracks, hph1, hl, hv, update_self .., howner, hrd,
      fun o ho it hit hspk => ?_, fun _ o _ it hit hp _ => ?_⟩ ?_⟩
  · have hchk : a1.checked u = a.checked u := update_of_ne hu ..
    exact (hr_of u hu).trans hchk
  · exact hr o ho ⟨it, hit, hspk⟩
  · exact absurd (mem_macSet hit) hp
  · refine h.recorded.of_same (fun u => ?_) fun u hu => ?_
    · by_cases hu : u = t
      · rw [hu]
        rw [hph1, hph]
        exact ⟨nofun, nofun⟩
      · rw [hphase_of u hu]
    · have hut : u ≠ t := by
        rintro rfl
        exact absurd (hph.symm.trans hu) nofun
      change Occ.Txn.mk _ (a1.writes u) = _
      rw [hwrites_of u hut]
      rfl

lemma Rel.validateMsg (hinj : Injective content) (hne : ∀ c, content c ≠ 0#64)
    (hlaw : P.Lawful okExec Tracks) {ok : Bool}
    (hstg : (σ.cor c).stage = .validating todo ok)
    (hfr : ∀ it ∈ P.validateBatch (σ.cor c).loc, it.rid.pid = p → P.valid it.seq (σ.store it.rid)
      = true → (σ.store it.rid).lock = 0#64 ∨ (σ.store it.rid).lock = content c)
    {r : Bool}
    (hr : r = validateItems P.valid p (sentItems (P.validateBatch (σ.cor c).loc)) σ.store) :
    ∃ a', Rel P Tracks content s0
      (σ.setStage c (.validating (todo.filter fun q => q ≠ p) (ok && r))) a' := by
  set t := (c, (σ.cor c).num)
  set l := (σ.cor c).loc
  have hcor := h.cor c
  obtain ⟨hph, hl, hv, hws, hown, hnd, hlkd, hok⟩ := h.stage hstg
  by_cases hbt : (ok && r) = true
  swap
  · exact ⟨a, h.setStage c ⟨hph, hl, hv, hws, hown, hnd, hlkd, fun htr => absurd htr hbt⟩⟩
  obtain ⟨hok', hr'⟩ := Bool.and_eq_true_iff.mp hbt
  rw [hr', sentItems_of_le hv] at hr
  have hval := validateItems_eq_true.mp hr.symm
  have hcur : ∀ it ∈ P.validateBatch l, it.rid.pid = p →
      (a.owner it.rid = none ∨ a.owner it.rid = some t) ∧
        it.seq.toNat = seqAt s0 it.rid (a.hist it.rid).length := by
    intro it hit hp
    have hps := hval it hit hp
    constructor
    · rcases hfr it hit hp hps with hz | hmn
      · exact .inl ((ownerContent_eq_zero hne).mp ((h.lock it.rid).symm.trans hz))
      · refine .inr (owner_of_content hinj hne (fun u hu huc => ?_)
          ((h.lock it.rid).symm.trans hmn))
        have hnum := h.num it.rid u hu
        rw [huc] at hnum
        exact Prod.ext huc hnum
    · rw [← hlaw.valid_seq _ _ hps, h.hist.seq]
      rfl
  have hrds : ∀ o ∈ a.reads t, (∃ it ∈ P.validateBatch l, it.rid.pid = p ∧ Speaks s0 it o) →
      (a.owner o.key = none ∨ a.owner o.key = some t) ∧ o.ver = (a.hist o.key).length := by
    rintro o hin ⟨it, hit, hp, hspk⟩
    obtain ⟨howner, hseq⟩ := hcur it hit hp
    refine ⟨?_, ver_of_speaks h.reach hin hspk hseq⟩
    rw [hspk.1] at howner
    exact howner
  obtain ⟨f, hrch, hf_of, hkp, hf⟩ := checks_where h.reach hph hrds
  refine ⟨{ a with checked := f }, h.update c hrch h.lock ⟨h.hist.seq, h.hist.value⟩ rfl
    (fun u hu => ⟨rfl, rfl, rfl, hf_of u hu, fun _ => Iff.rfl, fun _ _ => rfl⟩)
    ⟨hcor.seen, hcor.tracks, hph, hl, hv, hws, hown, hnd,
      fun o ho it hit hspk => hkp o (hlkd o ho it hit hspk),
      fun _ o ho it hit hpid hspk => ?_⟩
    (h.recorded.of_same (fun _ => Iff.rfl) fun _ _ => rfl)⟩
  by_cases hp : it.rid.pid = p
  · exact hf o ho ⟨it, hit, hp, hspk⟩
  · refine hkp o (hok hok' o ho it hit (fun hin => hpid ?_) hspk)
    exact mem_filter.mpr ⟨hin, by simpa using hp⟩

lemma Rel.validated (hlaw : P.Lawful okExec Tracks)
    (hstg : (σ.cor c).stage = .validating [] true) :
    ∃ a', Rel P Tracks content s0
      ({ σ with committed := σ.committed ++ [P.txn (σ.cor c).loc] }.setStage c
        (.committing (P.commitMsgs (σ.cor c).loc))) a' := by
  set t := (c, (σ.cor c).num)
  set l := (σ.cor c).loc
  have hcor := h.cor c
  obtain ⟨hph, -, -, hws, hown, hnd, hlkd, hok⟩ := h.stage hstg
  have hall : ∀ o ∈ a.reads t, o ∈ a.checked t := by
    intro o ho
    obtain ⟨it, hit, hkey, hle⟩ := hlaw.covered l _ hcor.tracks hnd
      (o.key, seqAt s0 o.key o.ver) (mem_map_of_mem ho)
    rcases mem_append.mp hit with hit | hit
    · exact hlkd o ho it hit ⟨hkey, hle⟩
    · exact hok rfl o ho it hit not_mem_nil ⟨hkey, hle⟩
  have hphase_of : ∀ u, u ≠ t → (a.setPhase t .committed).phase u = a.phase u :=
    fun u hu => update_of_ne hu ..
  have hsf : (a.setPhase t .committed).phase t = .committed := update_self ..
  have hperm := hlaw.commit_perm l
  have hrd := hperm.map Prod.fst
  rw [hlaw.writes_rids] at hrd
  have hwrites_nodup : ((P.writes l).map Prod.fst).Nodup := by
    rw [hlaw.writes_rids]
    exact hnd
  refine ⟨a.setPhase t .committed, h.update c (h.reach.step (.commit a t hph hall)) h.lock
    ⟨h.hist.seq, h.hist.value⟩ rfl
    (fun u hu => ⟨hphase_of u hu, rfl, rfl, rfl, fun _ => Iff.rfl, fun _ _ => rfl⟩)
    ⟨hcor.seen, hcor.tracks, hsf, hws, fun x => (hown x).trans hrd.mem_iff.symm,
      hrd.nodup_iff.mpr hnd, fun e he =>
        writeMap_of_mem hwrites_nodup (hperm.mem_iff.mp he)⟩ ?_⟩
  obtain ⟨ids, hids, hmem, hmap⟩ := h.recorded
  have hnew : t ∉ ids := by
    intro hin
    have hc := (hmem t).mp hin
    rw [hph] at hc
    cases hc
  refine ⟨ids ++ [t], ?_, fun u => ?_, ?_⟩
  · exact nodup_append.mpr ⟨hids, nodup_singleton t, fun x hx y hy heq =>
      hnew (by rw [← mem_singleton.mp hy, ← heq]; exact hx)⟩
  · by_cases hu : u = t
    · rw [hu, hsf]
      exact ⟨fun _ => rfl, fun _ => mem_append_right _ (mem_singleton_self t)⟩
    · rw [hphase_of u hu, ← hmem u, mem_append]
      exact ⟨fun hin => hin.resolve_right fun heq => hu (mem_singleton.mp heq), .inl⟩
  · have htxn : (a.setPhase t .committed).txn t = P.txn l := by
      change Occ.Txn.mk _ (a.writes t) = Occ.Txn.mk _ _
      rw [hws, hcor.seen]
      rfl
    rw [map_append, map_singleton, htxn, hmap]
    rfl

lemma Rel.commitMsg {todo : List (List (RecordId × V))}
    {i : ℕ} {msg : List (RecordId × V)} (hstg : (σ.cor c).stage = .committing todo)
    (hmsg : todo[i]? = some msg) (hrm : ∀ e ∈ msg, (σ.store e.1).seq.toNat + 2 < 2 ^ 64) :
    ∃ a', Rel P Tracks content s0 ({ σ with store := writeItems msg σ.store }.setStage c
      (.committing (todo.eraseIdx i))) a' := by
  set t := (c, (σ.cor c).num)
  have hcor := h.cor c
  obtain ⟨hph, hws, hown, hnd, hvl⟩ := h.stage hstg
  obtain ⟨hi, hget⟩ := List.getElem?_eq_some_iff.mp hmsg
  have hperm : todo.flatten.Perm (msg ++ (todo.eraseIdx i).flatten) := by
    have hp := (getElem_cons_eraseIdx_perm hi).flatten
    rw [hget, flatten_cons] at hp
    exact hp.symm
  have hrd := hperm.map Prod.fst
  rw [map_append] at hrd
  have hnd' := hrd.nodup_iff.mp hnd
  have hds := disjoint_of_nodup_append hnd'
  have hmem : ∀ x, x ∈ msg.map Prod.fst ∨ x ∈ (todo.eraseIdx i).flatten.map Prod.fst ↔
      a.owner x = some t := by
    intro x
    rw [hown x, hrd.mem_iff, mem_append]
  obtain ⟨f, g, hrch, hlk, hhs, hfrd, hsm⟩ :=
    writeItems_sim (t := t) msg h.reach hph h.lock h.hist hnd'.of_append_left
      (fun e he => ⟨(hmem e.1).mp (.inl (mem_map_of_mem he)), by
        rw [hws]
        exact hvl e (hperm.mem_iff.mpr (mem_append_left _ he)), hrm e he⟩)
  refine ⟨{ a with owner := f, hist := g }, h.update c hrch hlk hhs rfl (fun u hu => ?_)
    ⟨hcor.seen, hcor.tracks, hph, hws, fun x => ?_, hnd'.of_append_right,
      fun e he => hvl e (hperm.mem_iff.mpr (mem_append_right _ he))⟩
    (h.recorded.of_same (fun _ => Iff.rfl) fun _ _ => rfl)⟩
  · have hout : ∀ x, a.owner x = some u → x ∉ msg.map Prod.fst := by
      intro x hx hin
      exact hu (Option.some.inj (hx.symm.trans ((hmem x).mp (.inl hin))))
    refine ⟨rfl, rfl, rfl, rfl, fun x => ⟨fun hx => ?_, fun hx => ?_⟩, fun x hx =>
      (hsm x (hout x hx)).2⟩
    · by_cases hin : x ∈ msg.map Prod.fst
      · exact absurd ((hfrd x hin).symm.trans hx) nofun
      · exact (hsm x hin).1.symm.trans hx
    · exact (hsm x (hout x hx)).1.trans hx
  · constructor
    · intro hx
      by_cases hin : x ∈ msg.map Prod.fst
      · exact absurd ((hfrd x hin).symm.trans hx) nofun
      · exact ((hmem x).mpr ((hsm x hin).1.symm.trans hx)).resolve_left hin
    · intro hx
      have hin : x ∉ msg.map Prod.fst := fun hin => hds hin hx
      exact (hsm x hin).1.trans ((hmem x).mp (.inr hx))

lemma Rel.releaseMsg (hinj : Injective content) (hne : ∀ c, content c ≠ 0#64)
    (hstg : (σ.cor c).stage = .releasing todo) {s : Store V}
    (hs : s = releaseItems (content c) p (sentItems (P.lockBatch (σ.cor c).loc)) σ.store) :
    ∃ a', Rel P Tracks content s0 ({ σ with store := s }.setStage c
      (.releasing (todo.filter fun q => q ≠ p))) a' := by
  set t := (c, (σ.cor c).num)
  have hcor := h.cor c
  obtain ⟨hph, hl, hown⟩ := h.stage hstg
  rw [sentItems_of_le hl] at hs
  have hmn : ∀ x u, a.owner x = some u → u.1 = t.1 → u = t := by
    intro x u hu huc
    have hnum := h.num x u hu
    rw [huc] at hnum
    exact Prod.ext huc hnum
  obtain ⟨f, hrch, hlk, hdt, how, hfrd⟩ :=
    releaseItems_sim (t := t) hinj hne p (P.lockBatch (σ.cor c).loc) h.reach hph h.lock hmn
  rw [← hs] at hlk hdt
  refine ⟨{ a with owner := f }, h.update c hrch hlk (h.hist.of_sameData hdt f) rfl (fun u hu => ?_)
    ⟨hcor.seen, hcor.tracks, hph, hl, fun x hx => ?_⟩
    (h.recorded.of_same (fun _ => Iff.rfl) fun _ _ => rfl)⟩
  · refine ⟨rfl, rfl, rfl, rfl, fun x => ?_, fun _ _ => rfl⟩
    rcases how x with hsm | ⟨hsome, hno⟩
    · exact ⟨hsm.symm.trans, hsm.trans⟩
    · constructor
      · intro hx
        exact absurd (hno.symm.trans hx) nofun
      · intro hx
        exact absurd (Option.some.inj (hsome.symm.trans hx)).symm hu
  · rcases how x with hsm | ⟨-, hno⟩
    · obtain ⟨hin, hpid⟩ := hown x (hsm.symm.trans hx)
      refine ⟨hin, mem_filter.mpr ⟨hpid, ?_⟩⟩
      obtain ⟨it, hit, rfl⟩ := mem_map.mp hin
      have hne' : it.rid.pid ≠ p := fun hp => hfrd it hit hp hx
      simpa using hne'
    · exact absurd (hno.symm.trans hx) nofun

lemma Rel.next (hlaw : P.Lawful okExec Tracks)
    (hown : ∀ x, a.owner x ≠ some (c, (σ.cor c).num)) :
    Rel P Tracks content s0 (σ.setCor c ⟨(σ.cor c).num + 1, P.start, .running⟩) a := by
  have hnum_of : ∀ c', c' ≠ c → Function.update σ.cor c ⟨(σ.cor c).num + 1, P.start, .running⟩ c'
      = σ.cor c' := fun c' hc => update_of_ne hc ..
  have hsf : Function.update σ.cor c ⟨(σ.cor c).num + 1, P.start, .running⟩ c
      = ⟨(σ.cor c).num + 1, P.start, .running⟩ := update_self ..
  have hno : ∀ x t, a.owner x = some t → t.1 ≠ c := by
    rintro x t ht rfl
    have hnum := h.num x t ht
    exact hown x (ht.trans (congrArg some (Prod.ext rfl hnum)))
  obtain ⟨hex, hrds⟩ := h.fresh c ((σ.cor c).num + 1) (Nat.lt_succ_self _)
  refine ⟨h.reach, h.lock, h.hist, fun x t ht => ?_, fun c' n hn => ?_, fun c' => ?_, h.recorded⟩
  · change t.2 = (Function.update σ.cor c _ t.1).num
    rw [hnum_of _ (hno x t ht)]
    exact h.num x t ht
  · change (Function.update σ.cor c _ c').num < n at hn
    by_cases hc : c' = c
    · rw [hc, hsf] at hn
      rw [hc]
      exact h.fresh c n (Nat.lt_of_succ_lt hn)
    · rw [hnum_of c' hc] at hn
      exact h.fresh c' n hn
  · change CorRel P Tracks s0 c' (Function.update σ.cor c _ c') a
    by_cases hc : c' = c
    · rw [hc, hsf]
      refine ⟨?_, ?_, hex, fun x hx => hno x _ hx rfl⟩
      · rw [hrds]
        exact hlaw.seen_start
      · rw [hrds]
        exact hlaw.tracks_start
    · rw [hnum_of c' hc]
      exact h.cor c'

/-! ## Runs -/

lemma Rel.step (hinj : Injective content) (hne : ∀ c, content c ≠ 0#64)
    (hlaw : P.Lawful okExec Tracks) {act : Act C A}
    (hmt : P.Meets content okExec σ act) (hs : P.step content σ act = some σ') :
    ∃ a', Rel P Tracks content s0 σ' a' := by
  cases act with
  | exec c x =>
    rw [Protocol.step] at hs
    split at hs
    · rename_i loc hstg hex
      cases hs
      exact h.exec hlaw hstg hmt hex
    · cases hs
  | commit c =>
    rw [Protocol.step] at hs
    split at hs
    · rename_i hstg
      split at hs
      · cases hs
        exact ⟨a, h.commit hstg hmt.1 hmt.2⟩
      · cases hs
    · cases hs
  | lockMsg c p =>
    rw [Protocol.step] at hs
    split at hs
    · rename_i todo ok hstg
      split at hs
      · cases hs
        exact h.lockMsg hne hstg rfl
      · cases hs
    · cases hs
  | lockDone c =>
    rw [Protocol.step] at hs
    split at hs
    · rename_i hstg
      cases hs
      exact h.locked hlaw hstg
    · rename_i hstg
      cases hs
      have hcor := h.stage hstg
      exact ⟨_, h.giveUp c (.inl hcor.1) hcor.2.1 fun x hx => (hcor.2.2.2.1 x hx).1⟩
    · cases hs
  | validateMsg c p =>
    rw [Protocol.step] at hs
    split at hs
    · rename_i todo ok hstg
      split at hs
      · cases hs
        exact h.validateMsg hinj hne hlaw hstg hmt rfl
      · cases hs
    · cases hs
  | validateDone c =>
    rw [Protocol.step] at hs
    split at hs
    · rename_i hstg
      cases hs
      exact h.validated hlaw hstg
    · rename_i hstg
      cases hs
      have hcor := h.stage hstg
      exact ⟨_, h.giveUp c (.inr hcor.1) hcor.2.1 fun x hx => (hcor.2.2.2.2.1 x).mp hx⟩
    · cases hs
  | commitMsg c i =>
    rw [Protocol.step] at hs
    split at hs
    · rename_i todo hstg
      split at hs
      · rename_i msg hmsg
        cases hs
        have hmessage : (σ.cor c).stage.message i = msg := by
          rw [hstg, Stage.message, hmsg, Option.getD_some]
        exact h.commitMsg hstg hmsg (by rw [← hmessage]; exact hmt)
      · cases hs
    · cases hs
  | releaseMsg c p =>
    rw [Protocol.step] at hs
    split at hs
    · rename_i todo hstg
      split at hs
      · cases hs
        exact h.releaseMsg hinj hne hstg rfl
      · cases hs
    · cases hs
  | next c =>
    rw [Protocol.step] at hs
    split at hs
    · rename_i hstg
      cases hs
      have hcor := h.stage hstg
      exact ⟨a, h.next hlaw fun x hx => not_mem_nil ((hcor.2.2.1 x).mp hx)⟩
    · rename_i hstg
      cases hs
      have hcor := h.stage hstg
      exact ⟨a, h.next hlaw fun x hx => not_mem_nil (hcor.2.2 x hx).2⟩
    · cases hs

/-- A record of which nothing is left to be written has the value of the last
transaction that wrote it. -/
lemma Rel.pending_eq_nil {x : RecordId}
    (hx : ∀ c todo, (σ.cor c).stage = .committing todo → x ∉ todo.flatten.map Prod.fst) :
    a.pending x = [] := by
  refine Occ.State.pending_eq_nil fun t hown hph => ?_
  have ht : t = (t.1, (σ.cor t.1).num) := Prod.ext rfl (h.num x t hown)
  have hcor := (h.cor t.1).stage
  rw [← ht] at hcor
  rcases hstg : (σ.cor t.1).stage with _ | _ | _ | todo | _
  all_goals rw [hstg] at hcor
  case committing => exact hx t.1 todo hstg ((hcor.2.2.1 x).mp hown)
  all_goals exact absurd (hcor.1.symm.trans hph) nofun

lemma Rel.serializable : σ.Serializable s0 := by
  obtain ⟨hser, hfin⟩ := h.reach.serializable
  obtain ⟨ids, hnd, hmem, hmap⟩ := h.recorded
  refine ⟨a.serialOrder.map a.txn, ?_, hser, fun x hx => ?_⟩
  · rw [hmap]
    refine Perm.map _ ((perm_ext_iff_of_nodup h.reach.nodup_serialOrder hnd).mpr fun t => ?_)
    rw [hmem t]
    exact h.reach.mem_serialOrder
  · rw [h.hist.value x]
    exact hfin x (h.pending_eq_nil hx)

end

lemma Rel.start (hlaw : P.Lawful okExec Tracks) (hlk : ∀ x, (s0 x).lock = 0#64) :
    Rel P Tracks content s0 (P.begin C s0) Occ.State.start where
  reach := .start
  lock := hlk
  hist := ⟨fun _ => rfl, fun _ => rfl⟩
  num := fun _ _ => nofun
  fresh := fun _ _ _ => ⟨rfl, rfl⟩
  cor := fun _ => ⟨hlaw.seen_start, hlaw.tracks_start, rfl, fun _ => nofun⟩
  recorded := ⟨[], nodup_nil, fun _ => ⟨nofun, nofun⟩, rfl⟩

/-- The committed transactions of a lawful protocol are serializable in every
state of a run whose steps meet the conditions. -/
lemma Protocol.Lawful.serializable (hlaw : P.Lawful okExec Tracks) (hinj : Injective content)
    (hne : ∀ c, content c ≠ 0#64) (hlk : ∀ x, (s0 x).lock = 0#64)
    {ok : System C L V → Act C A → Prop} (hok : ∀ σ act, ok σ act → P.Meets content okExec σ act)
    (h : P.Reached content ok s0 σ) : σ.Serializable s0 := by
  have hrel : ∃ a, Rel P Tracks content s0 σ a := by
    induction h with
    | start => exact ⟨_, Rel.start hlaw hlk⟩
    | step _ act hact hs ih =>
      obtain ⟨a, ha⟩ := ih
      exact ha.step hinj hne hlaw (hok _ act hact) hs
  obtain ⟨a, ha⟩ := hrel
  exact ha.serializable

end Librdpma.Drtmh
