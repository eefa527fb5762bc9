import Librdpma.Drtmh.Coordinator

/-!
# The commit rounds keep transactions serializable

Every run of a lawful protocol that meets the conditions is simulated by the
optimistic machine of `Lib.Occ`: a lock word names the owner of the record, and a
sequence number has grown by 2 with every installed version. A transaction is
prepared when all its lock requests have been granted.
-/

namespace Librdpma.Drtmh

open Lib Function List

variable {C L A V : Type}

/-- Transaction `n` of coroutine `c` is `(c, n)`. -/
abbrev OccState (C V : Type) := Occ.State (C × ℕ) RecordId V

/-! ## Lists of items -/

lemma mem_macSet {batch : List RtxLockItem} {it : RtxLockItem} (h : it ∈ batch) :
    it.rid.pid ∈ macSet batch :=
  mem_dedup.mpr (mem_map_of_mem h)

lemma pid_mem_macSet {batch : List RtxLockItem} {x : RecordId}
    (h : x ∈ batch.map RtxLockItem.rid) : x.pid ∈ macSet batch := by
  obtain ⟨it, hit, rfl⟩ := mem_map.mp h
  exact mem_macSet hit

lemma writeMap_isSome {ws : List (RecordId × V)} {x : RecordId} :
    (writeMap ws x).isSome = true ↔ x ∈ ws.map Prod.fst := by
  unfold writeMap
  rw [Option.isSome_map, find?_isSome]
  simp only [decide_eq_true_eq, mem_map]

lemma writeMap_of_mem {ws : List (RecordId × V)} (h : (ws.map Prod.fst).Nodup)
    {e : RecordId × V} (he : e ∈ ws) : writeMap ws e.1 = some e.2 := by
  induction ws with
  | nil => cases he
  | cons e' rest ih =>
    rw [map_cons, nodup_cons] at h
    rcases mem_cons.mp he with rfl | he
    · simp [writeMap]
    · have hne : e'.1 ≠ e.1 := fun heq => h.1 (heq ▸ mem_map_of_mem he)
      have hrs := ih h.2 he
      unfold writeMap at hrs ⊢
      rwa [find?_cons_of_neg (by simpa using hne)]

/-! ## The store -/

section Store

variable (content : C → BitVec 64) (s0 : Store V)

def ownerContent : Option (C × ℕ) → BitVec 64
  | none => 0#64
  | some t => content t.1

/-- The lock words say who owns a record. -/
def LockRel (s : Store V) (owner : RecordId → Option (C × ℕ)) : Prop :=
  ∀ x, (s x).lock = ownerContent content (owner x)

/-- Sequence numbers and values are those of the installed versions. -/
structure HistRel (s : Store V) (a : OccState C V) : Prop where
  seq : ∀ x, (s x).seq.toNat = (s0 x).seq.toNat + 2 * (a.hist x).length
  value : ∀ x, (s x).value = Occ.lastValue (s0 x).value (a.hist x)

/-- The number a record has at a version. -/
def seqAt (x : RecordId) (ver : ℕ) : ℕ := (s0 x).seq.toNat + 2 * ver

variable {content} {s0} {s s' : Store V} {a : OccState C V} {t : C × ℕ}

variable {w : Option (C × ℕ)}

lemma ownerContent_eq_zero (hne : ∀ c, content c ≠ 0#64) :
    ownerContent content w = 0#64 ↔ w = none := by
  cases w with
  | none => exact ⟨fun _ => rfl, fun _ => rfl⟩
  | some t => exact ⟨fun h => absurd h (hne t.1), nofun⟩

/-- The owner is `t` if the word is the content of its coroutine. -/
lemma owner_of_content (hinj : Injective content) (hne : ∀ c, content c ≠ 0#64)
    (hmn : ∀ u, w = some u → u.1 = t.1 → u = t) (h : ownerContent content w = content t.1) :
      w = some t := by
  cases w with
  | none => exact absurd h.symm (hne t.1)
  | some u => rw [hmn u rfl (hinj h)]

/-- Only lock words differ. -/
def SameData (s s' : Store V) : Prop :=
  ∀ x, (s' x).seq = (s x).seq ∧ (s' x).value = (s x).value

lemma SameData.refl (s : Store V) : SameData s s := fun _ => ⟨rfl, rfl⟩

lemma SameData.trans {s'' : Store V} (h : SameData s s') (h' : SameData s' s'') : SameData s s'' :=
  fun x => ⟨(h' x).1.trans (h x).1, (h' x).2.trans (h x).2⟩

lemma sameData_update (s : Store V) (x : RecordId) (lock : BitVec 64) :
    SameData s (update s x { s x with lock := lock }) := by
  intro y
  by_cases hy : y = x
  · rw [hy, update_self]
    exact ⟨rfl, rfl⟩
  · rw [update_of_ne hy]
    exact ⟨rfl, rfl⟩

lemma HistRel.of_sameData (h : HistRel s0 s a) (hs : SameData s s')
    (f : RecordId → Option (C × ℕ)) : HistRel s0 s' { a with owner := f } :=
  ⟨fun x => by rw [(hs x).1]; exact h.seq x, fun x => by rw [(hs x).2]; exact h.value x⟩

lemma LockRel.update {owner : RecordId → Option (C × ℕ)} (h : LockRel content s owner)
    (x : RecordId) {n : MemNode V} (hn : n.lock = ownerContent content w) :
    LockRel content (update s x n) (update owner x w) := by
  intro y
  by_cases hy : y = x
  · rw [hy, update_self, update_self, hn]
  · rw [update_of_ne hy, update_of_ne hy]
    exact h y

/-! ### Owners -/

section Owners

variable {owner f : RecordId → Option (C × ℕ)} {x : RecordId} {xs : List RecordId}

/-- Some free records of `xs` go to `t`. -/
def Takes (t : C × ℕ) (xs : List RecordId) (owner f : RecordId → Option (C × ℕ)) : Prop :=
  ∀ x, f x = owner x ∨ (owner x = none ∧ f x = some t ∧ x ∈ xs)

/-- Some records of `t` become free. -/
def Drops (t : C × ℕ) (owner f : RecordId → Option (C × ℕ)) : Prop :=
  ∀ x, f x = owner x ∨ (owner x = some t ∧ f x = none)

lemma Takes.refl : Takes t xs owner owner := fun _ => .inl rfl

lemma Takes.keeps (h : Takes t xs owner f) (hx : owner x = some t) : f x = some t := by
  rcases h x with hsm | ⟨hno, -, -⟩
  · exact hsm.trans hx
  · rw [hno] at hx
    cases hx

lemma Takes.cons (hfr : owner x = none)
    (h : Takes t xs (update owner x (some t)) f) : Takes t (x :: xs) owner f := by
  intro y
  by_cases hy : y = x
  · rw [hy]
    exact .inr ⟨hfr, h.keeps (update_self ..), mem_cons_self⟩
  · have hoth : update owner x (some t) y = owner y := update_of_ne hy ..
    rcases h y with hsm | ⟨hno, hsome, hmem⟩
    · exact .inl (hsm.trans hoth)
    · exact .inr ⟨hoth.symm.trans hno, hsome, mem_cons_of_mem _ hmem⟩

lemma Drops.not_owned (h : Drops t owner f) (hx : owner x ≠ some t) : f x ≠ some t := by
  rcases h x with hsm | ⟨hsome, -⟩
  · rwa [hsm]
  · exact absurd hsome hx

lemma Drops.cons (hx : owner x = some t) (h : Drops t (update owner x none) f) :
    Drops t owner f := by
  intro y
  by_cases hy : y = x
  · rw [hy]
    rcases h x with hsm | ⟨-, hno⟩
    · exact .inr ⟨hx, hsm.trans (update_self ..)⟩
    · exact .inr ⟨hx, hno⟩
  · have hoth : update owner x none y = owner y := update_of_ne hy ..
    rw [← hoth]
    exact h y

end Owners

/-! ### Handlers -/

variable [DecidableEq C]

abbrev initValue (s0 : Store V) : RecordId → V := fun x => (s0 x).value

lemma lockItems_sim (hne : ∀ c, content c ≠ 0#64) (p : ℕ) (items : List RtxLockItem)
    (hreach : Occ.Reachable (initValue s0) a) (hex : a.phase t = .executing)
    (hlk : LockRel content s a.owner) :
    ∃ f, Occ.Reachable (initValue s0) { a with owner := f } ∧
      LockRel content (lockItems (content t.1) p items s).2 f ∧
      SameData s (lockItems (content t.1) p items s).2 ∧
      Takes t (ownRids p items) a.owner f ∧
      ((lockItems (content t.1) p items s).1 = true → (ownRids p items).Nodup ∧
        ∀ it ∈ items, it.rid.pid = p → a.owner it.rid = none ∧ f it.rid = some t ∧
          (s it.rid).seq = it.seq) := by
  induction items generalizing s a with
  | nil => exact ⟨a.owner, hreach, hlk, .refl s, .refl, fun _ => ⟨nodup_nil, by simp⟩⟩
  | cons it rest ih =>
    rw [lockItems]
    by_cases hp : it.rid.pid = p
    · rw [if_neg (not_not.mpr hp), ownRids_cons_self hp]
      by_cases hfr : (s it.rid).lock = 0#64
      · have hown : a.owner it.rid = none :=
          (ownerContent_eq_zero hne).mp ((hlk it.rid).symm.trans hfr)
        have htry : (s it.rid).localTryLockOp (content t.1)
            = (true, { s it.rid with lock := content t.1 }) := by
          rw [MemNode.localTryLockOp, if_neg (not_not.mpr hfr)]
        rw [htry]
        dsimp only
        -- the state with this record locked
        set a1 := a.setOwner it.rid (some t)
        have hself : a1.owner it.rid = some t := update_self ..
        have hrch1 : Occ.Reachable (initValue s0) a1 := hreach.step (.lock a t it.rid hex hown)
        have hlk1 := hlk.update it.rid
          (show ({ s it.rid with lock := content t.1 } : MemNode V).lock
            = ownerContent content (some t) from rfl)
        have hdt1 := sameData_update s it.rid (content t.1)
        by_cases hseq : (s it.rid).seq = it.seq
        · rw [if_neg (not_not.mpr hseq)]
          obtain ⟨f, hr, hl, hdt, htk, hok⟩ := ih hrch1 hex hlk1
          refine ⟨f, hr, hl, hdt1.trans hdt, htk.cons hown, fun htr => ?_⟩
          obtain ⟨hnd, hits⟩ := hok htr
          have hnot : ∀ it' ∈ rest, it'.rid.pid = p → it'.rid ≠ it.rid := by
            intro it' hit' hp' heq
            have hno := (hits it' hit' hp').1
            rw [heq, hself] at hno
            cases hno
          refine ⟨nodup_cons.mpr ⟨fun hmem => ?_, hnd⟩, ?_⟩
          · obtain ⟨-, hin⟩ := mem_ownRids.mp hmem
            obtain ⟨it', hit', heq⟩ := mem_map.mp hin
            exact hnot it' hit' (heq ▸ hp) heq
          · rw [forall_mem_cons]
            refine ⟨fun _ => ⟨hown, htk.keeps hself, hseq⟩, fun it' hit' hp' => ?_⟩
            obtain ⟨hno, hsome, hseq'⟩ := hits it' hit' hp'
            have hoth := hnot it' hit' hp'
            exact ⟨(update_of_ne hoth ..).symm.trans hno, hsome, (hdt1 it'.rid).1.symm.trans hseq'⟩
        · rw [if_pos hseq]
          exact ⟨a1.owner, hrch1, hlk1, hdt1, Takes.refl.cons hown, fun h => by cases h⟩
      · have htry : (s it.rid).localTryLockOp (content t.1) = (false, s it.rid) := by
          rw [MemNode.localTryLockOp, if_pos hfr]
        rw [htry]
        exact ⟨a.owner, hreach, hlk, .refl s, .refl, fun h => by cases h⟩
    · rw [if_pos hp, ownRids_cons_other hp]
      obtain ⟨f, hr, hl, hdt, htk, hok⟩ := ih hreach hex hlk
      refine ⟨f, hr, hl, hdt, htk, fun htr => ⟨(hok htr).1, ?_⟩⟩
      rw [forall_mem_cons]
      exact ⟨fun heq => absurd heq hp, (hok htr).2⟩

lemma releaseItems_sim (hinj : Injective content) (hne : ∀ c, content c ≠ 0#64)
    (p : ℕ) (items : List RtxLockItem) (hreach : Occ.Reachable (initValue s0) a)
    (habt : a.phase t = .aborted) (hlk : LockRel content s a.owner)
    (hmn : ∀ x u, a.owner x = some u → u.1 = t.1 → u = t) :
    ∃ f, Occ.Reachable (initValue s0) { a with owner := f } ∧
      LockRel content (releaseItems (content t.1) p items s) f ∧
      SameData s (releaseItems (content t.1) p items s) ∧ Drops t a.owner f ∧
      ∀ it ∈ items, it.rid.pid = p → f it.rid ≠ some t := by
  induction items generalizing s a with
  | nil => exact ⟨a.owner, hreach, hlk, .refl s, fun _ => .inl rfl, nofun⟩
  | cons it rest ih =>
    rw [releaseItems]
    by_cases hp : it.rid.pid = p
    · rw [if_neg (not_not.mpr hp)]
      by_cases hhd : (s it.rid).lock = content t.1
      · have hown : a.owner it.rid = some t :=
          owner_of_content hinj hne (hmn it.rid) ((hlk it.rid).symm.trans hhd)
        have htry : (s it.rid).localTryReleaseOp (content t.1)
            = (true, { s it.rid with lock := 0#64 }) := by
          rw [MemNode.localTryReleaseOp, if_pos hhd]
        rw [htry]
        set a1 := a.setOwner it.rid none
        have hself : a1.owner it.rid = none := update_self ..
        have hlk1 := hlk.update it.rid
          (show ({ s it.rid with lock := 0#64 } : MemNode V).lock
            = ownerContent content none from rfl)
        have hmn1 : ∀ x u, a1.owner x = some u → u.1 = t.1 → u = t := by
          intro x u hu
          by_cases hx : x = it.rid
          · rw [hx, hself] at hu
            cases hu
          · exact hmn x u ((update_of_ne hx ..).symm.trans hu)
        obtain ⟨f, hr, hl, hdt, hdrp, hfrd⟩ :=
          ih (hreach.step (.release a t it.rid habt hown)) habt hlk1 hmn1
        refine ⟨f, hr, hl, (sameData_update s it.rid _).trans hdt, hdrp.cons hown, ?_⟩
        rw [forall_mem_cons]
        exact ⟨fun _ => hdrp.not_owned (by rw [hself]; nofun), hfrd⟩
      · have hnot : a.owner it.rid ≠ some t := by
          intro hsome
          have hwr := hlk it.rid
          rw [hsome] at hwr
          exact hhd hwr
        have htry : ((s it.rid).localTryReleaseOp (content t.1)).2 = s it.rid := by
          rw [MemNode.localTryReleaseOp, if_neg hhd]
        rw [htry, update_eq_self]
        obtain ⟨f, hr, hl, hdt, hdrp, hfrd⟩ := ih hreach habt hlk hmn
        refine ⟨f, hr, hl, hdt, hdrp, ?_⟩
        rw [forall_mem_cons]
        exact ⟨fun _ => hdrp.not_owned hnot, hfrd⟩
    · rw [if_pos hp]
      obtain ⟨f, hr, hl, hdt, hdrp, hfrd⟩ := ih hreach habt hlk hmn
      refine ⟨f, hr, hl, hdt, hdrp, ?_⟩
      rw [forall_mem_cons]
      exact ⟨fun heq => absurd heq hp, hfrd⟩

/-- The read of a record as it is. -/
def obsNow (s0 : Store V) (a : OccState C V) (x : RecordId) : Occ.Obs RecordId V :=
  ⟨x, (a.hist x).length, Occ.lastValue (s0 x).value (a.hist x)⟩

lemma reads_sim (new : List RecordId) (hreach : Occ.Reachable (initValue s0) a)
    (hex : a.phase t = .executing) {r : C × ℕ → List (Occ.Obs RecordId V)}
    (hr : r = update a.reads t (a.reads t ++ new.map (obsNow s0 a))) :
    Occ.Reachable (initValue s0) { a with reads := r } := by
  induction new generalizing a with
  | nil =>
    rw [map_nil, append_nil, update_eq_self] at hr
    rw [hr]
    exact hreach
  | cons x new ih =>
    have hst := ih (a := a.addRead t (obsNow s0 a x)) (hreach.step (.read a t x hex)) hex
    refine hst ?_
    have hself : (a.addRead t (obsNow s0 a x)).reads t = a.reads t ++ [obsNow s0 a x] :=
      update_self ..
    rw [hr, hself, append_assoc]
    exact (update_idem ..).symm

lemma checks_sim (os : List (Occ.Obs RecordId V)) (hreach : Occ.Reachable (initValue s0) a)
    (hphase : a.phase t = .prepared)
    (hos : ∀ o ∈ os, (a.owner o.key = none ∨ a.owner o.key = some t) ∧
      o.ver = (a.hist o.key).length) {r : C × ℕ → List (Occ.Obs RecordId V)}
    (hr : r = update a.checked t (a.checked t ++ os)) :
    Occ.Reachable (initValue s0) { a with checked := r } := by
  induction os generalizing a with
  | nil =>
    rw [append_nil, update_eq_self] at hr
    rw [hr]
    exact hreach
  | cons o os ih =>
    rw [forall_mem_cons] at hos
    have hst := ih (a := a.addChecked t o)
      (hreach.step (.validate a t o hphase hos.1.1 hos.1.2)) hphase hos.2
    refine hst ?_
    have hself : (a.addChecked t o).checked t = a.checked t ++ [o] := update_self ..
    rw [hr, hself, append_assoc]
    exact (update_idem ..).symm

open Classical in
lemma checks_where (hreach : Occ.Reachable (initValue s0) a) (hphase : a.phase t = .prepared)
    {Q : Occ.Obs RecordId V → Prop}
    (hQ : ∀ o ∈ a.reads t, Q o → (a.owner o.key = none ∨ a.owner o.key = some t) ∧
      o.ver = (a.hist o.key).length) :
    ∃ r, Occ.Reachable (initValue s0) { a with checked := r } ∧
      (∀ u, u ≠ t → r u = a.checked u) ∧ (∀ o ∈ a.checked t, o ∈ r t) ∧
      ∀ o ∈ a.reads t, Q o → o ∈ r t := by
  set os := (a.reads t).filter fun o => decide (Q o) with hos
  have hmem : ∀ o, o ∈ os ↔ o ∈ a.reads t ∧ Q o := by
    intro o
    rw [hos, mem_filter, decide_eq_true_iff]
  have hself : update a.checked t (a.checked t ++ os) t = a.checked t ++ os := update_self ..
  refine ⟨update a.checked t (a.checked t ++ os), checks_sim os hreach hphase
    (fun o ho => hQ o ((hmem o).mp ho).1 ((hmem o).mp ho).2) rfl,
    fun u hu => update_of_ne hu .., fun o ho => ?_, fun o ho hq => ?_⟩
  · rw [hself]
    exact mem_append_left _ ho
  · rw [hself]
    exact mem_append_right _ ((hmem o).mpr ⟨ho, hq⟩)

lemma writeItems_sim (msg : List (RecordId × V)) (hreach : Occ.Reachable (initValue s0) a)
    (hphase : a.phase t = .committed) (hlk : LockRel content s a.owner)
    (hhs : HistRel s0 s a) (hnd : (msg.map Prod.fst).Nodup)
    (hmsg : ∀ e ∈ msg, a.owner e.1 = some t ∧ a.writes t e.1 = some e.2 ∧
      (s e.1).seq.toNat + 2 < 2 ^ 64) :
    ∃ f h, Occ.Reachable (initValue s0) { a with owner := f, hist := h } ∧
      LockRel content (writeItems msg s) f ∧
      HistRel s0 (writeItems msg s) { a with owner := f, hist := h } ∧
      (∀ x ∈ msg.map Prod.fst, f x = none) ∧
      ∀ x, x ∉ msg.map Prod.fst → f x = a.owner x ∧ h x = a.hist x := by
  induction msg generalizing s a with
  | nil => exact ⟨a.owner, a.hist, hreach, hlk, hhs, nofun, fun _ _ => ⟨rfl, rfl⟩⟩
  | cons e rest ih =>
    rw [map_cons, nodup_cons] at hnd
    rw [forall_mem_cons] at hmsg
    obtain ⟨⟨hown, hws, hrm⟩, hrs⟩ := hmsg
    rw [writeItems]
    set s1 := update s e.1 ((s e.1).inplaceWriteOp e.2) with hs1
    set a1 := a.install t e.1 e.2
    have howner_self : a1.owner e.1 = none := update_self ..
    have hhist_self : a1.hist e.1 = a.hist e.1 ++ [⟨t, e.2⟩] := update_self ..
    have howner_of : ∀ x, x ≠ e.1 → a1.owner x = a.owner x := fun x hx => update_of_ne hx ..
    have hhist_of : ∀ x, x ≠ e.1 → a1.hist x = a.hist x := fun x hx => update_of_ne hx ..
    have hlk1 : LockRel content s1 a1.owner := hlk.update e.1 rfl
    have hhs1 : HistRel s0 s1 a1 := by
      constructor
      · intro x
        by_cases hx : x = e.1
        · have hseq := hhs.seq e.1
          rw [hx, hs1, update_self, hhist_self, length_append, length_singleton]
          have hadd : ((s e.1).inplaceWriteOp e.2).seq = (s e.1).seq + 2#64 := rfl
          have htwo : (2#64).toNat = 2 := rfl
          rw [hadd, BitVec.toNat_add, htwo, Nat.mod_eq_of_lt hrm]
          omega
        · rw [hs1, update_of_ne hx, hhist_of x hx]
          exact hhs.seq x
      · intro x
        by_cases hx : x = e.1
        · rw [hx, hs1, update_self, hhist_self]
          simp [Occ.lastValue, MemNode.inplaceWriteOp]
        · rw [hs1, update_of_ne hx, hhist_of x hx]
          exact hhs.value x
    have hrs1 : ∀ e' ∈ rest, a1.owner e'.1 = some t ∧ a1.writes t e'.1 = some e'.2 ∧
        (s1 e'.1).seq.toNat + 2 < 2 ^ 64 := by
      intro e' he'
      have hx : e'.1 ≠ e.1 := fun heq => hnd.1 (heq ▸ mem_map_of_mem he')
      obtain ⟨ho, hw, hr⟩ := hrs e' he'
      refine ⟨(howner_of _ hx).trans ho, hw, ?_⟩
      rw [hs1, update_of_ne hx]
      exact hr
    obtain ⟨f, h, hr, hl, hh, hfrd, hsm⟩ :=
      ih (hreach.step (.install a t e.1 e.2 hphase hown hws)) hphase hlk1 hhs1 hnd.2 hrs1
    refine ⟨f, h, hr, hl, hh, fun x hx => ?_, fun x hx => ?_⟩
    · by_cases hin : x ∈ rest.map Prod.fst
      · exact hfrd x hin
      · have hxe : x = e.1 := by
          rcases mem_cons.mp hx with h | h
          · exact h
          · exact absurd h hin
        rw [(hsm x hin).1, hxe, howner_self]
    · rw [map_cons, mem_cons, not_or] at hx
      obtain ⟨ho, hh'⟩ := hsm x hx.2
      exact ⟨ho.trans (howner_of x hx.1), hh'.trans (hhist_of x hx.1)⟩

end Store

/-! ## The relation -/

variable (P : Protocol L A V) (Tracks : L → List (RecordId × ℕ) → Prop)
  (content : C → BitVec 64) (s0 : Store V)

/-- The item speaks of this read. -/
def Speaks (it : RtxLockItem) (o : Occ.Obs RecordId V) : Prop :=
  it.rid = o.key ∧ it.seq.toNat ≤ seqAt s0 o.key o.ver

/-- What the stage of a coroutine says of its transaction `t`. -/
def StageRel (t : C × ℕ) (l : L) (a : OccState C V) : Stage V → Prop
  | .running => a.phase t = .executing ∧ ∀ x, a.owner x ≠ some t
  | .locking todo ok => a.phase t = .executing ∧ (P.lockBatch l).length ≤ 127 ∧
      (P.validateBatch l).length ≤ 127 ∧
      (∀ x, a.owner x = some t → x ∈ P.lockRids l ∧ x.pid ∉ todo) ∧
      (ok = true →
        (∀ it ∈ P.lockBatch l, it.rid.pid ∉ todo → a.owner it.rid = some t ∧
          it.seq.toNat = seqAt s0 it.rid (a.hist it.rid).length) ∧
        ∀ p, p ∉ todo → (ownRids p (P.lockBatch l)).Nodup)
  | .validating todo ok => a.phase t = .prepared ∧ (P.lockBatch l).length ≤ 127 ∧
      (P.validateBatch l).length ≤ 127 ∧ a.writes t = writeMap (P.writes l) ∧
      (∀ x, a.owner x = some t ↔ x ∈ P.lockRids l) ∧ (P.lockRids l).Nodup ∧
      (∀ o ∈ a.reads t, ∀ it ∈ P.lockBatch l, Speaks s0 it o → o ∈ a.checked t) ∧
      (ok = true → ∀ o ∈ a.reads t, ∀ it ∈ P.validateBatch l, it.rid.pid ∉ todo →
        Speaks s0 it o → o ∈ a.checked t)
  | .committing todo => a.phase t = .committed ∧ a.writes t = writeMap (P.writes l) ∧
      (∀ x, a.owner x = some t ↔ x ∈ todo.flatten.map Prod.fst) ∧
      (todo.flatten.map Prod.fst).Nodup ∧
      ∀ e ∈ todo.flatten, writeMap (P.writes l) e.1 = some e.2
  | .releasing todo => a.phase t = .aborted ∧ (P.lockBatch l).length ≤ 127 ∧
      ∀ x, a.owner x = some t → x ∈ P.lockRids l ∧ x.pid ∈ todo

structure CorRel (c : C) (k : Coroutine L V) (a : OccState C V) : Prop where
  seen : P.seen k.loc = (a.reads (c, k.num)).map fun o => (o.key, o.val)
  tracks : Tracks k.loc ((a.reads (c, k.num)).map fun o => (o.key, seqAt s0 o.key o.ver))
  stage : StageRel P s0 (c, k.num) k.loc a k.stage

/-- The committed transactions are the ones on record. -/
def Recorded (committed : List (Occ.Txn RecordId V)) (a : OccState C V) : Prop :=
  ∃ ids : List (C × ℕ), ids.Nodup ∧ (∀ t, t ∈ ids ↔ a.phase t = .committed) ∧
    committed = ids.map a.txn

variable [DecidableEq C]

structure Rel (σ : System C L V) (a : OccState C V) : Prop where
  reach : Occ.Reachable (initValue s0) a
  lock : LockRel content σ.store a.owner
  hist : HistRel s0 σ.store a
  num : ∀ x t, a.owner x = some t → t.2 = (σ.cor t.1).num
  fresh : ∀ c n, (σ.cor c).num < n → a.phase (c, n) = .executing ∧ a.reads (c, n) = []
  cor : ∀ c, CorRel P Tracks s0 c (σ.cor c) a
  recorded : Recorded σ.committed a

variable {P Tracks content s0} {σ : System C L V} {a a' : OccState C V}

/-- Nothing changes for transaction `t`. -/
structure SameFor (t : C × ℕ) (a a' : OccState C V) : Prop where
  phase : a'.phase t = a.phase t
  reads : a'.reads t = a.reads t
  writes : a'.writes t = a.writes t
  checked : a'.checked t = a.checked t
  owner : ∀ x, a'.owner x = some t ↔ a.owner x = some t
  hist : ∀ x, a.owner x = some t → a'.hist x = a.hist x

omit [DecidableEq C] in
lemma StageRel.frame {t : C × ℕ} {l : L} {stage : Stage V} (h : StageRel P s0 t l a stage)
    (hs : SameFor t a a') : StageRel P s0 t l a' stage := by
  cases stage with
  | running =>
    refine ⟨hs.phase.trans h.1, fun x hx => ?_⟩
    exact h.2 x ((hs.owner x).mp hx)
  | locking todo ok =>
    obtain ⟨hphase, hl, hv, hown, hok⟩ := h
    refine ⟨hs.phase.trans hphase, hl, hv, fun x hx => hown x ((hs.owner x).mp hx), fun htr =>
      ⟨fun it hit hp => ?_, (hok htr).2⟩⟩
    obtain ⟨ho, hseq⟩ := (hok htr).1 it hit hp
    refine ⟨(hs.owner _).mpr ho, ?_⟩
    rwa [hs.hist _ ho]
  | validating todo ok =>
    obtain ⟨hphase, hl, hv, hw, hown, hnd, hlkd, hok⟩ := h
    refine ⟨hs.phase.trans hphase, hl, hv, hs.writes.trans hw,
      fun x => (hs.owner x).trans (hown x), hnd, ?_, ?_⟩
    · rw [hs.reads, hs.checked]
      exact hlkd
    · rw [hs.reads, hs.checked]
      exact hok
  | committing todo =>
    obtain ⟨hphase, hw, hown, hnd, hvl⟩ := h
    exact ⟨hs.phase.trans hphase, hs.writes.trans hw, fun x => (hs.owner x).trans (hown x),
      hnd, hvl⟩
  | releasing todo =>
    exact ⟨hs.phase.trans h.1, h.2.1, fun x hx => h.2.2 x ((hs.owner x).mp hx)⟩

omit [DecidableEq C] in
lemma CorRel.frame {c : C} {k : Coroutine L V} (h : CorRel P Tracks s0 c k a)
    (hs : SameFor (c, k.num) a a') : CorRel P Tracks s0 c k a' := by
  refine ⟨?_, ?_, h.stage.frame hs⟩
  · rw [hs.reads]
    exact h.seen
  · rw [hs.reads]
    exact h.tracks

lemma Rel.update (h : Rel P Tracks content s0 σ a) (c : C) {store : Store V} {k : Coroutine L V}
    {committed : List (Occ.Txn RecordId V)} (hreach : Occ.Reachable (initValue s0) a')
    (hlk : LockRel content store a'.owner) (hhs : HistRel s0 store a')
    (hnum : k.num = (σ.cor c).num) (hoth : ∀ t, t ≠ (c, (σ.cor c).num) → SameFor t a a')
    (hcor : CorRel P Tracks s0 c k a') (hrcr : Recorded committed a') :
    Rel P Tracks content s0 ⟨store, Function.update σ.cor c k, committed⟩ a' := by
  have hnums : ∀ c', (Function.update σ.cor c k c').num = (σ.cor c').num := by
    intro c'
    by_cases hc : c' = c
    · rw [hc, update_self, hnum]
    · rw [update_of_ne hc]
  refine ⟨hreach, hlk, hhs, fun x t ht => ?_, fun c' n hn => ?_, fun c' => ?_, hrcr⟩
  · rw [hnums]
    by_cases htc : t = (c, (σ.cor c).num)
    · rw [htc]
    · exact h.num x t (((hoth t htc).owner x).mp ht)
  · rw [hnums] at hn
    have hne : (c', n) ≠ (c, (σ.cor c).num) := by
      rintro heq
      cases heq
      exact absurd hn (lt_irrefl _)
    have hsm := hoth _ hne
    exact ⟨hsm.phase.trans (h.fresh c' n hn).1, hsm.reads.trans (h.fresh c' n hn).2⟩
  · dsimp only
    by_cases hc : c' = c
    · rw [hc, update_self]
      exact hcor
    · rw [update_of_ne hc]
      refine (h.cor c').frame (hoth _ fun heq => hc ?_)
      cases heq
      rfl

omit [DecidableEq C] in
lemma Recorded.of_same {committed : List (Occ.Txn RecordId V)} (h : Recorded committed a)
    (hphase : ∀ t, a'.phase t = .committed ↔ a.phase t = .committed)
    (htxn : ∀ t, a.phase t = .committed → a'.txn t = a.txn t) : Recorded committed a' := by
  obtain ⟨ids, hnd, hmem, hmap⟩ := h
  refine ⟨ids, hnd, fun t => (hmem t).trans (hphase t).symm, ?_⟩
  rw [hmap]
  exact map_congr_left fun t ht => (htxn t ((hmem t).mp ht)).symm

end Librdpma.Drtmh
