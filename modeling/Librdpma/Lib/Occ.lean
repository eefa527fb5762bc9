import Mathlib

/-!
# Optimistic concurrency control

Transactions read records with their version, lock the records they write,
check that what they have read is still current and not locked by another, and
install new versions. The versions of a record are numbered by the number of
earlier ones.

A transaction is *prepared* once it holds the locks of all records it writes. The
order in which transactions are prepared is an order in which the committed ones
could have run one after the other: `Reachable.serializable`.
-/

namespace Librdpma.Lib.Occ

variable {T X V : Type}

/-! ## Serial executions -/

/-- What a transaction has read and what it writes. -/
structure Txn (X V : Type) where
  reads : List (X × V)
  writes : X → Option V

/-- The records after some transactions have run one after the other. -/
def replay (init : X → V) (l : List (Txn X V)) : X → V :=
  l.foldl (fun store t x => (t.writes x).getD (store x)) init

/-- Each transaction reads what those before it have left. -/
def Serial (init : X → V) (l : List (Txn X V)) : Prop :=
  ∀ a t b, l = a ++ t :: b → ∀ r ∈ t.reads, replay init a r.1 = r.2

lemma replay_append_singleton (init : X → V) (l : List (Txn X V)) (t : Txn X V) (x : X) :
    replay init (l ++ [t]) x = (t.writes x).getD (replay init l x) := by
  simp [replay]

/-! ## The machine -/

inductive Phase : Type where
  | executing
  | prepared
  | committed
  | aborted
deriving DecidableEq

/-- A read: the record, the version and the value. -/
structure Obs (X V : Type) where
  key : X
  ver : ℕ
  val : V

/-- An installed version: who wrote it, and the value. -/
structure Version (T V : Type) where
  writer : T
  val : V

structure State (T X V : Type) where
  owner : X → Option T
  /-- the installed versions, oldest first -/
  hist : X → List (Version T V)
  phase : T → Phase
  reads : T → List (Obs X V)
  writes : T → X → Option V
  /-- the reads that have been validated -/
  checked : T → List (Obs X V)
  /-- the transactions in the order in which they were prepared -/
  order : List T

/-- The value of a record with these versions. -/
def lastValue (init : V) (h : List (Version T V)) : V := (h.getLast?.map Version.val).getD init

namespace State

def start : State T X V :=
  { owner := fun _ => none, hist := fun _ => [], phase := fun _ => .executing,
    reads := fun _ => [], writes := fun _ _ => none, checked := fun _ => [], order := [] }

/-- Holds its locks and has not been given up. -/
def Active (s : State T X V) (t : T) : Prop := s.phase t = .prepared ∨ s.phase t = .committed

/-- A committed transaction that writes `x`. -/
def wrote (s : State T X V) (x : X) (t : T) : Bool :=
  s.phase t = .committed && (s.writes t x).isSome

/-- The owner of `x` if it is about to install. -/
def pending (s : State T X V) (x : X) : List T :=
  match s.owner x with
  | some t => if s.phase t = .committed then [t] else []
  | none => []

variable {s s' : State T X V} {t u : T} {x : X}

lemma wrote_eq_true :
    s.wrote x u = true ↔ s.phase u = .committed ∧ (s.writes u x).isSome = true := by
  rw [wrote, Bool.and_eq_true, decide_eq_true_eq]

lemma wrote_eq_false (h : s.phase u ≠ .committed) : s.wrote x u = false :=
  Bool.eq_false_iff.mpr fun hw => h (wrote_eq_true.mp hw).1

lemma wrote_of_none (h : s.writes u x = none) : s.wrote x u = false := by
  rw [wrote, h]
  exact Bool.and_false _

lemma wrote_congr (hphase : s'.phase u = .committed ↔ s.phase u = .committed)
    (hwrites : s'.writes u x = s.writes u x) : s'.wrote x u = s.wrote x u := by
  rw [Bool.eq_iff_iff, wrote_eq_true, wrote_eq_true, hphase, hwrites]

lemma pending_eq_nil (h : ∀ u, s.owner x = some u → s.phase u ≠ .committed) : s.pending x = [] := by
  unfold pending
  rcases howner : s.owner x with _ | u
  · rfl
  · exact if_neg (h u howner)

lemma pending_of_committed (howner : s.owner x = some t) (hphase : s.phase t = .committed) :
    s.pending x = [t] := by
  unfold pending
  rw [howner]
  exact if_pos hphase

lemma pending_congr (howner : s'.owner x = s.owner x)
    (hphase : ∀ u, s.owner x = some u → (s'.phase u = .committed ↔ s.phase u = .committed)) :
    s'.pending x = s.pending x := by
  unfold pending
  rw [howner]
  rcases hu : s.owner x with _ | u
  · rfl
  · simp only [hphase u hu]

end State

/-! ## The invariant -/

open State Function List

/-- A read that will not be undone: the writers before `t` in the order are those
of the versions up to the one read, and no other can come in. -/
structure Settled (s : State T X V) (a : List T) (o : Obs X V) : Prop where
  writers : a.filter (s.wrote o.key) = ((s.hist o.key).take o.ver).map Version.writer
  closed : ∀ u ∈ a, s.phase u = .prepared → s.writes u o.key = none

structure Inv (init : X → V) (s : State T X V) : Prop where
  nodup : s.order.Nodup
  prepared_of_mem : ∀ t ∈ s.order, s.phase t ≠ .executing
  mem_of_active : ∀ t, s.Active t → t ∈ s.order
  owns : ∀ t x, s.phase t = .prepared → (s.writes t x).isSome = true → s.owner x = some t
  owned : ∀ t x, s.owner x = some t → s.Active t → (s.writes t x).isSome = true
  writers : ∀ x, s.order.filter (s.wrote x) = (s.hist x).map Version.writer ++ s.pending x
  behind : ∀ t x a b, s.order = a ++ t :: b → s.owner x = some t → s.Active t →
    ∀ u ∈ b, s.Active u → s.writes u x = none
  values : ∀ x, ∀ e ∈ s.hist x, s.writes e.writer x = some e.val
  seen : ∀ t, ∀ o ∈ s.reads t, o.ver ≤ (s.hist o.key).length ∧
    o.val = lastValue (init o.key) ((s.hist o.key).take o.ver)
  early : ∀ t a b, s.order = a ++ t :: b → s.phase t = .prepared → ∀ o ∈ s.reads t,
    o.ver ≤ (a.filter (s.wrote o.key)).length
  settled : ∀ t a b, s.order = a ++ t :: b → s.Active t → ∀ o ∈ s.reads t, o ∈ s.checked t →
    Settled s a o
  all : ∀ t, s.phase t = .committed → ∀ o ∈ s.reads t, o ∈ s.checked t

variable {init : X → V} {s : State T X V} {t u : T} {x : X}

lemma inv_start : Inv init (State.start : State T X V) where
  nodup := nodup_nil
  prepared_of_mem := nofun
  mem_of_active := fun _ h => by rcases h with h | h <;> cases h
  owns := fun _ _ h => by cases h
  owned := fun _ _ h => by cases h
  writers := fun _ => rfl
  behind := fun _ _ a _ h => by cases a <;> cases h
  values := fun _ => nofun
  seen := fun _ => nofun
  early := fun _ a _ h => by cases a <;> cases h
  settled := fun _ a _ h => by cases a <;> cases h
  all := fun _ h => by cases h

/-- The owner of a record is the only active transaction that writes it and has
not installed yet. -/
lemma Inv.prepared_owner (h : Inv init s) (hu : s.phase u = .prepared)
    (hne : s.owner x ≠ some u) : s.writes u x = none := by
  rcases hw : s.writes u x with _ | v
  · rfl
  · exact absurd (h.owns u x hu (by rw [hw]; rfl)) hne

lemma Inv.hist_committed (h : Inv init s) {e : Version T V} (he : e ∈ s.hist x) :
    s.phase e.writer = .committed := by
  have hmem : e.writer ∈ s.order.filter (s.wrote x) := by
    rw [h.writers x]
    exact mem_append_left _ (mem_map_of_mem he)
  exact (State.wrote_eq_true.mp (mem_filter.mp hmem).2).1

variable {l a b : List T}

lemma append_singleton_eq {w t : T} (h : l ++ [w] = a ++ t :: b) :
    (b = [] ∧ t = w ∧ a = l) ∨ ∃ b', b = b' ++ [w] ∧ l = a ++ t :: b' := by
  rcases eq_nil_or_concat b with rfl | ⟨b', w', rfl⟩
  · have := append_inj' h rfl
    simp only [cons.injEq, and_true] at this
    exact .inl ⟨rfl, this.2.symm, this.1.symm⟩
  · rw [concat_eq_append, ← cons_append, ← append_assoc] at h
    have := append_inj' h rfl
    simp only [cons.injEq, and_true] at this
    refine .inr ⟨b', ?_, this.1⟩
    rw [concat_eq_append, this.2]

section

variable (h : l = a ++ t :: b)

include h

lemma mem_left (hu : u ∈ a) : u ∈ l := by
  rw [h]
  exact mem_append_left _ hu

lemma mem_right (hu : u ∈ b) : u ∈ l := by
  rw [h]
  exact mem_append_right _ (mem_cons_of_mem _ hu)

lemma mem_mid : t ∈ l := by
  rw [h]
  exact mem_append_right _ mem_cons_self

lemma not_mem_left (hl : l.Nodup) : t ∉ a := by
  intro ht
  rw [h] at hl
  exact (disjoint_of_nodup_append hl) ht mem_cons_self

lemma not_mem_right (hl : l.Nodup) : t ∉ b := by
  rw [h] at hl
  exact (nodup_cons.mp (Nodup.of_append_right hl)).1

end

lemma Active.ne_executing (h : s.Active t) : s.phase t ≠ .executing := by
  rcases h with h | h <;> rw [h] <;> nofun

/-- The writers of a record that `t` is going to write all come before `t`. -/
lemma Inv.writers_before (h : Inv init s) (hphase : s.phase t = .prepared)
    (hx : (s.writes t x).isSome = true) {a b : List T} (hord : s.order = a ++ t :: b) :
    a.filter (s.wrote x) = (s.hist x).map Version.writer ∧ b.filter (s.wrote x) = [] := by
  have howner := h.owns t x hphase hx
  have hnot : s.wrote x t = false := wrote_eq_false (by rw [hphase]; nofun)
  have hb : b.filter (s.wrote x) = [] := by
    refine filter_eq_nil_iff.mpr fun u hu hwrt => ?_
    obtain ⟨hcom, hsome⟩ := wrote_eq_true.mp hwrt
    rw [h.behind t x a b hord howner (.inl hphase) u hu (.inr hcom)] at hsome
    cases hsome
  have hpnd : s.pending x = [] := by
    refine pending_eq_nil fun u hu => ?_
    rw [← Option.some.inj (howner.symm.trans hu), hphase]
    nofun
  have hwrs := h.writers x
  rw [hpnd, append_nil, hord, filter_append,
    filter_cons_of_neg (by rw [hnot]; exact Bool.false_ne_true), hb,
    append_nil] at hwrs
  exact ⟨hwrs, hb⟩

/-! ## Running the committed transactions one after the other -/

/-- What a transaction has done. -/
def State.txn (s : State T X V) (t : T) : Txn X V :=
  ⟨(s.reads t).map fun o => (o.key, o.val), s.writes t⟩

/-- The committed transactions, in the order in which they were prepared. -/
def State.serialOrder (s : State T X V) : List T := s.order.filter fun t => s.phase t = .committed

/-- Running the committed members of a part of the order leaves the version its
writers have left. -/
lemma Inv.replay_part (h : Inv init s) (l : List T) (n : ℕ)
    (hwrs : l.filter (s.wrote x) = ((s.hist x).take n).map Version.writer) :
    replay init ((l.filter fun t => s.phase t = .committed).map s.txn) x
      = lastValue (init x) ((s.hist x).take n) := by
  induction l using reverseRecOn with
  | nil =>
    have hnil : (s.hist x).take n = [] := map_eq_nil_iff.mp hwrs.symm
    rw [hnil]
    rfl
  | append_singleton l u ih =>
    rw [filter_append] at hwrs ⊢
    by_cases hu : s.phase u = .committed
    · rw [filter_cons_of_pos (by simpa using hu), filter_nil, map_append,
        map_singleton, replay_append_singleton]
      rcases hw : s.writes u x with _ | v
      · -- committed, but not a writer of this record
        have hnot : s.wrote x u = false := wrote_of_none hw
        rw [filter_cons_of_neg (by rw [hnot]; exact Bool.false_ne_true), filter_nil,
          append_nil] at hwrs
        rw [← ih hwrs]
        change (s.writes u x).getD _ = _
        rw [hw]
        rfl
      · have hwrt : s.wrote x u = true := wrote_eq_true.mpr ⟨hu, by rw [hw]; rfl⟩
        rw [filter_cons_of_pos hwrt, filter_nil] at hwrs
        rcases eq_nil_or_concat ((s.hist x).take n) with hnil | ⟨pre, e, hpre⟩
        · rw [hnil] at hwrs
          simp at hwrs
        · rw [hpre, concat_eq_append, map_append] at hwrs
          have hla := (append_inj' hwrs rfl).2
          simp only [map_cons, map_nil, cons.injEq, and_true] at hla
          have he : e ∈ s.hist x := mem_of_mem_take (by rw [hpre]; simp)
          have hval := h.values x e he
          rw [← hla, hw] at hval
          change (s.writes u x).getD _ = _
          rw [hw, hpre, lastValue]
          simp [Option.some.inj hval]
    · have hnot : s.wrote x u = false := wrote_eq_false hu
      rw [filter_cons_of_neg (by rw [hnot]; exact Bool.false_ne_true), filter_nil,
        append_nil] at hwrs
      rw [filter_cons_of_neg (by simpa using hu), filter_nil, append_nil]
      exact ih hwrs

/-! ## Steps -/

variable [DecidableEq T] [DecidableEq X]

namespace State

def addRead (s : State T X V) (t : T) (o : Obs X V) : State T X V :=
  { s with reads := update s.reads t (s.reads t ++ [o]) }

def setOwner (s : State T X V) (x : X) (w : Option T) : State T X V :=
  { s with owner := update s.owner x w }

def setPhase (s : State T X V) (t : T) (p : Phase) : State T X V :=
  { s with phase := update s.phase t p }

def prepare (s : State T X V) (t : T) (ws : X → Option V) : State T X V :=
  { s with
    phase := update s.phase t .prepared
    writes := update s.writes t ws
    checked := update s.checked t []
    order := s.order ++ [t] }

def addChecked (s : State T X V) (t : T) (o : Obs X V) : State T X V :=
  { s with checked := update s.checked t (s.checked t ++ [o]) }

def install (s : State T X V) (t : T) (x : X) (v : V) : State T X V :=
  { s with
    owner := update s.owner x none
    hist := update s.hist x (s.hist x ++ [⟨t, v⟩]) }

section

omit [DecidableEq X]

lemma phase_setPhase (s : State T X V) (t : T) (p : Phase) : (s.setPhase t p).phase t = p :=
  update_self ..

lemma phase_setPhase_of_ne (s : State T X V) (p : Phase) (h : u ≠ t) :
    (s.setPhase t p).phase u = s.phase u := update_of_ne h ..

lemma phase_prepare (s : State T X V) (t : T) (ws : X → Option V) :
    (s.prepare t ws).phase t = .prepared := update_self ..

lemma phase_prepare_of_ne (s : State T X V) (ws : X → Option V) (h : u ≠ t) :
    (s.prepare t ws).phase u = s.phase u := update_of_ne h ..

lemma writes_prepare (s : State T X V) (t : T) (ws : X → Option V) :
    (s.prepare t ws).writes t = ws := update_self ..

lemma writes_prepare_of_ne (s : State T X V) (ws : X → Option V) (h : u ≠ t) :
    (s.prepare t ws).writes u = s.writes u := update_of_ne h ..

lemma checked_prepare (s : State T X V) (t : T) (ws : X → Option V) :
    (s.prepare t ws).checked t = [] := update_self ..

lemma checked_prepare_of_ne (s : State T X V) (ws : X → Option V) (h : u ≠ t) :
    (s.prepare t ws).checked u = s.checked u := update_of_ne h ..

lemma active_prepare_of_ne (s : State T X V) (ws : X → Option V) (h : u ≠ t) :
    (s.prepare t ws).Active u ↔ s.Active u := by
  unfold State.Active
  rw [phase_prepare_of_ne s ws h]

lemma wrote_prepare_of_ne (s : State T X V) (ws : X → Option V) (x : X) (h : u ≠ t) :
    (s.prepare t ws).wrote x u = s.wrote x u :=
  wrote_congr (by rw [phase_prepare_of_ne s ws h]) (by rw [writes_prepare_of_ne s ws h])

lemma wrote_setPhase_committed (s : State T X V) {x : X} (h : u ≠ t ∨ s.writes t x = none) :
    (s.setPhase t .committed).wrote x u = s.wrote x u := by
  by_cases hut : u = t
  · have hno : s.writes u x = none := by
      rw [hut]
      exact h.resolve_left (not_not.mpr hut)
    have hno' : (s.setPhase t .committed).writes u x = none := hno
    rw [wrote_of_none hno, wrote_of_none hno']
  · exact wrote_congr (by rw [phase_setPhase_of_ne s _ hut]) rfl

end

end State

variable (init) in
/-- The steps, each of one transaction. -/
inductive Step : State T X V → State T X V → Prop where
  | read (s : State T X V) (t : T) (x : X) (hphase : s.phase t = .executing) :
      Step s (s.addRead t ⟨x, (s.hist x).length, lastValue (init x) (s.hist x)⟩)
  | lock (s : State T X V) (t : T) (x : X) (hphase : s.phase t = .executing)
      (hfree : s.owner x = none) : Step s (s.setOwner x (some t))
  /-- all records to be written are locked -/
  | prepare (s : State T X V) (t : T) (ws : X → Option V) (hphase : s.phase t = .executing)
      (howner : ∀ x, s.owner x = some t ↔ (ws x).isSome = true) : Step s (s.prepare t ws)
  | validate (s : State T X V) (t : T) (o : Obs X V) (hphase : s.phase t = .prepared)
      (hfree : s.owner o.key = none ∨ s.owner o.key = some t)
      (hcurrent : o.ver = (s.hist o.key).length) : Step s (s.addChecked t o)
  | commit (s : State T X V) (t : T) (hphase : s.phase t = .prepared)
      (hall : ∀ o ∈ s.reads t, o ∈ s.checked t) : Step s (s.setPhase t .committed)
  | install (s : State T X V) (t : T) (x : X) (v : V) (hphase : s.phase t = .committed)
      (howner : s.owner x = some t) (hwrites : s.writes t x = some v) :
      Step s (s.install t x v)
  | abort (s : State T X V) (t : T) (hphase : s.phase t = .executing ∨ s.phase t = .prepared) :
      Step s (s.setPhase t .aborted)
  | release (s : State T X V) (t : T) (x : X) (hphase : s.phase t = .aborted)
      (howner : s.owner x = some t) : Step s (s.setOwner x none)

variable (init) in
inductive Reachable : State T X V → Prop where
  | start : Reachable State.start
  | step {s s' : State T X V} (h : Reachable s) (hs : Step init s s') : Reachable s'

/-! ## Preservation -/

section

omit [DecidableEq X]

lemma mem_update_append {α : Type} {f : T → List α} {a b : α} :
    b ∈ update f t (f t ++ [a]) u ↔ b ∈ f u ∨ u = t ∧ b = a := by
  by_cases h : u = t
  · subst h
    simp
  · simp [h]

lemma Inv.read (h : Inv init s) (hphase : s.phase t = .executing) :
    Inv init (s.addRead t ⟨x, (s.hist x).length, lastValue (init x) (s.hist x)⟩) := by
  set o0 : Obs X V := ⟨x, (s.hist x).length, lastValue (init x) (s.hist x)⟩
  -- an active transaction is not `t`, so that its reads are the old ones
  have hold : ∀ u, s.phase u ≠ .executing → ∀ o ∈ (s.addRead t o0).reads u, o ∈ s.reads u :=
    fun u hu o ho => (mem_update_append.mp ho).resolve_right fun heq => hu (heq.1 ▸ hphase)
  refine { h with seen := ?_, early := ?_, settled := ?_, all := ?_ }
  · intro u o ho
    rcases mem_update_append.mp ho with ho | ⟨-, rfl⟩
    · exact h.seen u o ho
    · exact ⟨le_rfl, congrArg (lastValue (init x)) take_length.symm⟩
  · intro u a b hab hu o ho
    exact h.early u a b hab hu o (hold u (Active.ne_executing (.inl hu)) o ho)
  · intro u a b hab hu o ho hchk
    have := h.settled u a b hab hu o (hold u (Active.ne_executing hu) o ho) hchk
    exact ⟨this.writers, this.closed⟩
  · exact fun u hu o ho => h.all u hu o (hold u (Active.ne_executing (.inr hu)) o ho)

lemma Inv.abort (h : Inv init s) (hphase : s.phase t = .executing ∨ s.phase t = .prepared) :
    Inv init (s.setPhase t .aborted) := by
  have hph' : ∀ u p, (s.setPhase t .aborted).phase u = p → p ≠ .aborted → s.phase u = p := by
    intro u p hu hp
    by_cases hut : u = t
    · rw [hut] at hu
      exact absurd ((update_self ..).symm.trans hu).symm hp
    · exact (update_of_ne hut ..).symm.trans hu
  have hact : ∀ u, (s.setPhase t .aborted).Active u → s.Active u := by
    rintro u (hu | hu)
    · exact .inl (hph' u _ hu nofun)
    · exact .inr (hph' u _ hu nofun)
  have hcom : ∀ u, (s.setPhase t .aborted).phase u = .committed ↔ s.phase u = .committed := by
    refine fun u => ⟨fun hu => hph' u _ hu nofun, fun hu => ?_⟩
    have hut : u ≠ t := by
      rintro rfl
      rcases hphase with h' | h' <;> rw [h'] at hu <;> cases hu
    exact (update_of_ne hut ..).trans hu
  have hwrt : (s.setPhase t .aborted).wrote = s.wrote := by
    funext y u
    exact wrote_congr (hcom u) rfl
  have hpnd : (s.setPhase t .aborted).pending = s.pending := by
    funext y
    exact pending_congr rfl fun u _ => hcom u
  refine { h with
    prepared_of_mem := ?_
    mem_of_active := ?_
    owns := ?_
    owned := ?_
    writers := ?_
    behind := ?_
    early := ?_
    settled := ?_
    all := ?_ }
  · intro u hu hex
    exact h.prepared_of_mem u hu (hph' u _ hex nofun)
  · exact fun u hu => h.mem_of_active u (hact u hu)
  · exact fun u y hu hw => h.owns u y (hph' u _ hu nofun) hw
  · exact fun u y hy hu => h.owned u y hy (hact u hu)
  · intro y
    rw [hwrt, hpnd]
    exact h.writers y
  · exact fun u y a b hab hy hu w hw hwa =>
      h.behind u y a b hab hy (hact u hu) w hw (hact w hwa)
  · intro u a b hab hu o ho
    rw [hwrt]
    exact h.early u a b hab (hph' u _ hu nofun) o ho
  · intro u a b hab hu o ho hchk
    have := h.settled u a b hab (hact u hu) o ho hchk
    refine ⟨?_, fun w hw hwp => this.closed w hw (hph' w _ hwp nofun)⟩
    rw [hwrt]
    exact this.writers
  · exact fun u hu => h.all u ((hcom u).mp hu)

section Prepare

variable {ws : X → Option V}

lemma pending_prepare (hphase : s.phase t = .executing) (y : X) :
    (s.prepare t ws).pending y = s.pending y := by
  refine pending_congr rfl fun u _ => ?_
  by_cases hu : u = t
  · rw [hu, phase_prepare, hphase]
    exact ⟨nofun, nofun⟩
  · rw [phase_prepare_of_ne s ws hu]

namespace Inv

variable (h : Inv init s) (hphase : s.phase t = .executing)

include h hphase

omit [DecidableEq T] in
lemma ne_of_mem (hu : u ∈ s.order) : u ≠ t := by
  rintro rfl
  exact h.prepared_of_mem u hu hphase

lemma filter_prepare (y : X) (hl : ∀ u ∈ l, u ∈ s.order) :
    l.filter ((s.prepare t ws).wrote y) = l.filter (s.wrote y) :=
  filter_congr fun u hu => wrote_prepare_of_ne s ws y (h.ne_of_mem hphase (hl u hu))

/-- The new transaction has written nothing yet. -/
lemma writers_prepare (y : X) : (s.order ++ [t]).filter ((s.prepare t ws).wrote y)
    = (s.hist y).map Version.writer ++ (s.prepare t ws).pending y := by
  have hla : (s.prepare t ws).wrote y t = false := wrote_eq_false (by rw [phase_prepare]; nofun)
  rw [filter_append, h.filter_prepare hphase y fun _ => id, pending_prepare hphase,
    filter_singleton, hla, h.writers y]
  exact append_nil _

/-- It comes last, and owns what it writes. -/
lemma behind_prepare (howner : ∀ x, s.owner x = some t ↔ (ws x).isSome = true) (y : X)
    (hab : s.order ++ [t] = a ++ u :: b) (hy : s.owner y = some u)
    (hu : (s.prepare t ws).Active u) {w : T} (hw : w ∈ b) (hwa : (s.prepare t ws).Active w) :
    (s.prepare t ws).writes w y = none := by
  rcases append_singleton_eq hab with ⟨rfl, -, -⟩ | ⟨b', rfl, hab'⟩
  · cases hw
  have hut : u ≠ t := h.ne_of_mem hphase (mem_mid hab')
  rcases mem_append.mp hw with hw | hw
  · have hwt := h.ne_of_mem hphase (mem_right hab' hw)
    rw [writes_prepare_of_ne s ws hwt]
    exact h.behind u y a b' hab' hy ((active_prepare_of_ne s ws hut).mp hu) w hw
      ((active_prepare_of_ne s ws hwt).mp hwa)
  · rw [mem_singleton.mp hw, writes_prepare]
    rcases hws : ws y with _ | v
    · rfl
    · have hyt := (howner y).mpr (by rw [hws]; rfl)
      exact absurd (Option.some.inj (hy.symm.trans hyt)) hut

lemma early_prepare (hab : s.order ++ [t] = a ++ u :: b)
    (hu : (s.prepare t ws).phase u = .prepared) {o : Obs X V} (ho : o ∈ s.reads u) :
    o.ver ≤ (a.filter ((s.prepare t ws).wrote o.key)).length := by
  rcases append_singleton_eq hab with ⟨rfl, rfl, rfl⟩ | ⟨b', rfl, hab'⟩
  · rw [h.filter_prepare hphase o.key fun _ => id, h.writers o.key, length_append, length_map]
    exact (h.seen u o ho).1.trans (Nat.le_add_right _ _)
  · have hut := h.ne_of_mem hphase (mem_mid hab')
    rw [h.filter_prepare hphase o.key fun w hw => mem_left hab' hw]
    exact h.early u a b' hab' ((phase_prepare_of_ne s ws hut).symm.trans hu) o ho

lemma settled_prepare (hab : s.order ++ [t] = a ++ u :: b) (hu : (s.prepare t ws).Active u)
    {o : Obs X V} (ho : o ∈ s.reads u) (hchk : o ∈ (s.prepare t ws).checked u) :
    Settled (s.prepare t ws) a o := by
  rcases append_singleton_eq hab with ⟨rfl, rfl, rfl⟩ | ⟨b', rfl, hab'⟩
  · rw [checked_prepare] at hchk
    cases hchk
  have hut := h.ne_of_mem hphase (mem_mid hab')
  rw [checked_prepare_of_ne s ws hut] at hchk
  have := h.settled u a b' hab' ((active_prepare_of_ne s ws hut).mp hu) o ho hchk
  refine ⟨?_, fun w hw hwp => ?_⟩
  · rw [h.filter_prepare hphase o.key fun w hw => mem_left hab' hw]
    exact this.writers
  · have hwt := h.ne_of_mem hphase (mem_left hab' hw)
    rw [writes_prepare_of_ne s ws hwt]
    exact this.closed w hw ((phase_prepare_of_ne s ws hwt).symm.trans hwp)

lemma prepare (howner : ∀ x, s.owner x = some t ↔ (ws x).isSome = true) :
    Inv init (s.prepare t ws) where
  nodup := nodup_append.mpr ⟨h.nodup, nodup_singleton t, fun a ha b hb => by
    rw [mem_singleton.mp hb]
    exact h.ne_of_mem hphase ha⟩
  prepared_of_mem u hu := by
    by_cases hut : u = t
    · rw [hut, phase_prepare]
      nofun
    · rw [phase_prepare_of_ne s ws hut]
      rcases mem_append.mp hu with hu | hu
      · exact h.prepared_of_mem u hu
      · exact absurd (mem_singleton.mp hu) hut
  mem_of_active u hu := by
    by_cases hut : u = t
    · rw [hut]
      exact mem_append_right _ (mem_singleton_self t)
    · exact mem_append_left _ (h.mem_of_active u ((active_prepare_of_ne s ws hut).mp hu))
  owns u y hu hw := by
    by_cases hut : u = t
    · rw [hut, writes_prepare] at hw
      rw [hut]
      exact (howner y).mpr hw
    · rw [phase_prepare_of_ne s ws hut] at hu
      rw [writes_prepare_of_ne s ws hut] at hw
      exact h.owns u y hu hw
  owned u y hy hu := by
    by_cases hut : u = t
    · rw [hut, writes_prepare]
      exact (howner y).mp (hut ▸ hy)
    · rw [writes_prepare_of_ne s ws hut]
      exact h.owned u y hy ((active_prepare_of_ne s ws hut).mp hu)
  writers := h.writers_prepare hphase
  behind u y a b hab hy hu w hw := h.behind_prepare hphase howner y hab hy hu hw
  values y e he := by
    have het : e.writer ≠ t := by
      intro heq
      have := h.hist_committed he
      rw [heq, hphase] at this
      cases this
    rw [writes_prepare_of_ne s ws het]
    exact h.values y e he
  seen := h.seen
  early u a b hab hu o := h.early_prepare hphase hab hu
  settled u a b hab hu o := h.settled_prepare hphase hab hu
  all u hu o ho := by
    have hut : u ≠ t := by
      rintro rfl
      rw [phase_prepare] at hu
      cases hu
    rw [checked_prepare_of_ne s ws hut]
    exact h.all u ((phase_prepare_of_ne s ws hut).symm.trans hu) o ho

end Inv

end Prepare

/-- All writers of a version that is current and not locked by another come
before the transaction that validates it. -/
lemma Inv.addChecked {o : Obs X V} (h : Inv init s) (hphase : s.phase t = .prepared)
    (hfree : s.owner o.key = none ∨ s.owner o.key = some t)
    (hcurrent : o.ver = (s.hist o.key).length) : Inv init (s.addChecked t o) := by
  have hpnd : s.pending o.key = [] := by
    refine pending_eq_nil fun u hu => ?_
    rcases hfree with hf | hf <;> rw [hf] at hu <;> cases hu
    rw [hphase]
    nofun
  have hwrs : s.order.filter (s.wrote o.key) = (s.hist o.key).map Version.writer := by
    rw [h.writers o.key, hpnd, append_nil]
  refine { h with settled := ?_, all := ?_ }
  · intro u a b hab hu o' ho' hchk
    rcases mem_update_append.mp hchk with hc | ⟨rfl, rfl⟩
    · have := h.settled u a b hab hu o' ho' hc
      exact ⟨this.writers, this.closed⟩
    · -- the version read is the last one, and no writer comes after `t`
      have herl := h.early u a b hab hphase o' ho'
      have hspl : a.filter (s.wrote o'.key) ++ (u :: b).filter (s.wrote o'.key)
          = (s.hist o'.key).map Version.writer := by
        rw [← filter_append, ← show s.order = a ++ u :: b from hab, hwrs]
      have hlen := congrArg length hspl
      rw [length_append, length_map, ← hcurrent] at hlen
      have hno : (u :: b).filter (s.wrote o'.key) = [] := eq_nil_of_length_eq_zero (by omega)
      rw [hno, append_nil] at hspl
      refine ⟨?_, fun w hw hwp => ?_⟩
      · change a.filter (s.wrote o'.key) = ((s.hist o'.key).take o'.ver).map Version.writer
        rw [hspl, hcurrent, take_length]
      · refine h.prepared_owner hwp ?_
        rcases hfree with hf | hf <;> rw [hf]
        · nofun
        · intro heq
          have := Option.some.inj heq
          exact not_mem_left hab h.nodup (this ▸ hw)
  · exact fun u hu o' ho' => mem_update_append.mpr (.inl (h.all u hu o' ho'))

/-- The committed writers of a record that `t` writes end with `t`. -/
lemma Inv.commit_writers (h : Inv init s) (hphase : s.phase t = .prepared) (y : X) :
    s.order.filter ((s.setPhase t .committed).wrote y) =
      (s.hist y).map Version.writer ++ (s.setPhase t .committed).pending y := by
  obtain ⟨a0, b0, hord⟩ := append_of_mem (h.mem_of_active t (.inl hphase))
  by_cases hy : (s.writes t y).isSome = true
  · obtain ⟨hbef, hbhn⟩ := h.writers_before hphase hy hord
    have ha : a0.filter ((s.setPhase t .committed).wrote y) = a0.filter (s.wrote y) :=
      filter_congr fun u hu => s.wrote_setPhase_committed
        (.inl fun heq => not_mem_left hord h.nodup (heq ▸ hu))
    have hb : b0.filter ((s.setPhase t .committed).wrote y) = b0.filter (s.wrote y) :=
      filter_congr fun u hu => s.wrote_setPhase_committed
        (.inl fun heq => not_mem_right hord h.nodup (heq ▸ hu))
    have hla : (s.setPhase t .committed).wrote y t = true :=
      wrote_eq_true.mpr ⟨phase_setPhase .., hy⟩
    have hpn : (s.setPhase t .committed).pending y = [t] :=
      pending_of_committed (h.owns t y hphase hy) (phase_setPhase ..)
    rw [hord, filter_append, ha, hbef, filter_cons_of_pos hla, hb, hbhn, hpn]
  · have hno : s.writes t y = none := by
      simpa using hy
    have hpn : (s.setPhase t .committed).pending y = s.pending y := by
      refine pending_congr rfl fun u hu => ?_
      have hut : u ≠ t := by
        rintro rfl
        exact hy (h.owned u y hu (.inl hphase))
      rw [phase_setPhase_of_ne s _ hut]
    rw [hpn, filter_congr fun u _ => s.wrote_setPhase_committed (.inr hno)]
    exact h.writers y

lemma Inv.commit (h : Inv init s) (hphase : s.phase t = .prepared)
    (hall : ∀ o ∈ s.reads t, o ∈ s.checked t) : Inv init (s.setPhase t .committed) := by
  have hact : ∀ u, (s.setPhase t .committed).Active u ↔ s.Active u := by
    intro u
    by_cases hut : u = t
    · rw [hut]
      exact ⟨fun _ => .inl hphase, fun _ => .inr (phase_setPhase ..)⟩
    · unfold State.Active
      rw [phase_setPhase_of_ne s _ hut]
  have hprp : ∀ u, (s.setPhase t .committed).phase u = .prepared →
      u ≠ t ∧ s.phase u = .prepared := by
    intro u hu
    have hut : u ≠ t := by
      rintro rfl
      rw [phase_setPhase] at hu
      cases hu
    exact ⟨hut, (phase_setPhase_of_ne s _ hut).symm.trans hu⟩
  refine { h with
    prepared_of_mem := ?_
    mem_of_active := ?_
    owns := ?_
    owned := ?_
    writers := ?_
    behind := ?_
    early := ?_
    settled := ?_
    all := ?_ }
  · intro u hu
    by_cases hut : u = t
    · rw [hut, phase_setPhase]
      nofun
    · rw [phase_setPhase_of_ne s _ hut]
      exact h.prepared_of_mem u hu
  · exact fun u hu => h.mem_of_active u ((hact u).mp hu)
  · exact fun u y hu hw => h.owns u y (hprp u hu).2 hw
  · exact fun u y hy hu => h.owned u y hy ((hact u).mp hu)
  · exact fun y => h.commit_writers hphase y
  · exact fun u y a b hab hy hu w hw hwa =>
      h.behind u y a b hab hy ((hact u).mp hu) w hw ((hact w).mp hwa)
  · intro u a b hab hu o ho
    refine (h.early u a b hab (hprp u hu).2 o ho).trans ?_
    rw [← countP_eq_length_filter, ← countP_eq_length_filter]
    refine countP_mono_left fun w _ hw => ?_
    have hwt : w ≠ t := by
      rintro rfl
      exact absurd (hphase.symm.trans (wrote_eq_true.mp hw).1) nofun
    rwa [s.wrote_setPhase_committed (.inl hwt)]
  · intro u a b hab hu o ho hchk
    have hset := h.settled u a b hab ((hact u).mp hu) o ho hchk
    refine ⟨?_, fun w hw hwp => hset.closed w hw (hprp w hwp).2⟩
    refine Eq.trans (filter_congr fun w hw => ?_) hset.writers
    refine s.wrote_setPhase_committed ?_
    by_cases hwt : w = t
    · exact .inr (hwt ▸ hset.closed w hw (hwt ▸ hphase))
    · exact .inl hwt
  · intro u hu o ho
    by_cases hut : u = t
    · rw [hut] at ho ⊢
      exact hall o ho
    · exact h.all u ((phase_setPhase_of_ne s _ hut).symm.trans hu) o ho

end

section

omit [DecidableEq T]

lemma Inv.setOwner {w : Option T} (h : Inv init s)
    (hold : ∀ u, s.owner x = some u → ¬ s.Active u) (hnew : ∀ u, w = some u → ¬ s.Active u) :
    Inv init (s.setOwner x w) := by
  have hoth : ∀ y u, (s.setOwner x w).owner y = some u → s.Active u → s.owner y = some u := by
    intro y u hy hu
    by_cases hyx : y = x
    · have hsf : (s.setOwner x w).owner x = w := update_self ..
      rw [hyx, hsf] at hy
      exact absurd hu (hnew u hy)
    · exact (update_of_ne hyx ..).symm.trans hy
  refine { h with owns := ?_, owned := ?_, writers := ?_, behind := ?_, settled := ?_ }
  · intro u y hu hw
    have hy := h.owns u y hu hw
    by_cases hyx : y = x
    · exact absurd (.inl hu) (hold u (hyx ▸ hy))
    · exact (update_of_ne hyx ..).trans hy
  · intro u y hy hu
    exact h.owned u y (hoth y u hy hu) hu
  · intro y
    have hpnd : (s.setOwner x w).pending y = s.pending y := by
      by_cases hyx : y = x
      · have hsf : (s.setOwner x w).owner x = w := update_self ..
        rw [hyx, pending_eq_nil fun u hu hc => hold u hu (.inr hc)]
        exact pending_eq_nil fun u hu hc => hnew u (hsf.symm.trans hu) (.inr hc)
      · exact pending_congr (update_of_ne hyx ..) fun _ _ => Iff.rfl
    rw [hpnd]
    exact h.writers y
  · intro u y a b hab hy hu
    exact h.behind u y a b hab (hoth y u hy hu) hu
  · intro u a b hab hu o ho hchk
    have := h.settled u a b hab hu o ho hchk
    exact ⟨this.writers, this.closed⟩

lemma Inv.install {v : V} (h : Inv init s) (hphase : s.phase t = .committed)
    (howner : s.owner x = some t) (hwrites : s.writes t x = some v) :
    Inv init (s.install t x v) := by
  have howner_of : ∀ y u, (s.install t x v).owner y = some u → y ≠ x ∧ s.owner y = some u := by
    intro y u hy
    by_cases hyx : y = x
    · have hno : (s.install t x v).owner y = none := by
        rw [hyx]
        exact update_self ..
      rw [hno] at hy
      cases hy
    · exact ⟨hyx, (update_of_ne hyx ..).symm.trans hy⟩
  have hhist_x : (s.install t x v).hist x = s.hist x ++ [⟨t, v⟩] := update_self ..
  have hhist_of : ∀ y, y ≠ x → (s.install t x v).hist y = s.hist y := fun y hy => update_of_ne hy ..
  have htk : ∀ y n, n ≤ (s.hist y).length →
      ((s.install t x v).hist y).take n = (s.hist y).take n := by
    intro y n hn
    by_cases hyx : y = x
    · rw [hyx] at hn ⊢
      rw [hhist_x, take_append_of_le_length hn]
    · rw [hhist_of y hyx]
  refine { h with
    owns := ?_
    owned := ?_
    writers := ?_
    behind := ?_
    values := ?_
    seen := ?_
    settled := ?_ }
  · intro u y hu hw
    have hy := h.owns u y hu hw
    by_cases hyx : y = x
    · rw [hyx, howner] at hy
      cases hy
      exact absurd (hphase.symm.trans hu) nofun
    · exact (update_of_ne hyx ..).trans hy
  · exact fun u y hy hu => h.owned u y (howner_of y u hy).2 hu
  · intro y
    have hw := h.writers y
    by_cases hyx : y = x
    · have hpn : (s.install t x v).pending x = [] :=
        pending_eq_nil fun u hu => absurd rfl (howner_of x u hu).1
      rw [hyx, pending_of_committed howner hphase] at hw
      rw [hyx, hpn, append_nil, hhist_x, map_append]
      exact hw
    · have hpn : (s.install t x v).pending y = s.pending y :=
        pending_congr (update_of_ne hyx ..) fun _ _ => Iff.rfl
      rw [hpn, hhist_of y hyx]
      exact hw
  · exact fun u y a b hab hy hu => h.behind u y a b hab (howner_of y u hy).2 hu
  · intro y e he
    by_cases hyx : y = x
    · rw [hyx, hhist_x] at he
      rcases mem_append.mp he with he | he
      · rw [hyx]
        exact h.values x e he
      · rw [mem_singleton.mp he, hyx]
        exact hwrites
    · rw [hhist_of y hyx] at he
      exact h.values y e he
  · intro u o ho
    obtain ⟨hver, hval⟩ := h.seen u o ho
    refine ⟨hver.trans ?_, ?_⟩
    · by_cases hyx : o.key = x
      · rw [hyx, hhist_x, length_append]
        exact Nat.le_add_right _ _
      · rw [hhist_of _ hyx]
    · rw [htk o.key o.ver hver]
      exact hval
  · intro u a b hab hu o ho hchk
    have hset := h.settled u a b hab hu o ho hchk
    refine ⟨?_, hset.closed⟩
    rw [htk o.key o.ver (h.seen u o ho).1]
    exact hset.writers

end

lemma Reachable.inv (h : Reachable init s) : Inv init s := by
  induction h with
  | start => exact inv_start
  | step _ hs ih =>
    cases hs with
    | read t x hphase => exact ih.read hphase
    | lock t x hphase hfree =>
      refine ih.setOwner (fun u hu => ?_) fun u hu hact => ?_
      · rw [hfree] at hu
        cases hu
      · cases hu
        exact Active.ne_executing hact hphase
    | prepare t ws hphase howner => exact ih.prepare hphase howner
    | validate t o hphase hfree hcurrent => exact ih.addChecked hphase hfree hcurrent
    | commit t hphase hall => exact ih.commit hphase hall
    | install t x v hphase howner hwrites => exact ih.install hphase howner hwrites
    | abort t hphase => exact ih.abort hphase
    | release t x hphase howner =>
      refine ih.setOwner (fun u hu hact => ?_) nofun
      rw [howner] at hu
      cases hu
      rcases hact with ha | ha <;> rw [hphase] at ha <;> cases ha

/-! ## Serializability -/

/-- **The committed transactions could have run one after the other** in the order
in which they were prepared: each has read what the ones before it leave, and
they leave every record that no committed transaction has yet to install. -/
lemma Reachable.serializable (h : Reachable init s) : Serial init (s.serialOrder.map s.txn) ∧
      ∀ x, s.pending x = [] →
        replay init (s.serialOrder.map s.txn) x = lastValue (init x) (s.hist x) := by
  have hinv := h.inv
  constructor
  · intro a t b hab r hr
    obtain ⟨a', rest, hspl, rfl, hrs⟩ := map_eq_append_iff.mp hab
    obtain ⟨u, b', rfl, rfl, rfl⟩ := map_eq_cons_iff.mp hrs
    obtain ⟨l1, l2, hord, hl1, hl2⟩ := filter_eq_append_iff.mp hspl
    obtain ⟨m1, m2, rfl, hm1, hu, -⟩ := filter_eq_cons_iff.mp hl2
    obtain ⟨o, ho, rfl⟩ := mem_map.mp hr
    have hcom : s.phase u = .committed := by simpa using hu
    have hord' : s.order = (l1 ++ m1) ++ u :: m2 := by
      rw [hord, append_assoc]
    have hset := hinv.settled u _ _ hord' (.inr hcom) o ho (hinv.all u hcom o ho)
    have hbef : (l1 ++ m1).filter (fun t => decide (s.phase t = .committed)) = a' := by
      rw [filter_append, hl1, filter_eq_nil_iff.mpr hm1, append_nil]
    have hrpl := hinv.replay_part (l1 ++ m1) o.ver hset.writers
    rw [hbef] at hrpl
    exact hrpl.trans (hinv.seen u o ho).2.symm
  · intro x hx
    have hwrs := hinv.writers x
    rw [hx, append_nil] at hwrs
    have hall : s.order.filter (s.wrote x)
        = ((s.hist x).take (s.hist x).length).map Version.writer := by
      rw [take_length, hwrs]
    have hrpl := hinv.replay_part s.order _ hall
    rwa [take_length] at hrpl

lemma Reachable.mem_serialOrder (h : Reachable init s) :
    t ∈ s.serialOrder ↔ s.phase t = .committed := by
  unfold State.serialOrder
  rw [mem_filter, decide_eq_true_eq]
  exact ⟨And.right, fun ht => ⟨h.inv.mem_of_active t (.inr ht), ht⟩⟩

lemma Reachable.nodup_serialOrder (h : Reachable init s) : s.serialOrder.Nodup :=
  h.inv.nodup.filter _

end Librdpma.Lib.Occ
