import Librdpma.LevelKv.Dpu

/-!
# The handlers without their notes

A handler that keeps its notes of the frames ends as it does without them
(`outcome_processSearch`, `outcome_processWith`, `outcome_insertNoExpand`).
-/

namespace Librdpma.LevelKv.Dpu

open Lib Traced

variable {K V α β : Type} {env : Env K} {s : Dpu K V}

@[simp] lemma outcome_fetchBucket (b : ℕ) :
    (s.fetchBucket env b : Traced Event _).outcome = s.fetchBucket env b := by
  unfold fetchBucket
  simp

@[simp] lemma outcome_load (b : ℕ) :
    (s.load env b : Traced Event _).outcome = s.load env b := by
  unfold load
  cases s.bucketTable b with
  | none | some f => simp

lemma outcome_scan (act : Access K V α) (bs : List ℕ) :
    (s.scan act bs : Traced Event _).outcome = s.scan act bs := by
  induction bs generalizing s with
  | nil => rfl
  | cons b bs ih =>
    unfold scan
    cases s.bucketTable b with
    | none => simp [ih]
    | some f =>
      simp only [outcome_bind, outcome_note, Outcome.done_bind, note_outcome]
      cases act ((s.recordAccess f).cache f) ((s.recordAccess f).dirtyFlag f) with
      | none => exact ih
      | some x => rfl

lemma outcome_fetchAll (bs : List ℕ) :
    (s.fetchAll env bs : Traced Event _).outcome = s.fetchAll env bs := by
  induction bs generalizing s with
  | nil => rfl
  | cons b bs ih =>
    unfold fetchAll
    simp [ih]

lemma outcome_processSearch [DecidableEq K] (key : K) :
    (s.processSearch env key : Traced Event _).outcome = s.processSearch env key := by
  unfold processSearch
  rw [outcome_bind, outcome_scan]
  refine bind_congr fun p => ?_
  obtain ⟨hit, toFetch, t⟩ := p
  cases hit with
  | some v => rfl
  | none => simp [outcome_fetchAll]

lemma outcome_processWith (act : Access K V Unit) (key : K) :
    (s.processWith act env key : Traced Event _).outcome = s.processWith act env key := by
  unfold processWith
  rw [outcome_bind, outcome_scan]
  refine bind_congr fun p => ?_
  obtain ⟨hit, toFetch, t⟩ := p
  cases hit with
  | some v => rfl
  | none => simp [outcome_fetchAll]

@[simp] lemma outcome_lookupOrFetch (b : ℕ) :
    (s.lookupOrFetch env b : Traced Event _).outcome = s.lookupOrFetch env b := by
  unfold lookupOrFetch
  cases s.bucketTable b with
  | none | some f => simp

@[simp] lemma outcome_tryInsertInto2Buckets (b0 b1 : ℕ) (x : K × V) :
    (s.tryInsertInto2Buckets env b0 b1 x : Traced Event _).outcome
      = s.tryInsertInto2Buckets env b0 b1 x := by
  unfold tryInsertInto2Buckets
  simp only [outcome_bind, outcome_lookupOrFetch]
  refine bind_congr fun p => bind_congr fun q => ?_
  cases q.2.settleFetched b0 p.1 with
  | none => rfl
  | some s =>
    dsimp only
    cases s.settleFetched b1 q.1 with
    | none => rfl
    | some s =>
      dsimp only
      cases (s.cache (s.lessLoaded p.1.2 q.1.2)).insertSlot x.1 x.2 with
      | none => rfl
      | some y => rfl

lemma outcome_untilTrue {body : Dpu K V → β → Traced Event (Bool × Dpu K V)}
    {body' : Dpu K V → β → Outcome (Bool × Dpu K V)}
    (hbd : ∀ s a, (body s a).outcome = body' s a) (l : List β) :
    (s.untilTrue body l).outcome = s.untilTrue body' l := by
  induction l generalizing s with
  | nil => rfl
  | cons a l ih =>
    unfold untilTrue
    rw [outcome_bind, hbd]
    refine bind_congr fun p => ?_
    dsimp only
    cases p.1 with
    | true => rfl
    | false => exact ih

lemma outcome_moveTo {src d : ℕ} {f : Frame} {slot : Fin 4} :
    (moveTo env src f slot s d : Traced Event _).outcome = moveTo env src f slot s d := by
  unfold moveTo
  split
  · rfl
  · rw [outcome_bind, outcome_load]
    refine bind_congr fun p => ?_
    dsimp only
    cases (p.2.cache p.1).insertSlot ((p.2.cache f).slots slot).1 ((p.2.cache f).slots slot).2 with
    | none => rfl
    | some y => rfl

lemma outcome_moveSlot {src : ℕ} {f : Frame} {slot : Fin 4} :
    (moveSlot env src f s slot : Traced Event _).outcome = moveSlot env src f s slot :=
  outcome_untilTrue (fun _ _ => outcome_moveTo) _

lemma outcome_moveFrom {src : ℕ} {x : K × V} :
    (moveFrom env x s src : Traced Event _).outcome = moveFrom env x s src := by
  unfold moveFrom
  simp only [outcome_bind, outcome_load, outcome_lift,
    outcome_untilTrue fun _ _ => outcome_moveSlot]
  refine bind_congr fun p => bind_congr fun _ => bind_congr fun q => ?_
  cases q.1 with
  | true => simp
  | false => rfl

lemma outcome_insertNoExpand (x : K × V) :
    (s.insertNoExpand env x : Traced Event _).outcome = s.insertNoExpand env x := by
  unfold insertNoExpand
  rw [outcome_bind, outcome_tryInsertInto2Buckets]
  refine bind_congr fun p => ?_
  obtain ⟨done, s1⟩ := p
  cases done with
  | true => rfl
  | false =>
    dsimp only
    rw [if_neg Bool.false_ne_true, if_neg Bool.false_ne_true, outcome_bind,
      outcome_tryInsertInto2Buckets]
    refine bind_congr fun q => ?_
    obtain ⟨done, s2⟩ := q
    cases done with
    | true => rfl
    | false => exact outcome_untilTrue (fun _ _ => outcome_moveFrom) _

end Librdpma.LevelKv.Dpu
