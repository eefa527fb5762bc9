import Mathlib

/-!
# Two changes of one cell

Two parties change a cell. Each takes steps: at one it copies what it makes of
the value, at a later one it writes the copy back, and its other steps leave
the cell alone. A schedule says whose step comes when.

If at some time both have copied and none has written, one change is lost: the
cell ends with what the other made of the first value. Otherwise it ends with
one change made of the result of the other.
-/

namespace Librdpma.Lib

open List Function

/-- The cell, what the parties have copied, and how many steps they took. -/
structure Cell (α : Type) where
  value : α
  copy : Bool → α
  taken : Bool → ℕ

namespace Cell

variable {α : Type}

section Steps

variable (reads writes : ℕ) (change : Bool → α → α)

/-- A step of one party. Its steps are counted from 0: it copies at step
`reads` and writes at step `writes`. -/
def step (s : Cell α) (b : Bool) : Cell α where
  value := if s.taken b = writes then s.copy b else s.value
  copy := if s.taken b = reads then update s.copy b (change b s.value) else s.copy
  taken := update s.taken b (s.taken b + 1)

def run (s : Cell α) (sched : List Bool) : Cell α := sched.foldl (step reads writes change) s

/-- At some time both parties have copied and none has written. -/
def Overlap (sched : List Bool) : Prop :=
  ∃ p, p <+: sched ∧ ∀ b, reads < p.count b ∧ p.count b ≤ writes

end Steps

variable {reads writes : ℕ} {change : Bool → α → α} {x : α} {s : Cell α} {o : Prop}

section Fields

variable {b b' : Bool}

@[simp] lemma taken_step_self : (s.step reads writes change b).taken b = s.taken b + 1 :=
  update_self ..

lemma taken_step_of_ne (h : b' ≠ b) : (s.step reads writes change b).taken b' = s.taken b' :=
  update_of_ne h ..

lemma copy_step_of_ne (h : b' ≠ b) : (s.step reads writes change b).copy b' = s.copy b' := by
  unfold step
  dsimp only
  split
  · exact update_of_ne h ..
  · rfl

lemma copy_step_of_reads (h : s.taken b = reads) :
    (s.step reads writes change b).copy b = change b s.value := by
  unfold step
  dsimp only
  rw [if_pos h, update_self]

lemma copy_step_of_ne_reads (h : s.taken b ≠ reads) :
    (s.step reads writes change b).copy = s.copy :=
  if_neg h

lemma value_step_of_writes (h : s.taken b = writes) :
    (s.step reads writes change b).value = s.copy b :=
  if_pos h

lemma value_step_of_ne_writes (h : s.taken b ≠ writes) :
    (s.step reads writes change b).value = s.value :=
  if_neg h

end Fields

lemma run_snoc (s : Cell α) (sched : List Bool) (b : Bool) :
    run reads writes change s (sched ++ [b])
      = step reads writes change (run reads writes change s sched) b := by
  rw [run, foldl_append]
  rfl

lemma taken_run (s : Cell α) (sched : List Bool) (b : Bool) :
    (run reads writes change s sched).taken b = s.taken b + sched.count b := by
  induction sched using reverseRecOn with
  | nil => rfl
  | append_singleton sched b' ih =>
    rw [run_snoc, count_append]
    by_cases hb : b = b'
    · rw [← hb, taken_step_self, ih, count_singleton_self, Nat.add_assoc]
    · rw [taken_step_of_ne hb, ih, count_singleton, beq_false_of_ne (Ne.symm hb)]
      rfl

lemma overlap_snoc {sched : List Bool} {b : Bool} :
    Overlap reads writes (sched ++ [b]) ↔ Overlap reads writes sched ∨
      ∀ b', reads < (sched ++ [b]).count b' ∧ (sched ++ [b]).count b' ≤ writes := by
  constructor
  · rintro ⟨p, hp, hbt⟩
    rcases prefix_concat_iff.mp hp with rfl | hp
    · exact .inr hbt
    · exact .inl ⟨p, hp, hbt⟩
  · rintro (⟨p, hp, hbt⟩ | hbt)
    · exact ⟨p, hp.trans (prefix_append _ _), hbt⟩
    · exact ⟨_, prefix_rfl, hbt⟩

open scoped Classical in
/-- What a cell with first value `x` holds; `o` says whether the parties have
overlapped. -/
structure Inv (reads writes : ℕ) (change : Bool → α → α) (x : α) (o : Prop) (s : Cell α) :
    Prop where
  before : (∀ b, s.taken b ≤ writes) → s.value = x ∧ ∀ b, reads < s.taken b → s.copy b = change b x
  between : ∀ b, writes < s.taken b → s.taken (!b) ≤ writes →
    s.value = change b x ∧
      (reads < s.taken (!b) → s.copy (!b) = change (!b) (if o then x else change b x))
  after : (∀ b, writes < s.taken b) → ∃ b, s.value = change b (if o then x else change (!b) x)
  early : o → ∀ b, reads < s.taken b
  both : (∀ b, reads < s.taken b ∧ s.taken b ≤ writes) → o

lemma Inv.start (copy : Bool → α) : Inv reads writes change x False ⟨x, copy, fun _ => 0⟩ where
  before _ := ⟨rfl, nofun⟩
  between _ h := nomatch h
  after h := nomatch h true
  early h := h.elim
  both h := nomatch (h true).1

lemma Inv.step (hrw : reads < writes) (h : Inv reads writes change x o s) (b : Bool) :
    Inv reads writes change x
      (o ∨ ∀ b', reads < (s.step reads writes change b).taken b' ∧
        (s.step reads writes change b).taken b' ≤ writes)
      (s.step reads writes change b) := by
  have hne : (!b) ≠ b := by cases b <;> decide
  obtain ⟨hbef, hbtw, haft, herl, hbt⟩ := h
  -- what is said of all parties is said of `b` and of the other one
  simp only [Bool.forall_bool' b, Bool.exists_bool' b, Bool.not_not] at *
  constructor <;>
    simp only [Bool.forall_bool' b, Bool.exists_bool' b, Bool.not_not, Cell.step,
      update_self, update_of_ne hne] at *
  case before => grind
  case between => grind
  case after => grind
  case early => grind
  case both => grind

lemma inv_run (hrw : reads < writes) (copy : Bool → α) (sched : List Bool) :
    Inv reads writes change x (Overlap reads writes sched)
      (run reads writes change ⟨x, copy, fun _ => 0⟩ sched) := by
  induction sched using reverseRecOn with
  | nil =>
    have hno : ¬ Overlap reads writes [] := by
      rintro ⟨p, hp, hbt⟩
      rw [prefix_nil.mp hp] at hbt
      exact absurd (hbt true).1 (Nat.not_lt_zero _)
    rw [eq_false hno]
    exact Inv.start copy
  | append_singleton sched b ih =>
    have hst := ih.step hrw b
    rw [← run_snoc] at hst
    simp only [taken_run, Nat.zero_add] at hst
    rw [overlap_snoc]
    exact hst

variable {sched : List Bool}

open scoped Classical in
lemma value_run (hrw : reads < writes) (copy : Bool → α) (hall : ∀ b, writes < sched.count b) :
    ∃ b, (run reads writes change ⟨x, copy, fun _ => 0⟩ sched).value
      = change b (if Overlap reads writes sched then x else change (!b) x) := by
  refine (inv_run hrw copy sched).after fun b => ?_
  rw [taken_run, Nat.zero_add]
  exact hall b

lemma value_run_of_not_overlap (hrw : reads < writes) (copy : Bool → α)
    (hall : ∀ b, writes < sched.count b) (ho : ¬ Overlap reads writes sched) :
    ∃ b, (run reads writes change ⟨x, copy, fun _ => 0⟩ sched).value
      = change b (change (!b) x) := by
  obtain ⟨b, hb⟩ := value_run hrw copy hall
  exact ⟨b, by rw [hb, if_neg ho]⟩

lemma value_run_of_overlap (hrw : reads < writes) (copy : Bool → α)
    (hall : ∀ b, writes < sched.count b) (ho : Overlap reads writes sched) :
    ∃ b, (run reads writes change ⟨x, copy, fun _ => 0⟩ sched).value = change b x := by
  obtain ⟨b, hb⟩ := value_run hrw copy hall
  exact ⟨b, by rw [hb, if_pos ho]⟩

end Cell

end Librdpma.Lib
