import Mathlib

/-!
# Outcomes of a call

A call of the modelled code either returns, ends the process (`exit()`,
`std::terminate()`), runs into behaviour the language leaves undefined, or
does not come back within the steps it was given. The last three carry no
state: nothing is claimed about a process after them.
-/

namespace Librdpma.Lib

inductive Outcome (α : Type) : Type where
  | done (a : α)
  | exit
  | undefined
  | loop
deriving DecidableEq, Repr

namespace Outcome

variable {α β γ : Type}

/-- Run `f` on the result of a call that returned. -/
def bind (x : Outcome α) (f : α → Outcome β) : Outcome β :=
  match x with
  | .done a => f a
  | .exit => .exit
  | .undefined => .undefined
  | .loop => .loop

instance : Monad Outcome where
  pure := .done
  bind := bind

@[simp] lemma pure_eq (a : α) : (pure a : Outcome α) = .done a := rfl

@[simp] lemma done_bind (a : α) (f : α → Outcome β) : (Outcome.done a >>= f) = f a := rfl

@[simp] lemma exit_bind (f : α → Outcome β) : ((Outcome.exit : Outcome α) >>= f) = .exit := rfl

@[simp] lemma undefined_bind (f : α → Outcome β) :
    ((Outcome.undefined : Outcome α) >>= f) = .undefined := rfl

@[simp] lemma loop_bind (f : α → Outcome β) : ((Outcome.loop : Outcome α) >>= f) = .loop := rfl

instance : LawfulMonad Outcome :=
  LawfulMonad.mk' Outcome (fun x => by cases x <;> rfl) (fun _ _ => rfl)
    fun x _ _ => by cases x <;> rfl

lemma bind_eq_done {x : Outcome α} {f : α → Outcome β} {b : β} :
    (x >>= f) = .done b ↔ ∃ a, x = .done a ∧ f a = .done b := by
  cases x with
  | done a =>
    constructor
    · intro h
      exact ⟨a, rfl, h⟩
    · rintro ⟨a', ha, hf⟩
      cases ha
      exact hf
  | exit | undefined | loop => simp

/-- Whether a call returns something with `p` can be evaluated. -/
instance {x : Outcome α} {p : α → Prop} [DecidablePred p] :
    Decidable (∃ a, x = .done a ∧ p a) :=
  match x with
  | .done a => decidable_of_iff (p a) ⟨fun h => ⟨a, rfl, h⟩, by rintro ⟨_, ⟨⟩, h⟩; exact h⟩
  | .exit | .undefined | .loop => .isFalse (by rintro ⟨_, ⟨⟩, _⟩)

instance {x : Outcome α} : Decidable (x = .undefined) :=
  match x with
  | .undefined => .isTrue rfl
  | .done _ | .exit | .loop => .isFalse nofun

/-! ## Calls that may end the process -/

/-- The call returns with `P`; it ends the process only if `e`. -/
def Sat (e : Prop) (x : Outcome α) (P : α → Prop) : Prop :=
  match x with
  | .done a => P a
  | .exit => e
  | .undefined => False
  | .loop => False

namespace Sat

variable {e : Prop} {x : Outcome α} {P : α → Prop}

lemma bind {f : α → Outcome β} {Q : β → Prop} (h : Sat e x P)
    (hf : ∀ a, P a → Sat e (f a) Q) : Sat e (x >>= f) Q := by
  cases x with
  | done a => exact hf a h
  | exit | undefined | loop => exact h

lemma mono {Q : α → Prop} (h : Sat e x P) (hPQ : ∀ a, P a → Q a) : Sat e x Q := by
  cases x with
  | done a => exact hPQ a h
  | exit | undefined | loop => exact h

lemma exists_done (h : Sat e x P) (he : e → x ≠ .exit) : ∃ a, x = .done a ∧ P a := by
  cases x with
  | done a => exact ⟨a, rfl, h⟩
  | exit => exact absurd rfl (he h)
  | undefined | loop => exact absurd h id

lemma foldlM {f : α → β → Outcome α} {I : List β → α → Prop} {l : List β} {a : α}
    (hst : ∀ b l a, I (b :: l) a → Sat e (f a b) (I l)) (h : I l a) :
    Sat e (l.foldlM f a) (I []) := by
  induction l generalizing a with
  | nil => exact h
  | cons b l ih =>
    rw [List.foldlM_cons]
    exact (hst b l a h).bind fun a' ha' => ih ha'

end Sat

end Outcome

end Librdpma.Lib
