import Librdpma.Lib.Outcome

/-!
# Calls with a trace

A call that also says what it did, as a list of events. The events are there even
if the call does not return. Forgetting them gives the plain call (`outcome`), and
`Sat` is the rule for properties of the trace that hold whatever the outcome is.

Code that notes events is written once, for any monad in `Notes`: as an `Outcome` it
drops its notes, as a `Traced` call it keeps them.
-/

namespace Librdpma.Lib

open List

/-- Calls that may note events. -/
class Notes (E : Type) (m : Type → Type) where
  note : List E → m Unit

export Notes (note)

@[default_instance]
instance (E : Type) : Notes E Outcome := ⟨fun _ => .done ()⟩

@[simp] lemma note_outcome {E : Type} (events : List E) :
    (note events : Outcome Unit) = .done () := rfl

structure Traced (E α : Type) where
  events : List E
  outcome : Outcome α

namespace Traced

variable {E α β : Type}

/-- The events of the second call follow if the first one returned. -/
def bind (x : Traced E α) (f : α → Traced E β) : Traced E β :=
  match x.outcome with
  | .done a => ⟨x.events ++ (f a).events, (f a).outcome⟩
  | .exit => ⟨x.events, .exit⟩
  | .undefined => ⟨x.events, .undefined⟩
  | .loop => ⟨x.events, .loop⟩

instance : Monad (Traced E) where
  pure a := ⟨[], .done a⟩
  bind := bind

/-- A call without events. -/
instance : MonadLift Outcome (Traced E) := ⟨fun x => ⟨[], x⟩⟩

instance : Notes E (Traced E) := ⟨fun events => ⟨events, .done ()⟩⟩

@[simp] lemma outcome_pure (a : α) : (pure a : Traced E α).outcome = .done a := rfl

@[simp] lemma outcome_lift (x : Outcome α) : (liftM x : Traced E α).outcome = x := rfl

@[simp] lemma outcome_note (events : List E) :
    (note events : Traced E Unit).outcome = .done () := rfl

@[simp] lemma outcome_bind (x : Traced E α) (f : α → Traced E β) :
    (x >>= f).outcome = x.outcome >>= fun a => (f a).outcome := by
  show (bind x f).outcome = _
  unfold bind
  cases x.outcome with
  | done a => rfl
  | exit => rfl
  | undefined => rfl
  | loop => rfl

@[simp] lemma lift_done_bind (a : α) (f : α → Traced E β) :
    (liftM (Outcome.done a) : Traced E α) >>= f = f a := rfl

/-- Behind the events `log` the call keeps `ok`, and returns with `Q` or ends the
process. -/
def Sat (ok : List E → Prop) (log : List E) (x : Traced E α) (Q : List E → α → Prop) : Prop :=
  ok (log ++ x.events) ∧ x.outcome.Sat True (Q (log ++ x.events))

namespace Sat

variable {ok : List E → Prop} {log : List E} {x : Traced E α} {Q : List E → α → Prop}

lemma pure {a : α} (hok : ok log) (h : Q log a) : Sat ok log (Pure.pure a) Q := by
  unfold Sat
  rw [show log ++ (Pure.pure a : Traced E α).events = log from append_nil log]
  exact ⟨hok, h⟩

lemma lift {o : Outcome α} (hok : ok log) (h : o.Sat True (Q log)) :
    Sat ok log (liftM o) Q := by
  unfold Sat
  rw [show log ++ (liftM o : Traced E α).events = log from append_nil log]
  exact ⟨hok, h⟩

lemma mono {R : List E → α → Prop} (h : Sat ok log x Q) (hQR : ∀ log a, Q log a → R log a) :
    Sat ok log x R :=
  ⟨h.1, h.2.mono fun a ha => hQR _ a ha⟩

lemma grows (h : Sat ok log x Q) : Sat ok log x fun log' a => log <+: log' ∧ Q log' a :=
  ⟨h.1, h.2.mono fun _ ha => ⟨prefix_append .., ha⟩⟩

lemma bind {f : α → Traced E β} {R : List E → β → Prop} (h : Sat ok log x Q)
    (hf : ∀ log a, Q log a → Sat ok log (f a) R) : Sat ok log (x >>= f) R := by
  show Sat ok log (Traced.bind x f) R
  obtain ⟨hok, hsat⟩ := h
  unfold Traced.bind
  cases hx : x.outcome with
  | done a =>
    rw [hx] at hsat
    obtain ⟨hok', hsat'⟩ := hf _ a hsat
    rw [append_assoc] at hok' hsat'
    exact ⟨hok', hsat'⟩
  | exit => exact ⟨hok, trivial⟩
  | undefined | loop =>
    rw [hx] at hsat
    exact absurd hsat id

lemma note_bind {events : List E} {f : Unit → Traced E β} {R : List E → β → Prop}
    (hok : ok (log ++ events)) (hf : Sat ok (log ++ events) (f ()) R) :
    Sat ok log (note events >>= f) R :=
  bind (Q := fun log' _ => log' = log ++ events) ⟨hok, rfl⟩ fun _ _ heq => heq ▸ hf

end Sat

end Traced

end Librdpma.Lib
