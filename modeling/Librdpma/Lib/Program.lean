import Librdpma.Lib.Outcome

/-!
# Programs over a state, and what they ensure of a view of it

A program takes a state and ends in an outcome that carries a result and the
state it leaves. A specification of a program looks at the state through a
view: a part of the state, or what the state stands for. Everything a program
does outside the view drops out of its specification, which is how one program
is given several of them.

A specification says nothing about a program that does not come back; `bad`
tells whether it allows behaviour the language leaves undefined.
-/

namespace Librdpma.Lib

namespace Outcome

variable {α β : Type} {bad : Prop} {x : Outcome α} {P : α → Prop}

/-- If the call returns, then with `P`; it is undefined only if `bad`. -/
inductive Ends (bad : Prop) : Outcome α → (α → Prop) → Prop where
  | done {a : α} {P : α → Prop} (h : P a) : Ends bad (.done a) P
  | exit {P : α → Prop} : Ends bad .exit P
  | undefined {P : α → Prop} (h : bad) : Ends bad .undefined P
  | loop {P : α → Prop} : Ends bad .loop P

namespace Ends

lemma bind {f : α → Outcome β} {Q : β → Prop} (h : Ends bad x P)
    (hf : ∀ a, P a → Ends bad (f a) Q) : Ends bad (x >>= f) Q := by
  cases h with
  | done ha => exact hf _ ha
  | exit => exact .exit
  | undefined hbad => exact .undefined hbad
  | loop => exact .loop

lemma mono {Q : α → Prop} (h : Ends bad x P) (hPQ : ∀ a, P a → Q a) : Ends bad x Q := by
  cases h with
  | done ha => exact .done (hPQ _ ha)
  | exit => exact .exit
  | undefined hbad => exact .undefined hbad
  | loop => exact .loop

lemma and {Q : α → Prop} (h : Ends bad x P) (hQ : Ends True x Q) :
    Ends bad x fun a => P a ∧ Q a := by
  cases h with
  | done ha =>
    cases hQ with
    | done ha' => exact .done ⟨ha, ha'⟩
  | exit => exact .exit
  | undefined hbad => exact .undefined hbad
  | loop => exact .loop

lemma of_done {a : α} (h : Ends bad x P) (hx : x = .done a) : P a := by
  subst hx
  cases h with
  | done ha => exact ha

end Ends

lemma ends_of_done (h : ∀ a, x = .done a → P a) : Ends True x P := by
  cases x with
  | done a => exact .done (h a rfl)
  | exit => exact .exit
  | undefined => exact .undefined trivial
  | loop => exact .loop

end Outcome

open Outcome

def Program (σ α : Type) : Type := σ → Outcome (α × σ)

namespace Program

variable {σ τ V W α β : Type}

instance : Monad (Program σ) where
  pure a := fun s => .done (a, s)
  bind x f := fun s => x s >>= fun r => f r.1 r.2

@[simp] lemma pure_apply (a : α) (s : σ) : (pure a : Program σ α) s = .done (a, s) := rfl

@[simp] lemma bind_apply (x : Program σ α) (f : α → Program σ β) (s : σ) :
    (x >>= f) s = x s >>= fun r => f r.1 r.2 := rfl

instance {x : Program σ α} {s : σ} {p : α × σ → Prop} [DecidablePred p] :
    Decidable (∃ r, x s = .done r ∧ p r) :=
  inferInstanceAs (Decidable (∃ r, (x s : Outcome _) = .done r ∧ p r))

/-- A computation that does not look at the state. -/
def ofOutcome (x : Outcome α) : Program σ α := fun s => x >>= fun a => .done (a, s)

/-- Read the state. -/
def reads (f : σ → α) : Program σ α := fun s => .done (f s, s)

/-- A call on a component that leaves a result and the component. -/
def call (f : σ → α × σ) : Program σ α := fun s => .done (f s)

/-- Run a program on a component of the state. -/
def zoom (get : σ → τ) (set : τ → σ → σ) (x : Program τ α) : Program σ α :=
  fun s => x (get s) >>= fun r => .done (r.1, set r.2 s)

/-! ## Specifications -/

/-- From a view with `P`, the program returns with `Q` if it returns. -/
def Spec (bad : Prop) (view : σ → V) (P : V → Prop) (x : Program σ α)
    (Q : α → V → Prop) : Prop :=
  ∀ s, P (view s) → Ends bad (x s) fun r => Q r.1 (view r.2)

/-- The program leaves the view as it is. -/
def Keeps (view : σ → V) (x : Program σ α) : Prop :=
  ∀ v, Spec True view (· = v) x fun _ v' => v' = v

variable {bad : Prop} {view : σ → V} {P : V → Prop} {x : Program σ α} {Q : α → V → Prop}

namespace Spec

lemma pure {a : α} (h : ∀ v, P v → Q a v) : Spec bad view P (Pure.pure a) Q :=
  fun s hs => .done (h (view s) hs)

lemma bind {R : β → V → Prop} {f : α → Program σ β} (h : Spec bad view P x Q)
    (hf : ∀ a, Spec bad view (Q a) (f a) R) : Spec bad view P (x >>= f) R :=
  fun s hs => (h s hs).bind fun r hr => hf r.1 r.2 hr

/-- A fact that does not depend on the state moves out of the condition. -/
lemma of_and {p : Prop} (h : p → Spec bad view P x Q) : Spec bad view (fun v => p ∧ P v) x Q :=
  fun s hs => h hs.1 s hs.2

lemma ofOutcome {y : Outcome α} (h : ∀ v, P v → Ends bad y fun a => Q a v) :
    Spec bad view P (Program.ofOutcome y) Q :=
  fun s hs => (h (view s) hs).bind fun _ ha => .done ha

lemma of_done (h : Spec bad view P x Q) {s s' : σ} {a : α} (hs : P (view s))
    (hx : x s = .done (a, s')) : Q a (view s') :=
  (h s hs).of_done hx

end Spec

namespace Keeps

lemma pure (a : α) : Keeps view (Pure.pure a : Program σ α) := fun _ => Spec.pure fun _ h => h

lemma bind {f : α → Program σ β} (h : Keeps view x) (hf : ∀ a, Keeps view (f a)) :
    Keeps view (x >>= f) :=
  fun v => (h v).bind fun a => hf a v

lemma of_eq (h : ∀ s a s', x s = .done (a, s') → view s' = view s) : Keeps view x :=
  fun _ s hs => ends_of_done fun r hr => (h s r.1 r.2 hr).trans hs

lemma eq (h : Keeps view x) {s s' : σ} {a : α} (hx : x s = .done (a, s')) : view s' = view s :=
  (h (view s)).of_done rfl hx

lemma spec (h : Keeps view x) (P : V → Prop) : Spec True view P x fun _ => P := by
  intro s hs
  refine (h (view s) s rfl).mono fun r hr => ?_
  rw [hr]
  exact hs

lemma ofOutcome (y : Outcome α) : Keeps view (Program.ofOutcome y) :=
  fun _ => Spec.ofOutcome fun _ hv => ends_of_done fun _ _ => hv

lemma zoom {get : σ → τ} {set : τ → σ → σ} (h : ∀ t s, view (set t s) = view s)
    (y : Program τ α) : Keeps view (Program.zoom get set y) := by
  refine of_eq fun s a s' hx => ?_
  obtain ⟨r, -, hr⟩ := bind_eq_done.mp hx
  cases hr
  exact h r.2 s

end Keeps

end Program

end Librdpma.Lib
