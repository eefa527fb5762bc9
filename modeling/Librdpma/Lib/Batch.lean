import Librdpma.Lib.ByteMemory

/-!
# Batches of records in memory

A `Layout` is a C struct: fields of some widths at some offsets that do not
overlap. A `Codec` stores one item at an address and reads it back; an item may
be followed by a payload whose length it names. A batch is one item after the
other, and a walk that advances by the size of what it reads visits the stored
items in order.
-/

namespace Librdpma.Lib

open Memory List

/-! ## Structs -/

/-- The fields of a struct, with offset and width, in the order of the declaration. -/
structure Layout where
  fields : List (ℕ × ℕ)
  size : ℕ
  inside : ∀ f ∈ fields, f.1 + f.2 ≤ size
  apart : fields.Pairwise fun f g => Apart f.1 f.2 g.1 g.2

namespace Layout

/-- The stores of the fields. -/
def putFields (m : Memory) (p : ℕ) (stores : List ((ℕ × ℕ) × ℕ)) : Memory :=
  stores.foldl (fun m x => m.write (p + x.1.1) (leBytes x.1.2 x.2)) m

def put (L : Layout) (m : Memory) (p : ℕ) (vals : List ℕ) : Memory :=
  putFields m p (L.fields.zip vals)

def get (L : Layout) (m : Memory) (p : ℕ) : List ℕ :=
  L.fields.map fun f => leNat (m.read (p + f.1) f.2)

variable {L : Layout} {m m' : Memory} {p : ℕ} {vals : List ℕ}

lemma read_putFields {stores : List ((ℕ × ℕ) × ℕ)} {a len : ℕ}
    (h : ∀ x ∈ stores, Apart a len (p + x.1.1) x.1.2) :
    (putFields m p stores).read a len = m.read a len := by
  induction stores generalizing m with
  | nil => rfl
  | cons x stores ih =>
    have hrs := ih (m := m.write (p + x.1.1) (leBytes x.1.2 x.2))
      fun y hy => h y (mem_cons_of_mem _ hy)
    refine hrs.trans (read_write_apart ?_)
    rw [length_leBytes]
    exact h x mem_cons_self

lemma get_putFields {fields : List (ℕ × ℕ)} (hap : fields.Pairwise fun f g => Apart f.1 f.2 g.1 g.2)
    (hfit : Forall₂ (fun f v => v < 256 ^ f.2) fields vals) :
    fields.map (fun f => leNat ((putFields m p (fields.zip vals)).read (p + f.1) f.2)) = vals := by
  induction hfit generalizing m with
  | nil => rfl
  | @cons f v fields vals hv hfit ih =>
    obtain ⟨hf, hap⟩ := pairwise_cons.mp hap
    rw [zip_cons_cons, map_cons]
    have hfst : (putFields m p ((f, v) :: fields.zip vals)).read (p + f.1) f.2 = leBytes f.2 v := by
      have hrd := read_write m (p + f.1) (leBytes f.2 v)
      rw [length_leBytes] at hrd
      have hrs : ∀ x ∈ fields.zip vals, Apart (p + f.1) f.2 (p + x.1.1) x.1.2 :=
        fun x hx => by
          have hapt := hf x.1 (of_mem_zip hx).1
          unfold Apart at hapt ⊢
          omega
      exact (read_putFields hrs).trans hrd
    rw [hfst, leNat_leBytes_of_lt hv]
    exact congrArg (v :: ·) (ih hap)

lemma get_put (hfit : Forall₂ (fun f v => v < 256 ^ f.2) L.fields vals) :
    L.get (L.put m p vals) p = vals :=
  get_putFields L.apart hfit

lemma put_outside {a : ℕ} (h : a < p ∨ p + L.size ≤ a) : L.put m p vals a = m a := by
  have hrd : (L.put m p vals).read a 1 = m.read a 1 := by
    refine read_putFields fun x hx => ?_
    have hin := L.inside x.1 (of_mem_zip hx).1
    unfold Apart
    omega
  simpa [Memory.read] using hrd

lemma get_congr (h : ∀ a, p ≤ a → a < p + L.size → m' a = m a) : L.get m' p = L.get m p := by
  refine map_congr_left fun f hf => ?_
  have hin := L.inside f hf
  rw [read_congr fun i hi => h _ (by omega) (by omega)]

end Layout

/-! ## Items -/

/-- How an item is stored at an address. What is read back is `stored`: a
constructor may have cut a field. -/
structure Codec (I : Type) where
  size : I → ℕ
  put : Memory → ℕ → I → Memory
  get : Memory → ℕ → I
  stored : I → I
  size_stored : ∀ it, size (stored it) = size it
  get_put : ∀ m p it, get (put m p it) p = stored it
  put_of_lt : ∀ {m p it a}, a < p → put m p it a = m a
  get_congr : ∀ {m m' p}, (∀ a, p ≤ a → a < p + size (get m p) → m' a = m a) → get m' p = get m p

/-- Items of one struct. -/
def Layout.codec {I : Type} (L : Layout) (vals : I → List ℕ) (ofVals : List ℕ → I)
    (hfit : ∀ it, Forall₂ (fun f v => v < 256 ^ f.2) L.fields (vals it)) : Codec I where
  size _ := L.size
  put m p it := L.put m p (vals it)
  get m p := ofVals (L.get m p)
  stored it := ofVals (vals it)
  size_stored _ := rfl
  get_put _ _ it := congrArg ofVals (L.get_put (hfit it))
  put_of_lt h := L.put_outside (.inl h)
  get_congr h := congrArg ofVals (L.get_congr h)

namespace Codec

variable {I : Type} (C : Codec I)

/-- The items are stored one after the other; the result has the end of the last. -/
def putAll (m : Memory) (p : ℕ) (items : List I) : Memory × ℕ :=
  items.foldl (fun x it => (C.put x.1 x.2 it, x.2 + C.size it)) (m, p)

/-- `count` items are read, each behind the last. -/
def walk (m : Memory) : ℕ → ℕ → List I
  | 0, _ => []
  | count + 1, p => C.get m p :: walk m count (p + C.size (C.get m p))

/-- The memory holds the items from `p` on, up to `e`. -/
def Holds (m : Memory) (p : ℕ) : List I → ℕ → Prop
  | [], e => p = e
  | it :: items, e => C.get m p = it ∧ Holds m (p + C.size it) items e

variable {C} {m m' : Memory} {p e : ℕ} {items : List I} {it : I}

lemma Holds.le (h : C.Holds m p items e) : p ≤ e := by
  induction items generalizing p with
  | nil => exact le_of_eq h
  | cons it items ih =>
    have := ih h.2
    omega

lemma Holds.congr (h : C.Holds m p items e) (hsm : ∀ a, p ≤ a → a < e → m' a = m a) :
    C.Holds m' p items e := by
  induction items generalizing p with
  | nil => exact h
  | cons it items ih =>
    obtain ⟨hit, hrs⟩ := h
    have hle := hrs.le
    refine ⟨?_, ih hrs fun a hpa hae => hsm a (by omega) hae⟩
    rw [C.get_congr, hit]
    intro a hpa hae
    rw [hit] at hae
    exact hsm a hpa (by omega)

lemma Holds.snoc (h : C.Holds m p items e) (hit : C.get m e = it) :
    C.Holds m p (items ++ [it]) (e + C.size it) := by
  induction items generalizing p with
  | nil =>
    cases h
    exact ⟨hit, rfl⟩
  | cons x items ih => exact ⟨h.1, ih h.2⟩

lemma Holds.putAll {held : List I} (h : C.Holds m p held e) (items : List I) :
    C.Holds (C.putAll m e items).1 p (held ++ items.map C.stored) (C.putAll m e items).2 := by
  induction items generalizing m e held with
  | nil =>
    rw [map_nil, append_nil]
    exact h
  | cons it items ih =>
    have hhd : C.Holds (C.put m e it) p held e := h.congr fun a _ ha => C.put_of_lt ha
    have hfst := hhd.snoc (C.get_put m e it)
    rw [C.size_stored] at hfst
    have hall := ih hfst
    rwa [append_assoc] at hall

lemma Holds.walk (h : C.Holds m p items e) : C.walk m items.length p = items := by
  induction items generalizing p with
  | nil => rfl
  | cons it items ih =>
    obtain ⟨rfl, hrs⟩ := h
    exact congrArg (_ :: ·) (ih hrs)

lemma putAll_end (m : Memory) (p : ℕ) (items : List I) :
    (C.putAll m p items).2 = p + (items.map C.size).sum := by
  induction items generalizing m p with
  | nil => rfl
  | cons it items ih =>
    have hrs := ih (C.put m p it) (p + C.size it)
    rw [map_cons, sum_cons, ← add_assoc]
    exact hrs

end Codec

end Librdpma.Lib
