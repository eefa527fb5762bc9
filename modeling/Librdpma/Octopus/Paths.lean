import Librdpma.Octopus.Message

/-!
# Corrected paths (`correct` of `src/client/nrfs.cpp`)

`correct` drops each `/` before another one in a single pass, and then one at
the end. What remains of a path is its components, each with a `/` before it.
-/

namespace Librdpma.Octopus

open Lib List

/-- The parts between the slashes that are not empty. -/
def components (path : Path) : List Path := (path.splitOn slash).filter (· ≠ [])

/-- `squeeze` without a slash at the end. -/
def trimmed (path : Path) : Path :=
  if (squeeze path).getLast? = some slash then (squeeze path).dropLast else squeeze path

def joined (cs : List Path) : Path := cs.flatMap (slash :: ·)

variable {w path : Path}

lemma path_induction {motive : Path → Prop} (word : ∀ w, slash ∉ w → motive w)
    (step : ∀ w rest, slash ∉ w → motive rest → motive (w ++ slash :: rest)) (path : Path) :
    motive path := by
  by_cases h : slash ∈ path
  · obtain ⟨w, rest, hpt, hw⟩ := eq_append_cons_of_mem h
    rw [hpt]
    exact step w rest hw (path_induction word step rest)
  · exact word path h
termination_by path.length
decreasing_by
  rw [hpt, length_append, length_cons]
  omega

/-! ## Components -/

lemma components_append (p q : Path) :
    components (p ++ slash :: q) = components p ++ components q := by
  rw [components, splitOn_append_cons_self, filter_append, components, components]

lemma components_slash (p : Path) : components (slash :: p) = components p := components_append [] p

lemma components_word (hw : slash ∉ w) : components w = if w = [] then [] else [w] := by
  rw [components, splitOn_eq_singleton hw]
  by_cases h : w = [] <;> simp [h]

lemma components_joined {cs : List Path} (hcs : ∀ c ∈ cs, c ≠ [] ∧ slash ∉ c) :
    components (joined cs) = cs := by
  induction cs with
  | nil => rfl
  | cons c cs ih =>
    obtain ⟨⟨hne, hc⟩, hcs⟩ := forall_mem_cons.mp hcs
    rw [joined, flatMap_cons, cons_append, components_slash]
    change components (c ++ joined cs) = _
    cases cs with
    | nil => rw [joined, flatMap_nil, append_nil, components_word hc, if_neg hne]
    | cons d cs =>
      have hrs := ih hcs
      rw [joined, flatMap_cons, cons_append, components_slash] at hrs
      rw [joined, flatMap_cons, cons_append, components_append, components_word hc, if_neg hne, hrs]
      rfl

lemma mem_components (path : Path) : ∀ c ∈ components path, c ≠ [] ∧ slash ∉ c := by
  have hwr : ∀ w, slash ∉ w → ∀ c ∈ components w, c ≠ [] ∧ slash ∉ c := by
    intro w hw c hc
    rw [components_word hw] at hc
    split at hc
    · cases hc
    · rename_i hne
      rw [mem_singleton.mp hc]
      exact ⟨hne, hw⟩
  induction path using path_induction with
  | word w hw => exact hwr w hw
  | step w rest hw ih =>
    rw [components_append]
    exact forall_mem_append.mpr ⟨hwr w hw, ih⟩

/-! ## What remains -/

lemma squeeze_word (hw : slash ∉ w) (path : Path) : squeeze (w ++ path) = w ++ squeeze path := by
  induction w with
  | nil => rfl
  | cons b w ih =>
    obtain ⟨hb, hw⟩ := not_or.mp (mt mem_cons.mpr hw)
    rw [cons_append, squeeze, if_neg fun h => hb h.1.symm, ih hw, cons_append]

lemma squeeze_slash_ne_nil (path : Path) : squeeze (slash :: path) ≠ [] := by
  induction path with
  | nil => exact nofun
  | cons b path ih =>
    rw [squeeze]
    split_ifs with h
    · rw [Option.some.inj h.2]
      exact ih
    · exact nofun

lemma trimmed_append {u : Path}
    (h : squeeze (u ++ slash :: path) = u ++ squeeze (slash :: path)) :
    trimmed (u ++ slash :: path) = u ++ trimmed (slash :: path) := by
  have hne := squeeze_slash_ne_nil path
  rw [trimmed, trimmed, h, getLast?_append_of_ne_nil _ hne, dropLast_append_of_ne_nil hne]
  split <;> rfl

lemma squeeze_slash_word (hw : slash ∉ w) (hne : w ≠ []) (rest : Path) :
    squeeze (slash :: w ++ rest) = slash :: w ++ squeeze rest := by
  obtain ⟨b, w, rfl⟩ := exists_cons_of_ne_nil hne
  have hb : b ≠ slash := fun h => hw (by rw [h]; exact mem_cons_self)
  rw [cons_append, squeeze, if_neg fun h => hb (Option.some.inj h.2), squeeze_word hw]
  rfl

lemma trimmed_slash (path : Path) : trimmed (slash :: path) = joined (components path) := by
  induction path using path_induction with
  | word w hw =>
    rw [components_word hw]
    by_cases hne : w = []
    · rw [hne]
      rfl
    · have hsq : squeeze (slash :: w) = slash :: w := by
        simpa [squeeze] using squeeze_slash_word hw hne []
      have hla : (slash :: w).getLast? ≠ some slash := by
        rw [← singleton_append, getLast?_append_of_ne_nil _ hne]
        exact fun h => hw (mem_of_getLast? h)
      rw [if_neg hne, trimmed, hsq, if_neg hla, joined, flatMap_singleton]
  | step w rest hw ih =>
    rw [components_append, components_word hw]
    by_cases hne : w = []
    · have hdbl : squeeze (slash :: slash :: rest) = squeeze (slash :: rest) := by
        rw [squeeze, if_pos ⟨rfl, rfl⟩]
      rw [hne, nil_append, trimmed, hdbl]
      exact ih
    · rw [if_neg hne, ← cons_append, trimmed_append (squeeze_slash_word hw hne _), ih]
      rfl

lemma joined_of_ne_nil {cs : List Path} (h : cs ≠ []) :
    joined cs = slash :: [slash].intercalate cs := by
  induction cs with
  | nil => exact absurd rfl h
  | cons c cs ih =>
    by_cases hne : cs = []
    · rw [hne, intercalate_singleton, joined, flatMap_singleton]
    · rw [intercalate_cons_of_ne_nil hne, append_assoc, singleton_append, ← ih hne]
      rfl

lemma components_intercalate (path : Path) :
    components ([slash].intercalate (components path)) = components path := by
  by_cases hne : components path = []
  · rw [hne]
    rfl
  · rw [← components_slash, ← joined_of_ne_nil hne, components_joined (mem_components path)]

lemma trimmed_trimmed (path : Path) : trimmed (trimmed path) = trimmed path := by
  have hwr : ∀ w, slash ∉ w → trimmed w = w := by
    intro w hw
    have hsq : squeeze w = w := by simpa [squeeze] using squeeze_word hw []
    rw [trimmed, hsq, if_neg fun h => hw (mem_of_getLast? h)]
  induction path using path_induction with
  | word w hw => rw [hwr w hw, hwr w hw]
  | step w rest hw ih =>
    rw [trimmed_append (squeeze_word hw _), trimmed_slash]
    by_cases hne : components rest = []
    · rw [hne, joined, flatMap_nil, append_nil, hwr w hw]
    · rw [joined_of_ne_nil hne, trimmed_append (squeeze_word hw _), trimmed_slash,
        components_intercalate, joined_of_ne_nil hne]

lemma correct_eq (path : Path) :
    correct path = if trimmed path = [] then root else trimmed path := rfl

lemma correct_correct (path : Path) : correct (correct path) = correct path := by
  rw [correct_eq path]
  by_cases hne : trimmed path = []
  · rw [if_pos hne]
    rfl
  · rw [if_neg hne, correct_eq, trimmed_trimmed, if_neg hne]

lemma correct_slash (path : Path) :
    correct (slash :: path) = slash :: [slash].intercalate (components path) := by
  rw [correct_eq, trimmed_slash]
  by_cases hne : components path = []
  · rw [hne]
    rfl
  · rw [joined_of_ne_nil hne, if_neg (cons_ne_nil _ _)]

/-- The loop of `correct` over the first `n` characters; it looks at the one behind
them, too. -/
def squeezeUpTo : ℕ → Path → Path
  | 0, _ => []
  | _, [] => []
  | n + 1, b :: rest => if b = slash ∧ rest.head? = some slash then squeezeUpTo n rest
      else b :: squeezeUpTo n rest

/-- `correct` with its length, an `int`. If nothing is copied, it reads `new_path[-1]`. -/
def scanCorrect (path : Path) : Outcome Path :=
  let copied := squeezeUpTo (Int.bmod path.length (2 ^ 32)).toNat path
  if copied = [] then .undefined
  else
    let p := if copied.getLast? = some slash then copied.dropLast else copied
    .done (if p = [] then root else p)

lemma squeezeUpTo_length (path : Path) : squeezeUpTo path.length path = squeeze path := by
  induction path with
  | nil => rfl
  | cons b rest ih => rw [length_cons, squeezeUpTo, squeeze, ih]

lemma length_squeeze_le (path : Path) : (squeeze path).length ≤ path.length := by
  induction path with
  | nil => exact le_rfl
  | cons b rest ih =>
    rw [squeeze]
    split_ifs
    · exact ih.trans (Nat.le_succ _)
    · exact Nat.succ_le_succ ih

lemma length_correct_le (path : Path) : (correct (slash :: path)).length ≤ path.length + 1 := by
  have hsq : (squeeze (slash :: path)).length ≤ path.length + 1 := length_squeeze_le _
  rw [correct_eq, trimmed]
  split_ifs
  · exact Nat.succ_pos _
  · rw [length_dropLast]
    exact (Nat.sub_le _ _).trans hsq
  · exact Nat.succ_pos _
  · exact hsq

lemma scanCorrect_eq {path : Path} (h : (slash :: path).length < 2 ^ 31) :
    scanCorrect (slash :: path) = .done (correct (slash :: path)) := by
  have hlen : (Int.bmod (slash :: path).length (2 ^ 32)).toNat = (slash :: path).length := by
    rw [Int.bmod_eq_of_le (by omega) (by omega), Int.toNat_natCast]
  unfold scanCorrect
  rw [hlen, squeezeUpTo_length]
  exact if_neg (squeeze_slash_ne_nil path)

/-- **`correct` gives the components of a path that starts with `/`, joined by
single slashes.** So it is idempotent, and it tells two paths apart exactly by
their components. -/
theorem correct_normalises (path path' : Path) (h : path.head? = some slash)
    (h' : path'.head? = some slash) (hlen : path.length < 2 ^ 31)
    (hlen' : path'.length < 2 ^ 31) :
    scanCorrect path = .done (slash :: [slash].intercalate (components path)) ∧
      (scanCorrect path >>= scanCorrect) = scanCorrect path ∧
      (scanCorrect path = scanCorrect path' ↔ components path = components path') := by
  obtain ⟨p, rfl⟩ := head?_eq_some_iff.mp h
  obtain ⟨p', rfl⟩ := head?_eq_some_iff.mp h'
  rw [components_slash, components_slash, scanCorrect_eq hlen, scanCorrect_eq hlen']
  refine ⟨congrArg _ (correct_slash p), ?_, fun heq => ?_, fun heq => ?_⟩
  · have hle : (correct (slash :: p)).length < 2 ^ 31 := (length_correct_le p).trans_lt hlen
    rw [Outcome.done_bind, correct_slash] at *
    rw [scanCorrect_eq hle, ← correct_slash, correct_correct]
  · rw [correct_slash, correct_slash, Outcome.done.injEq, cons.injEq] at heq
    rw [← components_intercalate p, heq.2, components_intercalate]
  · rw [correct_slash, correct_slash, heq]

/-- `//a/` and `/a`. -/
theorem correct_normalises_pair :
    [slash, slash, 97#8, slash].head? = some slash ∧ [slash, 97#8].head? = some slash ∧
      scanCorrect [slash, slash, 97#8, slash] = scanCorrect [slash, 97#8] :=
  ⟨rfl, rfl, ((correct_normalises [slash, slash, 97#8, slash] [slash, 97#8] rfl rfl (by decide)
    (by decide)).2.2).mpr (by decide)⟩

lemma scanCorrect_of_length (h : path.length = 2 ^ 31) : scanCorrect path = .undefined := by
  rw [scanCorrect, h]
  rfl

/-- The length of `/aa..a` with 2^31 - 1 letters is a negative `int`. -/
theorem correct_long_path : (slash :: replicate (2 ^ 31 - 1) 97#8).head? = some slash ∧
      scanCorrect (slash :: replicate (2 ^ 31 - 1) 97#8) = .undefined := by
  refine ⟨rfl, scanCorrect_of_length ?_⟩
  rw [length_cons, length_replicate, Nat.sub_add_cancel Nat.one_le_two_pow]

/-! ## Parent and name -/

/-- `splitLast` as the loops find it: they start at the last index as an `int`,
and see nothing behind that. -/
def scanLast (path : Path) : Option (Path × Path) :=
  let seen := (Int.bmod (path.length - 1 : ℕ) (2 ^ 32) + 1).toNat
  (splitLast (path.take seen)).map fun cut => (cut.1, cut.2 ++ path.drop seen)

/-- `getParentDirectory` on a path of any length. -/
def scanParentDirectory (path : Path) : Path × Bool :=
  if path = root then (path, false)
  else
    match scanLast path with
    | none => (path, false)
    | some ([], _) => (root, true)
    | some (b :: before, _) => (b :: before, true)

/-- `getNameFromPath` on a path of any length. -/
def scanNameFromPath (path : Path) : Option Path :=
  if path = root then none else (scanLast path).map Prod.snd

lemma scanLast_eq (h : path.length ≤ 2 ^ 31) : scanLast path = splitLast path := by
  have hsn : path.length ≤ (Int.bmod (path.length - 1 : ℕ) (2 ^ 32) + 1).toNat := by
    rw [Int.bmod_eq_of_le (by omega) (by omega)]
    omega
  rw [scanLast, take_of_length_le hsn, drop_eq_nil_of_le hsn]
  simp

/-- The models without an `int` are the same on such a path. -/
lemma scan_eq (h : path.length ≤ 2 ^ 31) : scanParentDirectory path = getParentDirectory path ∧
    scanNameFromPath path = getNameFromPath path := by
  rw [scanParentDirectory, scanNameFromPath, scanLast_eq h]
  exact ⟨rfl, rfl⟩

/-- A path as the list of its components, the last of them apart. -/
structure IsPath (cs : List Path) (c path : Path) : Prop where
  components : ∀ d ∈ cs ++ [c], d ≠ [] ∧ slash ∉ d
  eq : path = joined (cs ++ [c])
  length : path.length ≤ 2 ^ 31

lemma IsPath.scan {cs : List Path} {c : Path} (h : IsPath cs c path) :
    scanParentDirectory path = (if cs = [] then root else joined cs, true) ∧
      scanNameFromPath path = some c := by
  obtain ⟨-, hc⟩ := forall_mem_append.mp h.components
  obtain ⟨hne, hc⟩ := forall_mem_singleton.mp hc
  have hpt : path = joined cs ++ slash :: c := by simp [h.eq, joined]
  have hrt : path ≠ root := by
    intro heq
    have hlen := congrArg List.length (hpt.symm.trans heq)
    rw [length_append, length_cons, root, length_singleton] at hlen
    exact hne (length_eq_zero_iff.mp (by omega))
  rw [scanParentDirectory, scanNameFromPath, scanLast_eq h.length, if_neg hrt, if_neg hrt,
    hpt, splitLast_append _ hc]
  cases cs with
  | nil => exact ⟨rfl, rfl⟩
  | cons d cs => exact ⟨rfl, rfl⟩

/-- **The parent and the name of a path are its components but the last, and
the last**, so they determine it. The root has neither. -/
theorem scan_components {cs cs' : List Path} {c c' path path' : Path} (h : IsPath cs c path)
    (h' : IsPath cs' c' path') :
    scanParentDirectory path = (if cs = [] then root else joined cs, true) ∧
      scanNameFromPath path = some c ∧
      (scanParentDirectory path = scanParentDirectory path' →
        scanNameFromPath path = scanNameFromPath path' → path = path') ∧
      scanParentDirectory root = (root, false) ∧ scanNameFromPath root = none := by
  have hprt : ∀ cs c path, IsPath cs c path →
      components (if cs = [] then root else joined cs) = cs := by
    intro cs c path h
    split_ifs with hnil
    · rw [hnil]
      rfl
    · exact components_joined (forall_mem_append.mp h.components).1
  refine ⟨h.scan.1, h.scan.2, fun hpar hnm => ?_, rfl, rfl⟩
  rw [h.scan.1, h'.scan.1, Prod.mk.injEq] at hpar
  rw [h.scan.2, h'.scan.2, Option.some.injEq] at hnm
  rw [h.eq, h'.eq, hnm, ← hprt cs c path h, hpar.1, hprt cs' c' path' h']

theorem scan_components_ab : IsPath [[97#8]] [98#8] [slash, 97#8, slash, 98#8] ∧
      scanNameFromPath [slash, 97#8, slash, 98#8] = some [98#8] :=
  have h : IsPath [[97#8]] [98#8] [slash, 97#8, slash, 98#8] := ⟨by decide, rfl, by decide⟩
  ⟨h, (scan_components h h).2.1⟩

lemma scan_of_length (h : path.length = 2 ^ 31 + 1) :
    scanParentDirectory path = (path, false) ∧ scanNameFromPath path = none := by
  have hsc : scanLast path = none := by
    rw [scanLast, h]
    rfl
  rw [scanParentDirectory, scanNameFromPath, hsc]
  exact ⟨ite_self _, ite_self _⟩

/-- The loops over `/aa..a` with 2^31 letters start at a negative `int`. -/
theorem scan_long_name : (∀ d ∈ [replicate (2 ^ 31) 97#8], d ≠ [] ∧ slash ∉ d) ∧
      (scanParentDirectory (joined [replicate (2 ^ 31) 97#8])).2 = false ∧
      scanNameFromPath (joined [replicate (2 ^ 31) 97#8]) = none := by
  have hlen : (joined [replicate (2 ^ 31) 97#8]).length = 2 ^ 31 + 1 := by
    rw [joined, flatMap_singleton, length_cons, length_replicate]
  obtain ⟨hpar, hnm⟩ := scan_of_length hlen
  rw [hpar, forall_mem_singleton]
  refine ⟨⟨fun h => ?_, fun h => ?_⟩, rfl, hnm⟩
  · have hz := congrArg length h
    rw [length_replicate] at hz
    cases hz
  · cases eq_of_mem_replicate h

end Librdpma.Octopus
