import Mathlib

/-!
# The replacer (`levelkv/src/dpu/replacer.cpp`)

A `std::list` of frames, most recently accessed first, and a map from each
frame to its list node. Nodes carry an identity here, since `erase` takes the
node that the map remembers and not the frame.

`WF` says that the map and the list agree. Then the pair is a list of distinct
frames, `frames`, which `RecordAccess` moves to the front of and `Evict`
drops the last of.
-/

namespace Librdpma.LevelKv

open List Function

structure Replacer (F : Type) where
  lru : List (ℕ × F)
  map : F → Option ℕ
  nextNode : ℕ

namespace Replacer

variable {F : Type}

def empty : Replacer F := ⟨[], fun _ => none, 0⟩

/-- The frames in the order of the list. -/
def frames (r : Replacer F) : List F := r.lru.map Prod.snd

section Operations

variable [DecidableEq F]

def recordAccess (r : Replacer F) (frame : F) : Replacer F :=
  let lru := match r.map frame with
    | some node => r.lru.eraseP fun x => x.1 == node
    | none => r.lru
  { lru := (r.nextNode, frame) :: lru
    map := update r.map frame (some r.nextNode)
    nextNode := r.nextNode + 1 }

/-- `Evict`; `none` stands for the frame -1. -/
def evict (r : Replacer F) : Option (F × Replacer F) :=
  match r.lru.getLast? with
  | none => none
  | some (_, frame) =>
      some (frame, { r with
        lru := r.lru.dropLast
        map := update r.map frame none })

end Operations

/-- The map remembers exactly the nodes of the list. -/
structure WF (r : Replacer F) : Prop where
  frames_nodup : r.frames.Nodup
  nodes_nodup : (r.lru.map Prod.fst).Nodup
  map_iff : ∀ frame node, r.map frame = some node ↔ (node, frame) ∈ r.lru
  node_lt : ∀ x ∈ r.lru, x.1 < r.nextNode

lemma wf_empty : (empty : Replacer F).WF := ⟨nodup_nil, nodup_nil, by simp [empty], by simp [empty]⟩

variable {r : Replacer F} {frame : F}

lemma WF.map_none_iff (h : r.WF) : r.map frame = none ↔ frame ∉ r.frames := by
  constructor
  · intro hno hmem
    obtain ⟨⟨node, f⟩, hx, rfl⟩ := mem_map.mp hmem
    rw [(h.map_iff f node).mpr hx] at hno
    cases hno
  · intro hnot
    cases hmap : r.map frame with
    | none => rfl
    | some node =>
      exact absurd (mem_map.mpr ⟨_, (h.map_iff frame node).mp hmap, rfl⟩) hnot

/-- In a list whose nodes and frames name each other, two entries with one
node, or with one frame, are the same. -/
lemma WF.node_eq_iff (h : r.WF) {x : ℕ × F} (hx : x ∈ r.lru) {node : ℕ}
    (hnd : r.map frame = some node) : x.1 = node ↔ x.2 = frame := by
  obtain ⟨n, f⟩ := x
  have hn := (h.map_iff f n).mpr hx
  constructor
  · rintro rfl
    have hmem := (h.map_iff frame n).mp hnd
    have hinj := inj_on_of_nodup_map h.nodes_nodup hx hmem rfl
    exact congrArg Prod.snd hinj
  · rintro rfl
    rw [hn] at hnd
    exact Option.some.inj hnd

section

variable [DecidableEq F]

lemma map_snd_eraseP {l : List (ℕ × F)} {node : ℕ} (h : ∀ x ∈ l, (x.1 = node ↔ x.2 = frame)) :
    (l.eraseP fun x => x.1 == node).map Prod.snd = (l.map Prod.snd).erase frame := by
  induction l with
  | nil => rfl
  | cons x l ih =>
    have hx := h x mem_cons_self
    by_cases hn : x.1 = node
    · rw [eraseP_cons_of_pos (by simp [hn]), map_cons, hx.mp hn, erase_cons_head]
    · have hf : x.2 ≠ frame := fun hf => hn (hx.mpr hf)
      rw [eraseP_cons_of_neg (by simp [hn]), map_cons, map_cons, erase_cons_tail (by simp [hf]),
        ih fun y hy => h y (mem_cons_of_mem _ hy)]

/-- **`RecordAccess`** moves the frame to the front. -/
lemma WF.frames_recordAccess (h : r.WF) (frame : F) :
    (r.recordAccess frame).frames = frame :: r.frames.erase frame := by
  unfold frames recordAccess
  cases hmap : r.map frame with
  | none =>
    have hnot : frame ∉ r.lru.map Prod.snd := h.map_none_iff.mp hmap
    rw [erase_of_not_mem hnot]
    rfl
  | some node =>
    rw [map_cons, map_snd_eraseP fun x hx => h.node_eq_iff hx hmap]

lemma WF.mem_recordAccess (h : r.WF) {x : ℕ × F} : x ∈ (r.recordAccess frame).lru ↔
    x = (r.nextNode, frame) ∨ (x ∈ r.lru ∧ x.2 ≠ frame) := by
  unfold Replacer.recordAccess
  cases hmap : r.map frame with
  | none =>
    have hnot := h.map_none_iff.mp hmap
    rw [mem_cons]
    refine or_congr_right ⟨fun hx => ⟨hx, ?_⟩, fun hx => hx.1⟩
    rintro rfl
    exact hnot (mem_map.mpr ⟨x, hx, rfl⟩)
  | some node =>
    rw [mem_cons]
    refine or_congr_right ⟨fun hx => ?_, fun ⟨hx, hne⟩ => ?_⟩
    · have hmem := mem_of_mem_eraseP hx
      refine ⟨hmem, ?_⟩
      rintro rfl
      have hin : x.2 ∈ (r.lru.eraseP fun y => y.1 == node).map Prod.snd := mem_map.mpr ⟨x, hx, rfl⟩
      rw [map_snd_eraseP fun y hy => h.node_eq_iff hy hmap] at hin
      exact (h.frames_nodup.not_mem_erase) hin
    · have hn : ¬ x.1 = node := fun hn => hne ((h.node_eq_iff hx hmap).mp hn)
      exact (mem_eraseP_of_neg (by simpa using hn)).mpr hx

lemma WF.nodes_recordAccess (h : r.WF) (frame : F) :
    ((r.recordAccess frame).lru.map Prod.fst).Nodup := by
  have hfr : ∀ l : List (ℕ × F), l.Sublist r.lru →
      (((r.nextNode, frame) :: l).map Prod.fst).Nodup := by
    intro l hl
    rw [map_cons, nodup_cons]
    refine ⟨fun hmem => ?_, h.nodes_nodup.sublist (hl.map Prod.fst)⟩
    obtain ⟨x, hx, hxn⟩ := mem_map.mp hmem
    have := h.node_lt x (hl.subset hx)
    omega
  unfold Replacer.recordAccess
  cases r.map frame with
  | none => exact hfr _ (Sublist.refl _)
  | some node => exact hfr _ eraseP_sublist

lemma WF.recordAccess (h : r.WF) (frame : F) : (r.recordAccess frame).WF := by
  refine ⟨?_, h.nodes_recordAccess frame, ?_, ?_⟩
  · rw [h.frames_recordAccess frame, nodup_cons]
    exact ⟨h.frames_nodup.not_mem_erase, h.frames_nodup.erase frame⟩
  · intro f node
    rw [h.mem_recordAccess]
    show update r.map frame (some r.nextNode) f = some node ↔ _
    by_cases hf : f = frame
    · subst hf
      rw [update_self]
      constructor
      · intro hn
        exact .inl (by rw [Option.some.inj hn])
      · rintro (hx | ⟨-, hne⟩)
        · rw [(Prod.mk.inj hx).1]
        · exact absurd rfl hne
    · rw [update_of_ne hf, h.map_iff]
      constructor
      · intro hx
        exact .inr ⟨hx, hf⟩
      · rintro (hx | ⟨hx, -⟩)
        · exact absurd (Prod.mk.inj hx).2 hf
        · exact hx
  · intro x hx
    show x.1 < r.nextNode + 1
    rcases h.mem_recordAccess.mp hx with rfl | ⟨hx, -⟩
    · exact Nat.lt_succ_self _
    · have := h.node_lt x hx
      omega

lemma evict_none_iff : r.evict = none ↔ r.frames = [] := by
  unfold evict frames
  cases hl : r.lru.getLast? with
  | none =>
    rw [getLast?_eq_none_iff] at hl
    simp [hl]
  | some x =>
    have hne : r.lru ≠ [] := by
      rintro hnil
      rw [hnil] at hl
      cases hl
    simp [hne]

/-- **`Evict`** takes the last frame. -/
lemma WF.evict_some (h : r.WF) {r' : Replacer F} (he : r.evict = some (frame, r')) :
    r.frames = r'.frames ++ [frame] ∧ r'.WF := by
  unfold Replacer.evict at he
  cases hl : r.lru.getLast? with
  | none =>
    rw [hl] at he
    cases he
  | some x =>
    obtain ⟨node, f⟩ := x
    rw [hl] at he
    cases he
    have hne : r.lru ≠ [] := by
      rintro hnil
      rw [hnil] at hl
      cases hl
    have hspl : r.lru = r.lru.dropLast ++ [(node, frame)] := by
      rw [getLast?_eq_some_getLast hne] at hl
      rw [← Option.some.inj hl]
      exact (dropLast_concat_getLast hne).symm
    have hfrs : r.frames = r.lru.dropLast.map Prod.snd ++ [frame] := by
      unfold frames
      conv_lhs => rw [hspl]
      rw [map_append]
      rfl
    have hnd := h.frames_nodup
    rw [hfrs] at hnd
    have hsub : r.lru.dropLast.Sublist r.lru := dropLast_sublist _
    refine ⟨hfrs, ⟨(nodup_append.mp hnd).1, h.nodes_nodup.sublist (hsub.map Prod.fst), ?_,
      fun x hx => h.node_lt x (hsub.subset hx)⟩⟩
    intro f n
    show update r.map frame none f = some n ↔ (n, f) ∈ r.lru.dropLast
    by_cases hf : f = frame
    · subst hf
      rw [update_self]
      constructor
      · intro hn
        cases hn
      · intro hmem
        refine absurd rfl ((nodup_append.mp hnd).2.2 f ?_ f (mem_singleton.mpr rfl))
        exact mem_map.mpr ⟨_, hmem, rfl⟩
    · rw [update_of_ne hf, h.map_iff]
      constructor
      · intro hmem
        rw [hspl] at hmem
        rcases mem_append.mp hmem with hmem | hla
        · exact hmem
        · exact absurd (Prod.mk.inj (mem_singleton.mp hla)).2 hf
      · intro hmem
        exact hsub.subset hmem

/-! ## Runs -/

inductive Call (F : Type) where
  | recordAccess (frame : F)
  | evict

/-- A replacer with the time of the last access to each frame, 0 for the frames
that were not accessed or have been evicted since. -/
structure Run (F : Type) where
  replacer : Replacer F
  last : F → ℕ
  time : ℕ

def Run.step (s : Run F) : Call F → Run F
  | .recordAccess frame =>
      ⟨s.replacer.recordAccess frame, update s.last frame (s.time + 1), s.time + 1⟩
  | .evict =>
      match s.replacer.evict with
      | none => s
      | some (frame, r) => ⟨r, update s.last frame 0, s.time⟩

def Run.start : Run F := ⟨empty, fun _ => 0, 0⟩

/-- The list has the frames that were accessed and not evicted since, the last
accessed first. -/
structure IsLru (r : Replacer F) (last : F → ℕ) (time : ℕ) : Prop where
  wf : r.WF
  mem : ∀ f, f ∈ r.frames ↔ 0 < last f
  ordered : r.frames.Pairwise fun f g => last g < last f
  past : ∀ f, last f ≤ time

variable {last : F → ℕ} {time : ℕ} {s : Run F}

lemma IsLru.recordAccess (h : IsLru r last time) (frame : F) :
    IsLru (r.recordAccess frame) (update last frame (time + 1)) (time + 1) := by
  have hne : ∀ f ∈ r.frames.erase frame, f ≠ frame := fun f hf =>
    (h.wf.frames_nodup.mem_erase_iff.mp hf).1
  refine ⟨h.wf.recordAccess frame, fun f => ?_, ?_, fun f => ?_⟩
  · rw [h.wf.frames_recordAccess, mem_cons, h.wf.frames_nodup.mem_erase_iff, h.mem]
    by_cases hf : f = frame <;> simp [hf]
  · rw [h.wf.frames_recordAccess, pairwise_cons]
    refine ⟨fun g hg => ?_, (h.ordered.sublist erase_sublist).imp_of_mem fun {f g} hf hg hlt => ?_⟩
    · rw [update_self, update_of_ne (hne g hg)]
      exact Nat.lt_succ_of_le (h.past g)
    · rwa [update_of_ne (hne f hf), update_of_ne (hne g hg)]
  · have := h.past f
    rw [update_apply]
    split <;> omega

/-- The frame that is evicted, the last of the list, is the one accessed least
recently. -/
lemma IsLru.evict (h : IsLru r last time) {r' : Replacer F} (he : r.evict = some (frame, r')) :
    IsLru r' (update last frame 0) time ∧ 0 < last frame ∧
      ∀ f, 0 < last f → last frame ≤ last f := by
  obtain ⟨hfrm, hwf⟩ := h.wf.evict_some he
  obtain ⟨-, hmem, hord, hpast⟩ := h
  simp only [hfrm, mem_append, mem_singleton] at hmem
  rw [hfrm, pairwise_append] at hord
  have hlt : ∀ f ∈ r'.frames, last frame < last f := fun f hf => hord.2.2 f hf frame mem_cons_self
  have hne : ∀ f ∈ r'.frames, f ≠ frame := fun f hf heq => Nat.ne_of_lt (hlt f hf) (heq ▸ rfl)
  refine ⟨⟨hwf, fun f => ?_, hord.1.imp_of_mem fun {f g} hf hg h => ?_, fun f => ?_⟩,
    (hmem frame).mp (.inr rfl), fun f hf => ?_⟩
  · by_cases hf : f = frame
    · rw [hf, update_self]
      exact iff_of_false (fun hf => hne frame hf rfl) (Nat.lt_irrefl 0)
    · rw [update_of_ne hf, ← hmem, or_iff_left hf]
  · rwa [update_of_ne (hne f hf), update_of_ne (hne g hg)]
  · rw [update_apply]
    split
    · exact Nat.zero_le _
    · exact hpast f
  · rcases (hmem f).mpr hf with hf | rfl
    · exact Nat.le_of_lt (hlt f hf)
    · exact Nat.le_refl _

lemma IsLru.step (h : IsLru s.replacer s.last s.time) (c : Call F) :
    IsLru (s.step c).replacer (s.step c).last (s.step c).time ∧
      ∀ f, c ≠ .recordAccess f → s.last f = 0 → (s.step c).last f = 0 := by
  cases c with
  | recordAccess frame =>
    refine ⟨h.recordAccess frame, fun f hf hzr => ?_⟩
    exact (update_of_ne (fun heq : f = frame => hf (by rw [heq])) _ _).trans hzr
  | evict =>
    rw [Run.step]
    split
    · exact ⟨h, fun _ _ => id⟩
    · refine ⟨(h.evict ‹_›).1, fun f _ hzr => ?_⟩
      exact (update_apply ..).trans (by rw [hzr, ite_self])

lemma IsLru.run (h : IsLru s.replacer s.last s.time) (calls : List (Call F)) :
    let s' := calls.foldl Run.step s
    IsLru s'.replacer s'.last s'.time ∧
      ∀ f, .recordAccess f ∉ calls → s.last f = 0 → s'.last f = 0 := by
  induction calls generalizing s with
  | nil => exact ⟨h, fun _ _ => id⟩
  | cons c calls ih =>
    obtain ⟨hlru, hlast⟩ := ih (h.step c).1
    refine ⟨hlru, fun f hf hzr => hlast f (fun hc => hf (mem_cons_of_mem c hc)) ?_⟩
    exact (h.step c).2 f (fun hc => hf (hc ▸ mem_cons_self)) hzr

/-- The `frame_id_t` that `Evict` writes. -/
def evictedFrame (r : Replacer (BitVec 64)) : BitVec 64 :=
  match r.evict with
  | none => -1
  | some (frame, _) => frame

/-- **The replacer is an LRU list**: if the frame -1 is never recorded, `Evict`
returns it exactly if there is no frame, and else the frame accessed least
recently. -/
theorem replacer_isLru (calls : List (Call (BitVec 64))) (hcalls : .recordAccess (-1) ∉ calls) :
    let s := calls.foldl Run.step .start
    IsLru s.replacer s.last s.time ∧ (s.replacer.evictedFrame = -1 ↔ ∀ f, s.last f = 0) ∧
      ∀ f, 0 < s.last f → 0 < s.last s.replacer.evictedFrame ∧
        s.last s.replacer.evictedFrame ≤ s.last f := by
  intro s
  have hstr : IsLru (empty : Replacer (BitVec 64)) (fun _ => 0) 0 :=
    ⟨wf_empty, by simp [empty, frames], Pairwise.nil, fun _ => Nat.le_refl 0⟩
  obtain ⟨h, hlast⟩ := IsLru.run (s := .start) hstr calls
  refine ⟨h, ?_⟩
  rw [evictedFrame]
  cases he : s.replacer.evict with
  | none =>
    have hn : ∀ f, s.last f = 0 := by
      intro f
      refine Nat.eq_zero_of_not_pos fun hf => ?_
      have hmem := (h.mem f).mpr hf
      rw [evict_none_iff.mp he] at hmem
      cases hmem
    exact ⟨iff_of_true rfl hn, fun f hf => absurd (hn f) (Nat.ne_of_gt hf)⟩
  | some x =>
    obtain ⟨-, hpos, hlst⟩ := h.evict he
    refine ⟨iff_of_false (fun heq : x.1 = -1 => ?_) fun hzr => Nat.ne_of_gt hpos (hzr _),
      fun f hf => ⟨hpos, hlst f hf⟩⟩
    rw [heq, hlast _ hcalls rfl] at hpos
    cases hpos

theorem replacer_isLru_two :
    let calls : List (Call (BitVec 64)) := [.recordAccess 3, .recordAccess 5]
    .recordAccess (-1) ∉ calls ∧ ((calls.foldl Run.step .start).replacer.evictedFrame = -1 ↔
      ∀ f, (calls.foldl Run.step .start).last f = 0) :=
  ⟨by simp, (replacer_isLru _ (by simp)).2.1⟩

/-- The frame -1 is recorded, and `Evict` returns it. -/
theorem evict_recorded_minus_one :
    let s : Run (BitVec 64) := Run.start.step (.recordAccess (-1))
    s.last (-1) = 1 ∧ s.replacer.evictedFrame = -1 :=
  ⟨rfl, rfl⟩

end

end Replacer

end Librdpma.LevelKv
