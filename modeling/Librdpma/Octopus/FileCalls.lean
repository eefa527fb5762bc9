import Librdpma.Octopus.BlockCalls
import Librdpma.Octopus.LockBalance

/-!
# What requests on files do to the tables

At the owner of a path, a request locks the hash item, runs one of the calls of
`BlockCalls` on its own tables, and unlocks. A path that is not a file and
arguments that `extentWrite` refuses leave the tables as they are.
-/

namespace Librdpma.Octopus

open Lib Outcome Program

/-- What `extentWrite` does. -/
inductive WriteStep (cfg : Config) (node : ℕ) (path : Path) (size offset : ℕ) (w : World) :
    Option FilePosInfo → World → Prop where
  | nothing : WriteStep cfg node path size offset w none w
  | change {i : ℕ} {m : FileMeta} {fpi : Option FilePosInfo} {v : StoreView}
      (hfile : (w node).file (cfg.sha256 path) = some (i, m)) (hargs : Writable size offset)
      (heffect : WriteEffect node size offset i m (w node) fpi v) :
      WriteStep cfg node path size offset w fpi (Function.update w node v)

/-- What `truncate` does. -/
inductive TruncateStep (cfg : Config) (node : ℕ) (path : Path) (size : ℕ) (w : World) :
    Bool → World → Prop where
  | nothing : TruncateStep cfg node path size w false w
  | change {i : ℕ} {m : FileMeta} {ok : Bool} {v : StoreView}
      (hfile : (w node).file (cfg.sha256 path) = some (i, m))
      (heffect : ShrinkEffect size i m (w node) ok v) :
      TruncateStep cfg node path size w ok (Function.update w node v)

section Calls

variable {cfg : Config} {self : ℕ} {path : Path} {size offset : ℕ} {sz : StoreSize}
  {c : Cluster} {w : World} {bad : Prop}

namespace Cluster.Shows

lemma unlockOffset {unlock : AddressHash → Sys Unit}
    (hunl : ∀ a, Ends True (unlock a c) fun r => r.2.Shows sz w) (offset : ℕ) :
    Ends True (unlockOffset unlock offset c) fun r => r.2.Shows sz w := by
  unfold Octopus.unlockOffset
  split
  · exact hunl _
  · exact .undefined trivial

section

variable (h : c.Shows sz w)

include h

/-- A write to a file with arguments that `extentWrite` accepts. -/
lemma extentWrite_file (hsf : cfg.nodeOf path = self) {i : ℕ}
    {m : FileMeta} (hfile : (w self).file (cfg.sha256 path) = some (i, m))
    (hargs : Writable size offset) (hbad : WriteOverruns self size offset m (w self) → bad) :
    Ends bad (extentWrite cfg self path size offset c) fun r =>
      r.1.offset = some (cfg.addressOf path) ∧
        ∃ v, r.2.Shows sz (Function.update w self v) ∧
          WriteEffect self size offset i m (w self) r.1.fpi v := by
  unfold Octopus.extentWrite
  rw [if_pos hsf]
  refine (h.lockWrite _ _).bind ?_
  rintro ⟨key, c1⟩ h1
  exact (h1.onStorage fun st hst => hst.positionsToWrite hfile hargs hbad).bind
    fun r hr => .done ⟨rfl, hr⟩

lemma extentWrite (hsf : cfg.nodeOf path = self)
    (hbad : ∀ i m, (w self).file (cfg.sha256 path) = some (i, m) → Writable size offset →
      WriteOverruns self size offset m (w self) → bad) :
    Ends bad (extentWrite cfg self path size offset c) fun r =>
      r.1.offset = some (cfg.addressOf path) ∧
        ∃ w', r.2.Shows sz w' ∧ WriteStep cfg self path size offset w r.1.fpi w' := by
  by_cases hchg : Writable size offset ∧ ∃ f, (w self).file (cfg.sha256 path) = some f
  · obtain ⟨hargs, f, hfile⟩ := hchg
    refine (h.extentWrite_file hsf hfile hargs (hbad f.1 f.2 hfile hargs)).mono ?_
    rintro r ⟨hoff, v, hv, heffect⟩
    exact ⟨hoff, _, hv, .change hfile hargs heffect⟩
  · unfold Octopus.extentWrite
    rw [if_pos hsf]
    refine (h.lockWrite _ _).bind ?_
    rintro ⟨key, c1⟩ h1
    have href : Storage.positionsToWrite self (cfg.sha256 path) size offset
        (c1.storage self) = .done (none, c1.storage self) := by
      rw [Storage.positionsToWrite, bind_apply, (h1 self).lookupFile, done_bind]
      cases hfile : (w self).file (cfg.sha256 path) with
      | none => rfl
      | some f =>
        have hargs : ¬ Writable size offset := fun hargs => hchg ⟨hargs, f, hfile⟩
        dsimp only
        rw [if_pos (not_not.mp hargs)]
        rfl
    dsimp only
    rw [bind_apply, onStorage_reads href]
    exact .done ⟨rfl, w, h1, .nothing⟩

lemma answerWrite (unset : Unset) (hsf : cfg.nodeOf path = self)
    (hbad : ∀ i m, (w self).file (cfg.sha256 path) = some (i, m) → Writable size offset →
      WriteOverruns self size offset m (w self) → bad) :
    Ends bad (answerWrite cfg unset self path size offset c) fun r =>
      ∃ fpi w', r.1 = .positions fpi ∧ r.2.Shows sz w' ∧
        WriteStep cfg self path size offset w fpi w' := by
  refine (h.extentWrite hsf hbad).bind ?_
  rintro ⟨r, c1⟩ ⟨hoff, w', h1, hst⟩
  dsimp only at hoff ⊢
  rw [hoff, Option.elim_some, unlockOffset_val]
  exact (h1.unlockWrite _ _).bind fun _ h2 => .done ⟨_, w', rfl, h2, hst⟩

lemma truncate (hsf : cfg.nodeOf path = self) : Ends bad (truncate cfg self path size c) fun r =>
      ∃ w', r.2.Shows sz w' ∧ TruncateStep cfg self path size w r.1 w' := by
  unfold Octopus.truncate
  rw [if_pos hsf]
  refine (h.lockWrite _ _).bind ?_
  rintro ⟨key, c1⟩ h1
  have hbd : Ends bad (Octopus.onStorage self
      (Storage.shrink (cfg.sha256 path) size) c1) fun r =>
        ∃ w', r.2.Shows sz w' ∧ TruncateStep cfg self path size w r.1 w' := by
    cases hfile : (w self).file (cfg.sha256 path) with
    | none =>
      rw [onStorage_reads (r := false) (by
        rw [Storage.shrink, bind_apply, (h1 self).lookupFile, hfile]
        rfl)]
      exact .done ⟨w, h1, .nothing⟩
    | some f =>
      obtain ⟨r, st, v, hshr, hv, heffect⟩ := (h1 self).shrink hfile
      rw [onStorage_done hshr]
      exact .done ⟨_, h1.setStorage hv, .change hfile heffect⟩
  refine hbd.bind ?_
  rintro ⟨r, c2⟩ ⟨w', h2, hst⟩
  exact (h2.unlockWrite _ _).bind fun _ h3 => .done ⟨w', h3, hst⟩

/-- A reply without positions, or with those of the part of the range that the
file has. -/
lemma extentRead (hbad : ∀ i m, (w self).file (cfg.sha256 path) = some (i, m) → size ≠ 0 →
      (offset + 1) % 2 ^ 64 ≤ m.size →
      fillFilePositionInformation (min size (m.size - offset)) offset m = .undefined → bad) :
    Ends bad (extentRead cfg self path size offset c) fun r =>
      r.2.Shows sz w ∧ ∀ fpi, r.1.fpi = some fpi → fpi = [] ∨ ∃ i m,
        (w self).file (cfg.sha256 path) = some (i, m) ∧
          fillFilePositionInformation (min size (m.size - offset)) offset m = .done fpi := by
  unfold Octopus.extentRead
  split
  · exact .done ⟨h, nofun⟩
  · rename_i hsz
    split
    · refine (h.lockRead _ _).bind ?_
      rintro ⟨u, c1⟩ h1
      have hbd := (h1 self).positionsToRead (cfg.sha256 path) size offset
      dsimp only
      rw [bind_apply]
      cases hfile : (w self).file (cfg.sha256 path) with
      | none =>
        rw [hfile] at hbd
        rw [onStorage_reads hbd]
        exact .done ⟨h1, nofun⟩
      | some f =>
        rw [hfile] at hbd
        dsimp only at hbd
        split at hbd
        · rw [onStorage_reads hbd]
          refine .done ⟨h1, fun fpi hfpi => .inl ?_⟩
          cases hfpi
          rfl
        · rename_i hins
          rcases fill_ends (min size (f.2.size - offset)) offset f.2 with
            ⟨fpi, hfl⟩ | hund
          · rw [hfl, done_bind] at hbd
            rw [onStorage_reads hbd]
            refine .done ⟨h1, fun fpi' hfpi => .inr ⟨f.1, f.2, rfl, ?_⟩⟩
            cases hfpi
            exact hfl
          · rw [hund] at hbd
            rw [Octopus.onStorage, zoom, hbd]
            exact .undefined (hbad f.1 f.2 hfile hsz (Nat.le_of_not_lt hins) hund)
    · exact .done ⟨h, nofun⟩

lemma answerRead (unset : Unset) :
    Ends True (answerRead cfg unset self path size offset c) fun r => r.2.Shows sz w := by
  refine (h.extentRead fun _ _ _ _ _ _ => trivial).bind ?_
  rintro ⟨r, c1⟩ ⟨h1, -⟩
  exact (unlockOffset (h1.unlockRead _) _).bind fun _ h2 => .done h2

end

end Cluster.Shows

end Calls

end Librdpma.Octopus
