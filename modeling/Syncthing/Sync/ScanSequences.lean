import Syncthing.Sync.ScanWalk
import Syncthing.Sync.StoredRecords
import Mathlib.Algebra.Group.Nat.Defs

/-! Scans number what they find with `increment_sequence`, in ascending order. -/
namespace Syncthing

open Program UInt64 ScanEnv
open List hiding after concat

def FileInfo.stamp (f : FileInfo) : Nat := f.sequence.toNat

open FileInfo

/-- Records numbered in ascending order between two states of the counter, which has gone up by
`n` at most. -/
structure Ascends (s : ScanState) (out : List FileInfo) (t : ScanState) (n : Nat) : Prop where
  sorted : out.Pairwise (·.stamp < ·.stamp)
  fresh : ∀ f ∈ out, s.sequence.toNat < f.stamp ∧ f.stamp ≤ t.sequence.toNat
  rises : s.sequence.toNat ≤ t.sequence.toNat
  taken : t.sequence.toNat ≤ s.sequence.toNat + n

namespace Ascends

variable {s t u : ScanState} {out more : List FileInfo} {n k : Nat}

theorem refl (s : ScanState) : Ascends s [] s 0 := ⟨by simp, by simp, le_rfl, le_rfl⟩

section
variable (h : Ascends s out t n)
include h

theorem mono (hn : n ≤ k) : Ascends s out t k :=
  ⟨h.sorted, h.fresh, h.rises, by have := h.taken; omega⟩

theorem sublist (hsub : more.Sublist out) : Ascends s more t n :=
  ⟨h.sorted.sublist hsub, fun f hf => h.fresh f (hsub.subset hf), h.rises, h.taken⟩

theorem nil : Ascends s [] t n := h.sublist (nil_sublist _)

theorem trans (h' : Ascends t more u k) : Ascends s (out ++ more) u (n + k) := by
  have hrises := h.rises
  have hrises' := h'.rises
  refine ⟨List.pairwise_append.mpr ⟨h.sorted, h'.sorted, fun f hf g hg => ?_⟩, fun f hf => ?_,
    by omega, ?_⟩
  · have := h.fresh f hf
    have := h'.fresh g hg
    omega
  · rcases List.mem_append.mp hf with hf | hf
    · have := h.fresh f hf
      omega
    · have := h'.fresh f hf
      omega
  · have := h.taken
    have := h'.taken
    omega
end

end Ascends
open Ascends (refl)

theorem TakesNext.ascends {s t : ScanState} {pushed : Option FileInfo} (h : TakesNext s pushed t)
    (hroom : s.sequence.toNat + 1 < 2 ^ 64) : Ascends s pushed.toList t 1 := by
  rcases h with ⟨rfl, rfl⟩ | ⟨x, rfl, hx, rfl⟩
  · exact (refl t).mono (Nat.zero_le _)
  · have hnext : (s.sequence + 1).toNat = s.sequence.toNat + 1 := by
      rw [UInt64.toNat_add, UInt64.toNat_one, Nat.mod_eq_of_lt hroom]
    refine ⟨by simp, fun f hf => ?_, by simp only [hnext]; omega, by simp only [hnext]; omega⟩
    obtain rfl : f = x := by simpa using hf
    simp only [stamp, hx, hnext]
    omega

namespace ScanEnv

variable {env : ScanEnv} {d : Disk} {s : ScanState} {old : FileInfo}

/-- The loops of a scan number what they push in ascending order. -/
theorem ends_collect_takes {α : Type} {f : α → ScanM (Option FileInfo)} {as : List α}
    (hf : ∀ a ∈ as, ∀ s, Ends (f a) (TakesNext s) (· = s) s)
    (hroom : s.sequence.toNat + as.length < 2 ^ 64) :
    Ends (collect f as) (fun out t => Ascends s out t as.length)
      (fun t => Ascends s [] t as.length) s := by
  induction as generalizing s with
  | nil => simpa [collect] using refl s
  | cons a as ih =>
    rw [length_cons] at hroom
    simp only [collect, ends_bind, ends_pure]
    refine (hf a mem_cons_self s).imp (fun pushed t ht => ?_) fun t ht => ?_
    · have hone := ht.ascends (by omega)
      have htaken := hone.taken
      refine (ih (fun a ha => hf a (mem_cons_of_mem _ ha)) (s := t) (by omega)).imp
        (fun out u hu => ?_) fun u hu => ?_
      · exact (hone.trans hu).mono (by simp; omega)
      · exact (hone.nil.trans hu).mono (by simp; omega)
    · rw [ht]
      exact (refl s).mono (Nat.zero_le _)

end ScanEnv

/-- Nothing is moved to the front where no live record has the blocks of a deleted one. -/
theorem detectAndReorderRenames_eq {changed : List FileInfo}
    (h : ∀ file ∈ changed, ∀ del ∈ changed, file.isDeleted = false → del.isDeleted = true →
      hasSameBlocks del file = false) : detectAndReorderRenames changed = changed := by
  have hnone : ∀ file ∈ changed, isRenamed changed file = false := by
    intro file hfile
    rw [← Bool.not_eq_true]
    intro hrenamed
    simp only [isRenamed, Bool.and_eq_true, Bool.not_eq_true', any_eq_true] at hrenamed
    obtain ⟨hlive, del, hdel, hgone, hsame⟩ := hrenamed
    rw [h file hfile del hdel hlive hgone] at hsame
    cases hsame
  rw [detectAndReorderRenames_eq_filter, List.filter_eq_nil_iff.mpr fun f hf => by simp [hnone f hf],
    List.filter_eq_self.mpr fun f hf => by simp [hnone f hf], nil_append]

theorem blocks_of_compared {env : ScanEnv} {db : FolderFiles} {file x : FileInfo}
    (h : Compared env db file x) : x.blocks = file.blocks ∧ x.isDeleted = file.isDeleted := by
  obtain ⟨version, sequence, base, rfl⟩ := h.eq_with
  exact ⟨rfl, rfl⟩

theorem hasSameBlocks_congr {f f' g g' : FileInfo} (hf : f.blocks = f'.blocks)
    (hg : g.blocks = g'.blocks) : hasSameBlocks f g = hasSameBlocks f' g' := by
  simp only [hasSameBlocks, hf, hg]

namespace ScanEnv

variable {env : ScanEnv} {d : Disk} {sub : Option String} {s : ScanState} {db : FolderFiles}
  {inFlight : Bool} {relative : String} {files : List FileInfo} {changes : List String}

theorem ends_scanDeletions_ascends (hroom : s.sequence.toNat + s.db.entries.length < 2 ^ 64) :
    Ends (env.scanDeletions d sub) (fun out t => Ascends s out t s.db.entries.length)
      (fun t => Ascends s [] t s.db.entries.length) s := by
  have hnone : Ascends s [] s s.db.entries.length := (refl s).mono (Nat.zero_le _)
  cases sub with
  | some _ => simpa [scanDeletions] using hnone
  | none =>
    simp only [scanDeletions, getFolderFiles, ends_bind, ends_require, ends_get, ends_pure]
    exact ⟨fun _ _ => ends_collect_takes (fun _ _ _ => ends_scanDeleted_takes) hroom,
      fun _ _ => hnone⟩

/-- The bodies of an incremental scan leave no blocks to a deletion, so it sees no renames. -/
def Blockless (f : FileInfo) : Prop := f.isDeleted = true → f.blocks = []

theorem ends_scanChangedFile_takes : Ends (env.scanChangedFile d relative)
      (fun pushed t => TakesNext s pushed t ∧ ∀ x ∈ pushed, Blockless x) (· = s) s := by
  have hpushed : ∀ path content modified,
      Ends (require (env.scanFile path relative content modified) >>= env.compareFile)
        (fun pushed t => TakesNext s pushed t ∧ ∀ x ∈ pushed, Blockless x) (· = s) s := by
    intro path content modified
    simp only [ends_bind, ends_require]
    refine ⟨fun file hfile => ?_, fun _ _ => trivial⟩
    refine (ends_compareFile_takes.and ends_compareFile).imp (fun pushed t h => ⟨h.1, ?_⟩)
      fun _ h => h.1
    rintro x ⟨⟩ hgone
    rw [(blocks_of_compared h.2.2).2, scanFile_ok hfile] at hgone
    cases hgone
  have hnone : TakesNext s none s := .inl ⟨rfl, rfl⟩
  unfold scanChangedFile
  simp only [ends_ite, ends_pure]
  refine ⟨fun _ => ⟨hnone, by simp⟩, fun _ => ⟨fun _ => ⟨hnone, by simp⟩, fun _ => ?_⟩⟩
  split
  · exact hpushed _ _ _
  · exact hpushed _ _ _
  · simpa using hnone
  · simpa using hnone
  · simp
  · simp

theorem ends_markDeletedSubtree_blockless :
    Ends (env.markDeletedSubtree d relative) (fun out _ => ∀ x ∈ out, Blockless x)
      (fun _ => True) s := by
  refine ends_markDeletedSubtree_mem.imp (fun out t h x hx hgone => ?_) fun _ _ => trivial
  obtain ⟨old, -, sequence, rfl⟩ := h.2 x hx
  simp [clearDeletedBlocks, deletedInfo, isDeleted]

end ScanEnv

end Syncthing
