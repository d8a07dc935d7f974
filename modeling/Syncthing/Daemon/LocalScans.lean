import Syncthing.Daemon.IndexPropagation
import Syncthing.Sync.ScanSequences

/-! A scan numbers what it found with the next sequence numbers of the folder, stores it and
publishes it: the steps of a local scan in the propagation of its changes. -/
namespace Syncthing

open Program Transition List

namespace ScanEnv

variable {env : ScanEnv} {d : Disk} {sub : Option String} {s : ScanState} {files : List FileInfo}

/-- What a scan finds is numbered in ascending order, deletions first. Renames are moved to the
front after that. -/
theorem ends_findChanges_numbered (hroom : ∀ found, env.listing d sub = .ok found →
      s.sequence.toNat + s.db.entries.length + found.length < 2 ^ 64) :
    Ends (env.findChanges d sub) (fun out t => ∃ numbered n,
      out = orderChanged sub numbered ∧ Ascends s numbered t n) (fun _ => True) s := by
  have hnone : ∃ numbered n, [] = orderChanged sub numbered ∧ Ascends s numbered s n :=
    ⟨[], 0, by cases sub <;> rfl, .refl s⟩
  unfold findChanges
  simp only [ends_ite, ends_bind, ends_pure, ends_require]
  refine ⟨fun _ => hnone, fun _ => ⟨fun _ _ => ⟨fun _ => hnone, fun _ =>
    ⟨fun found hfound => ?_, fun _ _ => trivial⟩⟩, fun _ _ => trivial⟩⟩
  have hroom := hroom found hfound
  refine (ends_scanDeletions_ascends (by omega)).imp (fun deleted t ht => ?_) fun _ _ => trivial
  have htaken := ht.taken
  refine (ends_collect_takes (fun _ _ _ => ends_compareFile_takes) (by omega)).imp
    (fun compared u hu => ?_) fun _ _ => trivial
  exact ⟨_, _, rfl, ht.trans hu⟩

/-- The reordering keeps the numbers within where the scan leaves the counter. -/
theorem fresh_of_orderChanged {numbered : List FileInfo} {t : ScanState} {n : Nat}
    (h : Ascends s numbered t n) : ∀ r ∈ orderChanged sub numbered,
      s.sequence < r.sequence ∧ r.sequence ≤ t.sequence := by
  intro r hr
  obtain ⟨x, hx, rfl⟩ := mem_orderChanged.mp hr
  rw [sequence_clearDeletedBlocks, UInt64.lt_iff_toNat_lt, UInt64.le_iff_toNat_le]
  exact h.fresh x hx

theorem result?_of_storing {search : ScanM (List FileInfo)}
    (h : result? (env.storing search) s = some files) : result? search s = some files := by
  unfold storing at h
  simp only [result?, bind, EStateM.bind] at h ⊢
  cases hs : search s with
  | error e t => simp [hs] at h
  | ok changed t =>
    cases hforM : changed.forM env.updateFile t with
    | ok => simpa [hs, hforM, pure, EStateM.pure] using h
    | error => simp [hs, hforM] at h

end ScanEnv
open ScanEnv

section
variable {env : DispatchEnv} {s : Propagation} {files : List FileInfo}

/-- A scan stores what it found record by record. -/
theorem reach_store {unstored : List FileInfo} {scans : List LocalScan}
    (hs : s.scans = scans ++ [⟨files, unstored⟩]) :
    Reach (PropagationStep env) (fun _ _ => True) s { s with
      db := s.db.upsertAll unstored
      scans := scans ++ [⟨files, []⟩] } := by
  induction unstored generalizing s with
  | nil =>
    rw [← hs]
    exact .refl
  | cons file rest ih =>
    have hstep : PropagationStep env s (.store file) _ :=
      @PropagationStep.store _ _ scans ⟨files, file :: rest⟩ [] file rest hs rfl
    exact Relation.ReflTransGen.head ⟨_, trivial, hstep⟩ (ih rfl)

/-- A scan of the folder is a run of the propagation: its changes get ascending sequence numbers,
are put in the order of the announcement, stored and published. -/
theorem scan_reach {scanEnv : ScanEnv} {d : Disk} {sub : Option String}
    (hfiles : result? (scanEnv.scanFolderAt d sub) ⟨s.db, s.sequence⟩ = some files)
    (hroom : ∀ found, scanEnv.listing d sub = .ok found →
      s.sequence.toNat + s.db.entries.length + found.length < 2 ^ 64) :
    let t := after (scanEnv.scanFolderAt d sub) ⟨s.db, s.sequence⟩
    (∃ numbered, files = orderChanged sub numbered ∧
      numbered.Pairwise (·.sequence < ·.sequence)) ∧
    Reach (PropagationStep env) (fun _ _ => True) s { s with
      db := t.db
      sequence := t.sequence
      events := s.publish files
      allocated := s.allocated ++ files } := by
  intro t
  obtain ⟨hdb, -⟩ := ends_scanFolderAt.result? hfiles
  obtain ⟨numbered, n, hordered, hascends⟩ := (ends_findChanges_numbered hroom).result?
    (result?_of_storing (scanFolderAt_eq ▸ hfiles))
  have hsequence : t.sequence =
      (after (scanEnv.findChanges d sub) ⟨s.db, s.sequence⟩).sequence := by
    simp only [t, scanFolderAt_eq, after_storing]
  have hfresh : ∀ r ∈ orderChanged sub numbered, s.sequence < r.sequence ∧ r.sequence ≤ _ :=
    fresh_of_orderChanged hascends
  rw [← hordered, ← hsequence] at hfresh
  have hrises : s.sequence ≤ t.sequence := by
    rw [hsequence]
    exact UInt64.le_iff_toNat_le.mpr hascends.rises
  refine ⟨⟨numbered, hordered, hascends.sorted.imp UInt64.lt_iff_toNat_lt.mpr⟩, ?_⟩
  have hallocate : PropagationStep env s (.allocate files t.sequence) _ :=
    .allocate hrises hfresh
  refine Relation.ReflTransGen.head ⟨_, trivial, hallocate⟩ ?_
  refine Relation.ReflTransGen.tail (reach_store rfl) ⟨.publish, trivial, ?_⟩
  have hpublish := @PropagationStep.publish env
    { s with
      db := s.db.upsertAll files
      sequence := t.sequence
      scans := s.scans ++ [⟨files, []⟩]
      allocated := s.allocated ++ files } s.scans ⟨files, []⟩ [] rfl rfl
  rw [append_nil] at hpublish
  rw [hdb]
  exact hpublish

/-- The recorded file `y` has become `x`: the deletion gets the number 4 and the new file 5, and
the new file is announced first. -/
theorem scan_reach_renamed :
    let y := contentInfo id "y" [7] (0, 0)
    ∃ t, Reach (PropagationStep ⟨none, [], "folder", id, fun _ => 0⟩) (fun _ _ => True)
        (.start (KeyedList.empty.upsert y) 3) t ∧
      t.sequence = 5 ∧ t.events.map (·.map fun f => (f.name, f.sequence)) = [[("x", 5), ("y", 4)]] ∧
      ∃ numbered : List FileInfo, t.events = [orderChanged none numbered] ∧
        numbered.Pairwise (·.sequence < ·.sequence) := by
  have h := @scan_reach ⟨none, [], "folder", id, fun _ => 0⟩
    (.start (KeyedList.empty.upsert (contentInfo id "y" [7] (0, 0))) 3) _ (calmScan 1) (diskWith [7])
    none rfl (by
      rintro _ ⟨⟩
      decide)
  refine ⟨_, h.2, rfl, by decide, ?_⟩
  obtain ⟨numbered, hordered, hsorted⟩ := h.1
  exact ⟨numbered, congrArg (fun files => [files]) hordered, hsorted⟩

end

end Syncthing
