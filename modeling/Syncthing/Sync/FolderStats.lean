import Mathlib.Algebra.Group.Nat.Defs
import Mathlib.Algebra.Ring.Int.Defs
import Mathlib.Data.Finset.Card
import Syncthing.Lib.Transition
import Syncthing.Sync.Database

/-! The statistics of a folder. Each change of its index computes them anew, without a lock. -/
namespace Syncthing

open Transition Function List

structure FolderStats where
  fileCount : Nat
  totalBytes : Nat
  blockCount : Nat

namespace FolderStats

/-- The key of a block. A hash of another length is taken for zeros. -/
def blockKey (block : BlockInfo) : Bytes :=
  if block.hash.length = 32 then block.hash else replicate 32 0

/-- One round of `update_folder_stats`, with the blocks seen so far. -/
def addFile (acc : FolderStats × Finset Bytes) (file : FileInfo) : FolderStats × Finset Bytes :=
  if file.isDeleted then acc
  else ({ acc.1 with
      fileCount := acc.1.fileCount + 1
      totalBytes := (acc.1.totalBytes + (file.size % 2 ^ 64).toNat) % 2 ^ 64 },
    acc.2 ∪ (file.blocks.map blockKey).toFinset)

variable (files : List FileInfo)

def compute : FolderStats :=
  let (stats, seen) := files.foldl addFile (⟨0, 0, 0⟩, ∅)
  { stats with blockCount := seen.card }

def liveBlocks : Finset Bytes :=
  ((files.filter (!·.isDeleted)).flatMap fun file => file.blocks.map blockKey).toFinset

/-- The live files, their size and their distinct blocks. -/
def summary : FolderStats :=
  let live := files.filter (!·.isDeleted)
  ⟨live.length, ((live.map FileInfo.size).sum % 2 ^ 64).toNat, (liveBlocks files).card⟩

theorem compute_eq_summary : compute files = summary files := by
  have hfold : files.foldl addFile (⟨0, 0, 0⟩, ∅) =
      ({ summary files with blockCount := 0 }, liveBlocks files) := by
    induction files using List.reverseRecOn with
    | nil => rfl
    | append_singleton files file ih =>
      rw [foldl_append, ih, foldl_cons, foldl_nil, addFile]
      split
      next h => simp [summary, liveBlocks, h]
      next h =>
        simp [summary, liveBlocks, h]
        omega
  rw [compute, hfold]
  rfl

end FolderStats

inductive StoreOp where
  | putFile (info : FileInfo)
  | updateIndex (files : List FileInfo)
  | updateIndexDelta (files : List FileInfo)
  | deleteFile (name : String)

variable (index : FolderFiles)

/-- What is written for each name. -/
def StoreOp.batch : StoreOp → List (String × Option FileInfo)
  | putFile info => [(info.name, some info)]
  | updateIndex files => index.entries.map (fun file => (file.name, none)) ++
      files.map fun file => (file.name, some file)
  | updateIndexDelta files => files.map fun file => (file.name, some file)
  | deleteFile name => [(name, none)]

def applyBatch (batch : List (String × Option FileInfo)) : FolderFiles :=
  batch.foldl (fun index (name, value) => value.elim (index.erase name) index.upsert) index

/-- What a call does next. -/
inductive IndexCall where
  | prepare (op : StoreOp)
  | write (batch : List (String × Option FileInfo))
  | scan
  | store (stats : FolderStats)
  | returned

/-- One folder of the store, and the calls on it. -/
structure MetadataStore (κ : Type) where
  index : FolderFiles
  stats : FolderStats
  calls : κ → IndexCall

namespace MetadataStore

variable {κ : Type} [DecidableEq κ] {s s₀ : MetadataStore κ} {k : κ}

variable (s)

/-- A call goes on. -/
def advance (k : κ) : MetadataStore κ :=
  let set call := update s.calls k call
  match s.calls k with
  | .prepare op => { s with calls := set (.write (op.batch s.index)) }
  | .write batch => { s with index := applyBatch s.index batch, calls := set .scan }
  | .scan => { s with calls := set (.store (.compute s.index.entries)) }
  | .store stats => { s with stats, calls := set .returned }
  | .returned => s

/-- No call writes to the index while another one has read it and not yet stored what it computed. -/
def Guard (k : κ) : Prop := ∀ batch, s.calls k = .write batch → ∀ j stats, s.calls j ≠ .store stats

/-- What is computed is computed from the index as it is, and a call that has still to read it or to
store that is there unless it is stored. -/
structure Settled : Prop where
  computed : ∀ j stats, s.calls j = .store stats → stats = .compute s.index.entries
  stored : s.stats = .compute s.index.entries ∨
    ∃ j, s.calls j = .scan ∨ ∃ stats, s.calls j = .store stats

variable {s}

theorem settled_advance (hok : s.Guard k) (h : s.Settled) : (s.advance k).Settled := by
  have hset {call} (hcall : ∀ stats, call = .store stats → stats = .compute s.index.entries) :
      ∀ j stats, update s.calls k call j = .store stats → stats = .compute s.index.entries := by
    intro j stats hj
    by_cases hne : j = k
    · exact hcall stats (by rwa [hne, update_self] at hj)
    · exact h.computed j stats (by rwa [update_of_ne hne] at hj)
  unfold advance
  cases hk : s.calls k with
  | prepare op =>
    refine ⟨hset nofun, h.stored.imp_right fun ⟨j, hj⟩ => ⟨j, ?_⟩⟩
    have hne : j ≠ k := by
      rintro rfl
      simp [hk] at hj
    simpa only [update_of_ne hne] using hj
  | write batch =>
    refine ⟨fun j stats hj => absurd hj ?_, .inr ⟨k, .inl (update_self ..)⟩⟩
    by_cases hne : j = k
    · simp [hne]
    · simpa only [update_of_ne hne] using hok batch hk j stats
  | scan => exact ⟨hset (by simp), .inr ⟨k, .inr ⟨_, update_self ..⟩⟩⟩
  | store stats => exact ⟨hset nofun, .inl (h.computed k stats hk)⟩
  | returned => exact h

/-- Each call puts a file. -/
def puts (name : κ → String) : MetadataStore κ :=
  ⟨.empty, ⟨0, 0, 0⟩, fun k => .prepare (.putFile (.new (name k)))⟩

end MetadataStore
end Syncthing
