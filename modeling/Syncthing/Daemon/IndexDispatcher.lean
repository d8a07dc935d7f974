import Syncthing.Daemon.BepHandler
import Syncthing.Lib.Batch
import Syncthing.Net.Conversions
import Mathlib.Data.List.Sort

/-! What `spawn_index_propagation_loop` of `tui/index_dispatcher.rs` sends a device for one
`LocalIndexUpdated` event. -/
namespace Syncthing

open List

def maxIndexUpdateBytes : Nat := 1000000

/-- The highest sequence number of a list of records. -/
def highestSequence (fallback : UInt64) (files : List FileInfo) : UInt64 :=
  (files.map (·.sequence)).max?.getD fallback

/-- A sequence number as a signed field of a message. -/
def wireSequence (sequence : UInt64) : Int := min sequence.toNat (2 ^ 63 - 1)

/-- What the dispatcher works with: the folder, who is configured for it, and the encoder. -/
structure DispatchEnv where
  localDeviceId : Option DeviceId
  folders : List FolderConfig
  folder : String
  sha256 : Bytes → Bytes
  encodedLen : IndexUpdate → Nat

namespace DispatchEnv

variable (env : DispatchEnv)

def indexUpdate (prev : UInt64) (files : List FileInfo) : IndexUpdate where
  folder := env.folder
  files := files
  lastSequence := wireSequence (highestSequence prev files)
  prevSequence := wireSequence prev

def buildIndexUpdateChunks (initialPrev : UInt64) (files : List FileInfo) :
    List (UInt64 × List FileInfo) :=
  Batch.split (fun prev files => env.encodedLen (env.indexUpdate prev files) ≤ maxIndexUpdateBytes)
    highestSequence initialPrev files

/-- What a device has not been sent yet, by ascending sequence number. -/
def filesToSend (prevSequence : UInt64) (files : List FileInfo) : List FileInfo :=
  ((files.filter (prevSequence < ·.sequence)).map (wireFile env.sha256)).insertionSort
    fun f g => f.sequence ≤ g.sequence

/-- The chunks for a device that told us `sharedFolders` and was last sent `prevSequence`. It gets
nothing before its initial `Index`. -/
def chunksFor (sharedFolders : Option (List String)) (prevSequence : Option UInt64)
    (files : List FileInfo) : List (UInt64 × List FileInfo) :=
  if sharedFolders.any (·.contains env.folder) then
    match prevSequence with
    | none => []
    | some prev => env.buildIndexUpdateChunks prev (env.filesToSend prev files)
  else []

end DispatchEnv

/-- A list holds a record at its version or a newer one. -/
def Carries (files : List FileInfo) (f : FileInfo) : Prop :=
  ∃ g ∈ files, g.name = f.name ∧ f.version.get ≤ g.version.get

section
variable {files more : List FileInfo} {f g : FileInfo} {prev fallback : UInt64}
  {env : DispatchEnv} {shared : List String}

theorem Carries.mono (h : Carries files f) (hs : files ⊆ more) : Carries more f := by
  obtain ⟨g, hg, hfg⟩ := h
  exact ⟨g, hs hg, hfg⟩

@[simp] theorem not_carries_nil : ¬ Carries [] f := by simp [Carries]

theorem Carries.of_mem (h : f ∈ files) : Carries files f := ⟨f, h, rfl, le_rfl⟩

theorem Carries.wireFile {sha256 : Bytes → Bytes} (h : Carries files f) :
    Carries (files.map (wireFile sha256)) f := by
  obtain ⟨g, hg, hname, hversion⟩ := h
  exact ⟨_, List.mem_map_of_mem hg, by simpa using hname, by simpa using hversion⟩

instance maxEqOrUInt64 : Std.MaxEqOr UInt64 := Bep.lawfulOrderMax_uInt64.toMaxEqOr

theorem highestSequence_mem (fallback : UInt64) (h : files ≠ []) :
    ∃ f ∈ files, f.sequence = highestSequence fallback files := by
  unfold highestSequence
  cases hm : (files.map (·.sequence)).max? with
  | none =>
    rw [List.max?_eq_none_iff, List.map_eq_nil_iff] at hm
    exact absurd hm h
  | some k =>
    have hk := List.max?_mem hm
    obtain ⟨f, hf, rfl⟩ := List.mem_map.mp hk
    exact ⟨f, hf, rfl⟩

theorem highestSequence_le {k : UInt64} (h : ∀ f ∈ files, f.sequence ≤ k) (h0 : fallback ≤ k) :
    highestSequence fallback files ≤ k := by
  by_cases hf : files = []
  · subst hf
    exact h0
  · obtain ⟨f, hf, he⟩ := highestSequence_mem fallback hf
    exact he ▸ h f hf

theorem mem_filesToSend : g ∈ env.filesToSend prev files ↔
      ∃ f ∈ files, prev < f.sequence ∧ wireFile env.sha256 f = g := by
  simp [DispatchEnv.filesToSend, List.mem_insertionSort, and_assoc]

/-- The chunks for a device hold exactly what passes the filter. -/
theorem flatMap_chunksFor (hs : env.folder ∈ shared) :
    (env.chunksFor (some shared) (some prev) files).flatMap (·.2) = env.filesToSend prev files := by
  simp [DispatchEnv.chunksFor, DispatchEnv.buildIndexUpdateChunks, hs, Batch.flatMap_split]

/-- What a chunk for a device holds. -/
theorem of_mem_chunksFor {sharedFolders : Option (List String)} {prevSequence : Option UInt64}
    {chunk : UInt64 × List FileInfo} (h : chunk ∈ env.chunksFor sharedFolders prevSequence files) :
    ∃ prev, prevSequence = some prev ∧ chunk.2 ≠ [] ∧ chunk.2 ⊆ env.filesToSend prev files := by
  unfold DispatchEnv.chunksFor at h
  split at h
  · cases prevSequence with
    | none => simp at h
    | some prev =>
      refine ⟨prev, rfl, (Batch.split_ok.1 _ h).1, fun w hw => ?_⟩
      have hw : w ∈ (env.buildIndexUpdateChunks prev (env.filesToSend prev files)).flatMap (·.2) :=
        mem_flatMap.mpr ⟨chunk, h, hw⟩
      rwa [DispatchEnv.buildIndexUpdateChunks, Batch.flatMap_split] at hw
  · simp at h

/-- Of records by ascending sequence number the last one has the highest. -/
theorem highestSequence_of_sorted (hsorted : files.Pairwise fun f g => f.sequence ≤ g.sequence)
    (hlast : files.getLast? = some f) : highestSequence prev files = f.sequence := by
  obtain ⟨front, rfl⟩ := List.getLast?_eq_some_iff.mp hlast
  obtain ⟨g, hg, hhighest⟩ := @highestSequence_mem (front ++ [f]) prev (by simp)
  have hle : g.sequence ≤ f.sequence := by
    rcases mem_append.mp hg with hg | hg
    · exact (pairwise_append.mp hsorted).2.2 g hg f mem_cons_self
    · rw [mem_singleton.mp hg]
  have hge : f.sequence ≤ highestSequence prev (front ++ [f]) := by
    have hlawful := Bep.lawfulOrderMax_uInt64
    unfold highestSequence
    cases hmax : ((front ++ [f]).map (·.sequence)).max? with
    | none => simp at hmax
    | some k => exact (max?_eq_some_iff.mp hmax).2 _ (by simp)
  exact UInt64.le_antisymm (hhighest ▸ hle) hge

/-- The chunks hold the records, each starts from the last sequence number of the one before, and
what is sent for more than one record is not too large. -/
structure ChunkedWhole (env : DispatchEnv) (initialPrev : UInt64) (files : List FileInfo)
    (chunks : List (UInt64 × List FileInfo)) : Prop where
  nonempty : ∀ chunk ∈ chunks, chunk.2 ≠ []
  whole : chunks.flatMap (·.2) = files
  first : ∀ chunk rest, chunks = chunk :: rest → chunk.1 = initialPrev
  follows : ∀ before chunk next after, chunks = before ++ chunk :: next :: after →
    ∃ f, chunk.2.getLast? = some f ∧ next.1 = f.sequence
  fits : ∀ chunk ∈ chunks, 1 < chunk.2.length →
    env.encodedLen (env.indexUpdate chunk.1 chunk.2) ≤ maxIndexUpdateBytes

/-- Index updates are cut into chunks without loss. -/
theorem index_update_chunked (env : DispatchEnv) (initialPrev : UInt64) {files : List FileInfo}
    (hsorted : files.Pairwise fun f g => f.sequence ≤ g.sequence) :
    ChunkedWhole env initialPrev files (env.buildIndexUpdateChunks initialPrev files) := by
  have hwhole : (env.buildIndexUpdateChunks initialPrev files).flatMap (·.2) = files :=
    Batch.flatMap_split
  obtain ⟨hchunks, final, hchained⟩ :
      (∀ chunk ∈ env.buildIndexUpdateChunks initialPrev files, chunk.2 ≠ [] ∧ _) ∧
        ∃ final, Batch.Chained highestSequence initialPrev
          (env.buildIndexUpdateChunks initialPrev files) final := Batch.split_ok
  refine ⟨fun chunk hchunk => (hchunks chunk hchunk).1, hwhole, ?_, ?_, ?_⟩
  · intro chunk rest heq
    rw [heq] at hchained
    exact hchained.1
  · intro before chunk next after heq
    have hmem : chunk ∈ env.buildIndexUpdateChunks initialPrev files := by simp [heq]
    -- the records of a chunk are in order as all of them are
    have hpart : chunk.2.Pairwise fun f g => f.sequence ≤ g.sequence := by
      rw [← hwhole, pairwise_flatMap] at hsorted
      exact hsorted.1 chunk hmem
    cases hlast : chunk.2.getLast? with
    | none => exact absurd (getLast?_eq_none_iff.mp hlast) (hchunks chunk hmem).1
    | some f => exact ⟨f, rfl, (hchained.follows heq).trans (highestSequence_of_sorted hpart hlast)⟩
  · intro chunk hchunk hmany
    exact of_decide_eq_true ((hchunks chunk hchunk).2 hmany)

/-- The name of a record and its blocks, and some bytes for its numbers. -/
def recordLen (f : FileInfo) : Nat := f.name.length + 32 + f.blocks.length * 44

/-- A record of a file with some number of blocks. -/
def recordOf (name : String) (sequence : UInt64) (blocks : Nat) : FileInfo :=
  { FileInfo.new name with sequence, blocks := replicate blocks ⟨131072, replicate 32 0, 0⟩ }

theorem recordLen_recordOf (name : String) (sequence : UInt64) (blocks : Nat) :
    recordLen (recordOf name sequence blocks) = name.length + 32 + blocks * 44 := by
  simp [recordLen, recordOf, FileInfo.new]

/-- Of three records the last two fit into one chunk. -/
theorem index_update_chunked_three :
    let env : DispatchEnv := ⟨none, [], "f", id, fun update => update.files.foldl (· + recordLen ·) 0⟩
    let files := [recordOf "a" 3 16384, recordOf "b" 5 16384, recordOf "c" 6 1]
    (env.buildIndexUpdateChunks 2 files).map (fun chunk => (chunk.1, chunk.2.map (·.name))) =
        [(2, ["a"]), (3, ["b", "c"])] ∧
      ChunkedWhole env 2 files (env.buildIndexUpdateChunks 2 files) := by
  intro env files
  have hlength : "a".length = 1 ∧ "b".length = 1 ∧ "c".length = 1 := by decide
  have hfields : ∀ name sequence blocks, (recordOf name sequence blocks).name = name ∧
      (recordOf name sequence blocks).sequence = sequence := fun _ _ _ => ⟨rfl, rfl⟩
  refine ⟨?_, index_update_chunked _ 2 (by simp [files, hfields])⟩
  simp [env, files, DispatchEnv.buildIndexUpdateChunks, DispatchEnv.indexUpdate, Batch.split,
    Batch.Filling.push, Batch.Filling.batches, recordLen_recordOf, maxIndexUpdateBytes,
    highestSequence, hlength, hfields]

end

end Syncthing
