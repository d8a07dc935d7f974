import Syncthing.Lib.Transition
import Syncthing.Net.Messages
import Syncthing.Sync.Database
import Mathlib.Algebra.Group.Nat.Defs

/-! `syncthing-sync/src/index.rs` on a `FileSystemDatabase`. A device is sent the records numbered
above what it has seen, as long as the index keeps its id. With a new id the numbers begin anew. The
delta is read from the files of the database, where names that differ by a slash and an underscore
share one. -/
namespace Syncthing

open List Transition UInt64 Function

/-- `IndexID`, random bytes. -/
structure IndexId where
  bytes : Bytes
  deriving DecidableEq

structure IndexDelta where
  folder : String
  indexId : IndexId
  startSequence : UInt64
  files : List FileInfo

/-- The file of a record in the database. -/
def FileInfo.recordFile (f : FileInfo) : String := Text.replaceChar '/' '_' f.name

/-- The files of a folder in the database, each with a record. -/
abbrev RecordFiles := KeyedList FileInfo.recordFile

/-- `get_needed_files`. -/
def getNeededFiles (db : RecordFiles) (since : UInt64) : List FileInfo :=
  db.entries.filter (·.sequence > since)

/-- A manager, and what the database holds of its folder, apart from the metadata that only a new
manager reads. -/
structure IndexManager where
  folder : String
  db : RecordFiles
  sequence : UInt64
  localIndexId : Option IndexId
  localMaxSequence : UInt64
  remoteIndexIds : DeviceId → Option IndexId
  remoteMaxSequences : DeviceId → Option UInt64

/-- The operations, with the id that `IndexID::random` gives. -/
inductive IndexOp where
  | updateIndex (random : IndexId) (files : List FileInfo)
  | updateIndexDelta (random : IndexId) (files : List FileInfo)
  | updateIndexId (random : IndexId)
  | registerRemoteIndex (device : DeviceId) (indexId : IndexId) (maxSequence : UInt64)

namespace IndexManager

def new (folder : String) (db : RecordFiles) (sequence : UInt64)
    (localIndexId : Option IndexId) : IndexManager :=
  ⟨folder, db, sequence, localIndexId, sequence, fun _ => none, fun _ => none⟩

variable (m : IndexManager) (device : DeviceId)

def registerRemoteIndex (indexId : IndexId) (maxSequence : UInt64) : IndexManager :=
  { m with
    remoteIndexIds := update m.remoteIndexIds device (some indexId)
    remoteMaxSequences := update m.remoteMaxSequences device (some maxSequence) }

def getIndexDelta : Option IndexDelta := do
  let localIndexId ← m.localIndexId
  let remoteIndexId ← m.remoteIndexIds device
  if localIndexId ≠ remoteIndexId then none else
  let remoteSequence := (m.remoteMaxSequences device).getD 0
  return ⟨m.folder, localIndexId, remoteSequence, getNeededFiles m.db remoteSequence⟩

variable (random : IndexId)

def updateIndexId : IndexManager := { m with
    localIndexId := some random
    localMaxSequence := 0
    sequence := 0 }

/-- Each file gets the number of a call of `increment_sequence`. -/
def number : UInt64 → List FileInfo → UInt64 × List FileInfo
  | sequence, [] => (sequence, [])
  | sequence, file :: files =>
    let (last, numbered) := number (sequence + 1) files
    (last, { file with sequence := sequence + 1 } :: numbered)

/-- The body that `update_index` and `update_index_delta` have in common. The tasks of
`update_files` write the numbered files in any order. -/
def update (files stored : List FileInfo) : IndexManager :=
  let maxSequence := (number m.sequence files).1
  { m with
    localIndexId := some (m.localIndexId.getD random)
    sequence := maxSequence
    db := m.db.upsertAll stored
    localMaxSequence := maxSequence }

/-- The ids an operation makes. -/
def draws : IndexOp → List IndexId
  | .updateIndex random _ | .updateIndexDelta random _ =>
    if m.localIndexId.isNone then [random] else []
  | .updateIndexId random => [random]
  | .registerRemoteIndex .. => []

end IndexManager

namespace IndexOp

def files : IndexOp → List FileInfo
  | updateIndex _ files | updateIndexDelta _ files => files
  | _ => []

def registers (device : DeviceId) : IndexOp → Prop
  | registerRemoteIndex device' .. => device' = device
  | _ => False

end IndexOp

/-- The delta for a device that has seen all that was there before these operations. -/
structure DeltaComplete (m : IndexManager) (device : DeviceId) (ops : List IndexOp) : Prop where
  rotated : ∀ random, .updateIndexId random ∈ ops → m.getIndexDelta device = none
  /-- The record that is now in the database is one of the file. -/
  complete : ∀ delta, m.getIndexDelta device = some delta → ∀ op ∈ ops, ∀ file ∈ op.files,
    ∃ f ∈ delta.files, m.db.find? file.recordFile = some f ∧ f.name = file.name

namespace IndexManager

inductive Step : IndexManager → IndexOp → IndexManager → Prop where
  | updateIndex {m random files stored} (h : stored.Perm (number m.sequence files).2) :
    Step m (.updateIndex random files) (m.update random files stored)
  | updateIndexDelta {m random files stored} (h : stored.Perm (number m.sequence files).2) :
    Step m (.updateIndexDelta random files) (m.update random files stored)
  | updateIndexId {m random} : Step m (.updateIndexId random) (m.updateIndexId random)
  | registerRemoteIndex {m device indexId maxSequence} :
    Step m (.registerRemoteIndex device indexId maxSequence)
      (m.registerRemoteIndex device indexId maxSequence)

/-- No two different names that are updated share a file of the database. -/
def FilesApart (ops : List IndexOp) : Prop := ∀ op ∈ ops, ∀ f ∈ op.files, ∀ op' ∈ ops,
  ∀ g ∈ op'.files, f.recordFile = g.recordFile → f.name = g.name

variable {m m' t : IndexManager} {device : DeviceId} {id : IndexId} {start : UInt64} {op : IndexOp}
  {ops : List IndexOp} {files stored : List FileInfo} {db : RecordFiles} {file : FileInfo}

theorem number_spec {sequence : UInt64} (h : sequence.toNat + files.length < 2 ^ 64) :
    sequence ≤ (number sequence files).1 ∧
      (∀ f ∈ (number sequence files).2, sequence < f.sequence) ∧
      (number sequence files).2.map (·.name) = files.map (·.name) := by
  induction files generalizing sequence with
  | nil => simp [number]
  | cons file files ih =>
    rw [length_cons] at h
    have hnext : (sequence + 1).toNat = sequence.toNat + 1 := by
      rw [UInt64.toNat_add, UInt64.toNat_one, Nat.mod_eq_of_lt (by omega)]
    have hlt : sequence < sequence + 1 := by
      rw [lt_iff_toNat_lt, hnext]
      omega
    obtain ⟨hlast, habove, hnames⟩ := @ih (sequence + 1) (by omega)
    refine ⟨le_trans (le_of_lt hlt) hlast, ?_, by simp [number, hnames]⟩
    rintro f (_ | ⟨_, hf⟩)
    · exact hlt
    · exact lt_trans hlt (habove f hf)

/-- The file of the database has a record of this file, or of another of the names, that is numbered
above `start`. -/
def Above (start : UInt64) (db : RecordFiles) (names : List String) (file : FileInfo) : Prop :=
  ∃ f, db.find? file.recordFile = some f ∧ start < f.sequence ∧ f.name ∈ names

theorem recordFile_of_name {f g : FileInfo} (h : f.name = g.name) : f.recordFile = g.recordFile := by
  rw [FileInfo.recordFile, FileInfo.recordFile, h]

theorem above_upsertAll {names : List String} (hfiles : ∀ f ∈ stored, start < f.sequence)
    (h : file.name ∈ stored.map (·.name) ∨ Above start db names file) :
    Above start (db.upsertAll stored) (names ++ stored.map (·.name)) file := by
  unfold Above
  rw [KeyedList.find?_upsertAll]
  cases hlast : stored.reverse.find? fun f => f.recordFile = file.recordFile with
  | some f =>
    have hf := mem_reverse.mp (mem_of_find?_eq_some hlast)
    exact ⟨f, rfl, hfiles f hf, mem_append_right _ (mem_map_of_mem hf)⟩
  | none =>
    obtain ⟨f, hf, hlt, hname⟩ := h.resolve_left fun hname => by
      obtain ⟨f, hf, heq⟩ := mem_map.mp hname
      simpa [recordFile_of_name heq] using find?_eq_none.mp hlast f (mem_reverse.mpr hf)
    exact ⟨f, hf, hlt, mem_append_left _ hname⟩

/-- The names that operations have updated. -/
def updatedNames (ops : List IndexOp) : List String := ops.flatMap fun op => op.files.map (·.name)

/-- The device has registered `id` and `start`. The index has another id now, or has kept this one
and numbered all updates since above `start`. -/
structure Tracked (device : DeviceId) (id : IndexId) (start : UInt64) (ops : List IndexOp)
    (m : IndexManager) : Prop where
  remoteId : m.remoteIndexIds device = some id
  remoteMax : m.remoteMaxSequences device = some start
  since : (∃ other, m.localIndexId = some other ∧ other ≠ id) ∨
    m.localIndexId = some id ∧ (∀ random, .updateIndexId random ∉ ops) ∧ start ≤ m.sequence ∧
      ∀ op ∈ ops, ∀ file ∈ op.files, Above start m.db (updatedNames ops) file

namespace Tracked

section
variable (h : Tracked device id start ops m)
include h

/-- The delta is complete if no two of the names share a file, and otherwise not. -/
theorem deltaComplete_iff : DeltaComplete m device ops ↔
    m.getIndexDelta device = none ∨ FilesApart ops := by
  rcases h.since with ⟨other, hlocal, hne⟩ | ⟨hlocal, hkept, -, habove⟩
  · have hnone : m.getIndexDelta device = none := by simp [getIndexDelta, hlocal, h.remoteId, hne]
    exact iff_of_true ⟨fun _ _ => hnone, by simp [hnone]⟩ (.inl hnone)
  · have hdelta : m.getIndexDelta device =
        some ⟨m.folder, id, start, getNeededFiles m.db start⟩ := by
      simp [getIndexDelta, hlocal, h.remoteId, h.remoteMax]
    rw [hdelta, or_iff_right (by simp)]
    constructor
    · intro hcomplete op hop f hf op' hop' g hg heq
      obtain ⟨r, -, hr, hname⟩ := hcomplete.complete _ hdelta op hop f hf
      obtain ⟨r', -, hr', hname'⟩ := hcomplete.complete _ hdelta op' hop' g hg
      rw [heq, hr', Option.some.injEq] at hr
      rw [← hname, ← hr, hname']
    · intro hapart
      refine ⟨fun random hop => absurd hop (hkept random), fun delta h op hop file hfile => ?_⟩
      obtain ⟨f, hf, hlt, hname⟩ := habove op hop file hfile
      obtain ⟨hin, hkey⟩ := KeyedList.find?_eq_some_iff.mp hf
      obtain ⟨op', hop', hname⟩ := mem_flatMap.mp hname
      obtain ⟨g, hg, hname⟩ := mem_map.mp hname
      cases hdelta.symm.trans h
      refine ⟨f, mem_filter.mpr ⟨hin, by simpa using hlt⟩, hf, ?_⟩
      rw [← hname]
      exact hapart op' hop' g hg op hop file hfile ((recordFile_of_name hname).trans hkey)

theorem update (random : IndexId) (hop : ∀ random, op ≠ .updateIndexId random)
    (hstored : stored.Perm (number m.sequence op.files).2)
    (hcount : m.sequence.toNat + op.files.length < 2 ^ 64) :
    Tracked device id start (ops ++ [op]) (m.update random op.files stored) := by
  refine ⟨h.remoteId, h.remoteMax, ?_⟩
  rcases h.since with ⟨other, hlocal, hne⟩ | ⟨hlocal, hkept, hstart, habove⟩
  · exact .inl ⟨other, by simp [IndexManager.update, hlocal], hne⟩
  · obtain ⟨hlast, hnumbered, hnames⟩ := number_spec hcount
    have hperm : (stored.map (·.name)).Perm (op.files.map (·.name)) :=
      hnames ▸ hstored.map (·.name)
    refine .inr ⟨by simp [IndexManager.update, hlocal], fun random => ?_,
      le_trans hstart hlast, ?_⟩
    · simpa using ⟨hkept random, (hop random).symm⟩
    · intro x hx file hfile
      have hin : file.name ∈ stored.map (·.name) ∨ Above start m.db (updatedNames ops) file := by
        rcases mem_append.mp hx with hx | hx
        · exact .inr (habove x hx file hfile)
        · rw [mem_singleton.mp hx] at hfile
          exact .inl (hperm.mem_iff.mpr (mem_map_of_mem hfile))
      obtain ⟨f, hf, hlt, hname⟩ := above_upsertAll (fun f hf =>
        lt_of_le_of_lt hstart (hnumbered f (hstored.mem_iff.mp hf))) hin
      refine ⟨f, hf, hlt, ?_⟩
      rw [updatedNames, flatMap_append, flatMap_singleton]
      exact mem_append.mpr ((mem_append.mp hname).imp_right hperm.mem_iff.mp)

theorem step (hstep : Step m op m') (hother : ¬ op.registers device)
    (hfresh : id ∉ m.draws op) (hcount : m.sequence.toNat + op.files.length < 2 ^ 64) :
    Tracked device id start (ops ++ [op]) m' := by
  cases hstep with
  | updateIndex hstored | updateIndexDelta hstored => exact h.update _ (by simp) hstored hcount
  | @updateIndexId random =>
    exact ⟨h.remoteId, h.remoteMax, .inl ⟨random, rfl, fun heq => hfresh (by simp [draws, heq])⟩⟩
  | @registerRemoteIndex device' indexId maxSequence =>
    have hne : device ≠ device' := fun heq => hother heq.symm
    refine ⟨?_, ?_, h.since.imp_right fun ⟨hlocal, hkept, hstart, habove⟩ => ?_⟩
    · exact (update_of_ne hne _ _).trans h.remoteId
    · exact (update_of_ne hne _ _).trans h.remoteMax
    · refine ⟨hlocal, by simpa using hkept, hstart, fun x hx file hfile => ?_⟩
      have hnames : updatedNames (ops ++ [.registerRemoteIndex device' indexId maxSequence]) =
          updatedNames ops := by
        simp [updatedNames, IndexOp.files]
      rcases mem_append.mp hx with hx | hx
      · exact hnames ▸ habove x hx file hfile
      · cases mem_singleton.mp hx
        cases hfile

end

end Tracked

theorem made_step (hstep : Step m op m') (h : m'.localIndexId = some id) :
    m.localIndexId = some id ∨ id ∈ m.draws op := by
  cases hstep <;> cases hlocal : m.localIndexId <;>
    simp_all [updateIndexId, registerRemoteIndex, update, draws]

/-- The manager knows the largest number, and the id is one that was made. -/
theorem synced {run : List (IndexManager × IndexOp)} (h : Run Step m run t)
    (hmax : m.localMaxSequence = m.sequence) : t.localMaxSequence = t.sequence ∧
      ∀ id, t.localIndexId = some id →
        id ∈ m.localIndexId.toList ++ run.flatMap fun x => x.1.draws x.2 := by
  induction h with
  | nil => exact ⟨hmax, by simp⟩
  | @snoc run t u op _ hstep ih =>
    simp only [flatMap_append, flatMap_singleton, ← append_assoc]
    refine ⟨?_, fun id hid => ?_⟩
    · cases hstep with
      | registerRemoteIndex => exact ih.1
      | updateIndex | updateIndexDelta | updateIndexId => rfl
    · exact mem_append.mpr ((made_step hstep hid).imp_left (ih.2 id))

/-- A device has registered an index at its beginning. -/
def seenAll : IndexManager :=
  (new "" .empty 0 (some ⟨[]⟩)).registerRemoteIndex .default ⟨[]⟩ 0

def twoUpdates (other : String) : IndexOp := .updateIndexDelta ⟨[]⟩ [.new "a/b", .new other]

/-- The manager after both files were written in their order. -/
def afterBoth (other : String) : IndexManager :=
  seenAll.update ⟨[]⟩ (twoUpdates other).files (number 0 (twoUpdates other).files).2

theorem step_afterBoth (other : String) : Step seenAll (twoUpdates other) (afterBoth other) :=
  .updateIndexDelta (.refl _)

end IndexManager

end Syncthing
