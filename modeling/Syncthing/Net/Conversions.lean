import Syncthing.Net.Messages
import Mathlib.Algebra.Group.Int.Defs
import Mathlib.Algebra.Group.Nat.Defs
import Mathlib.Data.List.Basic

/-! `bep-protocol/src/messages/conversions.rs`: the records of an index as protobuf has them, and
back. A hash map is written in an order of its own, and text that is not UTF-8 is read as it comes.
-/
namespace Syncthing.Bep

open List

structure WireCounter where
  id : UInt64
  value : UInt64
  deriving DecidableEq

structure WireVector where
  counters : List WireCounter
  deriving DecidableEq

structure WireBlockInfo where
  offset : Int
  size : Int
  hash : Bytes
  deriving DecidableEq

inductive FileInfoType where
  | file
  | directory
  | symlinkFile
  | symlinkDirectory
  | symlink
  deriving DecidableEq

def FileInfoType.code : FileInfoType → Int
  | file => 0
  | directory => 1
  | symlinkFile => 2
  | symlinkDirectory => 3
  | symlink => 4

structure WireFileInfo where
  name : String
  type : Int
  size : Int
  permissions : Nat
  modifiedS : Int
  deleted : Bool
  invalid : Bool
  noPermissions : Bool
  version : Option WireVector
  sequence : Int64
  modifiedNs : Int
  modifiedBy : UInt64
  blockSize : Int
  blocks : List WireBlockInfo
  symlinkTarget : Bytes
  blocksHash : Bytes
  encrypted : Bytes
  previousBlocksHash : Bytes
  deriving DecidableEq

structure WireIndex where
  folder : String
  files : List WireFileInfo
  lastSequence : Int64
  deriving DecidableEq

structure WireIndexUpdate where
  folder : String
  files : List WireFileInfo
  lastSequence : Int64
  prevSequence : Int64
  deriving DecidableEq

/-- The `IndexUpdate` of `syncthing-core`. -/
structure CoreIndexUpdate where
  folder : String
  files : List FileInfo
  deriving DecidableEq

/-- The order in which a hash map gives its entries, and how text that is not UTF-8 is read. -/
structure Platform where
  entries : Vector → List (UInt64 × UInt64)
  entries_perm : ∀ v, (entries v).Perm v.counters.toList
  repair : ByteArray → String

instance inhabitedPlatform : Inhabited Platform :=
  ⟨⟨fun v => v.counters.toList, fun _ => .refl _, fun _ => ""⟩⟩

def utf8 (s : String) : Bytes := s.toByteArray.data.toList

namespace Platform

variable (env : Platform)

def vectorToWire (v : Vector) : WireVector := ⟨(env.entries v).map fun e => ⟨e.1, e.2⟩⟩

def fromUtf8Lossy (bytes : Bytes) : String :=
  (String.fromUTF8? ⟨bytes.toArray⟩).getD (env.repair ⟨bytes.toArray⟩)

end Platform

def vectorFromWire (v : WireVector) : Vector := ⟨.ofList (v.counters.map fun c => (c.id, c.value))⟩

def blockToWire (b : BlockInfo) : WireBlockInfo := ⟨b.offset, b.size, b.hash⟩

def blockFromWire (b : WireBlockInfo) : BlockInfo := ⟨b.size, b.hash, b.offset⟩

def typeToWire : FileType → Int
  | .directory => FileInfoType.directory.code
  | .symlink => FileInfoType.symlink.code
  | .file => FileInfoType.file.code

def typeFromWire (type : Int) : FileType :=
  if type = FileInfoType.directory.code then .directory
  else if type = FileInfoType.symlink.code then .symlink
  else .file

namespace Platform

variable (env : Platform)

def fileToWire (f : FileInfo) : WireFileInfo where
  name := f.name
  type := typeToWire f.fileType
  size := f.size
  permissions := f.permissions
  modifiedS := f.modifiedS
  deleted := f.deleted.getD false
  invalid := false
  noPermissions := f.noPermissions.getD false
  version := some (env.vectorToWire f.version)
  sequence := f.sequence.toInt64
  modifiedNs := f.modifiedNs
  modifiedBy := f.modifiedBy.getD 0
  blockSize := f.blockSize
  blocks := f.blocks.map blockToWire
  symlinkTarget := utf8 (f.symlinkTarget.getD "")
  blocksHash := f.blocksHash.getD []
  encrypted := []
  previousBlocksHash := []

def fileFromWire (f : WireFileInfo) : FileInfo where
  name := f.name
  fileType := typeFromWire f.type
  size := f.size
  permissions := f.permissions
  modifiedS := f.modifiedS
  modifiedNs := f.modifiedNs
  version := (f.version.map vectorFromWire).getD .new
  sequence := f.sequence.toUInt64
  blockSize := f.blockSize
  blocks := f.blocks.map blockFromWire
  symlinkTarget :=
    if f.symlinkTarget.isEmpty then none else some (env.fromUtf8Lossy f.symlinkTarget)
  deleted := some f.deleted
  modifiedBy := if f.modifiedBy = 0 then none else some f.modifiedBy
  blocksHash := if f.blocksHash.isEmpty then none else some f.blocksHash
  noPermissions := if f.noPermissions then some true else none
  baseVersion := none

end Platform

/-- A sequence number as an `i64`, the largest one if it does not fit. -/
def clamp (sequence : UInt64) : Int64 := (min sequence Int64.maxValue.toUInt64).toInt64

variable (files : List FileInfo)

def lastSequence : UInt64 := (files.map (·.sequence)).max?.getD 0

def prevSequence : UInt64 :=
  let prev := (files.map (·.sequence)).min?.getD 0
  if 0 < prev then prev - 1 else 0

namespace Platform

variable (env : Platform) (idx : Index)

def indexToWire : WireIndex :=
  ⟨idx.folder, idx.files.map env.fileToWire, clamp (lastSequence idx.files)⟩

/-- The conversion of a borrowed index, which clones each record. -/
def indexRefToWire : WireIndex :=
  ⟨idx.folder, idx.files.map fun f => env.fileToWire f, clamp (lastSequence idx.files)⟩

def indexFromWire (idx : WireIndex) : Index := ⟨idx.folder, idx.files.map env.fileFromWire⟩

variable (upd : CoreIndexUpdate)

def updateToWire : WireIndexUpdate :=
  ⟨upd.folder, upd.files.map env.fileToWire, clamp (lastSequence upd.files),
    clamp (prevSequence upd.files)⟩

def updateRefToWire : WireIndexUpdate :=
  ⟨upd.folder, upd.files.map fun f => env.fileToWire f, clamp (lastSequence upd.files),
    clamp (prevSequence upd.files)⟩

def updateFromWire (upd : WireIndexUpdate) : CoreIndexUpdate :=
  ⟨upd.folder, upd.files.map env.fileFromWire⟩

end Platform

/-- A record as the other side of a connection knows it: a flag that is absent is false, an empty
target or hash and a zero device are absent, and the base version stays at home. -/
def normalise (f : FileInfo) : FileInfo := { f with
    symlinkTarget := f.symlinkTarget.filter (· ≠ "")
    deleted := some f.isDeleted
    modifiedBy := f.modifiedBy.filter (· ≠ 0)
    blocksHash := f.blocksHash.filter (· ≠ [])
    noPermissions := f.noPermissions.filter (· = true)
    baseVersion := none }

variable {env : Platform} {files : List FileInfo}

/-- Whatever the order of the entries, they are the same map. -/
theorem vector_roundTrip (v : Vector) : vectorFromWire (env.vectorToWire v) = v := by
  have hentries : (env.vectorToWire v).counters.map (fun c => (c.id, c.value)) = env.entries v := by
    simp [Platform.vectorToWire, Function.comp_def]
  have hperm := env.entries_perm v
  rw [vectorFromWire, hentries]
  congr 1
  apply Std.ExtTreeMap.ext_getElem?
  intro k
  have hdistinct := hperm.symm.pairwise v.counters.distinct_keys_toList
    fun h h' => h (Std.OrientedCmp.eq_symm h')
  cases hk : v.counters[k]? with
  | some value =>
    have hmem : (k, value) ∈ env.entries v :=
      hperm.mem_iff.mpr (Std.ExtTreeMap.mem_toList_iff_getElem?_eq_some.mpr hk)
    exact Std.ExtTreeMap.getElem?_ofList_of_mem Std.ReflCmp.compare_self hdistinct hmem
  | none =>
    apply Std.ExtTreeMap.getElem?_ofList_of_contains_eq_false
    rw [Bool.eq_false_iff, ne_eq, contains_iff_mem, mem_map]
    rintro ⟨⟨k', value⟩, hmem, rfl⟩
    have hget := Std.ExtTreeMap.mem_toList_iff_getElem?_eq_some.mp (hperm.mem_iff.mp hmem)
    rw [hk] at hget
    cases hget

theorem fromUtf8Lossy_utf8 (s : String) : env.fromUtf8Lossy (utf8 s) = s := by
  have hbytes : (⟨(utf8 s).toArray⟩ : ByteArray) = s.toByteArray := by simp [utf8]
  rw [Platform.fromUtf8Lossy, hbytes, String.fromUTF8?, dif_pos s.isValidUTF8]
  rfl

theorem isEmpty_utf8 (s : String) : (utf8 s).isEmpty = decide (s = "") := by
  rw [Bool.eq_iff_iff, List.isEmpty_iff, decide_eq_true_iff, ← String.toByteArray_inj,
    ByteArray.ext_iff, ← Array.toList_inj]
  rfl

theorem block_roundTrip (blocks : List BlockInfo) :
    (blocks.map blockToWire).map blockFromWire = blocks := by
  rw [map_map]
  exact map_id _

theorem type_roundTrip (t : FileType) : typeFromWire (typeToWire t) = t := by
  cases t <;> rfl

theorem symlinkTarget_roundTrip (target : Option String) :
    (if (utf8 (target.getD "")).isEmpty then none
      else some (env.fromUtf8Lossy (utf8 (target.getD "")))) = target.filter (· ≠ "") := by
  rw [isEmpty_utf8, fromUtf8Lossy_utf8]
  cases target with
  | none => rfl
  | some s => by_cases hs : s = "" <;> simp [hs, Option.filter]

theorem file_roundTrip (f : FileInfo) : env.fileFromWire (env.fileToWire f) = normalise f := by
  have hby : (if f.modifiedBy.getD 0 = 0 then none else some (f.modifiedBy.getD 0)) =
      f.modifiedBy.filter (· ≠ 0) := by
    cases f.modifiedBy with
    | none => rfl
    | some d => by_cases hd : d = 0 <;> simp [hd, Option.filter]
  have hhash : (if (f.blocksHash.getD []).isEmpty then none else some (f.blocksHash.getD [])) =
      f.blocksHash.filter (· ≠ []) := by
    cases f.blocksHash with
    | none => rfl
    | some h => cases h <;> simp [Option.filter]
  have hperms : (if f.noPermissions.getD false then some true else none) =
      f.noPermissions.filter (· = true) := by
    rcases f.noPermissions with - | - | - <;> rfl
  rw [Platform.fileFromWire, normalise, FileInfo.mk.injEq]
  exact ⟨rfl, type_roundTrip f.fileType, rfl, rfl, rfl, rfl, vector_roundTrip f.version, rfl, rfl,
    block_roundTrip f.blocks, symlinkTarget_roundTrip f.symlinkTarget, rfl, hby, hhash, hperms, rfl⟩

/-- The largest sequence number of the files, zero if there are none. -/
structure IsLast (files : List FileInfo) (last : Int) : Prop where
  ge : ∀ f ∈ files, (f.sequence.toNat : Int) ≤ last
  attained : files ≠ [] → ∃ f ∈ files, last = f.sequence.toNat
  empty : files = [] → last = 0

theorem lawfulOrderMax_uInt64 : Std.LawfulOrderMax UInt64 where
  max_eq_or a b := by
    change (if a ≤ b then b else a) = a ∨ (if a ≤ b then b else a) = b
    split
    · exact .inr rfl
    · exact .inl rfl
  max_le_iff a b c := by
    change (if a ≤ b then b else a) ≤ c ↔ a ≤ c ∧ b ≤ c
    split
    next h => exact ⟨fun hbc => ⟨le_trans h hbc, hbc⟩, And.right⟩
    next h => exact ⟨fun hac => ⟨hac, le_trans (not_le.mp h).le hac⟩, And.left⟩

theorem isLast_lastSequence (files : List FileInfo) : IsLast files (lastSequence files).toNat := by
  have hlawful := lawfulOrderMax_uInt64
  cases hmax : (files.map (·.sequence)).max? with
  | none =>
    rw [max?_eq_none_iff, map_eq_nil_iff] at hmax
    subst hmax
    exact ⟨by simp, by simp, fun _ => rfl⟩
  | some last =>
    have hlast : lastSequence files = last := by rw [lastSequence, hmax, Option.getD_some]
    obtain ⟨hmem, hle⟩ := max?_eq_some_iff.mp hmax
    obtain ⟨f, hf, rfl⟩ := mem_map.mp hmem
    rw [hlast]
    refine ⟨fun f' hf' => ?_, fun _ => ⟨f, hf, rfl⟩, fun hnil => ?_⟩
    · exact Int.ofNat_le.mpr (UInt64.le_iff_toNat_le.mp (hle _ (mem_map_of_mem hf')))
    · subst hnil
      cases hf

theorem toInt_clamp {sequence : UInt64} (h : sequence.toNat < 2 ^ 63) :
    (clamp sequence).toInt = sequence.toNat := by
  have hle : sequence ≤ Int64.maxValue.toUInt64 := by
    rw [UInt64.le_iff_toNat_le]
    exact Nat.le_pred_of_lt h
  rw [clamp, min_eq_left hle]
  exact BitVec.toInt_eq_toNat_of_lt (Nat.mul_lt_mul_of_pos_left h Nat.two_pos)

theorem isLast_clamp (h : ∀ f ∈ files, f.sequence.toNat < 2 ^ 63) :
    IsLast files (clamp (lastSequence files)).toInt := by
  have hlast := isLast_lastSequence files
  rw [toInt_clamp]
  · exact hlast
  · by_cases hfiles : files = []
    · rw [Int.ofNat_eq_zero.mp (hlast.empty hfiles)]
      decide
    · obtain ⟨f, hf, heq⟩ := hlast.attained hfiles
      rw [Int.ofNat_inj.mp heq]
      exact h f hf

/-- Records, indexes and updates come back as they were sent, by value or by reference, and the
last sequence number is the largest one of the files. -/
theorem index_entries_survive_wire (env : Platform) :
    (∀ f : FileInfo, env.fileFromWire (env.fileToWire f) = normalise f) ∧
    (∀ idx : Index, ∀ wire ∈ [env.indexToWire idx, env.indexRefToWire idx],
      wire.files = idx.files.map env.fileToWire ∧
      env.indexFromWire wire = ⟨idx.folder, idx.files.map normalise⟩ ∧
      ((∀ f ∈ idx.files, f.sequence.toNat < 2 ^ 63) → IsLast idx.files wire.lastSequence.toInt)) ∧
    ∀ upd : CoreIndexUpdate, ∀ wire ∈ [env.updateToWire upd, env.updateRefToWire upd],
      wire.files = upd.files.map env.fileToWire ∧
      env.updateFromWire wire = ⟨upd.folder, upd.files.map normalise⟩ ∧
      ((∀ f ∈ upd.files, f.sequence.toNat < 2 ^ 63) →
        IsLast upd.files wire.lastSequence.toInt) := by
  have hfiles : ∀ files : List FileInfo,
      (files.map env.fileToWire).map env.fileFromWire = files.map normalise := by
    intro files
    rw [map_map]
    exact map_congr_left fun f _ => file_roundTrip f
  refine ⟨file_roundTrip, ?_, ?_⟩
  · intro idx wire hwire
    have heq : wire = env.indexToWire idx := by rcases mem_pair.mp hwire with rfl | rfl <;> rfl
    subst heq
    exact ⟨rfl, congrArg (Index.mk idx.folder) (hfiles idx.files), isLast_clamp⟩
  · intro upd wire hwire
    have heq : wire = env.updateToWire upd := by rcases mem_pair.mp hwire with rfl | rfl <;> rfl
    subst heq
    exact ⟨rfl, congrArg (CoreIndexUpdate.mk upd.folder) (hfiles upd.files), isLast_clamp⟩

end Syncthing.Bep
