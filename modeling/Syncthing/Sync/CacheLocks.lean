import Syncthing.Lib.ShardLocks
import Syncthing.Sync.DatabaseRefinement

/-! `FileSystemDatabase` keeps its cache in a `DashMap`. The guard of an entry holds the lock of its
shard, an iterator that of the shard it is at, both to the end of the scope they live in. -/
namespace Syncthing

open ShardLocks FileSystemDatabase
open List hiding map
open Option (bind_none bind_some map map_none map_some)

/-- How the map spreads its keys. -/
structure CacheLayout where
  shards : Nat
  determineShard : String → Fin shards
  /-- The keys in the order in which their tables give them. -/
  tableOrder : List String → List String
  mem_tableOrder : ∀ keys key, key ∈ tableOrder keys ↔ key ∈ keys

/-- A database with the folders that have an entry in its cache. -/
structure CachedDatabase (γ : Type) where
  db : FileSystemDatabase γ
  keys : List String

namespace CachedDatabase

variable {γ : Type} (layout : CacheLayout) (cfg : DbConfig γ) (s : CachedDatabase γ)

abbrev CacheM := LockM (Fin layout.shards)

def entryIn (shard : Fin layout.shards) : Option String :=
  (layout.tableOrder s.keys).find? fun key => layout.determineShard key = shard

/-- `drop(entry)` gives up the entry. The iterator is a temporary of the `if let` and holds the
lock of its shard to the end of it. -/
def evictOneFolder : CacheM layout (CachedDatabase γ) := do
  match ← firstEntry (s.entryIn layout) (finRange layout.shards) with
  | some (shard, key) =>
    let s ← guarded (layout.determineShard key) .write do
      return ⟨s.db.evictOneFolder key, s.keys.erase key⟩
    release shard .read
    return s
  | none => return s

variable (folder : String) (info : FileInfo)

/-- `self.cache.entry(folder).or_default()` with the change of the entry. -/
def putEntry : CachedDatabase γ :=
  ⟨s.db.putCache folder info, if s.keys.contains folder then s.keys else folder :: s.keys⟩

/-- The guard of the entry lives to the end of `update_file`. -/
def cacheRecord : CacheM layout (CachedDatabase γ) :=
  guarded (layout.determineShard folder) .write
    (let after := s.putEntry folder info
    if s.db.isNew folder info && after.db.cacheSize > cacheCap then after.evictOneFolder layout
    else return after)

def updateFile : CacheM layout (Except DbError Unit × CachedDatabase γ) :=
  match storeRecord cfg s.db.disk folder info with
  | (.error e, disk) => return (.error e, { s with db := { s.db with disk } })
  | (.ok _, disk) => do
    let s ← { s with db := { s.db with disk } }.cacheRecord layout folder info
    return (.ok (), s)

/-- A clone reads one shard after the other. -/
def clone : CacheM layout (CachedDatabase γ) := do
  (finRange layout.shards).forM fun shard => guarded shard .read (return ())
  return s

/-- One task of a batch, on a clone with a map of its own. -/
def updateFileOnClone : CacheM layout (Except DbError Unit × CachedDatabase γ) := do
  let this ← s.clone layout
  let (result, after) ← inTask (this.updateFile layout cfg folder info)
  return (result, { s with db := { after.db with cache := s.db.cache } })

/-- The tasks of a batch, in the order in which they write. -/
def updateFiles (folder : String) : List FileInfo → CachedDatabase γ →
    CacheM layout (Except DbError Unit × CachedDatabase γ)
  | [], s => return (.ok (), s)
  | file :: files, s => do
    let (result, s) ← s.updateFileOnClone layout cfg folder file
    match result with
    | .error e => return (.error e, s)
    | .ok _ => updateFiles folder files s

/-- The guard is gone before the file of the record is read. -/
def getFile (folder name : String) : CacheM layout (Except DbError (Option FileInfo)) := do
  guarded (layout.determineShard folder) .read (return ())
  return s.db.getFile cfg folder name

end CachedDatabase

/-- A call on the database. The files of a batch are in the order in which their tasks write. -/
inductive DbCall where
  | updateFile (folder : String) (info : FileInfo)
  | updateFiles (folder : String) (files : List FileInfo)
  | getFile (folder name : String)

namespace DbCall

variable {γ : Type} (layout : CacheLayout) (cfg : DbConfig γ) (s : CachedDatabase γ)

def exec : DbCall → LockM (Fin layout.shards) (CachedDatabase γ)
  | updateFile folder info => do return (← s.updateFile layout cfg folder info).2
  | updateFiles folder files => do return (← s.updateFiles layout cfg folder files).2
  | getFile folder name => do
    let _ ← s.getFile layout cfg folder name
    return s

def execAll (calls : List DbCall) : LockM (Fin layout.shards) (CachedDatabase γ) :=
  calls.foldlM (exec layout cfg) s

end DbCall
open DbCall (exec execAll)

namespace FileSystemDatabase

variable {γ : Type} (cfg : DbConfig γ) (db : FileSystemDatabase γ) (folder : String)
  (info : FileInfo)

/-- One more record does not make the cache too large. -/
def HasRoomFor : Prop := db.isNew folder info = true → db.cacheSize + 1 ≤ cacheCap

/-- There is room for a record whose file can be written. -/
def Fits : Prop := (storeRecord cfg db.disk folder info).1 = .ok () → db.HasRoomFor folder info

/-- There is room for each of a batch, up to the first whose file cannot be written. Each of them
counts that the cache did not have before. -/
def AllFit (folder : String) : List FileInfo → FileSystemDatabase γ → Prop
  | [], _ => True
  | file :: files, db => db.Fits cfg folder file ∧
    let (result, disk) := storeRecord cfg db.disk folder file
    (result = .ok () → AllFit folder files
      { db with
        disk
        cacheSize := if db.isNew folder file then db.cacheSize + 1 else db.cacheSize })

end FileSystemDatabase

/-- A call leaves the counter of the cache at or below its capacity. -/
def DbCall.Fits {γ : Type} (cfg : DbConfig γ) (db : FileSystemDatabase γ) : DbCall → Prop
  | updateFile folder info => db.Fits cfg folder info
  | updateFiles folder files => db.AllFit cfg folder files
  | getFile .. => True

namespace FileSystemDatabase

variable {γ : Type} {cfg : DbConfig γ} {db : FileSystemDatabase γ} {folder : String}
  {info : FileInfo} {files : List FileInfo}

theorem cacheRecord_of_hasRoomFor (h : db.HasRoomFor folder info) :
    db.cacheRecord folder info none = some (db.putCache folder info) := by
  rw [cacheRecord, if_neg]
  rw [Bool.and_eq_true, decide_eq_true_iff]
  rintro ⟨hnew, hsize⟩
  rw [putCache, if_pos hnew] at hsize
  exact UInt64.not_lt.mpr (h hnew) hsize

theorem cacheRecord_of_not_hasRoomFor (h : ¬ db.HasRoomFor folder info) :
    db.cacheRecord folder info none = none := by
  rw [HasRoomFor, Classical.not_imp] at h
  obtain ⟨hnew, hsize⟩ := h
  rw [cacheRecord, if_pos, map_none]
  rw [Bool.and_eq_true, decide_eq_true_iff]
  refine ⟨hnew, ?_⟩
  rw [putCache, if_pos hnew]
  exact UInt64.not_le.mp hsize

/-- If no folder is ever evicted, a call returns exactly if its record fits. -/
theorem updateFile_none_iff :
    (∃ r, db.updateFile cfg folder info none = some r) ↔ db.Fits cfg folder info := by
  rw [updateFile, Fits]
  rcases storeRecord cfg db.disk folder info with ⟨_ | _, disk⟩
  · refine ⟨fun _ h => ?_, fun _ => ⟨_, rfl⟩⟩
    cases h
  · by_cases h : db.HasRoomFor folder info
    · have hroom := @cacheRecord_of_hasRoomFor γ { db with disk } folder info h
      exact ⟨fun _ _ => h, fun _ => ⟨_, congrArg (map _) hroom⟩⟩
    · have hroom := @cacheRecord_of_not_hasRoomFor γ { db with disk } folder info h
      simp only [hroom, map_none]
      refine ⟨?_, fun hfits => absurd (hfits trivial) h⟩
      rintro ⟨_, hr⟩
      cases hr

theorem updateFiles_none_iff :
    (∃ r, updateFiles cfg folder (files.map fun file => (file, none)) db = some r) ↔
      db.AllFit cfg folder files := by
  induction files generalizing db with
  | nil => exact ⟨fun _ => trivial, fun _ => ⟨_, rfl⟩⟩
  | cons file files ih =>
    simp only [map_cons, updateFiles, AllFit, Fits, updateFileOnClone, updateFile]
    rcases storeRecord cfg db.disk folder file with ⟨_ | _, disk⟩
    · refine ⟨fun _ => ⟨fun h => ?_, fun h => ?_⟩, fun _ => ⟨_, rfl⟩⟩ <;> cases h
    · by_cases h : db.HasRoomFor folder file
      · have hroom := @cacheRecord_of_hasRoomFor γ { db with disk } folder file h
        simp only [hroom, map_some, bind, bind_some, h, true_and, forall_const, ← ih]
        rfl
      · have hroom := @cacheRecord_of_not_hasRoomFor γ { db with disk } folder file h
        simp only [hroom, map_none, bind, bind_none, h]
        refine ⟨?_, fun hfits => (hfits.1 trivial).elim⟩
        rintro ⟨_, hr⟩
        cases hr

end FileSystemDatabase

namespace CachedDatabase

variable {γ : Type} {layout : CacheLayout} {cfg : DbConfig γ} {s : CachedDatabase γ}
  {folder : String} {info : FileInfo}

/-- Whatever the iterator finds, its own lock or that of the entry keeps the folder from being
removed. -/
theorem evictOneFolder_waits {w : Fin layout.shards} :
    s.evictOneFolder layout [(w, .write)] = none := by
  rw [evictOneFolder]
  simp only [bind_apply]
  cases h : firstEntry (s.entryIn layout) (finRange layout.shards) [(w, .write)] with
  | none => rfl
  | some r =>
    obtain ⟨found, key, rfl, hentry⟩ := firstEntry_of_writing (mem_finRange w) h
    have hshard : layout.determineShard key = found := by simpa using find?_some hentry
    simp only [bind_some, guarded, bind_apply, hshard,
      acquire_of_held mem_cons_self (.inl rfl), bind_none]

/-- The map never gives a folder to evict. -/
theorem cacheRecord_eq : s.cacheRecord layout folder info [] =
    (s.db.cacheRecord folder info none).map fun _ => (s.putEntry folder info, []) := by
  rw [cacheRecord, guarded_nil, FileSystemDatabase.cacheRecord]
  by_cases hfull : (s.db.isNew folder info &&
      decide ((s.db.putCache folder info).cacheSize > cacheCap)) = true
  · rw [if_pos hfull, if_pos (by exact hfull), evictOneFolder_waits]
    rfl
  · rw [if_neg hfull, if_neg (by exact hfull)]
    simp [pure_apply]

/-- With its locks a call does what it does without them, and gives all of them back. -/
def Agrees {ρ : Type}
    (locked : Option ((ρ × CachedDatabase γ) × List (Fin layout.shards × LockMode))) :
    Option (ρ × FileSystemDatabase γ) → Prop
  | none => locked = none
  | some (result, db) => ∃ keys, locked = some ((result, ⟨db, keys⟩), [])

theorem updateFile_agrees : Agrees (s.updateFile layout cfg folder info [])
    (s.db.updateFile cfg folder info none) := by
  rw [updateFile, FileSystemDatabase.updateFile]
  rcases storeRecord cfg s.db.disk folder info with ⟨_ | _, disk⟩
  · exact ⟨_, rfl⟩
  · by_cases h : s.db.HasRoomFor folder info
    · have hroom := @cacheRecord_of_hasRoomFor γ { s.db with disk } folder info h
      simp only [hroom, map_some]
      refine ⟨(s.putEntry folder info).keys, ?_⟩
      simp only [bind_apply, cacheRecord_eq, hroom, map_some, bind_some]
      rfl
    · have hroom :=
        @FileSystemDatabase.cacheRecord_of_not_hasRoomFor γ { s.db with disk } folder info h
      simp only [hroom, map_none, Agrees, bind_apply, cacheRecord_eq, bind_none]

theorem clone_nil : s.clone layout [] = some (s, []) := by
  have hshards : ∀ shards : List (Fin layout.shards),
      (shards.forM fun shard => guarded shard .read (return ()) :
        LockM (Fin layout.shards) Unit) [] = some ((), []) := by
    intro shards
    induction shards with
    | nil => rfl
    | cons shard shards ih =>
      change (guarded shard .read (return ()) >>= fun _ => shards.forM _) [] = _
      simp only [bind_apply, guarded_nil, pure_apply, map_some, erase_cons_head, bind_some]
      exact ih
  simp only [clone, bind_apply, hshards, bind_some]
  rfl

theorem updateFileOnClone_agrees : Agrees (s.updateFileOnClone layout cfg folder info [])
    (s.db.updateFileOnClone cfg folder (info, none)) := by
  have h := @updateFile_agrees γ layout cfg s folder info
  rw [updateFileOnClone, FileSystemDatabase.updateFileOnClone]
  cases hplain : s.db.updateFile cfg folder info none with
  | none =>
    rw [hplain] at h
    have hlocked : s.updateFile layout cfg folder info [] = none := h
    simp only [Agrees, map_none, bind_apply, clone_nil, bind_some, inTask, hlocked, bind_none]
  | some r =>
    rw [hplain] at h
    obtain ⟨keys, hlocked⟩ := h
    refine ⟨s.keys, ?_⟩
    simp only [bind_apply, clone_nil, bind_some, inTask, hlocked, map_some]
    rfl

theorem updateFiles_agrees {files : List FileInfo} :
    Agrees (updateFiles layout cfg folder files s [])
    (FileSystemDatabase.updateFiles cfg folder (files.map fun file => (file, none)) s.db) := by
  induction files generalizing s with
  | nil => exact ⟨_, rfl⟩
  | cons file files ih =>
    have h := @updateFileOnClone_agrees γ layout cfg s folder file
    rw [map_cons, updateFiles, FileSystemDatabase.updateFiles]
    cases hplain : s.db.updateFileOnClone cfg folder (file, none) with
    | none =>
      rw [hplain] at h
      have hlocked : s.updateFileOnClone layout cfg folder file [] = none := h
      simp only [Agrees, bind_apply, hlocked, Option.bind_eq_bind, bind_none]
    | some r =>
      obtain ⟨result, db⟩ := r
      rw [hplain] at h
      obtain ⟨keys, hlocked⟩ := h
      simp only [bind_apply, hlocked, bind_some]
      cases result with
      | error e => exact ⟨keys, rfl⟩
      | ok => exact ih

theorem Agrees.returns_iff {ρ : Type} {plain : Option (ρ × FileSystemDatabase γ)}
    {locked : LockM (Fin layout.shards) (ρ × CachedDatabase γ)} (h : Agrees (locked []) plain) :
    ((∃ s', (do return (← locked).2) [] = some (s', [])) ∧ ∃ r, plain = some r) ∨
      ((do return (← locked).2) [] = none ∧ ¬ ∃ r, plain = some r) := by
  cases plain with
  | none =>
    refine .inr ⟨?_, fun ⟨_, hr⟩ => by cases hr⟩
    simp only [bind_apply, show locked [] = none from h, bind_none]
  | some r =>
    obtain ⟨keys, hlocked⟩ := h
    refine .inl ⟨⟨⟨r.2, keys⟩, ?_⟩, _, rfl⟩
    simp only [bind_apply, hlocked, bind_some]
    rfl

end CachedDatabase

section calls
variable {γ : Type} {layout : CacheLayout} {cfg : DbConfig γ} {s : CachedDatabase γ}
  {calls : List DbCall}

/-- A call returns exactly if what it stores fits. -/
theorem DbCall.exec_returns_iff (s : CachedDatabase γ) (call : DbCall) :
    ((∃ s', call.exec layout cfg s [] = some (s', [])) ∧ call.Fits cfg s.db) ∨
      (call.exec layout cfg s [] = none ∧ ¬ call.Fits cfg s.db) := by
  cases call with
  | updateFile folder info =>
    rw [DbCall.Fits, ← FileSystemDatabase.updateFile_none_iff]
    exact CachedDatabase.updateFile_agrees.returns_iff
  | updateFiles folder files =>
    rw [DbCall.Fits, ← FileSystemDatabase.updateFiles_none_iff]
    exact CachedDatabase.updateFiles_agrees.returns_iff
  | getFile folder name =>
    refine .inl ⟨⟨s, ?_⟩, trivial⟩
    simp only [exec, CachedDatabase.getFile, bind_apply, guarded_nil, pure_apply, map_some,
      erase_cons_head, bind_some]

/-- A sequence of calls returns exactly if each of them is made where what it stores fits. -/
theorem calls_return_iff : (∃ r, execAll layout cfg s calls [] = some r) ↔
    ∀ before call, before ++ [call] <+: calls →
      ∀ r, execAll layout cfg s before [] = some r → call.Fits cfg r.1.db :=
  foldlM_returns_iff DbCall.exec_returns_iff

end calls

/-! ### A folder with more files than the cache has room for -/

/-- Names by their length. -/
def fillName (i : Nat) : String := String.ofList (replicate i 'x')

/-- The records of the first `n` files, one after the other. -/
def fill (folder : String) (n : Nat) : List DbCall :=
  (range n).map fun i => .updateFile folder (.new (fillName i))

/-- The files of the records of a folder can be written. -/
def Writable {γ : Type} (cfg : DbConfig γ) (folder : String) (disk : DbDisk γ) : Prop :=
  (∀ p ∈ (folderPath cfg folder).inits, disk.files.find? p = none) ∧
    ∀ name, filePath cfg folder name ∉ disk.dirs

section fill
variable {γ : Type} {layout : CacheLayout} {cfg : DbConfig γ} {s : CachedDatabase γ}
  {folder : String} {disk : DbDisk γ} {info : FileInfo} {n : Nat}

theorem filePath_notMem_inits (name : String) : filePath cfg folder name ∉
    (folderPath cfg folder).inits := by
  intro hmem
  have hle := ((mem_inits _ _).mp hmem).length_le
  simp only [filePath, length_append, length_singleton] at hle
  omega

theorem storeRecord_of_writable (h : Writable cfg folder disk) (info : FileInfo) :
    ∃ disk', storeRecord cfg disk folder info = (.ok (), disk') ∧ Writable cfg folder disk' := by
  have hdir : disk.createDirAll (folderPath cfg folder) = .ok
      { disk with dirs := (folderPath cfg folder).inits ++ disk.dirs } := by
    rw [DbDisk.createDirAll, if_neg]
    simp only [any_eq_true, not_exists, not_and]
    intro p hp
    simp [h.1 p hp]
  have hnot : ∀ name, filePath cfg folder name ∉
      (folderPath cfg folder).inits ++ disk.dirs := by
    intro name hmem
    exact (List.mem_append.mp hmem).elim (filePath_notMem_inits name) (h.2 name)
  refine ⟨Holds.stored' cfg disk folder info, ?_, ?_, hnot⟩
  · rw [storeRecord, hdir]
    simp only [DbDisk.write, contains_eq_mem, hnot, decide_false, Bool.false_eq_true, if_false]
    rfl
  · intro p hp
    rw [Holds.stored', KeyedList.find?_upsert, if_neg]
    · exact h.1 p hp
    · rintro rfl
      exact filePath_notMem_inits _ hp

theorem isNew_fillName (h : ∀ r ∈ (s.db.cache folder).entries, r.name.length < n) :
    s.db.isNew folder (.new (fillName n)) = true := by
  rw [isNew, Option.isNone_iff_eq_none, KeyedList.find?_eq_none_iff]
  intro r hr heq
  have hlength := h r hr
  rw [heq] at hlength
  simp [FileInfo.new, fillName] at hlength

theorem execAll_fill_succ {r : CachedDatabase γ}
    (h : execAll layout cfg s (fill folder n) [] = some (r, [])) :
    execAll layout cfg s (fill folder (n + 1)) [] =
      exec layout cfg r (.updateFile folder (.new (fillName n))) [] := by
  have hlast : fill folder (n + 1) = fill folder n ++ [.updateFile folder (.new (fillName n))] := by
    rw [fill, range_succ, map_append]
    rfl
  rw [execAll] at h
  rw [execAll, hlast, foldlM_append]
  simp only [bind_apply, h, bind_some, foldlM_cons, foldlM_nil]
  cases exec layout cfg r (.updateFile folder (.new (fillName n))) [] <;> rfl

/-- As long as there is room, the records are stored. -/
theorem execAll_fill (hn : n ≤ 100000) :
    ∃ r : CachedDatabase γ, execAll layout cfg ⟨.new, []⟩ (fill folder n) [] = some (r, []) ∧
      r.db.cacheSize.toNat = n ∧ Writable cfg folder r.db.disk ∧
      ∀ record ∈ (r.db.cache folder).entries, record.name.length < n := by
  induction n with
  | zero => refine ⟨_, rfl, rfl, ⟨fun _ _ => rfl, fun _ h => ?_⟩, fun _ h => ?_⟩ <;> cases h
  | succ n ih =>
    obtain ⟨r, hr, hsize, hwritable, hnames⟩ := ih (by omega)
    obtain ⟨disk, hstore, hwritable'⟩ := storeRecord_of_writable hwritable (.new (fillName n))
    have hnew := isNew_fillName hnames
    have hsize' : (r.db.cacheSize + 1).toNat = n + 1 := by
      rw [UInt64.toNat_add, hsize, UInt64.toNat_one]
      exact Nat.mod_eq_of_lt (by omega)
    have hroom : r.db.HasRoomFor folder (.new (fillName n)) := by
      intro _
      rw [UInt64.le_iff_toNat_le, hsize']
      exact hn
    have hplain : r.db.updateFile cfg folder (.new (fillName n)) none =
        some (.ok (), { r.db with disk }.putCache folder (.new (fillName n))) := by
      have hcache :=
        @FileSystemDatabase.cacheRecord_of_hasRoomFor γ { r.db with disk } folder _ hroom
      simp only [updateFile, hstore, hcache, map_some]
    have hagrees := @CachedDatabase.updateFile_agrees γ layout cfg r folder (.new (fillName n))
    rw [hplain] at hagrees
    obtain ⟨keys, hlocked⟩ := hagrees
    refine ⟨⟨{ r.db with disk }.putCache folder (.new (fillName n)), keys⟩, ?_, ?_, hwritable', ?_⟩
    · rw [execAll_fill_succ hr, DbCall.exec]
      simp only [bind_apply, hlocked, bind_some]
      rfl
    · have hnew' : { r.db with disk }.isNew folder (.new (fillName n)) = true := hnew
      simp only [putCache, if_pos hnew', hsize']
    · intro record hrecord
      simp only [putCache, if_true] at hrecord
      rcases KeyedList.mem_upsert.mp hrecord with rfl | ⟨hold, -⟩
      · simp [FileInfo.new, fillName]
      · exact Nat.lt_succ_of_lt (hnames record hold)

end fill

def lengthLayout : CacheLayout where
  shards := 4
  determineShard key := Fin.ofNat 4 key.length
  tableOrder := id
  mem_tableOrder _ _ := Iff.rfl

/-- The file that does not fit any more is the last one a task ever stores. -/
theorem cache_waits_for_itself :
    (∃ r, execAll lengthLayout plainDbConfig ⟨.new, []⟩ (fill "f" 100000) [] = some r) ∧
      execAll lengthLayout plainDbConfig ⟨.new, []⟩ (fill "f" 100001) [] = none := by
  obtain ⟨r, hr, hsize, hwritable, hnames⟩ :=
    @execAll_fill FileInfo lengthLayout plainDbConfig "f" 100000 (Nat.le_refl _)
  refine ⟨⟨_, hr⟩, ?_⟩
  rw [execAll_fill_succ hr]
  rcases @DbCall.exec_returns_iff FileInfo lengthLayout plainDbConfig r
    (.updateFile "f" (.new (fillName 100000))) with ⟨-, hfits⟩ | ⟨hwaits, -⟩
  · obtain ⟨disk, hstore, -⟩ := storeRecord_of_writable hwritable (.new (fillName 100000))
    have hle := hfits (by rw [hstore]) (isNew_fillName hnames)
    rw [UInt64.le_iff_toNat_le, UInt64.toNat_add, hsize] at hle
    exact absurd hle (by decide)
  · exact hwaits

end Syncthing
