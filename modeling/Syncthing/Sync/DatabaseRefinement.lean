import Mathlib.Data.Set.List
import Syncthing.Lib.Transition
import Syncthing.Sync.BlockServer
import Syncthing.Sync.Database

/-! Both databases are compared with a map from folder and name to a record: the in-memory one is
that map, the filesystem one stores it file by file as long as no two names share a file and no
batch writes a name that is cached. -/
namespace Syncthing

open List KeyedList FileInfo Text

variable {γ : Type} {cfg : DbConfig γ} {db db' : FileSystemDatabase γ} {disk : DbDisk γ}
  {mem : MemoryDatabase} {folder name f n : String} {info r : FileInfo} {p : Path} {c : γ}
  {files : List FileInfo}

/-- The records of all folders, by folder and name. -/
abbrev RecordMap := String → String → Option FileInfo

namespace RecordMap

variable (g : RecordMap)

def put (folder : String) (info : FileInfo) : RecordMap :=
  fun f n => if f = folder ∧ n = info.name then some info else g f n

def remove (folder name : String) : RecordMap :=
  fun f n => if f = folder ∧ n = name then none else g f n

def putAll (folder : String) (files : List FileInfo) : RecordMap :=
  files.foldl (fun g info => g.put folder info) g

variable {g : RecordMap}

/-- A batch of distinct names leaves each of its names at its record and changes nothing else. -/
theorem putAll_apply (hd : (files.map FileInfo.name).Nodup) : g.putAll folder files f n =
      if f = folder then (files.find? fun r => r.name = n) <|> g f n else g f n := by
  induction files generalizing g with
  | nil => simp [putAll]
  | cons r files ih =>
    rw [List.map_cons, List.nodup_cons] at hd
    have hrec : g.putAll folder (r :: files) = (g.put folder r).putAll folder files := rfl
    rw [hrec, ih hd.2, List.find?_cons]
    by_cases hf : f = folder
    · by_cases hn : r.name = n
      · subst hn
        have hnone : files.find? (fun s => s.name = r.name) = none := by
          rw [find?_eq_none]
          intro s hs
          simp only [decide_eq_true_eq]
          intro heq
          exact hd.1 (heq ▸ mem_map_of_mem hs)
        simp [hf, hnone, put]
      · simp [hf, hn, put, Ne.symm hn]
    · simp [hf, put]

theorem putAll_perm (g : RecordMap) (folder : String) {files' : List FileInfo}
    (hp : files.Perm files')
    (hd : (files.map FileInfo.name).Nodup) : g.putAll folder files = g.putAll folder files' := by
  have hd' : (files'.map FileInfo.name).Nodup := (hp.map _).nodup_iff.mp hd
  funext f n
  rw [putAll_apply hd, putAll_apply hd']
  have hfind : (files.find? fun r => r.name = n) = files'.find? fun r => r.name = n := by
    refine Option.ext fun r => ?_
    have h := @find?_eq_some_iff _ _ name _ ⟨files, hd⟩ r n
    have h' := @find?_eq_some_iff _ _ name _ ⟨files', hd'⟩ r n
    exact h.trans ((and_congr_left' hp.mem_iff).trans h'.symm)
  rw [hfind]

end RecordMap
open RecordMap

namespace MemoryDatabase

theorem getFile_updateFile :
    (mem.updateFile folder info).getFile = put mem.getFile folder info := by
  funext f n
  by_cases hf : f = folder
  · subst hf
    by_cases hn : n = info.name
    · simp [updateFile, setFolder, getFile, put, hn]
    · simp [updateFile, setFolder, getFile, put, hn, Ne.symm hn]
  · simp [updateFile, setFolder, getFile, put, hf]

theorem getFile_deleteFile :
    (mem.deleteFile folder name).getFile = remove mem.getFile folder name := by
  funext f n
  by_cases hf : f = folder
  · subst hf
    by_cases hn : name = n <;> simp [deleteFile, setFolder, getFile, remove, hn, eq_comm]
  · simp [deleteFile, setFolder, getFile, remove, hf]

theorem getFile_updateFiles :
    (mem.updateFiles folder files).getFile = putAll mem.getFile folder files := by
  induction files generalizing mem with
  | nil => rfl
  | cons r files ih =>
    have h : mem.updateFiles folder (r :: files) = (mem.updateFile folder r).updateFiles folder files :=
      rfl
    rw [h, ih, getFile_updateFile]
    rfl

theorem mem_getFolderFiles : r ∈ mem.getFolderFiles folder ↔ mem.getFile folder r.name = some r := by
  rw [getFile, find?_eq_some_iff]
  exact ⟨fun h => ⟨h, rfl⟩, fun h => h.1⟩

end MemoryDatabase

/-- A folder id that is one plain path component. -/
def PlainFolder (folder : String) : Prop :=
  folder ≠ "" ∧ folder ≠ "." ∧ folder ≠ ".." ∧ hasChar '/' folder = false

instance : Decidable (PlainFolder folder) :=
  inferInstanceAs (Decidable (folder ≠ "" ∧ folder ≠ "." ∧ folder ≠ ".." ∧
    hasChar '/' folder = false))

namespace FileSystemDatabase

section
variable (h : PlainFolder folder)
include h

theorem startsWith_slash_of_plain : startsWith folder "/" = false := by
  obtain ⟨-, -, -, hc⟩ := h
  cases hs : folder.toList with
  | nil => simp [startsWith, hs]
  | cons a l =>
    simp only [hasChar, hs, List.contains_cons, Bool.or_eq_false_iff, beq_eq_false_iff_ne] at hc
    have ha : "/".toList = ['/'] := rfl
    rw [startsWith, hs, ha, List.isPrefixOf, beq_false_of_ne hc.1, Bool.false_and]

theorem folderPath_of_plain : folderPath cfg folder = cfg.basePath ++ [folder] := by
  obtain ⟨h1, h2, h3, h4⟩ := id h
  rw [folderPath, joinPath, splitChar_of_not_hasChar h4, startsWith_slash_of_plain h]
  simp [h1, h2, h3]

theorem filePath_of_plain : filePath cfg folder name =
    cfg.basePath ++ [folder, replaceChar '/' '_' name ++ ".json"] := by
  simp [filePath, folderPath_of_plain h]

/-- Files of different folders never coincide. -/
theorem folder_of_filePath_eq (hf : PlainFolder f)
    (heq : filePath cfg folder name = filePath cfg f n) : folder = f := by
  rw [filePath_of_plain h, filePath_of_plain hf] at heq
  have := List.append_cancel_left heq
  simp_all

end

end FileSystemDatabase

open FileSystemDatabase

/-- The directory holds exactly the records of `g`, one file each. -/
structure Holds (cfg : DbConfig γ) (disk : DbDisk γ) (g : RecordMap) : Prop where
  named : ∀ {f n r}, g f n = some r → r.name = n
  stored : ∀ {f n r}, g f n = some r → PlainFolder f ∧ n ≠ "" ∧
    disk.files.find? (filePath cfg f n) = some (filePath cfg f n, cfg.codec.toStringPretty r)
  recorded : ∀ {p c}, (p, c) ∈ disk.files.entries → ∃ f r, PlainFolder f ∧
    p = filePath cfg f r.name ∧ c = cfg.codec.toStringPretty r ∧ g f r.name = some r
  dirs : ∀ d ∈ disk.dirs, d.length ≤ cfg.basePath.length + 1
  parents : ∀ {p c}, (p, c) ∈ disk.files.entries → p.dropLast ∈ disk.dirs

/-- The file a name is stored in does not hold the record of another name. -/
def OwnsPath (cfg : DbConfig γ) (disk : DbDisk γ) (folder name : String) : Prop :=
  ∀ file ∈ disk.files.find? (filePath cfg folder name),
    ∀ r, cfg.codec.fromStr file.2 = .ok r → r.name = name

namespace Holds

variable {g : RecordMap}

section
variable (h : Holds cfg disk g)
include h

theorem length_of_mem (hp : (p, c) ∈ disk.files.entries) : p.length = cfg.basePath.length + 2 := by
  obtain ⟨f, r, hf, rfl, -⟩ := h.recorded hp
  simp [filePath_of_plain hf]

theorem find?_of_length (hp : p.length ≤ cfg.basePath.length + 1) : disk.files.find? p = none := by
  rw [find?_eq_none_iff]
  rintro ⟨q, c⟩ hq rfl
  have hlen := h.length_of_mem hq
  simp only [hlen] at hp
  omega

section
variable (hf : PlainFolder folder)
include hf

theorem filePath_notMem_dirs (name : String) : filePath cfg folder name ∉ disk.dirs := by
  intro hmem
  have := h.dirs _ hmem
  simp [filePath_of_plain hf] at this

/-- A name that owns its file finds its record there. -/
theorem find?_eq (ho : OwnsPath cfg disk folder name) :
    disk.files.find? (filePath cfg folder name) =
      (g folder name).map fun r => (filePath cfg folder name, cfg.codec.toStringPretty r) := by
  cases hg : g folder name with
  | some r => exact (h.stored hg).2.2
  | none =>
    cases hfind : disk.files.find? (filePath cfg folder name) with
    | none => rfl
    | some file =>
      obtain ⟨hmem, hkey⟩ := find?_eq_some_iff.mp hfind
      obtain ⟨p, c⟩ := file
      obtain ⟨f, r, hf', rfl, rfl, hr⟩ := h.recorded hmem
      have hname := ho _ hfind r (cfg.codec.roundtrip r)
      have hfolder := folder_of_filePath_eq hf' hf hkey
      rw [hname, hfolder, hg] at hr
      cases hr

theorem createDirAll_eq : disk.createDirAll (folderPath cfg folder) =
      .ok { disk with dirs := (folderPath cfg folder).inits ++ disk.dirs } := by
  unfold DbDisk.createDirAll
  rw [if_neg]
  rw [Bool.not_eq_true, List.any_eq_false]
  intro q hq
  have hle := ((mem_inits _ _).mp hq).length_le
  rw [folderPath_of_plain hf] at hle
  rw [h.find?_of_length (by simpa using hle)]
  simp

end

end

theorem mem_createDirAll_dirs (hf : PlainFolder folder) (h : Holds cfg disk g) {d : Path}
    (hd : d ∈ (folderPath cfg folder).inits ++ disk.dirs) : d.length ≤ cfg.basePath.length + 1 := by
  rcases List.mem_append.mp hd with hd | hd
  · have hle := ((List.mem_inits _ _).mp hd).length_le
    rw [folderPath_of_plain hf] at hle
    simpa using hle
  · exact h.dirs d hd

/-- The directory after the file of a record is written. -/
def stored' (cfg : DbConfig γ) (disk : DbDisk γ) (folder : String) (info : FileInfo) : DbDisk γ where
  dirs := (folderPath cfg folder).inits ++ disk.dirs
  files := disk.files.upsert (filePath cfg folder info.name, cfg.codec.toStringPretty info)

section
variable (h : Holds cfg disk g)
include h

theorem storeRecord_eq (hf : PlainFolder folder) :
    storeRecord cfg disk folder info = (.ok (), stored' cfg disk folder info) := by
  rw [storeRecord, h.createDirAll_eq hf]
  have hnot : filePath cfg folder info.name ∉ (folderPath cfg folder).inits ++ disk.dirs := by
    intro hmem
    have := mem_createDirAll_dirs hf h hmem
    simp [filePath_of_plain hf] at this
  simp [DbDisk.write, stored', hnot]

theorem filePath_ne (hf : PlainFolder folder) (ho : OwnsPath cfg disk folder name)
    (hr : g f n = some r) (hc : ¬ (f = folder ∧ n = name)) :
    filePath cfg folder name ≠ filePath cfg f n := by
  -- another name with this file would make the file not the record's own
  intro heq
  obtain ⟨hf', -, hfind⟩ := h.stored hr
  obtain rfl := folder_of_filePath_eq hf hf' heq
  have hname := ho _ (heq ▸ hfind) r (cfg.codec.roundtrip r)
  exact hc ⟨rfl, (h.named hr).symm.trans hname⟩

theorem put (hf : PlainFolder folder) (hn : info.name ≠ "")
    (ho : OwnsPath cfg disk folder info.name) :
    Holds cfg (stored' cfg disk folder info) (g.put folder info) where
  named {f n r} hr := by
    unfold RecordMap.put at hr
    split at hr
    next hc => exact Option.some.inj hr ▸ hc.2.symm
    · exact h.named hr
  stored {f n r} hr := by
    unfold RecordMap.put at hr
    split at hr
    next hc =>
      obtain ⟨rfl, rfl⟩ := hc
      obtain rfl := Option.some.inj hr
      exact ⟨hf, hn, by simp [stored']⟩
    next hc =>
      obtain ⟨hf', hn', hfind⟩ := h.stored hr
      refine ⟨hf', hn', ?_⟩
      simp [stored', h.filePath_ne hf ho hr hc, hfind]
  recorded {p c} hp := by
    rcases KeyedList.mem_upsert.mp hp with heq | ⟨hp, hne⟩
    · obtain ⟨rfl, rfl⟩ := Prod.mk.injEq .. ▸ heq
      exact ⟨folder, info, hf, rfl, rfl, by simp [RecordMap.put]⟩
    · obtain ⟨f, r, hf', rfl, rfl, hr⟩ := h.recorded hp
      refine ⟨f, r, hf', rfl, rfl, ?_⟩
      rw [RecordMap.put, if_neg, hr]
      rintro ⟨rfl, hname⟩
      exact hne (by rw [hname])
  dirs d hd := mem_createDirAll_dirs hf h hd
  parents {p c} hp := by
    rcases KeyedList.mem_upsert.mp hp with heq | ⟨hp, -⟩
    · obtain ⟨rfl, rfl⟩ := Prod.mk.injEq .. ▸ heq
      refine List.mem_append_left _ ?_
      simp [filePath, List.mem_inits]
    · exact List.mem_append_right _ (h.parents hp)

theorem remove (hf : PlainFolder folder) (ho : OwnsPath cfg disk folder name) :
    Holds cfg { disk with files := disk.files.erase (filePath cfg folder name) }
      (g.remove folder name) where
  named {f n r} hr := by
    unfold RecordMap.remove at hr
    split at hr
    · cases hr
    · exact h.named hr
  stored {f n r} hr := by
    unfold RecordMap.remove at hr
    split at hr
    · cases hr
    next hc =>
      obtain ⟨hf', hn', hfind⟩ := h.stored hr
      refine ⟨hf', hn', ?_⟩
      simp [h.filePath_ne hf ho hr hc, hfind]
  recorded {p c} hp := by
    obtain ⟨hp, hne⟩ := List.mem_filter.mp hp
    obtain ⟨f, r, hf', rfl, rfl, hr⟩ := h.recorded hp
    refine ⟨f, r, hf', rfl, rfl, ?_⟩
    rw [RecordMap.remove, if_neg, hr]
    rintro ⟨rfl, hname⟩
    simp [hname] at hne
  dirs := h.dirs
  parents hp := h.parents (List.mem_filter.mp hp).1

end

end Holds

/-- The directory holds the records of `g` and the cache holds some of them. -/
structure Refines (cfg : DbConfig γ) (db : FileSystemDatabase γ) (g : RecordMap) : Prop where
  disk : Holds cfg db.disk g
  cache : ∀ {f r}, r ∈ (db.cache f).entries → g f r.name = some r

/-- A call on the database, or an eviction between two calls. A call that writes carries the
folder each eviction it causes removes, or `none` if that eviction does not return; a batch
carries the order in which its tasks write. -/
inductive DbOp where
  | getFile (folder name : String)
  | getFolderFiles (folder : String)
  | updateFile (folder : String) (info : FileInfo) (victim : Option String)
  | updateFiles (folder : String) (files : List FileInfo)
      (landing : List (FileInfo × Option String)) (h : (landing.map Prod.fst).Perm files)
  | deleteFile (folder name : String)
  | evict (victim : String)

inductive DbAnswer where
  | done (result : Except DbError Unit)
  | file (result : Except DbError (Option FileInfo))
  | files (result : Except DbError (List FileInfo))

/-- Equal answers; the records of a folder come in any order. -/
def DbAnswer.Same : DbAnswer → DbAnswer → Prop
  | .done a, .done b => a = b
  | .file a, .file b => a = b
  | .files (.ok a), .files (.ok b) => a.Perm b
  | .files (.error a), .files (.error b) => a = b
  | _, _ => False

def MemoryDatabase.exec (db : MemoryDatabase) : DbOp → DbAnswer × MemoryDatabase
  | .getFile folder name => (.file (.ok (db.getFile folder name)), db)
  | .getFolderFiles folder => (.files (.ok (db.getFolderFiles folder)), db)
  | .updateFile folder info _ => (.done (.ok ()), db.updateFile folder info)
  | .updateFiles folder files _ _ => (.done (.ok ()), db.updateFiles folder files)
  | .deleteFile folder name => (.done (.ok ()), db.deleteFile folder name)
  | .evict _ => (.done (.ok ()), db)

variable (cfg) (db)

def FileSystemDatabase.exec : DbOp → Option (DbAnswer × FileSystemDatabase γ)
  | .getFile folder name => some (.file (db.getFile cfg folder name), db)
  | .getFolderFiles folder => some (.files (db.getFolderFiles cfg folder), db)
  | .updateFile folder info victim =>
    (db.updateFile cfg folder info victim).map fun r => (.done r.1, r.2)
  | .updateFiles folder _ landing _ =>
    (updateFiles cfg folder landing db).map fun r => (.done r.1, r.2)
  | .deleteFile folder name =>
    let r := db.deleteFile cfg folder name
    some (.done r.1, r.2)
  | .evict victim => some (.done (.ok ()), db.evictOneFolder victim)

/-- Both databases take the same call. -/
def dbStep (s : FileSystemDatabase γ × MemoryDatabase) (op : DbOp)
    (t : FileSystemDatabase γ × MemoryDatabase) : Prop :=
  (∃ answer, s.1.exec cfg op = some (answer, t.1)) ∧ t.2 = (s.2.exec op).2

/-- A call about a valid name in a plain folder whose file is the name's own. -/
def OwnName (folder name : String) : Prop :=
  PlainFolder folder ∧ validateRemoteName name = .ok () ∧ OwnsPath cfg db.disk folder name

/-- What keeps the two databases together: every name has its file to itself, batches write
neither a name twice nor a name whose old record is cached, and evictions return. -/
def DbOp.Safe : DbOp → Prop
  | .getFile folder name => OwnName cfg db folder name
  | .getFolderFiles folder => PlainFolder folder
  | .updateFile folder info victim => OwnName cfg db folder info.name ∧
      (victim.isSome ∨ db.cacheSize.toNat + 1 ≤ cacheCap.toNat)
  | .updateFiles folder files landing _ => PlainFolder folder ∧
      (∀ file ∈ files, OwnName cfg db folder file.name ∧
        ∀ r ∈ (db.cache folder).find? file.name, r = file) ∧
      (files.map fun file => filePath cfg folder file.name).Nodup ∧
      ((∀ file ∈ landing, file.2.isSome) ∨ db.cacheSize.toNat + files.length ≤ cacheCap.toNat)
  | .deleteFile folder name => OwnName cfg db folder name
  | .evict _ => True

variable {cfg} {db}

theorem ne_empty_of_validateRemoteName (h : validateRemoteName name = .ok ()) : name ≠ "" := by
  rintro rfl
  cases h

namespace Refines

variable {g : RecordMap} {landing : List (FileInfo × Option String)} {victim : Option String}

theorem getFile_eq (h : Refines cfg db g) (hf : PlainFolder folder)
    (ho : OwnsPath cfg db.disk folder name) : db.getFile cfg folder name = .ok (g folder name) := by
  unfold getFile
  split
  next r hr =>
    obtain ⟨hmem, rfl⟩ := find?_eq_some_iff.mp hr
    rw [h.cache hmem]
  · have hfind := h.disk.find?_eq hf ho
    have hdir := h.disk.filePath_notMem_dirs hf name
    cases hg : g folder name with
    | none => simp [DbDisk.pathExists, hdir, hfind, hg]
    | some r =>
      have hread : db.disk.readToString (filePath cfg folder name) =
          .ok (cfg.codec.toStringPretty r) := by
        simp [DbDisk.readToString, hfind, hg]
      simp [DbDisk.pathExists, hfind, hg, hread, cfg.codec.roundtrip r, bind, Except.bind, pure,
        Except.pure]

theorem toStringPretty_injective {r r' : FileInfo}
    (h : cfg.codec.toStringPretty r = cfg.codec.toStringPretty r') : r = r' := by
  have hr := cfg.codec.roundtrip r
  rw [h, cfg.codec.roundtrip r'] at hr
  exact (Except.ok.inj hr).symm

theorem hasJsonExtension_filePath (hn : n ≠ "") : hasJsonExtension (filePath cfg folder n) = true := by
  have hne : replaceChar '/' '_' n ++ ".json" ≠ ".json" := by
    intro h
    have hlen := congrArg (fun s : String => s.toList.length) h
    have hnil : n.toList ≠ [] := by simpa using hn
    simp [replaceChar] at hlen
    exact hnil (by simp [hlen])
  simp [hasJsonExtension, filePath, endsWith_append, hne]

/-- The entry of the directory for a record. -/
def recordEntry (cfg : DbConfig γ) (folder : String) (r : FileInfo) : Path × γ :=
  (filePath cfg folder r.name, cfg.codec.toStringPretty r)

/-- The files of a folder's directory are those of its records. -/
theorem folder_entries (h : Refines cfg db g) (hf : PlainFolder folder) :
    ∃ records : List FileInfo, records.Nodup ∧ (∀ r, r ∈ records ↔ g folder r.name = some r) ∧
      records.map (recordEntry cfg folder) =
        db.disk.files.entries.filter fun e => e.1.dropLast = folderPath cfg folder := by
  have hentry : ∀ e ∈ db.disk.files.entries.filter (fun e => e.1.dropLast = folderPath cfg folder),
      ∃ r, recordEntry cfg folder r = e ∧ g folder r.name = some r := by
    rintro ⟨p, c⟩ he
    obtain ⟨hmem, hdir⟩ := List.mem_filter.mp he
    obtain ⟨f, r, hf', rfl, rfl, hr⟩ := h.disk.recorded hmem
    have hfolder : f = folder := by
      simp only [filePath, List.dropLast_concat, decide_eq_true_eq, folderPath_of_plain hf,
        folderPath_of_plain hf'] at hdir
      simpa using hdir
    subst hfolder
    exact ⟨r, rfl, hr⟩
  obtain ⟨records, hrecords⟩ : ∃ records : List FileInfo, records.map (recordEntry cfg folder) =
      db.disk.files.entries.filter fun e => e.1.dropLast = folderPath cfg folder := by
    have hrange := Set.range_list_map (recordEntry cfg folder)
    have hmem : (db.disk.files.entries.filter fun e => e.1.dropLast = folderPath cfg folder) ∈
        Set.range (List.map (recordEntry cfg folder)) := by
      rw [hrange]
      intro e he
      obtain ⟨r, hr, -⟩ := hentry e he
      exact ⟨r, hr⟩
    exact hmem
  refine ⟨records, ?_, fun r => ⟨fun hr => ?_, fun hr => ?_⟩, hrecords⟩
  · have hkeys : ((records.map (recordEntry cfg folder)).map Prod.fst).Nodup := by
      rw [hrecords]
      exact db.disk.files.nodup.sublist (List.filter_sublist.map _)
    rw [List.map_map] at hkeys
    exact List.Nodup.of_map _ hkeys
  · have hmem := List.mem_map_of_mem (f := recordEntry cfg folder) hr
    rw [hrecords] at hmem
    obtain ⟨r', hr', hg⟩ := hentry _ hmem
    obtain rfl := toStringPretty_injective (congrArg Prod.snd hr')
    exact hg
  · obtain ⟨-, -, hfind⟩ := h.disk.stored hr
    have hmem : recordEntry cfg folder r ∈ records.map (recordEntry cfg folder) := by
      rw [hrecords, List.mem_filter]
      refine ⟨(find?_eq_some_iff.mp hfind).1, ?_⟩
      simp [recordEntry, filePath]
    obtain ⟨r', hr', heq⟩ := List.mem_map.mp hmem
    obtain rfl := toStringPretty_injective (congrArg Prod.snd heq)
    exact hr'

theorem readDir_eq (h : Refines cfg db g) (hf : PlainFolder folder) :
    db.disk.readDir (folderPath cfg folder) =
      (db.disk.files.entries.filter fun e => e.1.dropLast = folderPath cfg folder).map Prod.fst := by
  unfold DbDisk.readDir
  have hdirs : (db.disk.dirs.dedup.filter fun p =>
      p ≠ [] && p.dropLast = folderPath cfg folder) = [] := by
    rw [List.filter_eq_nil_iff]
    intro d hd
    have hlen := h.disk.dirs d (mem_dedup.mp hd)
    simp only [Bool.and_eq_true, decide_eq_true_eq, not_and]
    intro hne heq
    have hlast := congrArg length heq
    rw [length_dropLast, folderPath_of_plain hf, length_append] at hlast
    have hpos : 0 < d.length := length_pos_of_ne_nil hne
    simp at hlast
    omega
  rw [List.filter_append, hdirs, List.nil_append, List.filter_map]
  congr 1
  refine filter_congr fun e he => ?_
  have hne : e.1 ≠ [] := by
    have := h.disk.length_of_mem (p := e.1) (c := e.2) he
    exact ne_nil_of_length_pos (by omega)
  simp [hne]

theorem mapM_readToString {records : List FileInfo}
    (hread : ∀ r ∈ records, db.disk.files.find? (filePath cfg folder r.name) =
      some (recordEntry cfg folder r)) :
    (records.map fun r => filePath cfg folder r.name).mapM db.disk.readToString =
      .ok (records.map cfg.codec.toStringPretty) := by
  induction records with
  | nil => rfl
  | cons r records ih =>
    have hr := hread r List.mem_cons_self
    have ih := ih fun r hr => hread r (List.mem_cons_of_mem _ hr)
    rw [List.map_cons, List.mapM_cons, ih]
    simp [DbDisk.readToString, hr, recordEntry, bind, Except.bind, pure, Except.pure]

theorem getFolderFiles_eq (h : Refines cfg db g) (hf : PlainFolder folder) :
    ∃ records : List FileInfo, db.getFolderFiles cfg folder = .ok records ∧ records.Nodup ∧
      ∀ r, r ∈ records ↔ g folder r.name = some r := by
  obtain ⟨records, hnodup, hmem, hentries⟩ := h.folder_entries hf
  unfold getFolderFiles
  split
  next hno =>
    refine ⟨[], rfl, List.nodup_nil, fun r => ⟨fun hr => by simp at hr, fun hr => ?_⟩⟩
    -- a stored record has a directory
    obtain ⟨-, -, hfind⟩ := h.disk.stored hr
    have hdir := h.disk.parents (find?_eq_some_iff.mp hfind).1
    simp only [filePath, List.dropLast_concat] at hdir
    simp [DbDisk.pathExists, hdir] at hno
  · refine ⟨records, ?_, hnodup, hmem⟩
    have hpaths : (db.disk.readDir (folderPath cfg folder)).filter hasJsonExtension =
        records.map fun r => filePath cfg folder r.name := by
      rw [h.readDir_eq hf, ← hentries, List.map_map, List.filter_eq_self.mpr]
      · rfl
      · intro p hp
        obtain ⟨r, hr, rfl⟩ := List.mem_map.mp hp
        exact hasJsonExtension_filePath (h.disk.stored ((hmem r).mp hr)).2.1
    have hread : (records.map fun r => filePath cfg folder r.name).mapM db.disk.readToString =
        .ok (records.map cfg.codec.toStringPretty) :=
      mapM_readToString fun r hr => (h.disk.stored ((hmem r).mp hr)).2.2
    have hparse : (records.map cfg.codec.toStringPretty).filterMap
        (fun content => (cfg.codec.fromStr content).toOption) = records := by
      rw [List.filterMap_map]
      have hsome : ((fun content => (cfg.codec.fromStr content).toOption) ∘
          cfg.codec.toStringPretty) = some := by
        funext r
        simp [cfg.codec.roundtrip r, Except.toOption]
      rw [hsome, List.filterMap_some]
    rw [hpaths, hread]
    simp [bind, Except.bind, pure, Except.pure, hparse]

/-- A record is cached beside those of other names, whatever is evicted. -/
theorem cacheRecord_spec (db : FileSystemDatabase γ) (folder : String) (info : FileInfo)
    (hv : victim.isSome ∨ db.cacheSize.toNat + 1 ≤ cacheCap.toNat) :
    ∃ db', cacheRecord db folder info victim = some db' ∧ db'.disk = db.disk ∧
      (∀ f, ∀ r ∈ (db'.cache f).entries, (f = folder ∧ r = info) ∨
        (r ∈ (db.cache f).entries ∧ ¬ (f = folder ∧ r.name = info.name))) ∧
      (db.cacheSize.toNat + 1 ≤ cacheCap.toNat → db'.cacheSize.toNat ≤ db.cacheSize.toNat + 1) := by
  have hcap : cacheCap.toNat = 100000 := rfl
  have hcached : ∀ f, ∀ r ∈ ((putCache db folder info).cache f).entries, (f = folder ∧ r = info) ∨
        (r ∈ (db.cache f).entries ∧ ¬ (f = folder ∧ r.name = info.name)) := by
    intro f r hr
    simp only [putCache] at hr
    split at hr
    next hf =>
      subst hf
      rcases KeyedList.mem_upsert.mp hr with rfl | ⟨hr, hne⟩
      · exact .inl ⟨rfl, rfl⟩
      · exact .inr ⟨hr, fun h => hne h.2⟩
    next hf => exact .inr ⟨hr, fun h => hf h.1⟩
  have hsize : db.cacheSize.toNat + 1 ≤ cacheCap.toNat →
      (putCache db folder info).cacheSize.toNat ≤ db.cacheSize.toNat + 1 := by
    intro hle
    simp only [putCache]
    split
    · simp [UInt64.toNat_add]
      omega
    · exact Nat.le_succ _
  unfold cacheRecord
  split
  next hfull =>
    simp only [Bool.and_eq_true, decide_eq_true_eq, gt_iff_lt, UInt64.lt_iff_toNat_lt] at hfull
    obtain ⟨-, hfull⟩ := hfull
    have hover : ¬ db.cacheSize.toNat + 1 ≤ cacheCap.toNat := by
      intro hle
      have := hsize hle
      omega
    obtain ⟨v, rfl⟩ := Option.isSome_iff_exists.mp (hv.resolve_right hover)
    refine ⟨_, rfl, rfl, fun f r hr => ?_, fun h => absurd h hover⟩
    simp only [evictOneFolder] at hr
    split at hr
    · simp [empty] at hr
    · exact hcached f r hr
  · exact ⟨_, rfl, rfl, hcached, hsize⟩

theorem updateFile_eq (h : Refines cfg db g) (ho : OwnName cfg db folder info.name)
    (hv : victim.isSome ∨ db.cacheSize.toNat + 1 ≤ cacheCap.toNat) :
    ∃ db', db.updateFile cfg folder info victim = some (.ok (), db') ∧
      Refines cfg db' (g.put folder info) := by
  obtain ⟨hf, hvalid, hown⟩ := ho
  obtain ⟨db', hdb', hdisk, hcache, -⟩ := cacheRecord_spec
    { db with disk := Holds.stored' cfg db.disk folder info } folder info hv
  refine ⟨db', by simp [updateFile, h.disk.storeRecord_eq hf, hdb'], ?_, fun {f r} hr => ?_⟩
  · rw [hdisk]
    exact h.disk.put hf (ne_empty_of_validateRemoteName hvalid) hown
  · rcases hcache f r hr with ⟨rfl, rfl⟩ | ⟨hr, hne⟩
    · simp [put]
    · rw [put, if_neg hne]
      exact h.cache hr

/-- A write leaves the files of other names alone. -/
theorem ownsPath_stored' (ho : OwnsPath cfg disk folder name)
    (hne : filePath cfg folder info.name ≠ filePath cfg folder name) :
    OwnsPath cfg (Holds.stored' cfg disk folder info) folder name := by
  intro file hfile
  simp only [Holds.stored', find?_upsert, if_neg hne] at hfile
  exact ho file hfile

/-- The tasks of a batch store their records and leave the cache of the database as it was. -/
theorem updateFiles_spec (h : Holds cfg db.disk g) (hf : PlainFolder folder)
    (hown : ∀ file ∈ landing, file.1.name ≠ "" ∧ OwnsPath cfg db.disk folder file.1.name)
    (hpaths : (landing.map fun file => filePath cfg folder file.1.name).Nodup)
    (hcap : (∀ file ∈ landing, file.2.isSome) ∨
      db.cacheSize.toNat + landing.length ≤ cacheCap.toNat) :
    ∃ db', updateFiles cfg folder landing db = some (.ok (), db') ∧
      Holds cfg db'.disk (g.putAll folder (landing.map Prod.fst)) ∧ db'.cache = db.cache := by
  induction landing generalizing db g with
  | nil => exact ⟨db, rfl, h, rfl⟩
  | cons file landing ih =>
    obtain ⟨info, victim⟩ := file
    obtain ⟨hn, hown0⟩ := hown _ List.mem_cons_self
    rw [List.map_cons, List.nodup_cons] at hpaths
    have hv : victim.isSome ∨ db.cacheSize.toNat + 1 ≤ cacheCap.toNat := by
      rcases hcap with hcap | hcap
      · exact .inl (hcap _ List.mem_cons_self)
      · exact .inr (by simp at hcap; omega)
    obtain ⟨db1, hdb1, hdisk, -, hsize⟩ := cacheRecord_spec
      { db with disk := Holds.stored' cfg db.disk folder info } folder info hv
    have hput : Holds cfg db1.disk (g.put folder info) := by
      rw [hdisk]
      exact h.put hf hn hown0
    have hone : updateFileOnClone cfg db folder (info, victim) =
        some (.ok (), { db1 with cache := db.cache }) := by
      simp [updateFileOnClone, updateFile, h.storeRecord_eq hf, hdb1]
    obtain ⟨db', hdb', hholds, hcache⟩ := @ih { db1 with cache := db.cache } _ hput
      (fun file hfile => by
        refine ⟨(hown file (List.mem_cons_of_mem _ hfile)).1, ?_⟩
        rw [hdisk]
        refine ownsPath_stored' (hown file (List.mem_cons_of_mem _ hfile)).2 fun heq => ?_
        exact hpaths.1 (heq ▸ List.mem_map_of_mem (f := fun file : FileInfo × Option String =>
          filePath cfg folder file.1.name) hfile))
      hpaths.2
      (by
        rcases hcap with hcap | hcap
        · exact .inl fun file hfile => hcap file (List.mem_cons_of_mem _ hfile)
        · rw [List.length_cons] at hcap
          have := hsize (by simp only; omega)
          exact .inr (by simp only at this ⊢; omega))
    refine ⟨db', ?_, hholds, hcache⟩
    simp only [updateFiles, hone, hdb', bind, Option.bind_some]

section
variable (h : Refines cfg db g)
include h

theorem deleteFile_eq (ho : OwnName cfg db folder name) :
    ∃ db', db.deleteFile cfg folder name = (.ok (), db') ∧ Refines cfg db' (g.remove folder name) := by
  obtain ⟨hf, -, hown⟩ := ho
  have hdir := h.disk.filePath_notMem_dirs hf name
  have hcache : ∀ {f r}, r ∈ (if f = folder then (db.cache folder).erase name
      else db.cache f).entries → g.remove folder name f r.name = some r := by
    intro f r hr
    have hmem : r ∈ (db.cache f).entries ∧ ¬ (f = folder ∧ r.name = name) := by
      split at hr
      next hf =>
        subst hf
        obtain ⟨hr, hne⟩ := List.mem_filter.mp hr
        exact ⟨hr, fun h => by simp [h.2] at hne⟩
      next hf => exact ⟨hr, fun h => hf h.1⟩
    rw [remove, if_neg hmem.2]
    exact h.cache hmem.1
  unfold deleteFile
  by_cases hex : db.disk.pathExists (filePath cfg folder name) = true
  · simp only [if_pos hex, DbDisk.removeFile, List.contains_eq_mem, hdir, decide_false,
      Bool.false_eq_true, if_false]
    exact ⟨_, rfl, h.disk.remove hf hown, hcache⟩
  · simp only [if_neg hex]
    refine ⟨_, rfl, ?_, hcache⟩
    -- nothing is stored under the name, so there is nothing to remove
    have hnone : g folder name = none := by
      cases hg : g folder name with
      | none => rfl
      | some r => simp [DbDisk.pathExists, h.disk.find?_eq hf hown, hg] at hex
    have hsame : g.remove folder name = g := by
      funext f n
      unfold remove
      split
      next hc => rw [hc.1, hc.2, hnone]
      · rfl
    rw [hsame]
    exact h.disk

theorem evictOneFolder (victim : String) : Refines cfg (db.evictOneFolder victim) g := by
  refine ⟨h.disk, fun {f r} hr => ?_⟩
  simp only [FileSystemDatabase.evictOneFolder] at hr
  split at hr
  · simp [empty] at hr
  · exact h.cache hr

theorem updateFiles_eq (hperm : (landing.map Prod.fst).Perm files)
    (hsafe : (DbOp.updateFiles folder files landing hperm).Safe cfg db) :
    ∃ db', updateFiles cfg folder landing db = some (.ok (), db') ∧
      Refines cfg db' (g.putAll folder files) := by
  obtain ⟨hf, hown, hpaths, hcap⟩ := hsafe
  have hmem : ∀ file ∈ landing, file.1 ∈ files :=
    fun file hfile => hperm.mem_iff.mp (List.mem_map_of_mem hfile)
  have hpaths' : (landing.map fun file => filePath cfg folder file.1.name).Nodup := by
    have hp := hperm.map fun file : FileInfo => filePath cfg folder file.name
    rw [List.map_map] at hp
    exact hp.nodup_iff.mpr hpaths
  have hnames : (files.map name).Nodup := by
    have hcomp : (files.map fun file => filePath cfg folder file.name) =
        (files.map name).map (filePath cfg folder) := by simp
    exact List.Nodup.of_map _ (hcomp ▸ hpaths)
  obtain ⟨db', hdb', hholds, hcache⟩ := updateFiles_spec h.disk hf
    (fun file hfile => by
      obtain ⟨⟨-, hvalid, hpath⟩, -⟩ := hown file.1 (hmem file hfile)
      exact ⟨ne_empty_of_validateRemoteName hvalid, hpath⟩)
    hpaths' (by
      have hlen := hperm.length_eq
      rw [length_map] at hlen
      rwa [hlen])
  refine ⟨db', hdb', ?_, fun {f r} hr => ?_⟩
  · have hp := putAll_perm g folder hperm.symm hnames
    rwa [hp]
  · rw [hcache] at hr
    rw [putAll_apply hnames]
    split
    next hfolder =>
      subst hfolder
      cases hfind : files.find? (fun s => s.name = r.name) with
      | none => exact h.cache hr
      | some file =>
        have hfile := mem_of_find?_eq_some hfind
        have hname : file.name = r.name := by simpa using find?_some hfind
        have heq := (hown file hfile).2 r (hname ▸ find?_key hr)
        simp [heq]
    · exact h.cache hr

end

theorem new : Refines cfg (FileSystemDatabase.new : FileSystemDatabase γ)
    MemoryDatabase.new.getFile where
  disk := {
    named := fun h => by cases h
    stored := fun h => by cases h
    recorded := fun h => by cases h
    dirs := fun _ h => by cases h
    parents := fun h => by cases h }
  cache h := by cases h

/-- One safe call: it returns, its answer is that of the map, and the databases stay together. -/
theorem exec {op : DbOp} (h : Refines cfg db mem.getFile) (hsafe : op.Safe cfg db) :
    ∃ answer db', db.exec cfg op = some (answer, db') ∧ answer.Same (mem.exec op).1 ∧
      Refines cfg db' (mem.exec op).2.getFile := by
  cases op with
  | getFile folder name =>
    obtain ⟨hf, -, hown⟩ := hsafe
    exact ⟨_, _, rfl, h.getFile_eq hf hown, h⟩
  | getFolderFiles folder =>
    obtain ⟨records, hrecords, hnodup, hmem⟩ := h.getFolderFiles_eq hsafe
    refine ⟨_, _, rfl, ?_, h⟩
    have hnodup' : (mem.getFolderFiles folder).Nodup := List.Nodup.of_map _ (mem.files folder).nodup
    have hperm : records.Perm (mem.getFolderFiles folder) :=
      (List.perm_ext_iff_of_nodup hnodup hnodup').mpr fun r =>
        (hmem r).trans MemoryDatabase.mem_getFolderFiles.symm
    simpa [DbAnswer.Same, MemoryDatabase.exec, hrecords] using hperm
  | updateFile folder info victim =>
    obtain ⟨db', hdb', hr⟩ := h.updateFile_eq hsafe.1 hsafe.2
    refine ⟨.done (.ok ()), db', by rw [FileSystemDatabase.exec, hdb']; rfl, rfl, ?_⟩
    exact MemoryDatabase.getFile_updateFile ▸ hr
  | updateFiles folder files landing hperm =>
    obtain ⟨db', hdb', hr⟩ := h.updateFiles_eq hperm hsafe
    refine ⟨.done (.ok ()), db', by rw [FileSystemDatabase.exec, hdb']; rfl, rfl, ?_⟩
    exact MemoryDatabase.getFile_updateFiles ▸ hr
  | deleteFile folder name =>
    obtain ⟨db', hdb', hr⟩ := h.deleteFile_eq hsafe
    refine ⟨.done (.ok ()), db', by simp only [FileSystemDatabase.exec, hdb'], rfl, ?_⟩
    exact MemoryDatabase.getFile_deleteFile ▸ hr
  | evict victim => exact ⟨_, _, rfl, rfl, h.evictOneFolder victim⟩

end Refines

/-- In every run of safe calls the filesystem database answers as the in-memory one does. -/
theorem fileSystemDatabase_refines {fs : FileSystemDatabase γ} {op : DbOp}
    (h : Transition.Reach (dbStep cfg) (fun s op => op.Safe cfg s.1) (.new, .new) (fs, mem))
    (hsafe : op.Safe cfg fs) :
    ∃ answer fs', fs.exec cfg op = some (answer, fs') ∧ answer.Same (mem.exec op).1 := by
  have hr : Refines cfg fs mem.getFile := by
    refine h.invariant (I := fun s => Refines cfg s.1 s.2.getFile) Refines.new ?_
    rintro ⟨fs, mem⟩ op ⟨fs', mem'⟩ hok ⟨⟨answer, hexec⟩, rfl⟩ hinv
    obtain ⟨answer', fs'', hexec', -, hr⟩ := hinv.exec hok
    rw [hexec] at hexec'
    obtain ⟨-, rfl⟩ := Prod.mk.injEq .. ▸ Option.some.inj hexec'
    exact hr
  obtain ⟨answer, fs', hexec, hsame, -⟩ := hr.exec hsafe
  exact ⟨answer, fs', hexec, hsame⟩

/-- A codec that keeps the record itself. -/
def plainCodec : JsonCodec FileInfo where
  toStringPretty := id
  fromStr := .ok
  roundtrip _ := rfl

def plainDbConfig : DbConfig FileInfo := ⟨["var", "db"], plainCodec⟩

/-- The database after one record was stored in it. -/
def dbWithRecord : FileSystemDatabase FileInfo :=
  ((FileSystemDatabase.new.updateFile plainDbConfig "f" (.new "a/b") none).getD (.ok (), .new)).2

theorem fileSystemDatabase_reads_back :
    ∃ answer fs', dbWithRecord.exec plainDbConfig (.getFile "f" "a/b") = some (answer, fs') ∧
      answer.Same (((MemoryDatabase.new.updateFile "f" (.new "a/b")).exec (.getFile "f" "a/b")).1) := by
  refine fileSystemDatabase_refines (.single ⟨.updateFile "f" (.new "a/b") none, ?_, ⟨_, rfl⟩, rfl⟩) ?_
  · refine ⟨⟨by decide, by decide, ?_⟩, .inr (by decide)⟩
    rintro file hfile
    cases hfile
  · refine ⟨by decide, by decide, ?_⟩
    rintro file hfile r hr
    have hfind : dbWithRecord.disk.files.find? (filePath plainDbConfig "f" "a/b") =
        some (["var", "db", "f", "a_b.json"], .new "a/b") := by decide
    obtain rfl := Option.some.inj (hfind.symm.trans hfile)
    cases hr
    rfl

/-- The answer to reading a name after one record is stored and then written again in a batch. -/
def readAfter (info : FileInfo) (batch : List FileInfo) (name : String) :
    Option (Except DbError (Option FileInfo)) := do
  let (_, db) ← updateFile plainDbConfig .new "f" info none
  let (_, db) ← updateFiles plainDbConfig "f" (batch.map fun file => (file, none)) db
  return db.getFile plainDbConfig "f" name

/-- `a/b` and `a_b` are both valid and share the file `a_b.json`, so one is answered for the
other. A record written by a batch is not seen while the one before it is cached. -/
theorem fileSystemDatabase_not_a_map :
    (validateRemoteName "a/b" = .ok () ∧ validateRemoteName "a_b" = .ok () ∧
      readAfter (.new "a/b") [] "a_b" = some (.ok (some (.new "a/b"))) ∧
      ((MemoryDatabase.new.updateFile "f" (.new "a/b")).updateFiles "f" []).getFile "f" "a_b" = none) ∧
    (readAfter (.new "a") [{ new "a" with size := 7 }] "a" = some (.ok (some (.new "a"))) ∧
      ((MemoryDatabase.new.updateFile "f" (.new "a")).updateFiles "f"
        [{ new "a" with size := 7 }]).getFile "f" "a" =
          some { new "a" with size := 7 }) := by
  decide

end Syncthing
