import Syncthing.Core.Types
import Syncthing.Lib.FileStore
import Syncthing.Lib.Text

/-! Paths are relative to the folder root, which is a directory. The calls are those of `std::fs`
and `tokio::fs` the source makes, with the errors a healthy file system gives. -/
namespace Syncthing

open List

abbrev IoError := String

/-- Errors of `syncthing-sync/src/error.rs` that the modelled functions return. -/
inductive SyncError where
  | io (message : String)
  | scan (folder message : String)
  | pull (path message : String)
  | database (message : String)
  | folderNotFound (folder : String)
  | index (message : String)
  | conflict (path message : String)
  | checksumMismatch (offset : Int)
  | other (message : String)
  deriving DecidableEq

/-- The text of an error. -/
def SyncError.message : SyncError → String
  | io message => "IO error: " ++ message
  | scan folder message => "Scan error in folder '" ++ folder ++ "': " ++ message
  | pull path message => "Pull error for '" ++ path ++ "': " ++ message
  | database message => "Database error: " ++ message
  | folderNotFound folder => "Folder not found: " ++ folder
  | index message => "Index error: " ++ message
  | conflict path message => "Conflict error for '" ++ path ++ "': " ++ message
  | checksumMismatch offset => "Checksum mismatch for block at offset " ++ toString offset
  | other message => message

/-- Seconds and nanoseconds since the epoch. -/
abbrev Mtime := Int × Int

/-- Lexicographic order of times. -/
def Mtime.before (a b : Mtime) : Bool := a.1 < b.1 || (a.1 = b.1 && a.2 < b.2)

/-- The wall clock and the texts `chrono` makes of it. -/
structure Clock where
  now : Mtime
  /-- `%Y%m%d-%H%M%S`, in UTC and in local time. -/
  formatStamp : Int → String
  formatLocalStamp : Int → String
  parseStamp : String → Option Int
  /-- `%Y%m%d` and `%H%M%S`. -/
  formatDate : Int → String
  formatTime : Int → String
  parseDate : String → Option Int
  /-- The first second whose stamp is not read back: `%Y` reads four digits. -/
  stampLimit : Int := 253402300800
  stamp_tail : ∀ t, Text.endsWith (formatStamp t) ".tmp" = false

/-- The seconds from the epoch on whose stamps can be read back. -/
abbrev Clock.ReadsBack (clock : Clock) (secs : Int) : Prop := 0 ≤ secs ∧ secs < clock.stampLimit

/-- What is found behind a symbolic link. -/
inductive LinkView where
  | dangling
  | file (content : Bytes)
  | dir
  deriving DecidableEq

inductive DiskNode where
  | file (content : Bytes) (modified : Mtime)
  | dir (modified : Mtime) (len : Nat)
  | symlink (target : String) (modified : Mtime) (view : LinkView)
  deriving DecidableEq

abbrev Disk := FileStore String DiskNode

/-- The path of a file name, `folder_path.join(name)`. -/
def namePath (name : String) : List String := Text.splitChar '/' name

variable (path : List String)

/-- `.syncthing.{filename}.tmp` beside the file. -/
def tempPathFor : List String :=
  path.dropLast ++ [".syncthing." ++ path.getLast?.getD "unknown" ++ ".tmp"]

namespace Disk

variable (d : Disk) (p : List String)

def nodeAt : Option DiskNode := if p = [] then some (.dir (0, 0) 4096) else d.node p

def pathExists : Bool :=
  match d.nodeAt p with
  | some (.symlink _ _ view) => view ≠ .dangling
  | some _ => true
  | none => false

def isDir : Bool :=
  match d.nodeAt p with
  | some (.dir ..) | some (.symlink _ _ .dir) => true
  | _ => false

def isFile : Bool :=
  match d.nodeAt p with
  | some (.file ..) | some (.symlink _ _ (.file _)) => true
  | _ => false

/-- `fs::read`, following links. -/
def read? : Option Bytes :=
  match d.nodeAt p with
  | some (.file content _) | some (.symlink _ _ (.file content)) => some content
  | _ => none

/-- `fs::read_dir`. What is behind an empty, dot or dot-dot component may be found at its path, but
no directory lists it. -/
def readDir : List (List String) :=
  (d.children p).filter fun q => !(["", ".", ".."].contains (q.getLast?.getD ""))

/-- The length `fs::metadata` reports. -/
def metadataLen : Except IoError Nat :=
  match d.nodeAt p with
  | some (.file content _) | some (.symlink _ _ (.file content)) => .ok content.length
  | some (.dir _ len) => .ok len
  | some (.symlink _ _ .dir) => .ok 4096
  | _ => .error "No such file or directory"

def createDirAll (now : Mtime) : Except IoError Disk :=
  if p.inits.any fun q => (d.nodeAt q).isSome && !d.isDir q then .error "Not a directory"
  else .ok (d.fill (.dir now 4096) p)

variable (content : Bytes) (now : Mtime)

/-- Creates or truncates a file and writes all of it, through a link if there is one. -/
def write : Except IoError Disk :=
  if !d.isDir p.dropLast then .error "No such file or directory"
  else match d.nodeAt p with
    | some (.dir ..) | some (.symlink _ _ .dir) => .error "Is a directory"
    | some (.symlink target modified _) => .ok (d.set p (.symlink target modified (.file content)))
    | some (.file ..) | none => .ok (d.set p (.file content now))

/-- Writes through an open handle of the file. -/
def overwrite : Disk :=
  match d.nodeAt p with
  | some (.symlink target modified _) => d.set p (.symlink target modified (.file content))
  | _ => d.set p (.file content now)

def removeFile : Except IoError Disk :=
  match d.nodeAt p with
  | none => .error "No such file or directory"
  | some (.dir ..) => .error "Is a directory"
  | some _ => .ok (d.remove p)

/-- `fs::copy`. A file copied onto itself is truncated before it is read. -/
def copy (dst : List String) (now : Mtime) : Except IoError Disk :=
  match d.read? p with
  | none => .error "the source path is neither a regular file nor a symlink to a regular file"
  | some content => d.write dst (if p = dst then [] else content) now

/-- Whether a path may be renamed over what is at its destination. -/
def replaceable (src dst : List String) : Bool :=
  match d.nodeAt src, d.nodeAt dst with
  | none, _ => false
  | some _, none => true
  | some (.dir ..), some (.dir ..) => (d.children dst).isEmpty
  | some (.dir ..), some _ => false
  | some _, some (.dir ..) => false
  | some _, some _ => true

def rename (dst : List String) : Except IoError Disk :=
  if p = dst then .ok d
  else if !d.isDir dst.dropLast || p <+: dst || dst <+: p || !d.replaceable p dst then
    .error "rename failed"
  else .ok (d.move p dst)

/-- `filetime::set_file_mtime`. -/
def setMtime (modified : Mtime) : Disk :=
  match d.nodeAt p with
  | some (.file content _) => d.set p (.file content modified)
  | _ => d

end Disk

theorem namePath_ne_nil (name : String) : namePath name ≠ [] := by simp [namePath, Text.splitChar]

theorem tempPathFor_ne_nil : tempPathFor path ≠ [] := by simp [tempPathFor]

theorem tempPathFor_length {path : List String} (h : path ≠ []) :
    (tempPathFor path).length = path.length := by
  have := length_pos_of_ne_nil h
  simp only [tempPathFor, length_append, length_dropLast, length_singleton]
  omega

/-- The temporary file has a longer name than the file. -/
theorem tempPathFor_ne {path : List String} (h : path ≠ []) : tempPathFor path ≠ path := by
  intro heq
  have hlast := congrArg getLast? heq
  rw [tempPathFor, getLast?_concat, getLast?_eq_getLast_of_ne_nil h] at hlast
  have hlen := congrArg (fun s : Option String => (s.getD "").toList.length) hlast
  simp at hlen
  omega

namespace Disk

variable {d d' : Disk} {p q : List String} {content : Bytes} {now : Mtime}

theorem nodeAt_eq (h : p ≠ []) : d.nodeAt p = d.node p := if_neg h

theorem concat_mem_readDir {last : String} (h : (d.node (p ++ [last])).isSome)
    (hlast : ["", ".", ".."].contains last = false) : p ++ [last] ∈ d.readDir p :=
  mem_filter.mpr ⟨FileStore.mem_children.mpr ⟨by simp, by simp, h⟩, by simpa using hlast⟩

theorem exists_of_mem_readDir (h : q ∈ d.readDir p) : ∃ last, q = p ++ [last] ∧
    (d.node q).isSome ∧ ["", ".", ".."].contains last = false := by
  obtain ⟨hchild, hlast⟩ := mem_filter.mp h
  obtain ⟨hne, hdir, hsome⟩ := FileStore.mem_children.mp hchild
  refine ⟨q.getLast hne, ?_, hsome, ?_⟩
  · rw [← hdir, dropLast_append_getLast]
  · simpa [getLast?_eq_some_getLast hne] using hlast

theorem read?_congr {d d' : Disk} (h : d'.nodeAt p = d.nodeAt q) : d'.read? p = d.read? q := by
  simp only [read?, h]

/-- Creating directories leaves what is there. -/
theorem nodeAt_createDirAll (h : d.createDirAll q now = .ok d') (hp : (d.nodeAt p).isSome) :
    d'.nodeAt p = d.nodeAt p := by
  unfold createDirAll at h
  split at h
  · cases h
  · cases h
    by_cases hnil : p = []
    · simp [nodeAt, hnil]
    · rw [nodeAt_eq hnil] at hp ⊢
      rw [nodeAt_eq hnil, FileStore.node_fill_of_isSome hp]

theorem read?_write (h : d.write p content now = .ok d') (hp : p ≠ []) :
    d'.read? p = some content := by
  unfold write at h
  split at h
  · cases h
  · split at h <;> cases h <;> simp [read?, nodeAt, hp]

theorem read?_overwrite (d : Disk) (content : Bytes) (now : Mtime) (hp : p ≠ []) :
    (d.overwrite p content now).read? p = some content := by
  unfold overwrite
  split <;> simp [read?, nodeAt, hp]

theorem nodeAt_write (h : d.write p content now = .ok d') (hq : q ≠ p) :
    d'.nodeAt q = d.nodeAt q := by
  unfold write at h
  split at h
  · cases h
  · split at h <;> cases h <;> simp [nodeAt, hq]

theorem nodeAt_removeFile (h : d.removeFile p = .ok d') (hq : q ≠ p) :
    d'.nodeAt q = d.nodeAt q := by
  unfold removeFile at h
  split at h <;> cases h
  simp [nodeAt, hq]

theorem rename_cases (h : d.rename p q = .ok d') : (p = q ∧ d' = d) ∨ d' = d.move p q := by
  unfold rename at h
  split at h
  next heq => exact .inl ⟨heq, (Except.ok.inj h).symm⟩
  · split at h <;> cases h
    exact .inr rfl

/-- A renamed file is found under its new path. -/
theorem nodeAt_rename (h : d.rename p q = .ok d') (hp : p ≠ []) (hq : q ≠ []) :
    d'.nodeAt q = d.nodeAt p := by
  rcases rename_cases h with ⟨rfl, rfl⟩ | rfl
  · rfl
  · rw [nodeAt_eq hq, nodeAt_eq hp, FileStore.node_move_dst]

theorem read?_setMtime {modified : Mtime} : (d.setMtime p modified).read? q = d.read? q := by
  unfold setMtime
  split
  · rename_i content' modified' hn
    by_cases hq : q = p
    · subst hq
      by_cases hnil : q = []
      · simp [read?, nodeAt, hnil]
      · simp [read?, nodeAt, hnil] at hn ⊢
        simp [hn]
    · simp [read?, nodeAt, hq]
  · rfl

end Disk

end Syncthing
