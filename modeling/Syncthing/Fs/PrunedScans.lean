import Mathlib.Data.List.Basic

/-! The walks of `syncthing-fs` over a directory, which go into an ignored directory or skip it. -/
namespace Syncthing.Fs

open List

/-- What is no directory: a file that can be read or not, a link whose target is there or not. -/
inductive Leaf where
  | file (readable : Bool)
  | link (resolves : Bool)
  deriving DecidableEq

/-- The entries of a directory: the first one, what is below it, and the others. -/
inductive Tree where
  | nil
  | leaf (name : String) (leaf : Leaf) (rest : Tree)
  | dir (name : String) (readable : Bool) (children rest : Tree)

/-- A line of `.stignore`. Of its regular expression there is what it matches. -/
structure Pattern where
  isInclude : Bool
  allowDelete : Bool
  regex : String → Bool

variable (patterns : List Pattern)

/-- `is_ignored`: the last pattern that matches decides. -/
def isIgnored (path : String) : Bool :=
  patterns.foldl (fun ignored p => if p.regex path then !p.isInclude else ignored) false

def allowsSkippingIgnoredDirs : Bool := !patterns.any fun p => p.isInclude || p.allowDelete

/-- `rel_path_str`. -/
def relPath (path name : String) : String :=
  (if path = "" then name else path ++ "/" ++ name).map fun c => if c = '\\' then '/' else c

/-- What a walk comes upon. The error is that of a directory that cannot be read. -/
inductive Found where
  | error
  | leaf (path : String) (leaf : Leaf)
  | dir (path : String)
  deriving DecidableEq

namespace Found

def path? : Found → Option String
  | error => none
  | leaf path _ | dir path => some path

/-- `scan_file` of a file and `quick_scan` of all else, which follows a link. -/
def scans : Found → Bool
  | error => false
  | leaf _ (.file readable) => readable
  | leaf _ (.link resolves) => resolves
  | dir _ => true

/-- `build_file_info`, which does not follow a link. -/
def informs : Found → Bool
  | leaf _ (.link _) => true
  | found => found.scans

def passes (ignored : String → Bool) (found : Found) : Bool := !found.path?.any ignored

end Found

/-- What is found below a directory. -/
def walk (canSkip : Bool) (ignored : String → Bool) (path : String) : Tree → List Found
  | .nil => []
  | .leaf name leaf rest =>
    let entry := relPath path name
    (if ignored entry then [] else [.leaf entry leaf]) ++ walk canSkip ignored path rest
  | .dir name readable children rest =>
    let entry := relPath path name
    (if ignored entry then [] else [.dir entry]) ++
      ((if ignored entry && canSkip then []
        else if readable then walk canSkip ignored entry children else [.error]) ++
        walk canSkip ignored path rest)

/-- The names, unless there was an error. -/
def names (ok : Found → Bool) (found : List Found) : Option (List String) :=
  if found.all ok then some (found.filterMap Found.path?) else none

variable (t : Tree)

/-- The names that `scan_directory` returns. -/
def scanDirectory : Option (List Pattern) → Option (List String)
  | none => names Found.scans (walk false (fun _ => false) "" t)
  | some patterns =>
    names Found.scans (walk (allowsSkippingIgnoredDirs patterns) (isIgnored patterns) "" t)

/-- The names that `NativeFileSystem::scan_directory_with_ignore` returns. -/
def scanDirectoryWithIgnore (patterns : List Pattern) : Option (List String) :=
  names Found.informs (walk true (isIgnored patterns) "" t)

/-- All that is below a directory. -/
def Tree.content (path : String) : List Found := walk false (fun _ => false) path t

/-- An ignored directory can be read, and so can all below it, where everything is ignored. -/
def Tree.Covered (ignored : String → Bool) (path : String) : Tree → Prop
  | .nil => True
  | .leaf _ _ rest => rest.Covered ignored path
  | .dir name readable children rest =>
    (ignored (relPath path name) = true → readable = true ∧
      ∀ x ∈ children.content (relPath path name), x.passes ignored = false) ∧
    (readable = true → children.Covered ignored (relPath path name)) ∧ rest.Covered ignored path

/-- What is neither ignored nor in an ignored directory is sound, and the directories among it can
be read. -/
def Tree.Each (ok : Found → Bool) (ignored : String → Bool) (path : String) : Tree → Prop
  | .nil => True
  | .leaf name l rest =>
    (ignored (relPath path name) = false → ok (.leaf (relPath path name) l) = true) ∧
      rest.Each ok ignored path
  | .dir name readable children rest =>
    (ignored (relPath path name) = false → readable = true ∧
      ok (.dir (relPath path name)) = true ∧ children.Each ok ignored (relPath path name)) ∧
    rest.Each ok ignored path

variable {t : Tree} {ignored : String → Bool} {path : String} {p : Pattern} {ok : Found → Bool}
  {patterns before later : List Pattern} {found : List Found}

/-- A walk into every directory finds what is not ignored. -/
theorem walk_eq_filter : walk false ignored path t = (t.content path).filter (·.passes ignored) := by
  induction t generalizing path with
  | nil => rfl
  | leaf name leaf rest ih =>
    simp only [walk, Tree.content, ih]
    cases hentry : ignored (relPath path name) <;> simp [hentry, Found.passes, Found.path?]
  | dir name readable children rest ihc ih =>
    simp only [walk, Tree.content, ihc, ih]
    cases hentry : ignored (relPath path name) <;> cases readable <;>
      simp [hentry, Found.passes, Found.path?]

theorem walk_sublist : walk true ignored path t <+ walk false ignored path t := by
  induction t generalizing path with
  | nil => exact .slnil
  | leaf name leaf rest ih => exact .append_left ih _
  | dir name readable children rest ihc ih =>
    refine .append_left (.append ?_ ih) _
    cases ignored (relPath path name) <;> cases readable <;> simp [ihc]

/-- Skipping ignored directories loses nothing exactly if nothing of interest is in them. -/
theorem length_walk_iff :
    (walk true ignored path t).length = (walk false ignored path t).length ↔
      t.Covered ignored path := by
  induction t generalizing path with
  | nil => simp [walk, Tree.Covered]
  | leaf name leaf rest ih => simp [walk, Tree.Covered, ← ih]
  | dir name readable children rest ihc ih =>
    have hle := @walk_sublist rest ignored path |>.length_le
    have hlec := @walk_sublist children ignored (relPath path name) |>.length_le
    have hnone : walk false ignored (relPath path name) children = [] ↔
        ∀ x ∈ children.content (relPath path name), x.passes ignored = false := by
      rw [walk_eq_filter, filter_eq_nil_iff]
      simp
    simp only [walk, Tree.Covered, ← ih, ← ihc, ← hnone, length_append]
    cases hentry : ignored (relPath path name) <;> cases readable <;> simp [← length_eq_zero_iff] <;>
      omega

theorem all_walk_iff (herror : ok .error = false) :
    (walk true ignored path t).all ok = true ↔ t.Each ok ignored path := by
  induction t generalizing path with
  | nil => simp [walk, Tree.Each]
  | leaf name leaf rest ih =>
    cases hentry : ignored (relPath path name) <;> simp [walk, Tree.Each, ← ih, hentry]
  | dir name readable children rest ihc ih =>
    cases hentry : ignored (relPath path name) <;> cases readable <;>
      simp [walk, Tree.Each, ← ih, ← ihc, hentry, herror, and_assoc]

theorem isIgnored_insert (h : p.regex path = false) :
    isIgnored (before ++ p :: later) path = isIgnored (before ++ later) path := by
  simp [isIgnored, h]

theorem names_of_all (h : found.all ok = true) :
    names ok found = some (found.filterMap Found.path?) := if_pos h

theorem length_names (h : found.all Found.informs = true) :
    (found.filterMap Found.path?).length = found.length := by
  rw [length_filterMap_eq_countP, countP_eq_length]
  intro x hx
  have hx := all_eq_true.mp h x hx
  cases x <;> first | rfl | exact hx

theorem informs_of_scans {x : Found} (h : x.scans = true) : x.informs = true := by
  rcases x with _ | ⟨_, _ | _⟩ | _ <;> first | rfl | exact h

/-- `/name` and `!/name`, for a name that has no special characters. -/
def rooted (isInclude : Bool) (name : String) : Pattern := ⟨isInclude, false, (· == name)⟩

/-- The directory `a` with the file `b` and the directory `c` with a link in it, and a link. -/
def nested : Tree :=
  .dir "a" true (.leaf "b" (.file true) (.dir "c" true (.leaf "d" (.link false) .nil) .nil))
    (.leaf "e" (.link true) .nil)

end Syncthing.Fs
