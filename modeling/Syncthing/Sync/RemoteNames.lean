import Syncthing.Lib.UnixPath
import Syncthing.Sync.ScanScope

/-! The names of block requests and index entries are joined to the path of the folder as texts.
`serve_block_request_sync` and the puller do it in the two ways below. -/
namespace Syncthing

open UnixPath List
open Text hiding splitChar_intercalate

/-- `sanitize_name`: the segments are pushed one by one. -/
def sanitizeName (name : String) : Except BlockRequestError String := do
  validateRemoteName name
  return (splitChar '/' name).foldl pathJoin ""

/-- The path that `serve_block_request_sync` canonicalizes and opens. -/
def servedPath (folderRoot : String) (req : Request) : Except BlockRequestError String := do
  let relativePath ← sanitizeName req.name
  let finalPath := pathJoin folderRoot relativePath
  if req.fromTemporary then
    match fileName finalPath with
    | none => throw .invalidFileName
    | some file =>
      return pathJoin ((parent finalPath).getD folderRoot) (".syncthing." ++ file ++ ".tmp")
  else return finalPath

/-- `temp_path_for` of the puller. -/
def tempPathText (filePath : String) : String := pathJoin ((parent filePath).getD ".")
    (".syncthing." ++ (fileName filePath).getD "unknown" ++ ".tmp")

/-- Segments joined by single slashes, none of them empty, dot or dot-dot, without backslashes and
NULs. -/
def WellFormedName (name : String) : Prop :=
  ∃ segments, segments ≠ [] ∧ name = "/".intercalate segments ∧
    (∀ segment ∈ segments, IsName segment) ∧
    hasChar '\\' name = false ∧ hasChar '\x00' name = false

variable {name root : String} {req : Request} {names : List String}

theorem pathJoin_eq_join : pathJoin = join := rfl

theorem validSegment_eq_true {segment : String} : validSegment segment = true ↔
    segment ≠ "" ∧ segment ≠ "." ∧ segment ≠ ".." ∧ hasChar '\\' segment = false := by
  simp [validSegment, and_assoc]

/-- The segments of a name have the backslashes of the name. -/
theorem all_validSegment_iff : (splitChar '/' name).all validSegment = true ↔
    (∀ segment ∈ splitChar '/' name, IsName segment) ∧ hasChar '\\' name = false := by
  have hback := exists_mem_splitChar '/' '\\' name
  rw [all_eq_true]
  constructor
  · intro h
    refine ⟨fun segment hs => ?_, Bool.eq_false_iff.mpr fun hb => ?_⟩
    · obtain ⟨h1, h2, h3, -⟩ := validSegment_eq_true.mp (h segment hs)
      exact ⟨h1, h2, h3, not_hasChar_of_mem_splitChar hs⟩
    · obtain ⟨segment, hs, hb⟩ := hback.mpr ⟨hb, by decide⟩
      rw [(validSegment_eq_true.mp (h segment hs)).2.2.2] at hb
      cases hb
  · rintro ⟨hnames, hb⟩ segment hs
    obtain ⟨h1, h2, h3, -⟩ := hnames segment hs
    refine validSegment_eq_true.mpr ⟨h1, h2, h3, Bool.eq_false_iff.mpr fun hseg => ?_⟩
    rw [(hback.mp ⟨segment, hs, hseg⟩).1] at hb
    cases hb

theorem wellFormedName_iff : WellFormedName name ↔
    (∀ segment ∈ splitChar '/' name, IsName segment) ∧
      hasChar '\\' name = false ∧ hasChar '\x00' name = false := by
  constructor
  · rintro ⟨segments, hne, rfl, hnames, hb, h0⟩
    rw [splitChar_intercalate hne fun s hs => (hnames s hs).2.2.2]
    exact ⟨hnames, hb, h0⟩
  · rintro ⟨hnames, hb, h0⟩
    exact ⟨_, splitChar_ne_nil '/' name, (intercalate_splitChar '/' name).symm, hnames, hb, h0⟩

/-- A name whose segments are names is not empty and does not start with a slash. -/
theorem isAbsolute_of_segments (h : ∀ segment ∈ splitChar '/' name, IsName segment) :
    name ≠ "" ∧ isAbsolute name = false := by
  refine ⟨?_, ?_⟩
  · rintro rfl
    exact (h "" (by decide)).1 rfl
  · rw [← intercalate_splitChar '/' name]
    exact isAbsolute_of_names (splitChar_ne_nil _ _) h

theorem hasChar_of_startsWith {c : Char} (h : startsWith name (String.singleton c) = true) :
    hasChar c name = true := by
  obtain ⟨rest, hrest⟩ := isPrefixOf_iff_prefix.mp h
  simp [hasChar, ← hrest]

/-- What `validate_remote_name` accepts. -/
theorem validateRemoteName_ok_iff : validateRemoteName name = .ok () ↔ WellFormedName name := by
  rw [wellFormedName_iff]
  constructor
  · intro h
    unfold validateRemoteName at h
    split at h
    · cases h
    · split at h
      · cases h
      · split at h
        · cases h
        next h0 =>
          split at h
          next hall =>
            obtain ⟨hnames, hb⟩ := all_validSegment_iff.mp hall
            exact ⟨hnames, hb, by simpa using h0⟩
          · cases h
  · rintro ⟨hnames, hb, h0⟩
    obtain ⟨hne, habs⟩ := isAbsolute_of_segments hnames
    have hstart : startsWith name "\\" = false := by
      rw [Bool.eq_false_iff]
      intro hs
      rw [hasChar_of_startsWith (c := '\\') hs] at hb
      cases hb
    have hall := all_validSegment_iff.mpr ⟨hnames, hb⟩
    rw [isAbsolute] at habs
    simp [validateRemoteName, hne, habs, hstart, h0, hall]

/-- The segments of a valid name are those of a path in the model of the disk. -/
theorem isName_of_mem_namePath (h : validateRemoteName name = .ok ()) :
    ∀ segment ∈ namePath name, IsName segment :=
  (wellFormedName_iff.mp (validateRemoteName_ok_iff.mp h)).1

/-- The segments of a valid name, pushed one after the other, make the name. -/
theorem sanitizeName_of_ok (h : validateRemoteName name = .ok ()) :
    sanitizeName name = .ok name := by
  have hfold : (splitChar '/' name).foldl pathJoin "" = name := by
    exact (foldl_join_names (isName_of_mem_namePath h)).trans (intercalate_splitChar '/' name)
  simp [sanitizeName, h, hfold]

theorem isName_temp {last : String} (h : IsName last) :
    IsName (".syncthing." ++ last ++ ".tmp") := by
  have hlen : 2 < (".syncthing." ++ last ++ ".tmp").toList.length := by simp
  refine ⟨?_, ?_, ?_, ?_⟩
  · intro he
    simp [he] at hlen
  · intro he
    simp [he] at hlen
  · intro he
    simp [he] at hlen
  · have hlast := h.2.2.2
    simp [hasChar] at hlast ⊢
    exact hlast

theorem isName_of_mem_tempPathFor (hne : names ≠ [])
    (h : ∀ segment ∈ names, IsName segment) : ∀ segment ∈ tempPathFor names, IsName segment := by
  intro segment hs
  rw [tempPathFor, getLast?_eq_getLast_of_ne_nil hne, mem_append] at hs
  rcases hs with hs | hs
  · exact h segment (mem_of_mem_dropLast hs)
  · rw [mem_singleton.mp hs]
    exact isName_temp (h _ (getLast_mem hne))

theorem components_pathJoin (hroot : isAbsolute root = true)
    (h : validateRemoteName name = .ok ()) :
    components (pathJoin root name) = components root ++ namePath name := by
  have hjoin := components_join_names hroot (namePath_ne_nil name) (isName_of_mem_namePath h)
  rwa [show "/".intercalate (namePath name) = name from intercalate_splitChar '/' name]
    at hjoin

/-- The temporary file of a path below the root. -/
theorem temp_components {path : String} (habs : isAbsolute path = true)
    (hpath : components path = components root ++ names) (hne : names ≠ [])
    (h : ∀ segment ∈ names, IsName segment) :
    ∃ file above, fileName path = some file ∧ parent path = some above ∧
      components (pathJoin above (".syncthing." ++ file ++ ".tmp")) =
        components root ++ tempPathFor names := by
  have hname := h _ (getLast_mem hne)
  have hlast : (components path).getLast? = some (names.getLast hne) := by
    rw [hpath, getLast?_append_of_ne_nil _ hne, getLast?_eq_getLast_of_ne_nil hne]
  have hfile : fileName path = some (names.getLast hne) := by
    simp [fileName, hlast, hname.2.1, hname.2.2.1]
  obtain ⟨above, hparent, habove, hcomponents⟩ := exists_parent habs (by simp [hpath, hne])
  refine ⟨_, above, hfile, hparent, ?_⟩
  rw [pathJoin_eq_join, components_join_name habove (isName_temp hname), hcomponents, hpath,
    dropLast_append_of_ne_nil hne, tempPathFor, getLast?_eq_getLast_of_ne_nil hne,
    Option.getD_some, append_assoc]

section
variable (hroot : isAbsolute root = true)
include hroot

section
variable (h : validateRemoteName name = .ok ())
include h

/-- The temporary file of a valid name. -/
theorem temp_pathJoin : ∃ file above, fileName (pathJoin root name) = some file ∧
      parent (pathJoin root name) = some above ∧
      components (pathJoin above (".syncthing." ++ file ++ ".tmp")) =
        components root ++ tempPathFor (namePath name) :=
  temp_components (isAbsolute_join hroot) (components_pathJoin hroot h) (namePath_ne_nil name)
    (isName_of_mem_namePath h)

/-- Where a valid name and its temporary file are found from the root. -/
theorem normalize_pathJoin : normalize (pathJoin root name) = normalize root ++ namePath name :=
  normalize_of_components (components_pathJoin hroot h) (isName_of_mem_namePath h)

theorem normalize_tempPathText : normalize (tempPathText (pathJoin root name)) =
      normalize root ++ tempPathFor (namePath name) := by
  obtain ⟨file, above, hfile, hparent, hcomponents⟩ := temp_pathJoin hroot h
  rw [tempPathText, hfile, hparent]
  exact normalize_of_components hcomponents
    (isName_of_mem_tempPathFor (namePath_ne_nil name) (isName_of_mem_namePath h))

end

/-- The path a request is served from: that of the file or that of its temporary file. -/
theorem servedPath_of_ok (h : validateRemoteName req.name = .ok ()) :
    servedPath root req = .ok (if req.fromTemporary then tempPathText (pathJoin root req.name)
      else pathJoin root req.name) := by
  obtain ⟨file, above, hfile, hparent, -⟩ := temp_pathJoin hroot h
  rw [servedPath, sanitizeName_of_ok h]
  cases htemp : req.fromTemporary with
  | true =>
    simp only [tempPathText, bind, Except.bind, hfile, hparent, if_true]
    rfl
  | false => rfl

end

/-- Exactly the well-formed names are accepted. What an accepted name, a request for it and a
download of it address is strictly below the root of the folder. -/
theorem validateRemoteName_confines (name : String) :
    (validateRemoteName name = .ok () ↔ WellFormedName name) ∧
    (validateRemoteName name = .ok () → ∀ root, isAbsolute root = true →
      StrictlyBelow root (pathJoin root name) ∧
      StrictlyBelow root (tempPathText (pathJoin root name)) ∧
      ∀ req : Request, req.name = name →
        ∃ path, servedPath root req = .ok path ∧ StrictlyBelow root path) := by
  refine ⟨validateRemoteName_ok_iff, fun h root hroot => ?_⟩
  have hfile : StrictlyBelow root (pathJoin root name) :=
    ⟨_, namePath_ne_nil name, normalize_pathJoin hroot h⟩
  have htemp : StrictlyBelow root (tempPathText (pathJoin root name)) :=
    ⟨_, tempPathFor_ne_nil _, normalize_tempPathText hroot h⟩
  refine ⟨hfile, htemp, ?_⟩
  rintro req rfl
  refine ⟨_, servedPath_of_ok hroot h, ?_⟩
  split
  · exact htemp
  · exact hfile

theorem validateRemoteName_confines_nested :
    validateRemoteName "docs/a" = .ok () ∧ isAbsolute "/srv/../data/" = true ∧
      StrictlyBelow "/srv/../data/" (pathJoin "/srv/../data/" "docs/a") :=
  ⟨by decide, by decide,
    ((validateRemoteName_confines "docs/a").2 (by decide) "/srv/../data/" (by decide)).1⟩

end Syncthing
