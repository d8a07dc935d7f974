import Syncthing.Lib.Text

/-! Paths of Unix as texts: their components, joining, and what they name when no link is
followed. -/
namespace UnixPath

open List String Text

variable (path : String)

def isAbsolute : Bool := Text.startsWith path "/"

/-- A part of a path that is a component wherever it stands. -/
def isComponent (part : String) : Bool := !(part = "" || part = ".")

/-- The components of a path. A dot is one at the start of a relative path only. -/
def components : List String :=
  match splitChar '/' path with
  | "." :: rest => "." :: rest.filter isComponent
  | parts => parts.filter isComponent

/-- A path joined to another one. An absolute path replaces it. -/
def join (base path : String) : String :=
  if isAbsolute path then path
  else if base = "" || Text.endsWith base "/" then base ++ path
  else base ++ "/" ++ path

/-- The last component, if it is a name. -/
def fileName : Option String :=
  (components path).getLast?.filter fun last => !(last = "." || last = "..")

/-- The path without its last component. -/
def parent : Option String :=
  if components path = [] then none
  else some ((if isAbsolute path then "/" else "") ++ "/".intercalate (components path).dropLast)

/-- Enters what a component names. Above the root is the root. -/
def enter (dir : List String) (component : String) : List String :=
  if component = "." then dir else if component = ".." then dir.dropLast else dir ++ [component]

/-- The names that lead from the root to what an absolute path names lexically. -/
def normalize : List String := (components path).foldl enter []

/-- What the path names is strictly below what `root` names. -/
def StrictlyBelow (root path : String) : Prop :=
  ∃ names, names ≠ [] ∧ normalize path = normalize root ++ names

variable {base path root : String} {names : List String}

/-- A component that is the name of a file or a directory. -/
def IsName (component : String) : Prop :=
  component ≠ "" ∧ component ≠ "." ∧ component ≠ ".." ∧ hasChar '/' component = false

theorem IsName.isComponent {component : String} (h : IsName component) :
    isComponent component = true := by
  simp [UnixPath.isComponent, h.1, h.2.1]

theorem foldl_enter (h : ∀ name ∈ names, IsName name) (dir : List String) :
    names.foldl enter dir = dir ++ names := by
  induction names generalizing dir with
  | nil => simp
  | cons name names ih =>
    have hname := h name (by simp)
    rw [foldl_cons, ih fun n hn => h n (mem_cons_of_mem _ hn)]
    simp [enter, hname.2.1, hname.2.2.1]

theorem splitChar_of_isAbsolute (h : isAbsolute path = true) :
    ∃ rest, Text.splitChar '/' path = "" :: rest := by
  unfold isAbsolute Text.startsWith at h
  obtain ⟨rest, hrest⟩ := List.isPrefixOf_iff_prefix.mp h
  have hpath : path = "" ++ (singleton '/' ++ ofList rest) := by
    apply toList_injective
    rw [← hrest]
    simp
  rw [hpath, splitChar_append_sep_append]
  exact ⟨_, rfl⟩

/-- The parts of an absolute path that count are its components. -/
theorem components_of_isAbsolute (h : isAbsolute path = true) :
    components path = (splitChar '/' path).filter isComponent := by
  obtain ⟨rest, hrest⟩ := splitChar_of_isAbsolute h
  simp [components, hrest]

theorem isAbsolute_append (h : isAbsolute base = true) : isAbsolute (base ++ path) = true := by
  unfold isAbsolute Text.startsWith at h ⊢
  rw [List.isPrefixOf_iff_prefix] at h ⊢
  rw [toList_append]
  exact h.trans (prefix_append _ _)

theorem isAbsolute_join (h : isAbsolute base = true) : isAbsolute (join base path) = true := by
  unfold join
  split
  · assumption
  · split
    · exact isAbsolute_append h
    · exact isAbsolute_append (isAbsolute_append h)

/-- A relative path is joined to a base component by component. -/
theorem filter_splitChar_join (hrel : isAbsolute path = false) (hbase : base ≠ "") :
    (splitChar '/' (join base path)).filter isComponent = (splitChar '/' base).filter isComponent ++
        (splitChar '/' path).filter isComponent := by
  rw [join, if_neg (by simp [hrel])]
  split
  next hend =>
    obtain ⟨init, hinit⟩ : ∃ init, base = init ++ (String.singleton '/' ++ "") := by
      simp only [Bool.or_eq_true, decide_eq_true_eq, hbase, false_or, Text.endsWith,
        List.isSuffixOf_iff_suffix] at hend
      obtain ⟨init, hinit⟩ := hend
      refine ⟨ofList init, toList_injective ?_⟩
      rw [← hinit]
      simp
    have hjoin : base ++ path = init ++ (String.singleton '/' ++ path) := by
      rw [hinit]
      simp [String.append_assoc]
    rw [hjoin, hinit, Text.splitChar_append_sep_append, Text.splitChar_append_sep_append]
    simp [Text.splitChar, isComponent]
  · have hjoin : base ++ "/" ++ path = base ++ (String.singleton '/' ++ path) := by
      rw [String.append_assoc]
      rfl
    rw [hjoin, splitChar_append_sep_append, filter_append]

theorem components_join (hbase : isAbsolute base = true) (hrel : isAbsolute path = false) :
    components (join base path) = components base ++ (splitChar '/' path).filter isComponent := by
  have hne : base ≠ "" := by
    rintro rfl
    cases hbase
  rw [components_of_isAbsolute (isAbsolute_join hbase), components_of_isAbsolute hbase,
    filter_splitChar_join hrel hne]

theorem splitChar_intercalate (hne : names ≠ [])
    (h : ∀ name ∈ names, Text.hasChar '/' name = false) :
    Text.splitChar '/' ("/".intercalate names) = names := Text.splitChar_intercalate hne h

/-- The path above an absolute one has the same components but the last. -/
theorem exists_parent (h : isAbsolute path = true) (hne : components path ≠ []) :
    ∃ above, parent path = some above ∧ isAbsolute above = true ∧
      components above = (components path).dropLast := by
  have habs : isAbsolute ("/" ++ "/".intercalate (components path).dropLast) = true := by
    simp [isAbsolute, Text.startsWith]
  refine ⟨_, by rw [parent, if_neg hne, if_pos h], habs, ?_⟩
  have hparts : ∀ c ∈ (components path).dropLast, hasChar '/' c = false ∧ isComponent c = true := by
    intro c hc
    have hmem := mem_of_mem_dropLast hc
    rw [components_of_isAbsolute h] at hmem
    exact ⟨not_hasChar_of_mem_splitChar (mem_filter.mp hmem).1, (mem_filter.mp hmem).2⟩
  rw [components_of_isAbsolute habs]
  by_cases hnil : (components path).dropLast = []
  · rw [hnil]
    decide
  · have hsplit := splitChar_append_sep_append '/' "" ("/".intercalate (components path).dropLast)
    rw [empty_append, splitChar_intercalate hnil fun c hc => (hparts c hc).1] at hsplit
    rw [show "/" ++ "/".intercalate (components path).dropLast =
      String.singleton '/' ++ "/".intercalate (components path).dropLast from rfl, hsplit,
      List.filter_append, List.filter_eq_self.mpr fun c hc => (hparts c hc).2]
    rfl

theorem isAbsolute_of_names (hne : names ≠ []) (h : ∀ name ∈ names, IsName name) :
    isAbsolute ("/".intercalate names) = false := by
  rw [Bool.eq_false_iff]
  intro habs
  obtain ⟨rest, hrest⟩ := splitChar_of_isAbsolute habs
  rw [splitChar_intercalate hne fun name hn => (h name hn).2.2.2] at hrest
  exact (h "" (by simp [hrest])).1 rfl

/-- Names joined to an absolute path follow its components. -/
theorem components_join_names (hbase : isAbsolute base = true) (hne : names ≠ [])
    (h : ∀ name ∈ names, IsName name) :
    components (join base ("/".intercalate names)) = components base ++ names := by
  rw [components_join hbase (isAbsolute_of_names hne h),
    splitChar_intercalate hne fun name hn => (h name hn).2.2.2,
    filter_eq_self.mpr fun name hn => (h name hn).isComponent]

theorem components_join_name (hbase : isAbsolute base = true) (h : IsName path) :
    components (join base path) = components base ++ [path] := by
  simpa using @components_join_names base [path] hbase (by simp) (by simpa using h)

theorem IsName.not_isAbsolute {name : String} (h : IsName name) : isAbsolute name = false := by
  simpa using @isAbsolute_of_names [name] (by simp) (by simpa using h)

theorem intercalate_eq_foldl_join (h : ∀ name ∈ names, IsName name) (hne : base ≠ "")
    (hend : Text.endsWith base "/" = false) :
    "/".intercalate (base :: names) = names.foldl join base := by
  induction names generalizing base with
  | nil => rfl
  | cons name names ih =>
    have hname := h name (by simp)
    have hjoin : join base name = base ++ "/" ++ name := by
      simp [join, hname.not_isAbsolute, hne, hend]
    rw [foldl_cons, hjoin, ← ih fun n hn => h n (mem_cons_of_mem _ hn)]
    · rfl
    · intro hnil
      have := congrArg String.length hnil
      simp at this
    · exact Text.endsWith_append_of_not_hasChar hname.2.2.2 hname.1 _

/-- Names joined one after the other to the empty path. -/
theorem foldl_join_names (h : ∀ name ∈ names, IsName name) :
    names.foldl join "" = "/".intercalate names := by
  cases names with
  | nil => rfl
  | cons name names =>
    have hname := h name (by simp)
    have hjoin : join "" name = name := by simp [join, hname.not_isAbsolute]
    have hend : Text.endsWith name "/" = false := by
      simpa using Text.endsWith_append_of_not_hasChar hname.2.2.2 hname.1 ""
    rw [foldl_cons, hjoin,
      intercalate_eq_foldl_join (fun n hn => h n (mem_cons_of_mem _ hn)) hname.1 hend]

/-- What follows the components of a path as names is below it. -/
theorem normalize_of_components (h : components path = components root ++ names)
    (hnames : ∀ name ∈ names, IsName name) : normalize path = normalize root ++ names := by
  rw [normalize, h, foldl_append, foldl_enter hnames]
  rfl

end UnixPath
