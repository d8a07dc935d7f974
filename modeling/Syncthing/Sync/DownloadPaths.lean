import Syncthing.Sync.PullerContent
import Syncthing.Sync.RemoteNames
import Syncthing.Sync.VersionIsolation

/-! The files that a download writes, renames and removes are its target, its temporary file and the
archived versions of its target. -/
namespace Syncthing

open UnixPath List
open Text hiding splitChar_intercalate

/-- A call of a download that changes files. -/
inductive DownloadCall where
  | write (path : List String)
  | rename (source target : List String)
  | remove (path : List String)
  | setMtime (path : List String)

def DownloadCall.paths : DownloadCall → List (List String)
  | write path | remove path | setMtime path => [path]
  | rename source target => [source, target]

/-- The files of a download. -/
def downloadFiles (name : String) : List (List String) :=
  [tempPathFor (namePath name), namePath name]

/-- The calls of `download_file`, `rename_with_retry` and, with a versioner, of `archive` and
`prune`, in whatever order and however often. -/
inductive DownloadCalls (clock : Clock) (versioner : Option Versioner) (name : String) :
    DownloadCall → Prop where
  | write : DownloadCalls clock versioner name (.write (tempPathFor (namePath name)))
  | cleanup : DownloadCalls clock versioner name (.remove (tempPathFor (namePath name)))
  | rename : DownloadCalls clock versioner name
    (.rename (tempPathFor (namePath name)) (namePath name))
  | remove : DownloadCalls clock versioner name (.remove (namePath name))
  | setMtime : DownloadCalls clock versioner name (.setMtime (namePath name))
  | archive {secs : Int} (hversioner : versioner.isSome = true) : DownloadCalls clock versioner name
    (.write (versionPath (namePath name) (clock.formatStamp secs)))
  | prune {secs : Int} {keep : Nat} (hversioner : versioner = some (.simple keep)) :
    DownloadCalls clock versioner name
      (.remove (versionPath (namePath name) (clock.formatStamp secs)))

variable (clock : Clock) (versioner : Option Versioner)

/-- The temporary file of the first is none of the second's, and no call of the first is for a file
of the second. -/
def KeepsOff (a b : String) : Prop := tempPathFor (namePath a) ∉ downloadFiles b ∧
    ∀ call, DownloadCalls clock versioner a call → ∀ path ∈ call.paths, path ∉ downloadFiles b

/-- A name that neither ends like a temporary file nor is that of an archived version. -/
structure PlainName (name : String) : Prop where
  file : ∀ x, IsName x → (namePath name).getLast? ≠ some (".syncthing." ++ x ++ ".tmp")
  version : versioner.isSome = true → ∀ x secs, IsName x →
    namePath name ≠ [".stversions", x ++ "~" ++ clock.formatStamp secs]

variable {clock : Clock} {versioner : Option Versioner} {a b name : String} {path : List String}

theorem namePath_injective : Function.Injective namePath := by
  intro a b h
  rw [← intercalate_splitChar '/' a, ← intercalate_splitChar '/' b]
  exact congrArg _ h

theorem tempPathFor_injective {p q : List String} (hp : p ≠ []) (hq : q ≠ [])
    (h : tempPathFor p = tempPathFor q) : p = q := by
  obtain ⟨hparent, hfile⟩ := append_inj' h rfl
  rw [cons.injEq, String.append_left_inj, String.append_right_inj] at hfile
  rw [getLast?_eq_getLast_of_ne_nil hp, getLast?_eq_getLast_of_ne_nil hq] at hfile
  have hlast : p.getLast hp = q.getLast hq := hfile.1
  rw [← dropLast_append_getLast hp, ← dropLast_append_getLast hq, hparent, hlast]

theorem versionPath_eq {stamp : String} (hp : path ≠ []) :
    versionPath path stamp = [".stversions", path.getLast hp ++ "~" ++ stamp] := by
  simp [versionPath, stversionsDir, fileNameOrUnknown, getLast?_eq_getLast_of_ne_nil hp]

/-- A call of a download is for its files or for versions of its target. -/
theorem DownloadCalls.path_cases {call : DownloadCall} (h : DownloadCalls clock versioner name call)
    (hpath : path ∈ call.paths) : path ∈ downloadFiles name ∨ versioner.isSome = true ∧
      ∃ secs, path = versionPath (namePath name) (clock.formatStamp secs) := by
  cases h with
  | archive hversioner => exact .inr ⟨hversioner, _, mem_singleton.mp hpath⟩
  | prune hversioner => exact .inr ⟨by rw [hversioner]; rfl, _, mem_singleton.mp hpath⟩
  | rename => exact .inl hpath
  | write | cleanup | remove | setMtime =>
    rw [mem_singleton.mp hpath]
    exact .inl (by simp [downloadFiles])

theorem keepsOff_of_plainName (ha : validateRemoteName a = .ok ()) (hne : a ≠ b)
    (hplain : PlainName clock versioner a) (hplain' : PlainName clock versioner b)
    (hb : validateRemoteName b = .ok ()) : KeepsOff clock versioner a b := by
  have hpa := namePath_ne_nil a
  have hpb := namePath_ne_nil b
  have hname : namePath a ≠ namePath b := fun h => hne (namePath_injective h)
  -- the temporary file of a name ends in the name of one
  have hlast : ∀ {x y}, validateRemoteName x = .ok () → PlainName clock versioner y →
      tempPathFor (namePath x) ≠ namePath y := by
    intro x y hx hy heq
    have hx' := namePath_ne_nil x
    refine hy.file _ (isName_of_mem_namePath hx _ (getLast_mem hx')) ?_
    rw [← heq, tempPathFor, getLast?_concat, getLast?_eq_getLast_of_ne_nil hx']
    rfl
  have hfiles : ∀ path ∈ downloadFiles a, path ∉ downloadFiles b := by
    simp only [downloadFiles, mem_cons, not_mem_nil, or_false, not_or]
    rintro path (rfl | rfl)
    · exact ⟨fun h => hname (tempPathFor_injective hpa hpb h), hlast ha hplain'⟩
    · exact ⟨(hlast hb hplain).symm, hname⟩
  refine ⟨hfiles _ (by simp [downloadFiles]), fun call hcall path hpath => ?_⟩
  rcases hcall.path_cases hpath with hfile | ⟨hversioner, secs, rfl⟩
  · exact hfiles path hfile
  · simp only [downloadFiles, mem_cons, not_mem_nil, or_false, not_or]
    refine ⟨versionPath_ne_tempPathFor _ _ _ _, fun h => ?_⟩
    rw [versionPath_eq hpa] at h
    exact hplain'.version hversioner _ secs (isName_of_mem_namePath ha _ (getLast_mem hpa)) h.symm

/-- A path of accepted segments is that of an accepted name. -/
theorem exists_name_of_segments {segments : List String} (hne : segments ≠ [])
    (h : ∀ segment ∈ segments, IsName segment ∧ hasChar '\\' segment = false ∧
      hasChar '\x00' segment = false) :
    ∃ name, validateRemoteName name = .ok () ∧ namePath name = segments := by
  have hsplit : splitChar '/' ("/".intercalate segments) = segments :=
    splitChar_intercalate hne fun s hs => (h s hs).1.2.2.2
  have hchar : ∀ c, (∀ segment ∈ segments, hasChar c segment = false) → c ≠ '/' →
      hasChar c ("/".intercalate segments) = false := by
    intro c hc hslash
    rw [Bool.eq_false_iff]
    intro hin
    obtain ⟨segment, hs, hin⟩ := (exists_mem_splitChar '/' c _).mpr ⟨hin, hslash⟩
    rw [hsplit] at hs
    rw [hc segment hs] at hin
    cases hin
  refine ⟨"/".intercalate segments, validateRemoteName_ok_iff.mpr ⟨segments, hne, rfl,
    fun s hs => (h s hs).1, hchar _ (fun s hs => (h s hs).2.1) (by decide),
    hchar _ (fun s hs => (h s hs).2.2) (by decide)⟩, hsplit⟩

/-- The segments of an accepted name, and what is within them, have no forbidden characters. -/
theorem not_hasChar_of_mem_namePath (h : validateRemoteName name = .ok ()) {segment : String}
    (hs : segment ∈ namePath name) :
    hasChar '\\' segment = false ∧ hasChar '\x00' segment = false := by
  obtain ⟨-, hback, hnul⟩ := wellFormedName_iff.mp (validateRemoteName_ok_iff.mp h)
  constructor
  · rw [Bool.eq_false_iff]
    intro hin
    rw [((exists_mem_splitChar '/' '\\' name).mp ⟨segment, hs, hin⟩).1] at hback
    cases hback
  · rw [Bool.eq_false_iff]
    intro hin
    rw [((exists_mem_splitChar '/' '\x00' name).mp ⟨segment, hs, hin⟩).1] at hnul
    cases hnul

/-- A name that is not plain is in the way of another download. -/
theorem exists_not_keepsOff (hb : validateRemoteName b = .ok ())
    (hplain : ¬ PlainName clock versioner b) :
    ∃ a, validateRemoteName a = .ok () ∧ a ≠ b ∧ ¬ KeepsOff clock versioner a b := by
  by_cases hfile : ∀ x, IsName x → (namePath b).getLast? ≠ some (".syncthing." ++ x ++ ".tmp")
  · by_cases hversion : versioner.isSome = true → ∀ x secs, IsName x →
        namePath b ≠ [".stversions", x ++ "~" ++ clock.formatStamp secs]
    · exact absurd ⟨hfile, hversion⟩ hplain
    · push Not at hversion
      obtain ⟨hversioner, x, secs, hx, heq⟩ := hversion
      have hchars := @not_hasChar_of_mem_namePath b hb (x ++ "~" ++ clock.formatStamp secs)
        (by simp [heq])
      obtain ⟨a, ha, hpath⟩ := @exists_name_of_segments [x] (by simp) (by
        simp only [hasChar, String.toList_append] at hchars
        simp_all [hasChar])
      refine ⟨a, ha, ?_, fun h => ?_⟩
      · rintro rfl
        simp [hpath] at heq
      · refine h.2 _ (@DownloadCalls.archive _ _ _ secs hversioner) _ (mem_singleton_self _) ?_
        rw [versionPath_eq (namePath_ne_nil a)]
        simp [downloadFiles, hpath, heq]
  · push Not at hfile
    obtain ⟨x, hx, hlast⟩ := hfile
    have hpb := namePath_ne_nil b
    rw [getLast?_eq_getLast_of_ne_nil hpb, Option.some.injEq] at hlast
    have hchars := @not_hasChar_of_mem_namePath b hb (".syncthing." ++ x ++ ".tmp")
      (hlast ▸ getLast_mem hpb)
    obtain ⟨a, ha, hpath⟩ := @exists_name_of_segments ((namePath b).dropLast ++ [x]) (by simp) (by
      intro s hs
      rcases mem_append.mp hs with hs | hs
      · have hin := mem_of_mem_dropLast hs
        exact ⟨isName_of_mem_namePath hb s hin, not_hasChar_of_mem_namePath hb hin⟩
      · rw [mem_singleton.mp hs]
        simp only [hasChar, String.toList_append] at hchars
        refine ⟨hx, ?_⟩
        simp_all [hasChar])
    have htemp : tempPathFor (namePath a) = namePath b := by
      rw [tempPathFor, hpath, dropLast_concat, getLast?_concat, Option.getD_some, ← hlast,
        dropLast_append_getLast]
    refine ⟨a, ha, ?_, fun h => h.1 (by simp [downloadFiles, htemp])⟩
    rintro rfl
    exact tempPathFor_ne (namePath_ne_nil a) htemp

end Syncthing
