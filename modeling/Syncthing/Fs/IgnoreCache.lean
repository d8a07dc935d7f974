import Syncthing.Lib.Transition
import Syncthing.Lib.UnixPath
import Syncthing.Fs.PrunedScans

/-! The cache of `IgnorePatterns`. Its keys are paths, which are equal if their components are. -/
namespace Syncthing.Fs

open Transition Function

/-- What equal paths share. -/
def pathKey (path : String) : Bool × List String :=
  (UnixPath.isAbsolute path, UnixPath.components path)

structure IgnorePatterns where
  patterns : List Pattern
  cache : Bool × List String → Option Bool

/-- The calls. Of `add_pattern` there is what it parsed. -/
inductive IgnoreCall where
  | addPattern (pattern : Option Pattern)
  | isIgnoredCached (path : String)
  | isIgnored (path : String)
  | clearCache

namespace IgnorePatterns

variable {s : IgnorePatterns} {c : IgnoreCall} {Asked : String → Prop} {path : String}

def new : IgnorePatterns := ⟨[], fun _ => none⟩

def isIgnored (s : IgnorePatterns) (path : String) : Bool :=
  Fs.isIgnored s.patterns (Text.replaceChar '\\' '/' path)

def isIgnoredCached (s : IgnorePatterns) (path : String) : Bool × IgnorePatterns :=
  match s.cache (pathKey path) with
  | some result => (result, s)
  | none =>
    let result := s.isIgnored path
    (result, { s with cache := update s.cache (pathKey path) (some result) })

def call (s : IgnorePatterns) : IgnoreCall → IgnorePatterns
  | .addPattern pattern => { s with patterns := s.patterns ++ pattern.toList }
  | .isIgnoredCached path => (s.isIgnoredCached path).2
  | .isIgnored _ => s
  | .clearCache => { s with cache := fun _ => none }

/-- A pattern that parses is added while nothing is cached, and the cache is asked for certain paths. -/
def Guard (Asked : String → Prop) (s : IgnorePatterns) : IgnoreCall → Prop
  | .addPattern (some _) => ∀ key, s.cache key = none
  | .isIgnoredCached path => Asked path
  | .addPattern none | .isIgnored _ | .clearCache => True

/-- What is cached is the answer for one of these paths. -/
def Current (Asked : String → Prop) (s : IgnorePatterns) : Prop := ∀ key result,
  s.cache key = some result → ∃ path, Asked path ∧ pathKey path = key ∧ s.isIgnored path = result

theorem current_call (hok : s.Guard Asked c) (h : s.Current Asked) : (s.call c).Current Asked := by
  intro key result hcached
  cases c with
  | addPattern pattern =>
    cases pattern with
    | none => simpa [call, IgnorePatterns.isIgnored] using h key result hcached
    | some pattern => cases (hok key).symm.trans hcached
  | isIgnored path => exact h key result hcached
  | clearCache => cases hcached
  | isIgnoredCached path =>
    simp only [call, isIgnoredCached] at hcached ⊢
    split at hcached <;> grind [Current, IgnorePatterns.isIgnored, Guard]

/-- If the cache is cleared before patterns are added, and is asked for no two spellings of a path,
its answers are those of the patterns. -/
theorem ignore_cache_transparent
    (hspelled : ∀ p q, Asked p → Asked q → pathKey p = pathKey q → p = q)
    (h : Reach (fun s c t => s.call c = t) (Guard Asked) new s) (hpath : Asked path) :
    (s.isIgnoredCached path).1 = s.isIgnored path := by
  have hcurrent := h.invariant (I := Current Asked) (by simp [Current, new])
    fun hok hcall h => hcall ▸ current_call hok h
  unfold isIgnoredCached
  split
  next result hcached =>
    obtain ⟨other, hother, hkey, hresult⟩ := hcurrent _ _ hcached
    rw [← hspelled other path hother hpath hkey, hresult]
  · rfl

def patternA : Pattern := ⟨false, false, (· = "a")⟩

theorem ignore_cache_transparent_cleared : ∃ s : IgnorePatterns,
    s.isIgnored "a" = true ∧ (s.isIgnoredCached "a").1 = s.isIgnored "a" := by
  have h := (.refl : Reach (fun s c t => call s c = t) (Guard (· = "a")) new new).next
    (a := IgnoreCall.isIgnoredCached "a") rfl rfl |>.next (a := IgnoreCall.clearCache) rfl trivial
    |>.next (a := IgnoreCall.addPattern (some patternA)) rfl fun _ => rfl
  exact ⟨_, by decide, ignore_cache_transparent (by simp +contextual) h rfl⟩

/-- A pattern added after an answer was cached is not seen, nor is another spelling of a path. -/
theorem ignore_cache_stale :
    let added := List.foldl call new [.isIgnoredCached "a", .addPattern (some patternA)]
    let spelled := List.foldl call new [.addPattern (some patternA), .isIgnoredCached "a/"]
    added.isIgnored "a" = true ∧ (added.isIgnoredCached "a").1 = false ∧
      spelled.isIgnored "a" = true ∧ (spelled.isIgnoredCached "a").1 = false := by
  decide

end IgnorePatterns
end Syncthing.Fs
