import Mathlib.Data.List.Infix

/-! Character-wise string functions that reduce in the kernel. -/
namespace Text

open List String

/-- The parts of `s` between the separators. -/
def splitChar (sep : Char) (s : String) : List String :=
  (s.toList.splitOn sep).map ofList

def replaceChar (old new : Char) (s : String) : String :=
  ofList (s.toList.map fun c => if c = old then new else c)

def hasChar (c : Char) (s : String) : Bool := s.toList.contains c

def startsWith (s start : String) : Bool := start.toList.isPrefixOf s.toList

def endsWith (s tail : String) : Bool := tail.toList.isSuffixOf s.toList

def hasPart (s part : String) : Bool := s.toList.tails.any part.toList.isPrefixOf

variable {s : String} {sep : Char}

theorem splitChar_of_not_hasChar (h : hasChar sep s = false) :
    splitChar sep s = [s] := by
  have hs : s.toList.splitOn sep = [s.toList] := by
    refine splitOnP_eq_singleton fun c hc => ?_
    simp only [beq_eq_false_iff_ne]
    rintro rfl
    simp [hasChar, hc] at h
  simp [splitChar, hs]

theorem startsWith_append (start s : String) : startsWith (start ++ s) start = true := by
  simp [startsWith]

theorem endsWith_append (s tail : String) : endsWith (s ++ tail) tail = true := by simp [endsWith]

/-- A text ends with the last character of its last part. -/
theorem endsWith_append_of_not_hasChar {c : Char} {t : String} (h : hasChar c t = false)
    (hne : t ≠ "") (s : String) : endsWith (s ++ t) (String.singleton c) = false := by
  obtain ⟨front, last, ht⟩ : ∃ front last, t.toList = front ++ [last] :=
    ⟨_, _, (dropLast_append_getLast fun hnil => hne (toList_eq_nil_iff.mp hnil)).symm⟩
  have hlast : c ≠ last := by
    rintro rfl
    simp [hasChar, ht] at h
  rw [endsWith, Bool.eq_false_iff]
  intro hsuffix
  rw [List.isSuffixOf_iff_suffix, String.toList_append, ht, ← List.append_assoc,
    String.toList_singleton] at hsuffix
  obtain ⟨rest, hrest⟩ := hsuffix
  exact hlast (singleton_inj.mp (append_inj' hrest rfl).2)

/-- Where two texts meet, the last part of one and the first part of the other become one. -/
theorem splitOn_append (sep : Char) (xs ys : List Char) : ∃ front l r back,
    xs.splitOn sep = front ++ [l] ∧ ys.splitOn sep = r :: back ∧
      (xs ++ ys).splitOn sep = front ++ (l ++ r) :: back := by
  induction xs with
  | nil =>
    obtain ⟨r, back, h⟩ := exists_cons_of_ne_nil (splitOnP_ne_nil (· == sep) ys)
    exact ⟨[], [], r, back, rfl, h, h⟩
  | cons x xs ih =>
    obtain ⟨front, l, r, back, hx, hy, h⟩ := ih
    simp only [List.splitOn, List.cons_append, List.splitOnP_cons_eq_if_modifyHead] at hx hy h ⊢
    rw [hx, h]
    split
    · exact ⟨[] :: front, l, r, back, by simp, hy, by simp⟩
    · cases front with
      | nil => exact ⟨[], x :: l, r, back, by simp, hy, by simp⟩
      | cons f front => exact ⟨(x :: f) :: front, l, r, back, by simp, hy, by simp⟩

theorem splitChar_append (sep : Char) (s t : String) : ∃ front l r back,
    splitChar sep s = front ++ [l] ∧ splitChar sep t = r :: back ∧
      splitChar sep (s ++ t) = front ++ (l ++ r) :: back := by
  obtain ⟨front, l, r, back, hs, ht, h⟩ := splitOn_append sep s.toList t.toList
  refine ⟨front.map ofList, ofList l, ofList r, back.map ofList, ?_⟩
  simp [splitChar, hs, ht, h]

/-- A text without separators that starts another one starts its first part. -/
theorem splitChar_append_of_not_hasChar (h : hasChar sep s = false)
    (t : String) : ∃ r back, splitChar sep t = r :: back ∧
      splitChar sep (s ++ t) = (s ++ r) :: back := by
  obtain ⟨front, l, r, back, hs, ht, hst⟩ := splitChar_append sep s t
  rw [splitChar_of_not_hasChar h] at hs
  obtain ⟨rfl, rfl⟩ : front = [] ∧ l = s := by
    cases front with
    | nil => simpa using hs.symm
    | cons f front => simp at hs
  exact ⟨r, back, ht, by simpa using hst⟩

/-- A separator between two texts separates their parts. -/
theorem splitChar_append_sep_append (sep : Char) (s t : String) :
    splitChar sep (s ++ (singleton sep ++ t)) = splitChar sep s ++ splitChar sep t := by
  obtain ⟨front, l, r, back, hs, ht, hst⟩ := splitChar_append sep s (String.singleton sep ++ t)
  have hsep : splitChar sep (String.singleton sep ++ t) = "" :: splitChar sep t := by
    simp [splitChar, List.splitOn, List.splitOnP_cons_eq_if_modifyHead]
  rw [hsep] at ht
  obtain ⟨rfl, rfl⟩ := cons.inj ht
  rw [hst, hs]
  simp

/-- A part without separators after a separator. -/
theorem splitChar_append_sep {t : String} (h : hasChar sep t = false) (s : String) :
    splitChar sep (s ++ (singleton sep ++ t)) = splitChar sep s ++ [t] := by
  rw [splitChar_append_sep_append, splitChar_of_not_hasChar h]

theorem splitChar_ne_nil (sep : Char) (s : String) : splitChar sep s ≠ [] := by simp [splitChar]

/-- The parts of a text, joined again. -/
theorem intercalate_splitChar (sep : Char) (s : String) :
    (String.singleton sep).intercalate (splitChar sep s) = s := by
  apply String.toList_injective
  rw [String.toList_intercalate, splitChar, List.map_map]
  simp [Function.comp_def, List.intercalate_splitOn]

theorem splitChar_intercalate {parts : List String} (hne : parts ≠ [])
    (h : ∀ part ∈ parts, hasChar sep part = false) :
    splitChar sep ((String.singleton sep).intercalate parts) = parts := by
  have hsplit : ((String.singleton sep).intercalate parts).toList.splitOn sep =
      parts.map toList := by
    rw [toList_intercalate, toList_singleton]
    refine splitOn_intercalate sep (fun l hl hmem => ?_) (by simpa using hne)
    obtain ⟨part, hpart, rfl⟩ := mem_map.mp hl
    simpa [hasChar, hmem] using h part hpart
  rw [splitChar, hsplit, List.map_map]
  simp [Function.comp_def]

/-- The parts of a list hold what the list holds, apart from the separators. -/
theorem exists_mem_splitOn (sep c : Char) (xs : List Char) :
    (∃ part ∈ xs.splitOn sep, c ∈ part) ↔ c ∈ xs ∧ c ≠ sep := by
  induction xs with
  | nil => simp [List.splitOn]
  | cons x xs ih =>
    obtain ⟨r, back, h⟩ := List.exists_cons_of_ne_nil (List.splitOnP_ne_nil (· == sep) xs)
    rw [List.splitOn, h] at ih
    rw [List.splitOn, List.splitOnP_cons_eq_if_modifyHead, h]
    by_cases hx : x = sep
    · subst hx
      simp at ih ⊢
      grind
    · simp [hx] at ih ⊢
      grind

theorem exists_mem_splitChar (sep c : Char) (s : String) :
    (∃ part ∈ splitChar sep s, hasChar c part = true) ↔ hasChar c s = true ∧ c ≠ sep := by
  simpa [splitChar, hasChar] using exists_mem_splitOn sep c s.toList

theorem not_hasChar_of_mem_splitChar {s part : String}
    (h : part ∈ splitChar sep s) : hasChar sep part = false := by
  rw [Bool.eq_false_iff]
  intro hsep
  exact ((exists_mem_splitChar sep sep s).mp ⟨part, h, hsep⟩).2 rfl

theorem replaceChar_of_not_hasChar {old new : Char} (h : hasChar old s = false) :
    replaceChar old new s = s := by
  have hmap : s.toList.map (fun c => if c = old then new else c) = s.toList.map id := by
    refine map_congr_left fun c hc => if_neg ?_
    rintro rfl
    simp [hasChar, hc] at h
  rw [replaceChar, hmap, List.map_id, String.ofList_toList]

theorem hasPart_append (s part t : String) : hasPart (s ++ part ++ t) part = true := by
  simp only [hasPart, any_eq_true, mem_tails]
  refine ⟨part.toList ++ t.toList, ?_, ?_⟩
  · simp
  · simp

end Text
