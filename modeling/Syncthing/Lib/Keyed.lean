import Mathlib.Data.List.Nodup

/-! A list with at most one entry per key, read by linear search and written in place: the
vector-backed map that small in-memory stores use. -/

structure KeyedList {α κ : Type*} (key : α → κ) where
  entries : List α
  nodup : (entries.map key).Nodup

namespace KeyedList

open List

variable {α κ : Type*} {key : α → κ}

theorem ext_entries {l m : KeyedList key} (h : l.entries = m.entries) : l = m := by
  cases l
  cases m
  cases h
  rfl

/-- Two entries with one key are the same entry. -/
theorem eq_of_key_eq (l : KeyedList key) {a b : α} (ha : a ∈ l.entries) (hb : b ∈ l.entries)
    (h : key a = key b) : a = b :=
  inj_on_of_nodup_map l.nodup ha hb h

def empty : KeyedList key := ⟨[], nodup_nil⟩

section
variable [DecidableEq κ] {l : KeyedList key} {a b : α} {k : κ} {as : List α}

instance [DecidableEq α] : DecidableEq (KeyedList key) := fun l m =>
  decidable_of_iff (l.entries = m.entries) ⟨ext_entries, fun h => h ▸ rfl⟩

def find? (l : KeyedList key) (k : κ) : Option α := l.entries.find? fun a => key a = k

/-- Overwrite the entry with the key of `a`, or append `a`. -/
def upsertList (key : α → κ) : List α → α → List α
  | [], a => [a]
  | b :: l, a => if key b = key a then a :: l else b :: upsertList key l a

theorem find?_eq_some_iff : l.find? k = some a ↔ a ∈ l.entries ∧ key a = k := by
  constructor
  · intro h
    exact ⟨mem_of_find?_eq_some h, by simpa using find?_some h⟩
  · rintro ⟨ha, rfl⟩
    cases h : l.find? (key a) with
    | none =>
      have := find?_eq_none.mp h a ha
      simp at this
    | some b =>
      have hb := mem_of_find?_eq_some h
      have hk : key b = key a := by simpa using find?_some h
      rw [l.eq_of_key_eq hb ha hk]

theorem find?_eq_none_iff : l.find? k = none ↔ ∀ a ∈ l.entries, key a ≠ k := by
  simp [find?, find?_eq_none]

theorem key_of_find? (h : l.find? k = some a) : key a = k := (find?_eq_some_iff.mp h).2

theorem find?_key (h : a ∈ l.entries) : l.find? (key a) = some a := find?_eq_some_iff.mpr ⟨h, rfl⟩

theorem keys_upsertList (l : List α) (a : α) : (upsertList key l a).map key =
      if key a ∈ l.map key then l.map key else l.map key ++ [key a] := by
  induction l with
  | nil => simp [upsertList]
  | cons b l ih =>
    by_cases h : key b = key a
    · simp [upsertList, h]
    · have hm : key a ∈ (b :: l).map key ↔ key a ∈ l.map key := by
        rw [map_cons, mem_cons, or_iff_right (Ne.symm h)]
      rw [upsertList, if_neg h, map_cons, ih]
      by_cases hl : key a ∈ l.map key
      · rw [if_pos hl, if_pos (hm.mpr hl), map_cons]
      · rw [if_neg hl, if_neg (mt hm.mp hl), map_cons, cons_append]

/-- Writing commutes with dropping entries of other keys. -/
theorem filter_upsertList {p : α → Bool} {l : List α} (ha : p a = true)
    (hl : ∀ b ∈ l, key b = key a → p b = true) :
    (upsertList key l a).filter p = upsertList key (l.filter p) a := by
  induction l with
  | nil => simp [upsertList, ha]
  | cons b l ih =>
    have ih := ih fun c hc => hl c (mem_cons_of_mem _ hc)
    by_cases hk : key b = key a
    · have hb := hl b mem_cons_self hk
      simp [upsertList, hk, ha, hb]
    · by_cases hb : p b = true <;> simp [upsertList, hk, hb, ih]

def upsert (l : KeyedList key) (a : α) : KeyedList key where
  entries := upsertList key l.entries a
  nodup := by
    rw [keys_upsertList]
    split
    · exact l.nodup
    next h =>
      exact nodup_append.mpr ⟨l.nodup, nodup_singleton _, by
        intro x hx y hy he
        rw [mem_singleton] at hy
        exact h (hy ▸ he ▸ hx)⟩

theorem find?_upsertList (l : List α) : (upsertList key l a).find? (fun b => key b = k) =
      if key a = k then some a else l.find? fun b => key b = k := by
  induction l with
  | nil => simp [upsertList, find?_cons]; split <;> simp_all
  | cons b l ih =>
    by_cases h : key b = key a
    · by_cases hk : key a = k <;> simp [upsertList, h, hk]
    · by_cases hk : key a = k
      · have hb : key b ≠ k := hk ▸ h
        simp [upsertList, hb, ih, hk]
      · simp [upsertList, find?_cons, h, ih, hk]

@[simp] theorem find?_upsert : (l.upsert a).find? k = if key a = k then some a else l.find? k :=
  find?_upsertList l.entries

theorem mem_upsert : b ∈ (l.upsert a).entries ↔ b = a ∨ (b ∈ l.entries ∧ key b ≠ key a) := by
  have h : b ∈ (l.upsert a).entries ↔ (l.upsert a).find? (key b) = some b :=
    ⟨find?_key, fun h => (find?_eq_some_iff.mp h).1⟩
  rw [h, find?_upsert]
  by_cases hk : key a = key b
  · simp [hk, eq_comm]
  · rw [if_neg hk, find?_eq_some_iff]
    constructor
    · exact fun h => .inr ⟨h.1, fun he => hk he.symm⟩
    · rintro (rfl | ⟨hb, _⟩)
      · exact absurd rfl hk
      · exact ⟨hb, rfl⟩

/-- An entry that is there already is left as it is. -/
theorem upsertList_self {l : List α} (hl : (l.map key).Nodup) (h : a ∈ l) :
    upsertList key l a = l := by
  induction l with
  | nil => cases h
  | cons b l ih =>
    rw [map_cons, nodup_cons] at hl
    rcases mem_cons.mp h with rfl | h
    · rw [upsertList, if_pos rfl]
    · have hne : key b ≠ key a := fun he => hl.1 (he ▸ mem_map_of_mem h)
      rw [upsertList, if_neg hne, ih hl.2 h]

theorem upsert_self (h : a ∈ l.entries) : l.upsert a = l := ext_entries (upsertList_self l.nodup h)

/-- Upsert every entry of a list, from left to right. -/
def upsertAll (l : KeyedList key) (as : List α) : KeyedList key := as.foldl upsert l

@[simp] theorem upsertAll_nil : l.upsertAll [] = l := rfl

@[simp] theorem upsertAll_cons : l.upsertAll (a :: as) = (l.upsert a).upsertAll as := rfl

/-- After a batch, a key holds the last entry of the batch with it, else what it held before. -/
theorem find?_upsertAll (l : KeyedList key) (as : List α) (k : κ) : (l.upsertAll as).find? k =
      ((as.reverse.find? fun a => key a = k) <|> l.find? k) := by
  induction as generalizing l with
  | nil => simp
  | cons a as ih =>
    rw [upsertAll_cons, ih, reverse_cons, find?_append, find?_upsert]
    cases as.reverse.find? fun a => key a = k with
    | some b => rfl
    | none => by_cases hk : key a = k <;> simp [hk]

/-- A batch leaves the keys it has no entry for. -/
theorem find?_upsertAll_of_notMem (h : ∀ a ∈ as, key a ≠ k) :
    (l.upsertAll as).find? k = l.find? k := by
  have hnone : (as.reverse.find? fun a => key a = k) = none :=
    find?_eq_none.mpr fun a ha => by simpa using h a (by simpa using ha)
  rw [find?_upsertAll, hnone]
  rfl

/-- A batch with one entry for a key stores that entry. -/
theorem find?_upsertAll_of_mem (hnodup : (as.map key).Nodup) (ha : a ∈ as) :
    (l.upsertAll as).find? (key a) = some a := by
  rw [find?_upsertAll]
  cases h : as.reverse.find? fun b => key b = key a with
  | none =>
    have hne := find?_eq_none.mp h a (mem_reverse.mpr ha)
    simp at hne
  | some b =>
    have hb := mem_reverse.mp (mem_of_find?_eq_some h)
    have hkey : key b = key a := by simpa using find?_some h
    rw [inj_on_of_nodup_map hnodup hb ha hkey]
    rfl

/-- The entries that meet `p` have a key once or not at all. -/
theorem count_filter_keys (l : KeyedList key) (p : α → Bool) (k : κ) :
    ((l.entries.filter p).map key).count k = if (l.find? k).any p then 1 else 0 := by
  have hnodup : ((l.entries.filter p).map key).Nodup := l.nodup.sublist (filter_sublist.map key)
  have hmem : k ∈ (l.entries.filter p).map key ↔ (l.find? k).any p = true := by
    rw [mem_map, Option.any_eq_true]
    constructor
    · rintro ⟨a, ha, rfl⟩
      obtain ⟨hentry, hp⟩ := mem_filter.mp ha
      exact ⟨a, find?_key hentry, hp⟩
    · rintro ⟨a, hfind, hp⟩
      obtain ⟨hentry, hkey⟩ := find?_eq_some_iff.mp hfind
      exact ⟨a, mem_filter.mpr ⟨hentry, hp⟩, hkey⟩
  rw [hnodup.count]
  simp only [hmem]

def erase (l : KeyedList key) (k : κ) : KeyedList key where
  entries := l.entries.filter fun a => key a ≠ k
  nodup := l.nodup.sublist (filter_sublist.map key)

@[simp] theorem find?_erase {k' : κ} :
    (l.erase k).find? k' = if k = k' then none else l.find? k' := by
  by_cases hk : k = k'
  · rw [if_pos hk, find?_eq_none_iff]
    intro a ha
    have := (mem_filter.mp ha).2
    simpa [hk] using this
  · rw [if_neg hk]
    cases h : l.find? k' with
    | none =>
      rw [find?_eq_none_iff] at h ⊢
      exact fun a ha => h a (mem_filter.mp ha).1
    | some a =>
      obtain ⟨ha, rfl⟩ := find?_eq_some_iff.mp h
      exact find?_eq_some_iff.mpr ⟨mem_filter.mpr ⟨ha, by simpa using Ne.symm hk⟩, rfl⟩

end
end KeyedList
