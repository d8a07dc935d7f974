import Mathlib.Data.List.Chain
import Mathlib.Data.List.Sort
import Mathlib.Order.MinMax

/-! Coalescing half-open intervals that are sorted by their left end. -/
namespace Interval

open List

variable {α : Type*} [LinearOrder α] {a b c : α × α} {l : List (α × α)} {x : α}

/-- Absorbs every interval that starts no later than the end of the current one. -/
def coalesceFrom (last : α × α) : List (α × α) → List (α × α)
  | [] => [last]
  | r :: rs =>
    if r.1 ≤ last.2 then coalesceFrom (last.1, max last.2 r.2) rs
    else last :: coalesceFrom r rs

def coalesce : List (α × α) → List (α × α)
  | [] => []
  | r :: rs => coalesceFrom r rs

/-- `l` is ordered by left ends. -/
def SortedFst (l : List (α × α)) : Prop := l.Pairwise fun a b => a.1 ≤ b.1

section
variable (hl : SortedFst (a :: l))
include hl

theorem fst_le_of_mem_coalesceFrom (hc : c ∈ coalesceFrom a l) : a.1 ≤ c.1 := by
  induction l generalizing a with
  | nil => simp_all [coalesceFrom]
  | cons b l ih =>
    simp only [SortedFst, pairwise_cons, mem_cons, forall_eq_or_imp] at hl
    obtain ⟨⟨hab, hal⟩, hbl, hl⟩ := hl
    rw [coalesceFrom] at hc
    split at hc
    · have hs : SortedFst ((a.1, max a.2 b.2) :: l) := pairwise_cons.mpr ⟨hal, hl⟩
      have h := ih hs hc
      exact h
    · rcases mem_cons.mp hc with rfl | hc
      · exact le_rfl
      · exact hab.trans (ih (pairwise_cons.mpr ⟨hbl, hl⟩) hc)

/-- Coalesced intervals neither overlap nor touch. -/
theorem separated_coalesceFrom : (coalesceFrom a l).Pairwise fun b c => b.2 < c.1 := by
  induction l generalizing a with
  | nil => simp [coalesceFrom]
  | cons b l ih =>
    simp only [SortedFst, pairwise_cons, mem_cons, forall_eq_or_imp] at hl
    obtain ⟨⟨hab, hal⟩, hbl, hl⟩ := hl
    rw [coalesceFrom]
    split
    · exact ih (pairwise_cons.mpr ⟨hal, hl⟩)
    next h =>
      have hb := pairwise_cons.mpr ⟨hbl, hl⟩
      refine pairwise_cons.mpr ⟨fun c hc => ?_, ih hb⟩
      exact (not_le.mp h).trans_le (fst_le_of_mem_coalesceFrom hb hc)

/-- Every input interval lies in one of the coalesced ones. -/
theorem exists_coalesceFrom_of_mem (hb : b ∈ a :: l) :
    ∃ c ∈ coalesceFrom a l, c.1 ≤ b.1 ∧ b.2 ≤ c.2 := by
  induction l generalizing a b with
  | nil => simp_all [coalesceFrom]
  | cons r l ih =>
    simp only [SortedFst, pairwise_cons, mem_cons, forall_eq_or_imp] at hl
    obtain ⟨⟨har, hal⟩, hrl, hl⟩ := hl
    rw [coalesceFrom]
    split
    · have hs : SortedFst ((a.1, max a.2 r.2) :: l) := pairwise_cons.mpr ⟨hal, hl⟩
      simp only [mem_cons] at hb
      rcases hb with rfl | rfl | hb
      · obtain ⟨c, hc, h1, h2⟩ := ih hs mem_cons_self
        exact ⟨c, hc, h1, (le_max_left _ _).trans h2⟩
      · obtain ⟨c, hc, h1, h2⟩ := ih hs mem_cons_self
        exact ⟨c, hc, h1.trans har, (le_max_right _ _).trans h2⟩
      · exact ih hs (mem_cons_of_mem _ hb)
    · rcases mem_cons.mp hb with rfl | hb
      · exact ⟨b, mem_cons_self, le_rfl, le_rfl⟩
      · obtain ⟨c, hc, h⟩ := ih (pairwise_cons.mpr ⟨hrl, hl⟩) hb
        exact ⟨c, mem_cons_of_mem _ hc, h⟩

end

/-- `c` is the union of the intervals of a chain, the last one first. -/
structure IsUnion (c : α × α) (chain : List (α × α)) : Prop where
  nonempty : c.1 < c.2
  touching : chain.IsChain fun a b => a.1 ≤ b.2 ∧ b.1 ≤ a.2
  ends : ∃ b ∈ chain.head?, b.1 < b.2 ∧ b.2 = c.2
  union : ∀ x, c.1 ≤ x ∧ x < c.2 ↔ ∃ b ∈ chain, b.1 ≤ x ∧ x < b.2

theorem isUnion_singleton (h : a.1 < a.2) : IsUnion a [a] := ⟨h, by simp, by simp [h], by simp⟩

theorem IsUnion.extend {chain : List (α × α)} (h : IsUnion c chain) (h1 : c.1 ≤ b.1)
    (h2 : b.1 ≤ c.2) (h3 : c.2 < b.2) : IsUnion (c.1, b.2) (b :: chain) := by
  obtain ⟨d, hd, hne, hend⟩ := h.ends
  refine ⟨h.nonempty.trans h3, ?_, ⟨b, rfl, h2.trans_lt h3, rfl⟩, fun x => ?_⟩
  · refine h.touching.cons fun d' hd' => ?_
    cases hd.symm.trans hd'
    rw [← hend] at h2 h3
    exact ⟨h2, (hne.trans h3).le⟩
  · rw [exists_mem_cons_iff, ← h.union]
    constructor
    · rintro ⟨hx1, hx2⟩
      exact (lt_or_ge x c.2).symm.imp (fun hx => ⟨h2.trans hx, hx2⟩) fun hx => ⟨hx1, hx⟩
    · rintro (⟨hx1, hx2⟩ | ⟨hx1, hx2⟩)
      · exact ⟨h1.trans hx1, hx2⟩
      · exact ⟨hx1, hx2.trans h3⟩

/-- A coalesced interval is the union of a chain of input intervals: those that enlarge it. -/
theorem exists_isUnion_of_coalesceFrom {chain : List (α × α)} (hl : SortedFst (a :: l))
    (hne : ∀ b ∈ l, b.1 < b.2) (ha : IsUnion a chain) (hc : c ∈ coalesceFrom a l) :
    ∃ chain', IsUnion c chain' ∧ ∀ b ∈ chain', b ∈ chain ∨ b ∈ l := by
  induction l generalizing a chain with
  | nil =>
    rw [mem_singleton.mp hc]
    exact ⟨chain, ha, fun _ => .inl⟩
  | cons r l ih =>
    simp only [SortedFst, pairwise_cons, mem_cons, forall_eq_or_imp] at hl hne
    obtain ⟨⟨har, hal⟩, hrl, hl⟩ := hl
    rw [coalesceFrom] at hc
    split at hc
    next hle =>
      have hs : SortedFst ((a.1, max a.2 r.2) :: l) := pairwise_cons.mpr ⟨hal, hl⟩
      rcases le_or_gt r.2 a.2 with hmax | hmax
      · rw [max_eq_left hmax] at hs hc
        obtain ⟨chain', h, hsub⟩ := ih hs hne.2 ha hc
        exact ⟨chain', h, fun b hb => (hsub b hb).imp_right (mem_cons_of_mem _)⟩
      · rw [max_eq_right hmax.le] at hs hc
        obtain ⟨chain', h, hsub⟩ := ih hs hne.2 (ha.extend har hle hmax) hc
        refine ⟨chain', h, fun b hb => ?_⟩
        rcases hsub b hb with hb | hb
        · exact (mem_cons.mp hb).symm.imp_right fun heq => mem_cons.mpr (.inl heq)
        · exact .inr (mem_cons_of_mem _ hb)
    · rcases mem_cons.mp hc with rfl | hc
      · exact ⟨chain, ha, fun _ => .inl⟩
      · obtain ⟨chain', h, hsub⟩ := ih (pairwise_cons.mpr ⟨hrl, hl⟩) hne.2
          (isUnion_singleton hne.1) hc
        refine ⟨chain', h, fun b hb => .inr ?_⟩
        exact mem_cons.mpr ((hsub b hb).imp_left mem_singleton.mp)

theorem separated_coalesce (hl : SortedFst l) : (coalesce l).Pairwise fun b c => b.2 < c.1 := by
  cases l with
  | nil => simp [coalesce]
  | cons a l => exact separated_coalesceFrom hl

theorem exists_coalesce_of_mem (hl : SortedFst l) (hb : b ∈ l) :
    ∃ c ∈ coalesce l, c.1 ≤ b.1 ∧ b.2 ≤ c.2 := by
  cases l with
  | nil => simp at hb
  | cons a l => exact exists_coalesceFrom_of_mem hl hb

theorem exists_isUnion_of_coalesce (hl : SortedFst l) (hne : ∀ b ∈ l, b.1 < b.2)
    (hc : c ∈ coalesce l) : ∃ chain, IsUnion c chain ∧ ∀ b ∈ chain, b ∈ l := by
  cases l with
  | nil => simp [coalesce] at hc
  | cons a l =>
    obtain ⟨chain, h, hsub⟩ := exists_isUnion_of_coalesceFrom hl
      (fun b hb => hne b (mem_cons_of_mem _ hb)) (isUnion_singleton (hne a mem_cons_self)) hc
    exact ⟨chain, h, fun b hb => mem_cons.mpr ((hsub b hb).imp_left mem_singleton.mp)⟩

end Interval
