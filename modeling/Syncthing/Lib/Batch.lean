import Mathlib.Data.List.Basic

/-! Splitting a list greedily into batches that fit, each with the mark it starts from. -/
namespace Batch

variable {α β : Type*}

/-- The batches that are full, the one being filled and the mark it starts from. -/
structure Filling (α β : Type*) where
  full : List (β × List α)
  current : List α
  mark : β

namespace Filling

def push (fits : β → List α → Bool) (last : β → List α → β) (s : Filling α β) (a : α) :
    Filling α β :=
  if fits s.mark (s.current ++ [a]) then { s with current := s.current ++ [a] }
  else if s.current.isEmpty then { s with current := [a] }
  else ⟨s.full ++ [(s.mark, s.current)], [a], last s.mark s.current⟩

variable (s : Filling α β)

def batches : List (β × List α) :=
  if s.current.isEmpty then s.full else s.full ++ [(s.mark, s.current)]

/-- The elements that have been taken in. -/
def elements : List α := s.full.flatMap (·.2) ++ s.current

end Filling

def split (fits : β → List α → Bool) (last : β → List α → β) (mark : β) (as : List α) :
    List (β × List α) :=
  (as.foldl (Filling.push fits last) ⟨[], [], mark⟩).batches

variable {fits : β → List α → Bool} {last : β → List α → β} {s : Filling α β} {mark : β}
  {as : List α} {a : α} {bs : List (β × List α)}

theorem Filling.elements_push : (s.push fits last a).elements = s.elements ++ [a] := by
  unfold push
  split
  · simp [elements]
  · split
    next h => simp [elements, List.isEmpty_iff.mp h]
    · simp [elements]

theorem Filling.elements_foldl : (as.foldl (push fits last) s).elements = s.elements ++ as := by
  induction as generalizing s with
  | nil => simp
  | cons a as ih => rw [List.foldl_cons, ih, elements_push, List.append_assoc]; rfl

theorem Filling.flatMap_batches : s.batches.flatMap (·.2) = s.elements := by
  unfold batches
  split
  next h => simp [elements, List.isEmpty_iff.mp h]
  · simp [elements]

/-- The batches hold every element, once and in order. -/
theorem flatMap_split : (split fits last mark as).flatMap (·.2) = as := by
  rw [split, Filling.flatMap_batches, Filling.elements_foldl]
  rfl

/-- Each batch starts from the mark that the one before leads to. -/
def Chained (last : β → List α → β) : β → List (β × List α) → β → Prop
  | mark, [], final => mark = final
  | mark, b :: bs, final => b.1 = mark ∧ Chained last (last b.1 b.2) bs final

theorem Chained.concat {final : β} (h : Chained last mark bs final) :
    Chained last mark (bs ++ [(final, as)]) (last final as) := by
  induction bs generalizing mark with
  | nil =>
    cases h
    exact ⟨rfl, rfl⟩
  | cons b bs ih => exact ⟨h.1, ih h.2⟩

theorem Chained.follows {before after : List (β × List α)} {b c : β × List α} {final : β}
    (h : Chained last mark bs final) (hbs : bs = before ++ b :: c :: after) : c.1 = last b.1 b.2 := by
  induction before generalizing bs mark with
  | nil =>
    subst hbs
    exact h.2.1
  | cons d before ih =>
    subst hbs
    exact ih h.2 rfl

/-- What holds while the batches are filled. A batch that does not fit holds one element. -/
structure Filling.Ok (fits : β → List α → Bool) (last : β → List α → β) (mark : β)
    (s : Filling α β) : Prop where
  nonempty : ∀ b ∈ s.full, b.2 ≠ []
  chained : Chained last mark s.full s.mark
  full : ∀ b ∈ s.full, 1 < b.2.length → fits b.1 b.2 = true
  current : 1 < s.current.length → fits s.mark s.current = true

theorem Filling.Ok.push (h : s.Ok fits last mark) : (s.push fits last a).Ok fits last mark := by
  unfold Filling.push
  split
  next hfits => exact { h with current := fun _ => hfits }
  · split
    · exact { h with current := by simp }
    next hcurrent =>
      refine ⟨?_, h.chained.concat, ?_, by simp⟩
      · refine List.forall_mem_append.mpr ⟨h.nonempty, List.forall_mem_singleton.mpr ?_⟩
        simpa using hcurrent
      · exact List.forall_mem_append.mpr ⟨h.full, List.forall_mem_singleton.mpr h.current⟩

theorem Filling.Ok.foldl (h : s.Ok fits last mark) :
    (as.foldl (Filling.push fits last) s).Ok fits last mark := by
  induction as generalizing s with
  | nil => exact h
  | cons a as ih => exact ih h.push

/-- The batches are not empty, start where the one before ends, and fit if they hold more than one
element. -/
theorem split_ok : (∀ b ∈ split fits last mark as, b.2 ≠ [] ∧
      (1 < b.2.length → fits b.1 b.2 = true)) ∧
    ∃ final, Chained last mark (split fits last mark as) final := by
  have h : (as.foldl (Filling.push fits last) ⟨[], [], mark⟩).Ok fits last mark :=
    Filling.Ok.foldl ⟨by simp, rfl, by simp, by simp⟩
  unfold split Filling.batches
  split
  · exact ⟨fun b hb => ⟨h.nonempty b hb, h.full b hb⟩, _, h.chained⟩
  next hcurrent =>
    refine ⟨List.forall_mem_append.mpr ⟨fun b hb => ⟨h.nonempty b hb, h.full b hb⟩, ?_⟩, _,
      h.chained.concat⟩
    exact List.forall_mem_singleton.mpr ⟨by simpa using hcurrent, h.current⟩

end Batch
