import Mathlib.Data.List.Perm.Basic

/-! One value is held at a time. Each of a list of challengers takes its place if it beats it.
Beating need not be transitive. -/
namespace Challenge

open List

variable {α : Type*} (beats : α → α → Prop) [DecidableRel beats]

def hold (c x : α) : α := if beats x c then x else c

/-- What is held after all challenges. -/
def final (c : α) (xs : List α) : α := xs.foldl (hold beats) c

/-- Of two different values of `S` exactly one beats the other, and none beats itself. -/
structure Tournament (S : List α) : Prop where
  irrefl : ∀ x ∈ S, ¬ beats x x
  asymm : ∀ x ∈ S, ∀ y ∈ S, x ≠ y → (beats x y ↔ ¬ beats y x)

variable {beats} {S : List α} {c w x y : α} {xs : List α}

theorem hold_of_beats (h : beats x c) : hold beats c x = x := if_pos h

theorem hold_of_not_beats (h : ¬ beats x c) : hold beats c x = c := if_neg h

@[simp] theorem final_nil : final beats c [] = c := rfl

@[simp] theorem final_cons : final beats c (x :: xs) = final beats (hold beats c x) xs := rfl

theorem final_append {ys : List α} : final beats c (xs ++ ys) = final beats (final beats c xs) ys :=
  foldl_append

theorem hold_mem (beats : α → α → Prop) [DecidableRel beats] (c x : α) :
    hold beats c x = c ∨ hold beats c x = x := by
  unfold hold
  split
  · exact .inr rfl
  · exact .inl rfl

theorem final_mem (beats : α → α → Prop) [DecidableRel beats] (c : α) (xs : List α) :
    final beats c xs ∈ c :: xs := by
  induction xs generalizing c with
  | nil => exact mem_singleton_self c
  | cons x xs ih =>
    rw [final_cons]
    rcases hold_mem beats c x with h | h
    · rw [h]
      exact cons_subset_cons c (subset_cons_self x xs) (ih c)
    · rw [h]
      exact mem_cons_of_mem c (ih x)

namespace Tournament

theorem hold_comm (h : Tournament beats S) (hx : x ∈ S) (hy : y ∈ S) :
    hold beats x y = hold beats y x := by
  by_cases hxy : x = y
  · rw [hxy]
  · have hbeats := h.asymm x hx y hy hxy
    by_cases hb : beats x y
    · rw [hold_of_beats hb, hold_of_not_beats (hbeats.mp hb)]
    · rw [hold_of_not_beats hb, hold_of_beats (not_imp_comm.mp hbeats.mpr hb)]

/-- The better of two values stays against either. -/
theorem hold_hold (h : Tournament beats S) (hx : x ∈ S) :
    hold beats x (hold beats x y) = hold beats x y := by
  by_cases hb : beats y x
  · rw [hold_of_beats hb, hold_of_beats hb]
  · rw [hold_of_not_beats hb, hold_of_not_beats (h.irrefl x hx)]

/-- A value that no challenger beats stays. -/
theorem final_of_held (hw : ∀ x ∈ xs, ¬ beats x w) : final beats w xs = w := by
  induction xs with
  | nil => rfl
  | cons x xs ih =>
    rw [final_cons, hold_of_not_beats (hw x mem_cons_self)]
    exact ih fun y hy => hw y (mem_cons_of_mem x hy)

section
variable (h : Tournament beats S)
include h

/-- An unbeaten challenger wins against whatever is held when it comes. -/
theorem final_of_unbeaten (hc : c ∈ S) (hxs : xs ⊆ S) (hw : w ∈ xs)
    (hunbeaten : ∀ x ∈ S, ¬ beats x w) : final beats c xs = w := by
  induction xs generalizing c with
  | nil => cases hw
  | cons x xs ih =>
    obtain ⟨hx, hrest⟩ := cons_subset.mp hxs
    rw [final_cons]
    rcases mem_cons.mp hw with rfl | hw
    · have hheld : hold beats c w = w := by
        by_cases hcw : c = w
        · rw [hcw, hold_of_not_beats (h.irrefl w hx)]
        · exact hold_of_beats ((h.asymm w hx c hc (Ne.symm hcw)).mpr (hunbeaten c hc))
      rw [hheld]
      exact final_of_held fun y hy => hunbeaten y (hrest hy)
    · refine ih ?_ hrest hw
      rcases hold_mem beats c x with he | he
      · rw [he]
        exact hc
      · rw [he]
        exact hx

/-- Without three values that beat each other in a round, one is beaten by none. -/
theorem exists_unbeaten (hS : S ≠ [])
    (hround : ∀ x ∈ S, ∀ y ∈ S, ∀ z ∈ S, beats x y → beats y z → ¬ beats z x) :
    ∃ w ∈ S, ∀ x ∈ S, ¬ beats x w := by
  suffices ∀ xs, xs ≠ [] → xs ⊆ S → ∃ w ∈ xs, ∀ x ∈ xs, ¬ beats x w from this S hS (Subset.refl S)
  intro xs
  induction xs with
  | nil => exact fun hne => absurd rfl hne
  | cons x xs ih =>
    intro _ hsub
    obtain ⟨hx, hxs⟩ := cons_subset.mp hsub
    by_cases hnil : xs = []
    · subst hnil
      exact ⟨x, mem_cons_self, forall_mem_singleton.mpr (h.irrefl x hx)⟩
    · obtain ⟨w, hw, hunbeaten⟩ := ih hnil hxs
      by_cases hbeats : beats x w
      · refine ⟨x, mem_cons_self, forall_mem_cons.mpr ⟨h.irrefl x hx, fun y hy hyx => ?_⟩⟩
        -- `y` beats `x` and `x` beats `w`, so `y` beats `w` as well
        have hne : y ≠ w := by
          rintro rfl
          have hxy : x ≠ y := fun heq => h.irrefl x hx (heq ▸ hyx)
          exact (h.asymm x hx y (hxs hy) hxy).mp hbeats hyx
        exact hunbeaten y hy ((h.asymm y (hxs hy) w (hxs hw) hne).mpr
          (hround y (hxs hy) x hx w (hxs hw) hyx hbeats))
      · exact ⟨w, mem_cons_of_mem x hw, forall_mem_cons.mpr ⟨hbeats, hunbeaten⟩⟩

/-- What is held in the end depends on no order and no beginning exactly if some value is beaten
by none. -/
theorem final_const_iff (hS : S ≠ []) :
    (∃ f, ∀ c ∈ S, ∀ xs, xs.Perm S → final beats c xs = f) ↔ ∃ w ∈ S, ∀ x ∈ S, ¬ beats x w := by
  constructor
  · rintro ⟨f, hf⟩
    obtain ⟨c, hc⟩ := exists_mem_of_ne_nil S hS
    refine ⟨f, ?_, fun x hx hbeats => ?_⟩
    · have hmem := final_mem beats c S
      rw [hf c hc S (List.Perm.refl S)] at hmem
      rcases mem_cons.mp hmem with rfl | hmem
      · exact hc
      · exact hmem
    · -- let the value that beats `f` come last
      obtain ⟨before, later, hsplit⟩ := append_of_mem hx
      have hperm : (before ++ later ++ [x]).Perm S := by
        rw [hsplit, append_assoc]
        exact (perm_append_singleton x later).append_left before
      have hlast := hf c hc _ hperm
      rw [final_append, final_cons, final_nil] at hlast
      have hne : x ≠ f := by
        rintro rfl
        exact h.irrefl x hx hbeats
      unfold hold at hlast
      split at hlast
      · exact hne hlast
      next hnot =>
        rw [hlast] at hnot
        exact hnot hbeats
  · rintro ⟨w, hw, hunbeaten⟩
    exact ⟨w, fun c hc xs hxs => h.final_of_unbeaten hc hxs.subset (hxs.mem_iff.mpr hw) hunbeaten⟩

end

end Tournament
end Challenge
