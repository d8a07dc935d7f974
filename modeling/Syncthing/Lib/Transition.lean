import Mathlib.Logic.Relation
import Mathlib.Tactic.ByContra

/-! Runs of a labelled step relation all of whose steps pass a guard. -/
namespace Transition

variable {S A : Type*} {step : S → A → S → Prop} {ok : S → A → Prop} {s t : S} {run : List (S × A)}
  {I : S → Prop}

/-- One step whose label passes the guard in the state it starts from. -/
def Guarded (step : S → A → S → Prop) (ok : S → A → Prop) (s t : S) : Prop :=
  ∃ a, ok s a ∧ step s a t

/-- The states of the runs from `s` all of whose steps pass the guard. -/
def Reach (step : S → A → S → Prop) (ok : S → A → Prop) : S → S → Prop :=
  Relation.ReflTransGen (Guarded step ok)

theorem Reach.refl : Reach step ok s s := Relation.ReflTransGen.refl

theorem Reach.next {a : A} {u : S} (h : Reach step ok s t) (hstep : step t a u) (hok : ok t a) :
    Reach step ok s u :=
  h.tail ⟨a, hok, hstep⟩

theorem Reach.go {a : A} {u : S} (h : Reach step (fun _ _ => True) s t) (hstep : step t a u) :
    Reach step (fun _ _ => True) s u := h.next hstep trivial

theorem Reach.foldl {apply : S → A → S} (h : ∀ s a, step s a (apply s a)) (as : List A) :
    Reach step (fun _ _ => True) s (as.foldl apply s) := by
  induction as generalizing s with
  | nil => exact .refl
  | cons a as ih => exact (Reach.refl.go (h s a)).trans ih

theorem Reach.invariant (h : Reach step ok s t) (h0 : I s)
    (hs : ∀ {u a v}, ok u a → step u a v → I u → I v) : I t := by
  induction h with
  | refl => exact h0
  | tail _ h ih =>
    obtain ⟨a, ha, hst⟩ := h
    exact hs ha hst ih

/-- If every step can be followed from any related state, so can a run. -/
theorem Reach.simulate {T B : Type*} {step' : T → B → T → Prop} {R : S → T → Prop} {x : T}
    (h : Reach step (fun _ _ => True) s t) (h0 : R s x)
    (hs : ∀ {u a v y}, step u a v → R u y → ∃ z, Reach step' (fun _ _ => True) y z ∧ R v z) :
    ∃ z, Reach step' (fun _ _ => True) x z ∧ R t z := by
  induction h with
  | refl => exact ⟨x, .refl, h0⟩
  | tail _ h ih =>
    obtain ⟨a, -, hst⟩ := h
    obtain ⟨y, hy, hR⟩ := ih
    obtain ⟨z, hz, hR'⟩ := hs hst hR
    exact ⟨z, hy.trans hz, hR'⟩

/-- A run with its steps: the label of each one and the state it starts from. -/
inductive Run (step : S → A → S → Prop) (s : S) : List (S × A) → S → Prop where
  | nil : Run step s [] s
  | snoc {run : List (S × A)} {t u : S} {a : A} (h : Run step s run t) (hstep : step t a u) :
    Run step s (run ++ [(t, a)]) u

theorem Run.invariant (h : Run step s run t) (h0 : I s)
    (hkeeps : ∀ {u a v}, ok u a → step u a v → I u → I v) (hok : ∀ x ∈ run, ok x.1 x.2) : I t := by
  induction h with
  | nil => exact h0
  | @snoc run t u a _ hstep ih =>
    exact hkeeps (hok (t, a) (by simp)) hstep (ih fun x hx => hok x (by simp [hx]))

/-- If the guarded steps keep an invariant that implies `P`, and every other step out of the
invariant breaks `P` at once, then `P` holds all along a run exactly if all its steps are guarded. -/
theorem Run.holds_iff {I P : S → Prop} (h : Run step s run t) (h0 : I s)
    (hP : ∀ {u}, I u → P u) (hkeeps : ∀ {u a v}, ok u a → step u a v → I u → I v)
    (hbreaks : ∀ {u a v}, ¬ ok u a → step u a v → I u → ¬ P v) :
    (P t ∧ ∀ x ∈ run, P x.1) ↔ ∀ x ∈ run, ok x.1 x.2 := by
  induction h with
  | nil => simpa using hP h0
  | @snoc run t u a h hstep ih =>
    simp only [List.forall_mem_append, List.forall_mem_singleton]
    constructor
    · rintro ⟨hu, hrun, ht⟩
      have hguarded := ih.mp ⟨ht, hrun⟩
      refine ⟨hguarded, ?_⟩
      by_contra hnot
      exact hbreaks hnot hstep (h.invariant h0 hkeeps hguarded) hu
    · rintro ⟨hrun, ha⟩
      obtain ⟨ht, hstates⟩ := ih.mpr hrun
      exact ⟨hP (hkeeps ha hstep (h.invariant h0 hkeeps hrun)), hstates, ht⟩

end Transition
