import Mathlib.Data.List.Sort
import Mathlib.Data.List.Perm.Basic

/-! Replacements of parts of a list by other elements. Each has a source, so that the splices of
several lists can be told apart once they are merged. -/

/-- The elements from `start` up to `stop` are replaced by `lines`. -/
structure Splice (τ α : Type*) where
  source : τ
  start : Nat
  stop : Nat
  lines : List α
  deriving DecidableEq

namespace Splice

open List

variable {τ α : Type*} {base : List α} {s t : Splice τ α} {es fs : List (Splice τ α)}
  {pos stop b : Nat} {p : Splice τ α → Bool}

/-- An insertion at the start of a replaced part comes before it. -/
def before (s t : Splice τ α) : Bool := s.start < t.start || (s.start = t.start && s.stop ≤ t.stop)

theorem before_iff :
    before s t = true ↔ s.start < t.start ∨ s.start = t.start ∧ s.stop ≤ t.stop := by
  simp [before]

theorem before_trans (s t u : Splice τ α) (h1 : before s t = true) (h2 : before t u = true) :
    before s u = true := by
  rw [before_iff] at *
  omega

def Overlaps (s t : Splice τ α) : Prop := s.start < t.stop ∧ t.start < s.stop

def IsInsert (s : Splice τ α) : Prop := s.start = s.stop

/-- The part of the list up to `stop`, from `pos` on, with the splices applied. -/
def applyFrom (base : List α) (stop : Nat) : Nat → List (Splice τ α) → List α
  | pos, [] => (base.drop pos).take (stop - pos)
  | pos, e :: es => (base.drop pos).take (e.start - pos) ++ e.lines ++ applyFrom base stop e.stop es

/-- Splices of the part from `pos` to `stop`, one after the other. -/
structure Fits (pos stop : Nat) (es : List (Splice τ α)) : Prop where
  pos_le : ∀ e ∈ es, pos ≤ e.start
  start_le : ∀ e ∈ es, e.start ≤ e.stop
  stop_le : ∀ e ∈ es, e.stop ≤ stop
  ordered : es.Pairwise fun e f => e.stop ≤ f.start

theorem Fits.sublist (h : Fits pos stop es) (hs : fs.Sublist es) : Fits pos stop fs where
  pos_le e he := h.pos_le e (hs.subset he)
  start_le e he := h.start_le e (hs.subset he)
  stop_le e he := h.stop_le e (hs.subset he)
  ordered := h.ordered.sublist hs

theorem Fits.tail (h : Fits pos stop (s :: es)) : Fits s.stop stop es where
  pos_le := (pairwise_cons.mp h.ordered).1
  start_le e he := h.start_le e (mem_cons_of_mem _ he)
  stop_le e he := h.stop_le e (mem_cons_of_mem _ he)
  ordered := (pairwise_cons.mp h.ordered).2

theorem Fits.sorted (h : Fits pos stop es) : es.Pairwise fun e f => before e f = true := by
  refine h.ordered.imp_of_mem fun {e f} he hf hef => before_iff.mpr ?_
  have := h.start_le e he
  have := h.start_le f hf
  omega

/-- A position divides the splices. -/
theorem Fits.filter_append (h : Fits pos stop es) (b : Nat) :
    es.filter (·.start < b) ++ es.filter (b ≤ ·.start) = es := by
  induction es generalizing pos with
  | nil => rfl
  | cons e es ih =>
    by_cases hb : e.start < b
    · rw [filter_cons_of_pos (by simpa using hb), filter_cons_of_neg (by simpa using hb),
        cons_append, ih h.tail]
    · have hstart := h.start_le e mem_cons_self
      have hbehind : ∀ f ∈ e :: es, b ≤ f.start := by
        intro f hf
        rcases mem_cons.mp hf with rfl | hf
        · omega
        · have := h.tail.pos_le f hf
          omega
      rw [filter_eq_nil_iff.mpr fun f hf => by simpa using hbehind f hf,
        filter_eq_self.mpr fun f hf => by simpa using hbehind f hf, nil_append]

/-! ### Merging sorted lists -/

section Merge

variable {β : Type*} {le : β → β → Bool} {xs ys : List β} {q : β → Bool} {x y : β}

theorem merge_cons_of_le (h : ∀ y ∈ ys, le x y = true) :
    (x :: xs).merge ys le = x :: xs.merge ys le := by
  cases ys with
  | nil => simp
  | cons y ys => exact cons_merge_cons_pos le xs ys (h y mem_cons_self)

theorem merge_cons_of_not_le (h : ∀ x ∈ xs, ¬ le x y = true) :
    xs.merge (y :: ys) le = y :: xs.merge ys le := by
  cases xs with
  | nil => simp
  | cons x xs => exact cons_merge_cons_neg le xs ys (h x mem_cons_self)

variable (trans : ∀ a b c, le a b = true → le b c = true → le a c = true)
include trans

theorem le_of_merge_pos (hy : (y :: ys).Pairwise fun a b => le a b = true) (h : le x y = true) :
    ∀ z ∈ y :: ys, le x z = true := by
  intro z hz
  rcases mem_cons.mp hz with rfl | hz
  · exact h
  · exact trans _ _ _ h (rel_of_pairwise_cons hy hz)

theorem not_le_of_merge_neg (hx : (x :: xs).Pairwise fun a b => le a b = true)
    (h : ¬ le x y = true) : ∀ z ∈ x :: xs, ¬ le z y = true := by
  intro z hz hzy
  rcases mem_cons.mp hz with rfl | hz
  · exact h hzy
  · exact h (trans _ _ _ (rel_of_pairwise_cons hx hz) hzy)

section
variable (hx : xs.Pairwise fun a b => le a b = true)
include hx

section
variable (hy : ys.Pairwise fun a b => le a b = true)
include hy

theorem filter_merge : (xs.merge ys le).filter q = (xs.filter q).merge (ys.filter q) le := by
  induction xs generalizing ys with
  | nil => simp
  | cons x xs ihx =>
    induction ys with
    | nil => simp
    | cons y ys ihy =>
      by_cases h : le x y = true
      · have hle := le_of_merge_pos trans hy h
        rw [merge_cons_of_le hle, filter_cons, filter_cons, ihx (List.Pairwise.of_cons hx) hy]
        split
        · exact (merge_cons_of_le fun z hz => hle z (mem_filter.mp hz).1).symm
        · rfl
      · have hnot := not_le_of_merge_neg trans hx h
        rw [merge_cons_of_not_le hnot, filter_cons, ihy (List.Pairwise.of_cons hy),
          filter_cons (x := y)]
        split
        · exact (merge_cons_of_not_le fun z hz => hnot z (mem_filter.mp hz).1).symm
        · rfl

/-- Any relation that the order implies between the lists holds along the merged list. -/
theorem pairwise_merge {R : β → β → Prop} (hRx : xs.Pairwise R) (hRy : ys.Pairwise R)
    (hxy : ∀ a ∈ xs, ∀ b ∈ ys, if le a b then R a b else R b a) : (xs.merge ys le).Pairwise R := by
  induction xs generalizing ys with
  | nil => simpa
  | cons x xs ihx =>
    induction ys with
    | nil => rwa [merge_right]
    | cons y ys ihy =>
      by_cases h : le x y = true
      · have hle := le_of_merge_pos trans hy h
        rw [merge_cons_of_le hle, pairwise_cons]
        refine ⟨fun z hz => ?_, ihx hx.of_cons hy hRx.of_cons hRy
          fun a ha => hxy a (mem_cons_of_mem _ ha)⟩
        rcases mem_merge.mp hz with hz | hz
        · exact rel_of_pairwise_cons hRx hz
        · simpa [hle z hz] using hxy x mem_cons_self z hz
      · have hnot := not_le_of_merge_neg trans hx h
        rw [merge_cons_of_not_le hnot, pairwise_cons]
        refine ⟨fun z hz => ?_, ihy hy.of_cons hRy.of_cons
          fun a ha b hb => hxy a ha b (mem_cons_of_mem _ hb)⟩
        rcases mem_merge.mp hz with hz | hz
        · simpa [hnot z hz] using hxy z hz y mem_cons_self
        · exact rel_of_pairwise_cons hRy hz

/-- Without ties it does not matter which list comes first. -/
theorem merge_comm (hxy : ∀ a ∈ xs, ∀ b ∈ ys, le a b = true ↔ ¬ le b a = true) :
    xs.merge ys le = ys.merge xs le := by
  induction xs generalizing ys with
  | nil => simp
  | cons x xs ihx =>
    induction ys with
    | nil => simp
    | cons y ys ihy =>
      by_cases h : le x y = true
      · have hle := le_of_merge_pos trans hy h
        rw [merge_cons_of_le hle, merge_cons_of_not_le fun z hz =>
          (hxy x mem_cons_self z hz).mp (hle z hz), ihx hx.of_cons hy
          fun a ha => hxy a (mem_cons_of_mem _ ha)]
      · have hnot := not_le_of_merge_neg trans hx h
        rw [merge_cons_of_not_le hnot, merge_cons_of_le fun z hz =>
          not_not.mp fun hyz => hnot z hz ((hxy z hz y mem_cons_self).mpr hyz),
          ihy hy.of_cons fun a ha b hb => hxy a ha b (mem_cons_of_mem _ hb)]

end

end

end Merge

/-- Splices of two lists that do not overlap fit together. -/
theorem Fits.merge (hes : Fits pos stop es) (hfs : Fits pos stop fs)
    (hno : ∀ e ∈ es, ∀ f ∈ fs, ¬ e.Overlaps f) : Fits pos stop (es.merge fs before) where
  pos_le e he := (mem_merge.mp he).elim (hes.pos_le e) (hfs.pos_le e)
  start_le e he := (mem_merge.mp he).elim (hes.start_le e) (hfs.start_le e)
  stop_le e he := (mem_merge.mp he).elim (hes.stop_le e) (hfs.stop_le e)
  ordered := by
    refine pairwise_merge before_trans hes.sorted hfs.sorted hes.ordered hfs.ordered
      fun e he f hf => ?_
    have hover := hno e he f hf
    have := hes.start_le e he
    have := hfs.start_le f hf
    unfold Overlaps at hover
    split
    next h =>
      rw [before_iff] at h
      omega
    next h =>
      rw [before_iff] at h
      omega

/-! ### Applying splices -/

theorem take_drop_append (h1 : pos ≤ b) (h2 : b ≤ stop) : (base.drop pos).take (stop - pos) =
      (base.drop pos).take (b - pos) ++ (base.drop b).take (stop - b) := by
  obtain ⟨i, rfl⟩ := Nat.exists_eq_add_of_le h1
  obtain ⟨j, rfl⟩ := Nat.exists_eq_add_of_le h2
  rw [show pos + i + j - pos = i + j by omega, show pos + i - pos = i by omega,
    show pos + i + j - (pos + i) = j by omega, take_add, drop_drop]

/-- Elements in front of all splices are copied. -/
theorem applyFrom_advance (h1 : pos ≤ b) (h2 : b ≤ stop) (h : ∀ e ∈ es, b ≤ e.start) :
    applyFrom base stop pos es = (base.drop pos).take (b - pos) ++ applyFrom base stop b es := by
  cases es with
  | nil => exact take_drop_append h1 h2
  | cons e es =>
    rw [applyFrom, applyFrom, take_drop_append h1 (h e mem_cons_self)]
    simp only [append_assoc]

/-- Splices before and behind a position can be applied to the two parts. -/
theorem applyFrom_append (h1 : pos ≤ b) (h2 : b ≤ stop) (hes : ∀ e ∈ es, e.stop ≤ b)
    (hfs : ∀ f ∈ fs, b ≤ f.start) : applyFrom base stop pos (es ++ fs) =
      applyFrom base b pos es ++ applyFrom base stop b fs := by
  induction es generalizing pos with
  | nil => exact applyFrom_advance h1 h2 hfs
  | cons e es ih =>
    rw [cons_append, applyFrom, applyFrom, ih (hes e mem_cons_self)
      fun f hf => hes f (mem_cons_of_mem _ hf)]
    simp only [append_assoc]

/-- The sources do not matter. -/
theorem applyFrom_map_source {σ : Type*} (label : σ) (es : List (Splice τ α)) :
    applyFrom base stop pos (es.map fun e => (⟨label, e.start, e.stop, e.lines⟩ : Splice σ α)) =
      applyFrom base stop pos es := by
  induction es generalizing pos with
  | nil => rfl
  | cons e es ih => rw [map_cons, applyFrom, applyFrom, ih]

/-- A splice that puts back what it replaces. -/
def Keeps (base : List α) (s : Splice τ α) : Prop :=
  s.lines = (base.drop s.start).take (s.stop - s.start)

instance [DecidableEq α] : Decidable (s.Keeps base) :=
  inferInstanceAs (Decidable (s.lines = (base.drop s.start).take (s.stop - s.start)))

theorem applyFrom_filter_of_keeps (hfit : Fits pos stop es)
    (h : ∀ e ∈ es, p e = false → e.Keeps base) :
    applyFrom base stop pos (es.filter p) = applyFrom base stop pos es := by
  induction es generalizing pos with
  | nil => rfl
  | cons e es ih =>
    have htail := ih hfit.tail fun f hf => h f (mem_cons_of_mem _ hf)
    have hstart := hfit.start_le e mem_cons_self
    have hpos := hfit.pos_le e mem_cons_self
    cases hp : p e with
    | true => rw [filter_cons_of_pos hp, applyFrom, applyFrom, htail]
    | false =>
      rw [filter_cons_of_neg (by simp [hp]), applyFrom,
        h e mem_cons_self hp, ← take_drop_append hpos hstart, ← htail]
      exact applyFrom_advance (hpos.trans hstart) (hfit.stop_le e mem_cons_self)
        fun f hf => hfit.tail.pos_le f (mem_filter.mp hf).1

/-- Leaving out insertions loses just their elements. -/
theorem applyFrom_perm_filter (hfit : Fits pos stop es) (h : ∀ e ∈ es, p e = false → e.IsInsert) :
    (applyFrom base stop pos es).Perm
      (applyFrom base stop pos (es.filter p) ++ (es.filter (!p ·)).flatMap lines) := by
  induction es generalizing pos with
  | nil => simp
  | cons e es ih =>
    have htail := ih hfit.tail fun f hf => h f (mem_cons_of_mem _ hf)
    have hpos := hfit.pos_le e mem_cons_self
    cases hp : p e with
    | true =>
      rw [filter_cons_of_pos hp, filter_cons_of_neg (by simp [hp]), applyFrom, applyFrom,
        append_assoc _ _ (flatMap _ _)]
      exact htail.append_left _
    | false =>
      have hins : e.start = e.stop := h e mem_cons_self hp
      have hadv : applyFrom base stop pos (es.filter p) =
          (base.drop pos).take (e.start - pos) ++ applyFrom base stop e.start (es.filter p) :=
        applyFrom_advance hpos (hins ▸ hfit.stop_le e mem_cons_self)
          fun f hf => hins ▸ hfit.tail.pos_le f (mem_filter.mp hf).1
      rw [filter_cons_of_neg (by simp [hp]), filter_cons_of_pos (by simp [hp]),
        applyFrom, hadv, flatMap_cons, append_assoc, append_assoc]
      refine List.Perm.append_left _ ?_
      rw [hins]
      refine (htail.append_left _).trans ?_
      rw [← append_assoc, ← append_assoc]
      exact perm_append_comm.append_right _

end Splice
