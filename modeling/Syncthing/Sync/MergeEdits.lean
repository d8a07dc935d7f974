import Syncthing.Sync.Merge

/-! Edit lists of valid diffs, and the conflict regions of two such lists. -/
namespace Syncthing

open List Interval

variable {old new base : List String} {ops : List DiffOp} {side : String} {n i j : Nat}
  {es fs : List Edit} {e f : Edit} {rs : List (Nat × Nat)} {r r' : Nat × Nat} {x : Nat}

/-- Edits in base order whose ranges lie within `n` base lines. -/
structure OrderedEdits (n : Nat) (es : List Edit) : Prop where
  start_le : ∀ e ∈ es, e.start ≤ e.stop
  stop_le : ∀ e ∈ es, e.stop ≤ n
  ordered : es.Pairwise fun e f => e.stop ≤ f.start

theorem slice_isSome {α : Type*} {v : List α} (h1 : i ≤ j) (h2 : j ≤ v.length) :
    slice v i j = some ((v.drop i).take (j - i)) := if_pos ⟨h1, h2⟩

theorem EditScriptFrom.le_length (h : EditScriptFrom old new i j ops) :
    i ≤ old.length ∧ j ≤ new.length := by
  induction ops generalizing i j with
  | nil => exact ⟨h.1.le, h.2.le⟩
  | cons op ops ih =>
    obtain ⟨rfl, rfl, -, h⟩ := h
    exact ⟨op.oldRange_le.trans (ih h).1, op.newRange_le.trans (ih h).2⟩

/-- A valid diff never makes `from_diff` slice out of range, and its edits are ordered. -/
theorem EditScriptFrom.fromDiff (h : EditScriptFrom old (splitLines side) i j ops) :
    ∃ es, Edit.fromDiff ops side = some es ∧ OrderedEdits old.length es ∧
      ∀ e ∈ es, i ≤ e.start := by
  induction ops generalizing i j with
  | nil => exact ⟨[], rfl, ⟨by simp, by simp, by simp⟩, by simp⟩
  | cons op ops ih =>
    obtain ⟨rfl, rfl, -, h⟩ := h
    obtain ⟨es, hes, ho, hi⟩ := ih h
    have hlen := h.le_length
    by_cases hop : op.oldRange = op.newRange && op.isEqual
    · refine ⟨es, ?_, ho, fun e he => op.oldRange_le.trans (hi e he)⟩
      rwa [Edit.fromDiff, filter_cons_of_neg (by simp [hop])]
    · let e : Edit := ⟨op.oldRange.1, op.oldRange.2,
        ((splitLines side).drop op.newRange.1).take (op.newRange.2 - op.newRange.1)⟩
      refine ⟨e :: es, ?_, ⟨?_, ?_, ?_⟩, ?_⟩
      · have hs := slice_isSome op.newRange_le hlen.2
        simp only [Edit.fromDiff] at hes ⊢
        rw [filter_cons_of_pos (by simp [hop]), mapM_cons, hs, hes]
        rfl
      · simpa [e, op.oldRange_le] using ho.start_le
      · simpa [e, hlen.1] using ho.stop_le
      · exact pairwise_cons.mpr ⟨hi, ho.ordered⟩
      · intro f hf
        rcases mem_cons.mp hf with rfl | hf
        · exact le_rfl
        · exact op.oldRange_le.trans (hi f hf)

theorem OrderedEdits.suffix (ho : OrderedEdits n es) (h : fs <:+ es) : OrderedEdits n fs where
  start_le e he := ho.start_le e (h.subset he)
  stop_le e he := ho.stop_le e (h.subset he)
  ordered := ho.ordered.sublist h.sublist

/-- Two edits of one list that share a base line are the same edit. -/
theorem OrderedEdits.eq_of_mem_range (ho : OrderedEdits n es) (he : e ∈ es) (hf : f ∈ es)
    (h1 : e.start ≤ x) (h2 : x < e.stop) (h3 : f.start ≤ x) (h4 : x < f.stop) : e = f := by
  by_contra hne
  have hef : e.stop ≤ f.start ∨ f.stop ≤ e.start := by
    refine List.Pairwise.forall_of_forall_of_flip (R := fun e f => e ≠ f → e.stop ≤ f.start ∨
      f.stop ≤ e.start) ?_ ?_ ?_ he hf hne
    · exact fun _ _ h => absurd rfl h
    · exact ho.ordered.imp fun h _ => .inl h
    · exact ho.ordered.imp fun h _ => .inr h
  omega

/-- Maximal regions of overlapping edits of two lists over `n` base lines. -/
structure ConflictRegions (n : Nat) (es fs : List Edit) (rs : List (Nat × Nat)) : Prop where
  separated : rs.Pairwise fun r r' => r.2 < r'.1
  nonempty : ∀ r ∈ rs, r.1 < r.2
  bounded : ∀ r ∈ rs, r.2 ≤ n
  covers : ∀ e ∈ es, ∀ f ∈ fs, e.Overlaps f →
    ∃ r ∈ rs, (r.1 ≤ e.start ∧ e.stop ≤ r.2) ∧ r.1 ≤ f.start ∧ f.stop ≤ r.2
  covered : ∀ r ∈ rs, ∀ x, r.1 ≤ x → x < r.2 → ∃ e ∈ es, ∃ f ∈ fs, e.Overlaps f ∧
    (e.start ≤ x ∧ x < e.stop ∨ f.start ≤ x ∧ x < f.stop)

theorem Edit.Overlaps.symm (h : e.Overlaps f) : f.Overlaps e := ⟨h.2, h.1⟩

theorem mem_overlappingPairs : r ∈ overlappingPairs es fs ↔
    ∃ e ∈ es, ∃ f ∈ fs, e.Overlaps f ∧ r = (min e.start f.start, max e.stop f.stop) := by
  simp only [overlappingPairs, mem_flatMap, mem_map, mem_filter,
    decide_eq_true_eq, and_assoc, @eq_comm _ r]

theorem sortedFst_pairs : SortedFst ((overlappingPairs es fs).insertionSort fun a b => a.1 ≤ b.1) :=
  pairwise_insertionSort (r := fun a b : Nat × Nat => a.1 ≤ b.1) _

theorem exists_region (he : e ∈ es) (hf : f ∈ fs) (ho : e.Overlaps f) :
    ∃ r ∈ findConflictRegions es fs, r.1 ≤ min e.start f.start ∧ max e.stop f.stop ≤ r.2 :=
  exists_coalesce_of_mem sortedFst_pairs
    ((mem_insertionSort _).mpr (mem_overlappingPairs.mpr ⟨e, he, f, hf, ho, rfl⟩))

theorem exists_isUnion_of_region (hr : r ∈ findConflictRegions es fs) :
    ∃ chain, IsUnion r chain ∧ ∀ p ∈ chain, p ∈ overlappingPairs es fs := by
  have hmem : ∀ {p}, p ∈ (overlappingPairs es fs).insertionSort (fun a b => a.1 ≤ b.1) ↔
      p ∈ overlappingPairs es fs := mem_insertionSort _
  obtain ⟨chain, h, hsub⟩ := exists_isUnion_of_coalesce sortedFst_pairs (by
    intro p hp
    obtain ⟨e, -, f, -, ho, rfl⟩ := mem_overlappingPairs.mp (hmem.mp hp)
    exact (min_le_left _ _).trans_lt (ho.1.trans_le (le_max_right _ _))) hr
  exact ⟨chain, h, fun p hp => hmem.mp (hsub p hp)⟩

/-- The regions are sorted and apart, overlapping edits lie in one of them, and each one is the union
of a chain of the spans of overlapping edits. -/
theorem conflict_regions_exact : (findConflictRegions es fs).Pairwise (fun r r' => r.2 < r'.1) ∧
    (∀ e ∈ es, ∀ f ∈ fs, e.Overlaps f → ∃ r ∈ findConflictRegions es fs,
      r.1 ≤ min e.start f.start ∧ max e.stop f.stop ≤ r.2) ∧
    ∀ r ∈ findConflictRegions es fs, r.1 < r.2 ∧ ∃ chain, chain ≠ [] ∧
      (∀ p ∈ chain, ∃ e ∈ es, ∃ f ∈ fs, e.Overlaps f ∧
        p = (min e.start f.start, max e.stop f.stop)) ∧
      chain.IsChain (fun p q => p.1 ≤ q.2 ∧ q.1 ≤ p.2) ∧
      ∀ x, r.1 ≤ x ∧ x < r.2 ↔ ∃ p ∈ chain, p.1 ≤ x ∧ x < p.2 := by
  refine ⟨separated_coalesce sortedFst_pairs, fun e he f hf => exists_region he hf, fun r hr => ?_⟩
  obtain ⟨chain, h, hsub⟩ := exists_isUnion_of_region hr
  refine ⟨h.nonempty, chain, ?_, fun p hp => mem_overlappingPairs.mp (hsub p hp), h.touching, h.union⟩
  rintro rfl
  obtain ⟨b, hb, -⟩ := h.ends
  cases hb

theorem findConflictRegions_spec (hes : OrderedEdits n es) (hfs : OrderedEdits n fs) :
    ConflictRegions n es fs (findConflictRegions es fs) := by
  refine ⟨separated_coalesce sortedFst_pairs, fun r hr => ?_, fun r hr => ?_, ?_, ?_⟩
  · obtain ⟨chain, h, -⟩ := exists_isUnion_of_region hr
    exact h.nonempty
  · obtain ⟨chain, h, hsub⟩ := exists_isUnion_of_region hr
    obtain ⟨p, hp, -, h2⟩ := h.ends
    obtain ⟨e, he, f, hf, ho, rfl⟩ := mem_overlappingPairs.mp (hsub p (mem_of_mem_head? hp))
    rw [← h2]
    exact max_le (hes.stop_le e he) (hfs.stop_le f hf)
  · intro e he f hf ho
    obtain ⟨r, hr, h1, h2⟩ := exists_region he hf ho
    rw [le_min_iff] at h1
    rw [max_le_iff] at h2
    exact ⟨r, hr, ⟨h1.1, h2.1⟩, h1.2, h2.2⟩
  · intro r hr x h1 h2
    obtain ⟨chain, h, hsub⟩ := exists_isUnion_of_region hr
    obtain ⟨p, hp, hx1, hx2⟩ := (h.union x).mp ⟨h1, h2⟩
    obtain ⟨e, he, f, hf, ho, rfl⟩ := mem_overlappingPairs.mp (hsub p hp)
    refine ⟨e, he, f, hf, ho, ?_⟩
    have := ho.1
    have := ho.2
    grind

namespace ConflictRegions

section
variable (h : ConflictRegions n es fs rs)
include h

theorem symm : ConflictRegions n fs es rs where
  separated := h.separated
  nonempty := h.nonempty
  bounded := h.bounded
  covers f hf e he ho := by
    obtain ⟨r, hr, h1, h2⟩ := h.covers e he f hf ho.symm
    exact ⟨r, hr, h2, h1⟩
  covered r hr x h1 h2 := by
    obtain ⟨e, he, f, hf, ho, hx⟩ := h.covered r hr x h1 h2
    exact ⟨f, hf, e, he, ho.symm, hx.symm⟩

theorem eq_or_separated (hr : r ∈ rs) (hr' : r' ∈ rs) : r = r' ∨ r.2 < r'.1 ∨ r'.2 < r.1 := by
  refine List.Pairwise.forall_of_forall_of_flip (R := fun r r' : Nat × Nat => r = r' ∨ r.2 < r'.1 ∨
    r'.2 < r.1) (fun _ _ => .inl rfl) ?_ ?_ hr hr'
  · exact h.separated.imp fun h => .inr (.inl h)
  · exact h.separated.imp fun h => .inr (.inr h)

section
variable (ho : OrderedEdits n es)
include ho

/-- A region that shares a line with an edit encloses it, and the edit is in conflict. -/
theorem encloses (he : e ∈ es)
    (hr : r ∈ rs) (h1 : r.1 ≤ x) (h2 : x < r.2) (h3 : e.start ≤ x) (h4 : x < e.stop) :
    (r.1 ≤ e.start ∧ e.stop ≤ r.2) ∧ ∃ f ∈ fs, e.Overlaps f := by
  -- the line lies in an edit of one of the two lists: `e` itself or one that overlaps `e`
  obtain ⟨f, hf, hov⟩ : ∃ f ∈ fs, e.Overlaps f := by
    obtain ⟨e', he', f, hf, hov, hx | hx⟩ := h.covered r hr x h1 h2
    · obtain rfl := ho.eq_of_mem_range he he' h3 h4 hx.1 hx.2
      exact ⟨f, hf, hov⟩
    · exact ⟨f, hf, by omega, by omega⟩
  obtain ⟨r', hr', hr'e, -⟩ := h.covers e he f hf hov
  obtain rfl : r = r' := by
    rcases h.eq_or_separated hr hr' with heq | hlt | hlt
    · exact heq
    · omega
    · omega
  exact ⟨hr'e, f, hf, hov⟩

/-- An edit that starts in a region ends in it. -/
theorem stop_le (he : e ∈ es)
    (hr : r ∈ rs) (h1 : r.1 ≤ e.start) (h2 : e.start < r.2) : e.stop ≤ r.2 := by
  rcases (ho.start_le e he).eq_or_lt with heq | hlt
  · omega
  · exact (h.encloses ho he hr h1 h2 le_rfl hlt).1.2

/-- An edit that starts before a region ends before it, unless the region encloses it. -/
theorem stop_le_of_start_lt (he : e ∈ es) (hr : r ∈ rs) (h1 : e.start < r.1) : e.stop ≤ r.1 := by
  by_contra hlt
  have := (h.encloses ho he hr le_rfl (h.nonempty r hr) h1.le (by omega)).1.1
  omega

end

end

/-- Writing a side of a region never slices out of range. -/
theorem exists_buildSide (h : ConflictRegions base.length es fs rs)
    (ho : OrderedEdits base.length es) (hr : r ∈ rs) : ∃ s, buildSide base es r.1 r.2 = some s := by
  unfold buildSide
  split
  next e hfind =>
    have he := mem_of_find?_eq_some hfind
    have hin : r.1 ≤ e.start ∧ e.start < r.2 := by simpa using find?_some hfind
    have hstop := h.stop_le ho he hr hin.1 hin.2
    have hb := h.bounded r hr
    rw [slice_isSome hin.1 (by omega), slice_isSome hstop hb]
    exact ⟨_, rfl⟩
  · rw [slice_isSome (h.nonempty r hr).le (h.bounded r hr)]
    exact ⟨_, rfl⟩

end ConflictRegions

end Syncthing
